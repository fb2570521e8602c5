/- The keys that a set hands to the tree, and the entry that the sets of one prefix share. -/

import Nebase.Net.Radix.Effects

set_option autoImplicit false
set_option relaxedAutoImplicit false

namespace Nebase.Net.Radix

open Nebase.Foundation

/-- What the tree expects of a key and its mask for a prefix of `n` bits; the bytes from the head
offset to the key length are the ones it compares. -/
structure KeyOk (f : Family) (n : Nat) (key mask : Sockaddr) : Prop where
  masked : ∀ i, (comparedBytes f.addrOffset key).getD i 0 &&&
    (comparedBytes f.addrOffset mask).getD i 0 = (comparedBytes f.addrOffset key).getD i 0
  ones : ∀ i, bit (comparedBytes f.addrOffset mask) i = decide (i < n)
  keyLength : key.getD 0 0 = UInt8.ofNat f.keyLen
  maskLength : mask.getD 0 0 = UInt8.ofNat f.keyLen

section Keys

variable {H : Type} {ops : RnOps H} {bigEndian : Bool} {f : Family} {routes : H → Routes}
variable {rt rt' : NebNetRadixTree H} {v : Sockaddr}

theorem length_sinAddr (size : v.length = f.sockaddrSize) : (sinAddr f v).length = f.addrSize := by
  unfold sinAddr
  rw [List.length_take, List.length_drop, size]
  cases f <;> rfl

private theorem NewEntry.key_ok_iff {network netmask : Sockaddr}
    (new : NewEntry bigEndian f v network netmask) :
    KeyOk f (sinPort bigEndian v) network netmask ↔ HostBitsClear bigEndian f v := by
  have hones : ∀ i, bit (comparedBytes f.addrOffset netmask) i =
      decide (i < sinPort bigEndian v) := by
    intro i
    rw [new.mask, prefix_mask_bit f new.below.le]
  have hmasked := and_eq_self_iff (comparedBytes f.addrOffset network)
    (comparedBytes f.addrOffset netmask)
  constructor
  · intro ok i hi
    by_contra hbit
    rw [Bool.not_eq_false, ← new.key] at hbit
    have hone := hmasked.mp ok.masked i hbit
    rw [hones, decide_eq_true_eq] at hone
    omega
  · intro clear
    refine ⟨hmasked.mpr (fun i hi => ?_), hones, new.keyLength, new.maskLength⟩
    rw [hones, decide_eq_true_eq]
    by_contra hge
    rw [new.key, clear i (by omega)] at hi
    cases hi
/-- A set without host bits gives its data to the entry that its route leads to. -/
private theorem SetEffect.entry (laws : RnKeyLaws ops f.addrOffset routes)
    (all : AllPrefixes routes rt) {allocs : Allocs} {data : Int}
    (effect : SetEffect ops bigEndian f allocs v data rt 0 rt')
    (clear : HostBitsClear bigEndian f v) :
    sinPort bigEndian v < 8 * f.addrSize ∧
      ∃ e, routes rt'.rnh (sinAddr f v) (prefixMask f (sinPort bigEndian v)) = some e ∧
        ∃ rte, rt'.entries e = some rte ∧ rte.udata = data := by
  cases effect with
  | linked addr network netmask rnh hf hentry made new add =>
    obtain ⟨-, hroutes⟩ := laws.addroute_new _ _ _ _ _ add
    rw [new.key, new.mask] at hroutes
    refine ⟨new.below, addr, ?_, _, Function.update_self .., rfl⟩
    rw [hroutes, Routes.set_self]
  | reset addr network netmask x old made new add lookup found =>
    have hroute := laws.lookup_prefix network netmask rt.rnh x all
      (by rw [new.key, new.mask]; exact new.is_prefix clear) lookup
    rw [new.key, new.mask] at hroute
    exact ⟨new.below, x, hroute, _, Function.update_self .., rfl⟩

/-- A set of a network that has a route resets the entry of that route. -/
private theorem SetEffect.resets (laws : RnKeyLaws ops f.addrOffset routes) {allocs : Allocs}
    {data : Int} (effect : SetEffect ops bigEndian f allocs v data rt 0 rt') {e : EntryAddr}
    (route : routes rt.rnh (sinAddr f v) (prefixMask f (sinPort bigEndian v)) = some e) :
    ∃ old, rt.entries e = some old ∧ rt' = { rt with
      entries := Function.update rt.entries e (some { old with udata := data, refRt := true })
      deleted := if rt.onDel then old.udata :: rt.deleted else rt.deleted } := by
  cases effect with
  | linked addr network netmask rnh hf hentry made new add =>
    obtain ⟨hnone, -⟩ := laws.addroute_new _ _ _ _ _ add
    rw [new.key, new.mask, route] at hnone
    cases hnone
  | reset addr network netmask x old made new add lookup found =>
    have hlookup := laws.lookup_stored network netmask rt.rnh e
      (by rw [new.key, new.mask]; exact route)
    obtain rfl := Option.some.inj (lookup.symm.trans hlookup)
    exact ⟨old, found, rfl⟩

private theorem SetEffect.key_ok_iff {allocs : Allocs} {data : Int}
    (effect : SetEffect ops bigEndian f allocs v data rt 0 rt') :
    ∃ addr rte, nebNetRadixEntryNew bigEndian allocs v = some (some (addr, rte)) ∧
      (KeyOk f (sinPort bigEndian v) rte.network rte.netmask ↔ HostBitsClear bigEndian f v) := by
  cases effect with
  | linked addr network netmask rnh hf hentry made new add =>
    exact ⟨addr, _, made, new.key_ok_iff⟩
  | reset addr network netmask x old made new add lookup found =>
    exact ⟨addr, _, made, new.key_ok_iff⟩

/-- Two networks without host bits that agree on the bits of one prefix are the same. -/
private theorem sin_addr_unique {v' : Sockaddr} (size : v.length = f.sockaddrSize)
    (size' : v'.length = f.sockaddrSize) (clear : HostBitsClear bigEndian f v)
    (clear' : HostBitsClear bigEndian f v') (port : sinPort bigEndian v' = sinPort bigEndian v)
    (same : Contains (sinPort bigEndian v) (sinAddr f v) (sinAddr f v')) :
    sinAddr f v' = sinAddr f v := by
  refine eq_of_bits (by rw [length_sinAddr size, length_sinAddr size']) (fun i => ?_)
  by_cases hi : i < sinPort bigEndian v
  · exact same i hi
  · rw [clear i (by omega), clear' i (by omega)]

end Keys

/-- The key and the mask that an accepted set hands to the tree are as the tree expects them exactly
when the address has no host bits. Where no set of the run has any, the sets of one prefix share
their entry, up to an unset of it, and each set resets it. -/
theorem nebNetRadixTreeSet_keys_iff {H : Type} (ops : RnOps H) (f : Family) (onDel : Bool)
    (routes : H → Routes) (laws : RnKeyLaws ops f.addrOffset routes) (bigEndian : Bool)
    (calls : List Call) (rt : NebNetRadixTree H)
    (reached : Machine.run (step ops bigEndian) (nebNetRadixTreeCreate ops f onDel) calls = some rt)
    (whole : ∀ c ∈ calls, c.Whole bigEndian f) (allocs : Allocs) (v : Sockaddr) (data : Int)
    (rt1 : NebNetRadixTree H) (size : v.length = f.sockaddrSize)
    (fresh : ∀ addr ∈ allocs.entry, rt.entries addr = none)
    (accepted : nebNetRadixTreeSet ops bigEndian allocs v data rt = some (0, rt1)) :
    (∃ addr rte, nebNetRadixEntryNew bigEndian allocs v = some (some (addr, rte)) ∧
      (KeyOk f (sinPort bigEndian v) rte.network rte.netmask ↔ HostBitsClear bigEndian f v)) ∧
    ((∀ c ∈ calls, c.Clear bigEndian f) → HostBitsClear bigEndian f v →
      ∃ e, (∃ rte, rt1.entries e = some rte ∧ rte.udata = data) ∧
        ∀ later rt2, Machine.run (step ops bigEndian) rt1 later = some rt2 →
          (∀ c ∈ later, c.Whole bigEndian f ∧
            c.Spares bigEndian f (sinPort bigEndian v) (sinAddr f v)) →
          ∀ allocs' v' data' rt3, v'.length = f.sockaddrSize → HostBitsClear bigEndian f v' →
            sinPort bigEndian v' = sinPort bigEndian v →
            Contains (sinPort bigEndian v) (sinAddr f v) (sinAddr f v') →
            nebNetRadixTreeSet ops bigEndian allocs' v' data' rt2 = some (0, rt3) →
            ∃ old, rt2.entries e = some old ∧ rt3 = { rt2 with
              entries := Function.update rt2.entries e
                (some { old with udata := data', refRt := true })
              deleted := if rt2.onDel then old.udata :: rt2.deleted else rt2.deleted }) := by
  have create : Linked bigEndian f routes (nebNetRadixTreeCreate ops f onDel) :=
    Linked.create laws onDel
  have linked := create.ofRun laws whole reached
  have effect := set_effect linked.family (fun _ => size) accepted
  refine ⟨effect.key_ok_iff, fun clears clear => ?_⟩
  have empty : AllPrefixes routes (nebNetRadixTreeCreate ops f onDel) :=
    fun k m hroute => absurd (laws.inithead k m) hroute
  have all := empty.ofRun laws create (fun c hc => ⟨whole c hc, clears c hc⟩) reached
  obtain ⟨below, e, route, stored⟩ := effect.entry laws all clear
  refine ⟨e, stored, ?_⟩
  intro later rt2 hlater spared allocs' v' data' rt3 size' clear' port same accepted'
  have hstep : step ops bigEndian rt (.set allocs v data) = some rt1 := by
    have hfree : allocs.entry.all (fun a => (rt.entries a).isNone) = true := by
      rw [Option.all_eq_true]
      intro addr haddr
      rw [fresh addr haddr]
      rfl
    simp only [step, if_pos hfree, accepted, Option.map_some]
  have hwhole : (Call.set allocs v data).Whole bigEndian f := fun _ => size
  have linked1 := linked.ofStep laws hwhole hstep
  obtain ⟨family, hroute⟩ := linked1.route_stays_run laws below route spared hlater
  have effect' := set_effect family (fun _ => size') accepted'
  refine effect'.resets laws ?_
  rw [sin_addr_unique size size' clear clear' port same, port]
  exact hroute

/-- `x.y.0.0/n` as an address of the calls. -/
private def net (n x y : UInt8) : Sockaddr := [2, 0, n, 0, x, y, 0, 0, 0, 0, 0, 0, 0, 0, 0, 0]

private theorem ten_clear : HostBitsClear false .inet (net 8 10 0) := by
  intro i hi
  by_cases hlt : i < 32
  · have hall : ∀ j < 32, sinPort false (net 8 10 0) ≤ j →
        bit (sinAddr .inet (net 8 10 0)) j = false := by decide
    exact hall i hlt hi
  · exact bit_beyond (Nat.not_lt.mp hlt)

private theorem lan_clear : HostBitsClear false .inet (net 16 192 168) := by
  intro i hi
  by_cases hlt : i < 32
  · have hall : ∀ j < 32, sinPort false (net 16 192 168) ≤ j →
        bit (sinAddr .inet (net 16 192 168)) j = false := by decide
    exact hall i hlt hi
  · exact bit_beyond (Nat.not_lt.mp hlt)

/-- 10.0.0.0/8 in a tree with 192.168.0.0/16, and a second time after 10.1.0.0/16: its key is as the
tree expects it, and the second set resets the entry of the first. -/
theorem nebNetRadixTreeSet_keys_iff_net :
    (∃ addr rte, nebNetRadixEntryNew false ⟨some 2, true, true⟩ (net 8 10 0) =
        some (some (addr, rte)) ∧ KeyOk .inet 8 rte.network rte.netmask) ∧
    ∃ e rt rt1 rt2 rt3 old,
      Machine.run (step (listOps 4) false) (nebNetRadixTreeCreate (listOps 4) .inet true)
        [.set ⟨some 1, true, true⟩ (net 16 192 168) 5] = some rt ∧
      nebNetRadixTreeSet (listOps 4) false ⟨some 2, true, true⟩ (net 8 10 0) 7 rt =
        some (0, rt1) ∧
      Machine.run (step (listOps 4) false) rt1
        [.set ⟨some 3, true, true⟩ (net 16 10 1) 6] = some rt2 ∧
      nebNetRadixTreeSet (listOps 4) false ⟨some 4, true, true⟩ (net 8 10 0) 9 rt2 =
        some (0, rt3) ∧
      rt2.entries e = some old ∧
      rt3.entries = Function.update rt2.entries e (some { old with udata := 9, refRt := true }) ∧
      rt3.deleted = old.udata :: rt2.deleted := by
  have whole : ∀ c ∈ [Call.set ⟨some 1, true, true⟩ (net 16 192 168) 5],
      c.Whole false .inet := by
    intro c hc
    obtain rfl := List.mem_singleton.mp hc
    exact fun _ => rfl
  have clear : ∀ c ∈ [Call.set ⟨some 1, true, true⟩ (net 16 192 168) 5],
      c.Clear false .inet := by
    intro c hc
    obtain rfl := List.mem_singleton.mp hc
    exact fun _ => lan_clear
  have spared : ∀ c ∈ [Call.set ⟨some 3, true, true⟩ (net 16 10 1) 6], c.Whole false .inet ∧
      c.Spares false .inet (sinPort false (net 8 10 0)) (sinAddr .inet (net 8 10 0)) := by
    intro c hc
    obtain rfl := List.mem_singleton.mp hc
    exact ⟨fun _ => rfl, trivial⟩
  obtain ⟨⟨addr, rte, made, ok⟩, shared⟩ :=
    nebNetRadixTreeSet_keys_iff (listOps 4) .inet true listRoutes (list_laws 4).keys false
      [.set ⟨some 1, true, true⟩ (net 16 192 168) 5] _ rfl whole ⟨some 2, true, true⟩
      (net 8 10 0) 7 _ rfl (fun a ha => by cases ha; rfl) rfl
  obtain ⟨e, -, second⟩ := shared clear ten_clear
  obtain ⟨old, found, reset⟩ := second [.set ⟨some 3, true, true⟩ (net 16 10 1) 6] _ rfl spared
    ⟨some 4, true, true⟩ (net 8 10 0) 9 _ rfl ten_clear rfl (fun _ _ => rfl) rfl
  exact ⟨⟨addr, rte, made, ok.mpr ten_clear⟩, e, _, _, _, _, old, rfl, rfl, rfl, rfl, found,
    congrArg (·.entries) reset, congrArg (·.deleted) reset⟩

/-- 10.0.0.1/8 is handed over with its host bits, and 10.0.0.2/8 gets an entry of its own. -/
theorem nebNetRadixTreeSet_host_bits :
    (∃ addr rte, nebNetRadixEntryNew false ⟨some 1, true, true⟩
        [2, 0, 8, 0, 10, 0, 0, 1, 0, 0, 0, 0, 0, 0, 0, 0] = some (some (addr, rte)) ∧
      ¬ KeyOk .inet 8 rte.network rte.netmask) ∧
    ((Machine.run (step (listOps 4) false) (nebNetRadixTreeCreate (listOps 4) .inet true)
        [.set ⟨some 1, true, true⟩ [2, 0, 8, 0, 10, 0, 0, 1, 0, 0, 0, 0, 0, 0, 0, 0] 7,
          .set ⟨some 2, true, true⟩ [2, 0, 8, 0, 10, 0, 0, 2, 0, 0, 0, 0, 0, 0, 0, 0] 9]).map
      (fun rt => ((rt.entries 1).map (·.udata), (rt.entries 2).map (·.udata), rt.deleted))) =
      some (some 7, some 9, []) := by
  refine ⟨⟨1, _, rfl, fun ok => ?_⟩, rfl⟩
  have hmasked := ok.masked 3
  revert hmasked
  decide

end Nebase.Net.Radix
