/- What the sets and unsets of a history do to the routes of the tree. -/

import Nebase.Net.Radix.Lpm

set_option autoImplicit false
set_option relaxedAutoImplicit false

namespace Nebase.Net.Radix

open Nebase.Foundation

/-- The address has no bits beyond its prefix. -/
def HostBitsClear (bigEndian : Bool) (f : Family) (v : Sockaddr) : Prop :=
  ∀ i, sinPort bigEndian v ≤ i → bit (sinAddr f v) i = false

section Effects

variable {H : Type} {ops : RnOps H} {bigEndian : Bool} {f : Family} {routes : H → Routes}
variable {rt rt' : NebNetRadixTree H} {v : Sockaddr}

theorem NewEntry.is_prefix {network netmask : Sockaddr}
    (new : NewEntry bigEndian f v network netmask) (clear : HostBitsClear bigEndian f v) :
    IsPrefix (sinAddr f v) (prefixMask f (sinPort bigEndian v)) :=
  ⟨sinPort bigEndian v, prefix_mask_bit f new.below.le, clear⟩

/-! What the calls do to the routes. -/

/-- The effects a set can have: it fails, links its new entry, or gives its data to an entry that
the lookup finds. -/
inductive SetEffect (ops : RnOps H) (bigEndian : Bool) (f : Family) (allocs : Allocs) (v : Sockaddr)
    (data : Int) (rt : NebNetRadixTree H) : Int → NebNetRadixTree H → Prop
  | failed : SetEffect ops bigEndian f allocs v data rt (-1) rt
  | linked (addr : EntryAddr) (network netmask : Sockaddr) (rnh : H)
      (ofFamily : saFamily bigEndian v = some f) (entry : allocs.entry = some addr)
      (made : nebNetRadixEntryNew bigEndian allocs v =
        some (some (addr, ⟨false, network, netmask, 0⟩)))
      (new : NewEntry bigEndian f v network netmask)
      (add : ops.addroute network netmask rt.rnh addr = some rnh) :
      SetEffect ops bigEndian f allocs v data rt 0 { rt with
        rnh := rnh
        entries := Function.update rt.entries addr (some ⟨true, network, netmask, data⟩) }
  | reset (addr : EntryAddr) (network netmask : Sockaddr) (x : EntryAddr) (old : NebNetRadixEntry)
      (made : nebNetRadixEntryNew bigEndian allocs v =
        some (some (addr, ⟨false, network, netmask, 0⟩)))
      (new : NewEntry bigEndian f v network netmask)
      (add : ops.addroute network netmask rt.rnh addr = none)
      (lookup : ops.lookup network netmask rt.rnh = some x) (found : rt.entries x = some old) :
      SetEffect ops bigEndian f allocs v data rt 0 { rt with
        entries := Function.update rt.entries x (some { old with udata := data, refRt := true })
        deleted := if rt.onDel then old.udata :: rt.deleted else rt.deleted }

theorem set_effect (family : rt.family = f)
    (whole : saFamily bigEndian v = some f → v.length = f.sockaddrSize) {allocs : Allocs}
    {data r : Int} (h : nebNetRadixTreeSet ops bigEndian allocs v data rt = some (r, rt')) :
    SetEffect ops bigEndian f allocs v data rt r rt' := by
  unfold nebNetRadixTreeSet at h
  by_cases hfam : some rt.family ≠ saFamily bigEndian v
  · rw [if_pos hfam] at h
    obtain ⟨rfl, rfl⟩ := Prod.mk.inj (Option.some.inj h)
    exact .failed
  by_cases hdata : data = 0
  · rw [if_neg hfam, if_pos hdata] at h
    obtain ⟨rfl, rfl⟩ := Prod.mk.inj (Option.some.inj h)
    exact .failed
  rw [if_neg hfam, if_neg hdata] at h
  have hf : saFamily bigEndian v = some f := by rw [← not_ne_iff.mp hfam, family]
  rcases entry_new_cases (whole hf) hf allocs with ⟨hnew, -⟩ |
    ⟨addr, network, netmask, hentry, hnew, new⟩
  · rw [hnew] at h
    obtain ⟨rfl, rfl⟩ := Prod.mk.inj (Option.some.inj h)
    exact .failed
  rw [hnew] at h
  simp only at h
  cases hadd : ops.addroute network netmask rt.rnh addr with
  | some rnh =>
    rw [hadd] at h
    obtain ⟨rfl, rfl⟩ := Prod.mk.inj (Option.some.inj h)
    exact .linked addr network netmask rnh hf hentry hnew new hadd
  | none =>
    rw [hadd] at h
    cases hlookup : ops.lookup network netmask rt.rnh with
    | none =>
      simp only [hlookup] at h
      obtain ⟨rfl, rfl⟩ := Prod.mk.inj (Option.some.inj h)
      exact .failed
    | some x =>
      cases hfound : rt.entries x with
      | none => simp [hlookup, hfound] at h
      | some old =>
        simp only [hlookup, hfound] at h
        obtain ⟨rfl, rfl⟩ := Prod.mk.inj (Option.some.inj h)
        exact .reset addr network netmask x old hnew new hadd hlookup hfound

/-- The effects an unset can have, with the caller's address afterwards. -/
inductive UnsetEffect (bigEndian : Bool) (f : Family) (routes : H → Routes) (calloc : Bool)
    (v : Sockaddr) (rt : NebNetRadixTree H) : Option (Sockaddr × NebNetRadixTree H) → Prop
  | overrun (alloc : calloc = true)
      (beyond : 8 * (f.sockaddrSize - f.addrOffset) < sinPort bigEndian v) :
      UnsetEffect bigEndian f routes calloc v rt none
  | kept (fits : calloc = false ∨ sinPort bigEndian v ≤ 8 * (f.sockaddrSize - f.addrOffset)) :
      UnsetEffect bigEndian f routes calloc v rt (some (v, rt))
  | removed (x : EntryAddr) (rnh : H)
      (fits : sinPort bigEndian v ≤ 8 * (f.sockaddrSize - f.addrOffset))
      (route : routes rt.rnh (sinAddr f v) (prefixMask f (sinPort bigEndian v)) = some x)
      (routes' : routes rnh =
        (routes rt.rnh).set (sinAddr f v) (prefixMask f (sinPort bigEndian v)) none) :
      UnsetEffect bigEndian f routes calloc v rt
        (some (v, nebNetRadixEntryDel x { rt with rnh := rnh }))

theorem entry_del_family (x : EntryAddr) (rt : NebNetRadixTree H) :
    (nebNetRadixEntryDel x rt).family = rt.family := by
  unfold nebNetRadixEntryDel
  split <;> rfl

theorem entry_del_rnh (x : EntryAddr) (rt : NebNetRadixTree H) :
    (nebNetRadixEntryDel x rt).rnh = rt.rnh := by
  unfold nebNetRadixEntryDel
  split <;> rfl

theorem entry_del_of_ne {e x : EntryAddr} (h : e ≠ x) (rt : NebNetRadixTree H) :
    (nebNetRadixEntryDel x rt).entries e = rt.entries e := by
  unfold nebNetRadixEntryDel
  split
  · rfl
  · exact Function.update_of_ne h _ _

theorem unset_effect (laws : RnKeyLaws ops f.addrOffset routes) (family : rt.family = f)
    (hf : saFamily bigEndian v = some f) (size : v.length = f.sockaddrSize) (calloc : Bool) :
    UnsetEffect bigEndian f routes calloc v rt
      (nebNetRadixTreeUnset ops bigEndian calloc v rt) := by
  have hfamily : ¬ some f ≠ saFamily bigEndian v := by simp [hf]
  obtain ⟨hrestore, hport, hkey, hfirst⟩ := key_of_sockaddr bigEndian size
  cases calloc with
  | false =>
    have hunset : nebNetRadixTreeUnset ops bigEndian false v rt = some (v, rt) := by
      simp only [nebNetRadixTreeUnset, family, if_neg hfamily, rtGetNetmask, Bool.false_eq_true,
        if_false, Option.map_some, hrestore]
    rw [hunset]
    exact .kept (.inl rfl)
  | true =>
    by_cases hbeyond : 8 * (f.sockaddrSize - f.addrOffset) < sinPort bigEndian v
    · have hmask := (rt_get_netmask_none_iff bigEndian f (v.set 0 (UInt8.ofNat f.keyLen))).mpr
        (by rwa [hport])
      have hunset : nebNetRadixTreeUnset ops bigEndian true v rt = none := by
        simp only [nebNetRadixTreeUnset, family, if_neg hfamily, hmask, Option.map_none]
      rw [hunset]
      exact .overrun rfl hbeyond
    obtain ⟨netmask, hmask, -, hcompared⟩ := rt_get_netmask_spec bigEndian f hfirst
      (by rw [hport]; exact not_lt.mp hbeyond)
    cases hdel : ops.delete (v.set 0 (UInt8.ofNat f.keyLen)) netmask rt.rnh with
    | none =>
      have hunset : nebNetRadixTreeUnset ops bigEndian true v rt = some (v, rt) := by
        simp only [nebNetRadixTreeUnset, family, if_neg hfamily, hmask, Option.map_some, hdel,
          hrestore]
      rw [hunset]
      exact .kept (.inr (not_lt.mp hbeyond))
    | some deleted =>
      obtain ⟨x, rnh⟩ := deleted
      have hunset : nebNetRadixTreeUnset ops bigEndian true v rt =
          some (v, nebNetRadixEntryDel x { rt with rnh := rnh }) := by
        simp only [nebNetRadixTreeUnset, family, if_neg hfamily, hmask, Option.map_some, hdel,
          hrestore]
      obtain ⟨hroute, hroutes⟩ := laws.delete_stored _ _ _ _ _ hdel
      rw [hkey, hcompared, hport] at hroute hroutes
      rw [hunset]
      exact .removed x rnh (not_lt.mp hbeyond) hroute hroutes

/-! Runs. -/

/-- A call on an address of the family is given a whole one. -/
def Call.Whole (bigEndian : Bool) (f : Family) (c : Call) : Prop :=
  saFamily bigEndian c.netaddr = some f → c.netaddr.length = f.sockaddrSize

/-- A set for the family is given a network without host bits. -/
def Call.Clear (bigEndian : Bool) (f : Family) : Call → Prop
  | .set _ v _ => saFamily bigEndian v = some f → HostBitsClear bigEndian f v
  | .unset _ _ => True

/-- The call does not unset the network `a` with a prefix of `n` bits. -/
def Call.Spares (bigEndian : Bool) (f : Family) (n : Nat) (a : List UInt8) : Call → Prop
  | .set _ _ _ => True
  | .unset _ v => saFamily bigEndian v = some f → ¬ (sinPort bigEndian v = n ∧ sinAddr f v = a)

/-- What a call does to the routes of the tree and to its entries' networks. -/
inductive StepEffect (bigEndian : Bool) (f : Family) (routes : H → Routes)
    (rt : NebNetRadixTree H) : Call → NebNetRadixTree H → Prop
  | kept (c : Call) (rt' : NebNetRadixTree H) (family : rt'.family = rt.family)
      (routes' : routes rt'.rnh = routes rt.rnh)
      (networks : ∀ e, (rt'.entries e).map (·.network) = (rt.entries e).map (·.network)) :
      StepEffect bigEndian f routes rt c rt'
  | linked (allocs : Allocs) (v : Sockaddr) (data : Int) (rt' : NebNetRadixTree H)
      (addr : EntryAddr) (network netmask : Sockaddr) (ofFamily : saFamily bigEndian v = some f)
      (family : rt'.family = rt.family) (free : rt.entries addr = none)
      (new : NewEntry bigEndian f v network netmask)
      (unrouted : routes rt.rnh (sinAddr f v) (prefixMask f (sinPort bigEndian v)) = none)
      (routes' : routes rt'.rnh =
        (routes rt.rnh).set (sinAddr f v) (prefixMask f (sinPort bigEndian v)) (some addr))
      (entries : rt'.entries =
        Function.update rt.entries addr (some ⟨true, network, netmask, data⟩)) :
      StepEffect bigEndian f routes rt (.set allocs v data) rt'
  | removed (calloc : Bool) (v : Sockaddr) (rt' : NebNetRadixTree H) (x : EntryAddr)
      (ofFamily : saFamily bigEndian v = some f) (family : rt'.family = rt.family)
      (fits : sinPort bigEndian v ≤ 8 * (f.sockaddrSize - f.addrOffset))
      (route : routes rt.rnh (sinAddr f v) (prefixMask f (sinPort bigEndian v)) = some x)
      (routes' : routes rt'.rnh =
        (routes rt.rnh).set (sinAddr f v) (prefixMask f (sinPort bigEndian v)) none)
      (entries : ∀ e, e ≠ x → rt'.entries e = rt.entries e) :
      StepEffect bigEndian f routes rt (.unset calloc v) rt'

theorem step_effect (laws : RnKeyLaws ops f.addrOffset routes) (family : rt.family = f) {c : Call}
    (whole : c.Whole bigEndian f) (h : step ops bigEndian rt c = some rt') :
    StepEffect bigEndian f routes rt c rt' := by
  cases c with
  | set allocs v data =>
    simp only [step] at h
    split_ifs at h with hfresh
    obtain ⟨⟨r, rt1⟩, hset, rfl⟩ := Option.map_eq_some_iff.mp h
    cases set_effect family whole hset with
    | failed => exact .kept _ _ rfl rfl (fun _ => rfl)
    | linked addr network netmask rnh hf hentry made new add =>
      have hfree : rt.entries addr = none := by simpa [hentry] using hfresh
      obtain ⟨hnone, hroutes⟩ := laws.addroute_new _ _ _ _ _ add
      rw [new.key, new.mask] at hnone hroutes
      exact .linked allocs v data _ addr network netmask hf rfl hfree new hnone hroutes rfl
    | reset addr network netmask x old made new add lookup found =>
      refine .kept _ _ rfl rfl (fun e => ?_)
      by_cases hx : e = x
      · rw [hx, found]
        simp
      · simp [Function.update_of_ne hx]
  | unset calloc v =>
    simp only [step] at h
    obtain ⟨⟨v', rt1⟩, hunset, rfl⟩ := Option.map_eq_some_iff.mp h
    by_cases hf : saFamily bigEndian v = some f
    swap
    · have hne : some rt.family ≠ saFamily bigEndian v := by
        rw [family]
        exact fun h => hf h.symm
      rw [nebNetRadixTreeUnset, if_pos hne] at hunset
      obtain ⟨-, rfl⟩ := Prod.mk.inj (Option.some.inj hunset)
      exact .kept _ _ rfl rfl (fun _ => rfl)
    have effect := unset_effect laws family hf (whole hf) calloc
    rw [hunset] at effect
    generalize hres : some (v', rt1) = res at effect
    cases effect with
    | overrun => cases hres
    | kept =>
      obtain ⟨-, rfl⟩ := Prod.mk.inj (Option.some.inj hres)
      exact .kept _ _ rfl rfl (fun _ => rfl)
    | removed x rnh fits route routes' =>
      obtain ⟨-, rfl⟩ := Prod.mk.inj (Option.some.inj hres)
      refine .removed calloc v _ x hf (entry_del_family x _) fits route ?_ ?_
      · rw [entry_del_rnh]
        exact routes'
      · exact fun e he => entry_del_of_ne he _

/-- Every route leads to an entry with its network, and its mask is that of the prefix. -/
structure Linked (bigEndian : Bool) (f : Family) (routes : H → Routes) (rt : NebNetRadixTree H) :
    Prop where
  family : rt.family = f
  entry : ∀ k m e, routes rt.rnh k m = some e → ∃ network, sinPort bigEndian network < 8 * f.addrSize ∧
    m = prefixMask f (sinPort bigEndian network) ∧ sinAddr f network = k ∧
    (rt.entries e).map (·.network) = some network

theorem Linked.create (laws : RnKeyLaws ops f.addrOffset routes) (onDel : Bool) :
    Linked bigEndian f routes (nebNetRadixTreeCreate ops f onDel) := by
  refine ⟨rfl, fun k m e he => ?_⟩
  change routes (ops.inithead (f.addrOffset <<< 3)) k m = some e at he
  rw [laws.inithead] at he
  cases he

/-- Two routes of one entry are the same route. -/
theorem Linked.route_unique (linked : Linked bigEndian f routes rt) {k k' m m' : List UInt8}
    {e : EntryAddr} (h : routes rt.rnh k m = some e) (h' : routes rt.rnh k' m' = some e) :
    k = k' ∧ m = m' := by
  obtain ⟨network, -, rfl, rfl, hnet⟩ := linked.entry k m e h
  obtain ⟨network', -, rfl, rfl, hnet'⟩ := linked.entry k' m' e h'
  obtain rfl := Option.some.inj (hnet.symm.trans hnet')
  exact ⟨rfl, rfl⟩

theorem Linked.ofStep (laws : RnKeyLaws ops f.addrOffset routes)
    (linked : Linked bigEndian f routes rt) {c : Call} (whole : c.Whole bigEndian f)
    (h : step ops bigEndian rt c = some rt') : Linked bigEndian f routes rt' := by
  cases step_effect laws linked.family whole h with
  | kept c rt' family routes' networks =>
    refine ⟨family.trans linked.family, fun k m e he => ?_⟩
    rw [routes'] at he
    rw [networks]
    exact linked.entry k m e he
  | linked allocs v data rt' addr network netmask hf family free new unrouted routes' entries =>
    refine ⟨family.trans linked.family, fun k m e he => ?_⟩
    rw [routes'] at he
    by_cases hkm : k = sinAddr f v ∧ m = prefixMask f (sinPort bigEndian v)
    · obtain ⟨rfl, rfl⟩ := hkm
      rw [Routes.set_self] at he
      obtain rfl := Option.some.inj he
      exact ⟨network, new.port ▸ new.below, by rw [new.port], new.addr, by simp [entries]⟩
    · rw [Routes.set_of_ne _ _ hkm] at he
      have hold := linked.entry k m e he
      have hne : e ≠ addr := by
        rintro rfl
        obtain ⟨_, -, -, -, hnone⟩ := hold
        rw [free] at hnone
        cases hnone
      rwa [entries, Function.update_of_ne hne]
  | removed calloc v rt' x hf family fits route routes' entries =>
    refine ⟨family.trans linked.family, fun k m e he => ?_⟩
    rw [routes'] at he
    by_cases hkm : k = sinAddr f v ∧ m = prefixMask f (sinPort bigEndian v)
    · obtain ⟨rfl, rfl⟩ := hkm
      rw [Routes.set_self] at he
      cases he
    · rw [Routes.set_of_ne _ _ hkm] at he
      have hne : e ≠ x := by
        rintro rfl
        exact hkm (linked.route_unique he route)
      rw [entries e hne]
      exact linked.entry k m e he

/-- All routes are prefixes without host bits. -/
def AllPrefixes (routes : H → Routes) (rt : NebNetRadixTree H) : Prop :=
  ∀ k m, routes rt.rnh k m ≠ none → IsPrefix k m

theorem AllPrefixes.ofStep (laws : RnKeyLaws ops f.addrOffset routes)
    (linked : Linked bigEndian f routes rt) (all : AllPrefixes routes rt) {c : Call}
    (whole : c.Whole bigEndian f) (clear : c.Clear bigEndian f)
    (h : step ops bigEndian rt c = some rt') : AllPrefixes routes rt' := by
  cases step_effect laws linked.family whole h with
  | kept c rt' family routes' networks =>
    intro k m hroute
    rw [routes'] at hroute
    exact all k m hroute
  | linked allocs v data rt' addr network netmask hf family free new unrouted routes' entries =>
    intro k m hroute
    rw [routes'] at hroute
    by_cases hkm : k = sinAddr f v ∧ m = prefixMask f (sinPort bigEndian v)
    · rw [hkm.1, hkm.2]
      exact new.is_prefix (clear hf)
    · rw [Routes.set_of_ne _ _ hkm] at hroute
      exact all k m hroute
  | removed calloc v rt' x hf family fits route routes' entries =>
    intro k m hroute
    rw [routes'] at hroute
    by_cases hkm : k = sinAddr f v ∧ m = prefixMask f (sinPort bigEndian v)
    · rw [hkm.1, hkm.2, Routes.set_self] at hroute
      exact absurd rfl hroute
    · rw [Routes.set_of_ne _ _ hkm] at hroute
      exact all k m hroute

/-- The mask of a prefix of the address is the mask of no other length. -/
theorem prefix_mask_unique {n n' : Nat} (hn : n < 8 * f.addrSize)
    (hn' : n' ≤ 8 * (f.sockaddrSize - f.addrOffset)) (h : prefixMask f n = prefixMask f n') :
    n = n' := by
  have hbits : ∀ i, i < n ↔ i < n' ∧ i < 8 * f.addrSize := by
    intro i
    have hbit := prefix_mask_bit f hn.le i
    rw [h, prefix_mask_bit_min f hn', decide_eq_decide] at hbit
    exact hbit.symm
  have hat := hbits n
  have hat' := hbits n'
  omega

/-- A route stays until its network is unset. -/
theorem Linked.route_stays (laws : RnKeyLaws ops f.addrOffset routes)
    (linked : Linked bigEndian f routes rt) {n : Nat} {a : List UInt8} {e : EntryAddr}
    (hn : n < 8 * f.addrSize) (route : routes rt.rnh a (prefixMask f n) = some e) {c : Call}
    (whole : c.Whole bigEndian f) (spares : c.Spares bigEndian f n a)
    (h : step ops bigEndian rt c = some rt') :
    routes rt'.rnh a (prefixMask f n) = some e := by
  cases step_effect laws linked.family whole h with
  | kept c rt' family routes' networks => rwa [routes']
  | linked allocs v data rt' addr network netmask hf family free new unrouted routes' entries =>
    rw [routes', Routes.set_of_ne, route]
    rintro ⟨rfl, hmask⟩
    rw [hmask, unrouted] at route
    cases route
  | removed calloc v rt' x hf family fits hroute routes' entries =>
    rw [routes', Routes.set_of_ne, route]
    rintro ⟨ha, hmask⟩
    exact spares hf ⟨(prefix_mask_unique hn fits hmask).symm, ha.symm⟩

theorem Linked.ofRun (laws : RnKeyLaws ops f.addrOffset routes)
    (linked : Linked bigEndian f routes rt) {calls : List Call}
    (whole : ∀ c ∈ calls, c.Whole bigEndian f)
    (h : Machine.run (step ops bigEndian) rt calls = some rt') : Linked bigEndian f routes rt' := by
  have hstep : ∀ s c t, Linked bigEndian f routes s → c.Whole bigEndian f →
      step ops bigEndian s c = some t → Linked bigEndian f routes t :=
    fun s c t inv hc ht => inv.ofStep laws hc ht
  exact Machine.invariant_run hstep linked (Machine.StepsMeet.of_labels whole rt) h

theorem AllPrefixes.ofRun (laws : RnKeyLaws ops f.addrOffset routes)
    (linked : Linked bigEndian f routes rt) (all : AllPrefixes routes rt) {calls : List Call}
    (meets : ∀ c ∈ calls, c.Whole bigEndian f ∧ c.Clear bigEndian f)
    (h : Machine.run (step ops bigEndian) rt calls = some rt') : AllPrefixes routes rt' := by
  have hstep : ∀ s c t, Linked bigEndian f routes s ∧ AllPrefixes routes s →
      c.Whole bigEndian f ∧ c.Clear bigEndian f → step ops bigEndian s c = some t →
      Linked bigEndian f routes t ∧ AllPrefixes routes t :=
    fun s c t inv hc ht => ⟨inv.1.ofStep laws hc.1 ht, inv.2.ofStep laws inv.1 hc.1 hc.2 ht⟩
  exact (Machine.invariant_run hstep ⟨linked, all⟩ (Machine.StepsMeet.of_labels meets rt) h).2

theorem Linked.route_stays_run (laws : RnKeyLaws ops f.addrOffset routes)
    (linked : Linked bigEndian f routes rt) {n : Nat} {a : List UInt8} {e : EntryAddr}
    (hn : n < 8 * f.addrSize) (route : routes rt.rnh a (prefixMask f n) = some e)
    {calls : List Call}
    (meets : ∀ c ∈ calls, c.Whole bigEndian f ∧ c.Spares bigEndian f n a)
    (h : Machine.run (step ops bigEndian) rt calls = some rt') :
    rt'.family = f ∧ routes rt'.rnh a (prefixMask f n) = some e := by
  have hstep : ∀ s c t,
      Linked bigEndian f routes s ∧ routes s.rnh a (prefixMask f n) = some e →
      c.Whole bigEndian f ∧ c.Spares bigEndian f n a → step ops bigEndian s c = some t →
      Linked bigEndian f routes t ∧ routes t.rnh a (prefixMask f n) = some e :=
    fun s c t inv hc ht =>
      ⟨inv.1.ofStep laws hc.1 ht, inv.1.route_stays laws hn inv.2 hc.1 hc.2 ht⟩
  obtain ⟨linked', route'⟩ := Machine.invariant_run hstep ⟨linked, route⟩
    (Machine.StepsMeet.of_labels meets rt) h
  exact ⟨linked'.family, route'⟩

end Effects

end Nebase.Net.Radix
