/- The tree refines a partial map from prefixes to data, and finds the longest prefix. -/

import Nebase.Net.Radix.Mask
import Nebase.Foundation.Machine

set_option autoImplicit false
set_option relaxedAutoImplicit false

namespace Nebase.Net.Radix

open Nebase.Foundation

/-- The data stored for each prefix: the length first, then the network address. -/
abbrev Stored := Nat → List UInt8 → Option Int

def Stored.put (m : Stored) (n : Nat) (a : List UInt8) (d : Option Int) : Stored :=
  fun n' a' => if n' = n ∧ a' = a then d else m n' a'

theorem Stored.put_self (m : Stored) (n : Nat) (a : List UInt8) (d : Option Int) :
    m.put n a d n a = d := by
  simp [Stored.put]

theorem Stored.put_of_ne (m : Stored) {n n' : Nat} {a a' : List UInt8} (d : Option Int)
    (h : ¬ (n' = n ∧ a' = a)) : m.put n a d n' a' = m n' a' := by
  simp [Stored.put, h]

/-- A socket address of the family that holds the network `a` with a prefix of `n` bits: the
prefix is below the address width and the host bits are zero. -/
structure IsNetwork (bigEndian : Bool) (f : Family) (v : Sockaddr) (n : Nat) (a : List UInt8) :
    Prop where
  size : v.length = f.sockaddrSize
  family : saFamily bigEndian v = some f
  port : sinPort bigEndian v = n
  addr : sinAddr f v = a
  below : n < 8 * f.addrSize
  host : ∀ i, n ≤ i → bit a i = false

/-- The calls that change a tree, with what their allocations return. -/
inductive Call
  | set (allocs : Allocs) (netaddr : Sockaddr) (data : Int)
  | unset (calloc : Bool) (netaddr : Sockaddr)

def Call.netaddr : Call → Sockaddr
  | .set _ netaddr _ => netaddr
  | .unset _ netaddr => netaddr

/-- What a call has done: stored data for a prefix, or removed a prefix. -/
inductive Event
  | stored (n : Nat) (a : List UInt8) (data : Int)
  | removed (n : Nat) (a : List UInt8)

def Stored.apply (m : Stored) : Event → Stored
  | .stored n a d => m.put n a (some d)
  | .removed n a => m.put n a none

/-- The map after a history, earliest event first. -/
def storedBy (es : List Event) : Stored := es.foldl Stored.apply (fun _ _ => none)

section Lpm

variable {H : Type} (ops : RnOps H) (bigEndian : Bool)

/-- `calloc` never returns the address of an entry in use. -/
def step (rt : NebNetRadixTree H) : Call → Option (NebNetRadixTree H)
  | .set allocs netaddr data =>
    if allocs.entry.all (fun a => (rt.entries a).isNone) then
      (nebNetRadixTreeSet ops bigEndian allocs netaddr data rt).map (·.2)
    else
      none
  | .unset calloc netaddr => (nebNetRadixTreeUnset ops bigEndian calloc netaddr rt).map (·.2)

/-- A set that returns 0 has stored its data; a call that could not allocate has done nothing. -/
def observe (rt : NebNetRadixTree H) : Call → List Event
  | .set allocs netaddr data =>
    match nebNetRadixTreeSet ops bigEndian allocs netaddr data rt with
    | some (r, _) =>
      if r = 0 then [.stored (sinPort bigEndian netaddr) (sinAddr rt.family netaddr) data] else []
    | none => []
  | .unset calloc netaddr =>
    if calloc then [.removed (sinPort bigEndian netaddr) (sinAddr rt.family netaddr)] else []

variable {ops bigEndian} {f : Family} {routes : H → Routes}

/-- A route of the tree and its entry. -/
structure EntryOk (bigEndian : Bool) (f : Family) (rte : NebNetRadixEntry) (n : Nat)
    (a : List UInt8) (d : Int) : Prop where
  port : sinPort bigEndian rte.network = n
  addr : sinAddr f rte.network = a
  size : rte.network.length = f.sockaddrSize
  data : rte.udata = d
  nonzero : d ≠ 0

structure Inv (bigEndian : Bool) (f : Family) (routes : H → Routes) (rt : NebNetRadixTree H)
    (m : Stored) : Prop where
  family : rt.family = f
  entry : ∀ k mask e, routes rt.rnh k mask = some e → ∃ n d rte, n < 8 * f.addrSize ∧
    mask = prefixMask f n ∧ m n k = some d ∧ rt.entries e = some rte ∧
    EntryOk bigEndian f rte n k d
  route : ∀ n k d, m n k = some d → n < 8 * f.addrSize ∧
    ∃ e, routes rt.rnh k (prefixMask f n) = some e

variable {rt rt' : NebNetRadixTree H} {m : Stored}

/-- Two routes of one entry are the same route. -/
private theorem Inv.entry_inj (inv : Inv bigEndian f routes rt m)
    {k k' mask mask' : List UInt8} {e : EntryAddr} (h : routes rt.rnh k mask = some e)
    (h' : routes rt.rnh k' mask' = some e) : k' = k ∧ mask' = mask := by
  obtain ⟨n, d, rte, -, rfl, -, he, hok⟩ := inv.entry k mask e h
  obtain ⟨n', d', rte', -, rfl, -, he', hok'⟩ := inv.entry k' mask' e h'
  obtain rfl := Option.some.inj (he.symm.trans he')
  refine ⟨hok'.addr.symm.trans hok.addr, ?_⟩
  rw [← hok.port, ← hok'.port]

/-- A new route whose entry describes it. -/
private theorem Inv.linked (inv : Inv bigEndian f routes rt m) {n : Nat} {a : List UInt8} {d : Int}
    {addr : EntryAddr} {rte : NebNetRadixEntry} {rnh : H} (below : n < 8 * f.addrSize)
    (hroutes : routes rnh = (routes rt.rnh).set a (prefixMask f n) (some addr))
    (unused : rt.entries addr = none) (hok : EntryOk bigEndian f rte n a d) :
    Inv bigEndian f routes { rt with
      rnh := rnh
      entries := Function.update rt.entries addr (some rte) } (m.put n a (some d)) where
  family := inv.family
  entry := by
    intro k mask e he
    change routes rnh k mask = some e at he
    rw [hroutes] at he
    by_cases hkm : k = a ∧ mask = prefixMask f n
    · obtain ⟨rfl, rfl⟩ := hkm
      rw [Routes.set_self] at he
      obtain rfl := Option.some.inj he
      exact ⟨n, d, rte, below, rfl, m.put_self _ _ _, Function.update_self .., hok⟩
    · rw [Routes.set_of_ne _ _ hkm] at he
      obtain ⟨n', d', rte', hn', rfl, hm, hrte, hok'⟩ := inv.entry k mask e he
      have hne : e ≠ addr := by
        rintro rfl
        rw [unused] at hrte
        cases hrte
      refine ⟨n', d', rte', hn', rfl, ?_, (Function.update_of_ne hne _ _).trans hrte, hok'⟩
      rw [Stored.put_of_ne _ _ (fun h => hkm ⟨h.2, by rw [h.1]⟩)]
      exact hm
  route := by
    intro n' k d' hm
    change n' < 8 * f.addrSize ∧ ∃ e, routes rnh k (prefixMask f n') = some e
    rw [hroutes]
    by_cases hnk : n' = n ∧ k = a
    · obtain ⟨rfl, rfl⟩ := hnk
      exact ⟨below, addr, Routes.set_self ..⟩
    · rw [Stored.put_of_ne _ _ hnk] at hm
      obtain ⟨hn', e, he⟩ := inv.route n' k d' hm
      refine ⟨hn', e, ?_⟩
      rw [Routes.set_of_ne _ _ (fun h => hnk
        ⟨prefix_mask_injective f hn'.le below.le h.2, h.1⟩), he]

/-- A route whose entry is given other data. -/
private theorem Inv.reset (inv : Inv bigEndian f routes rt m) {n : Nat} {a : List UInt8} {d : Int}
    {x : EntryAddr} {rte : NebNetRadixEntry} (below : n < 8 * f.addrSize)
    (hx : routes rt.rnh a (prefixMask f n) = some x) (hok : EntryOk bigEndian f rte n a d)
    (deleted : List Int) :
    Inv bigEndian f routes { rt with
      entries := Function.update rt.entries x (some rte)
      deleted := deleted } (m.put n a (some d)) where
  family := inv.family
  entry := by
    intro k mask e he
    change routes rt.rnh k mask = some e at he
    by_cases hex : e = x
    · subst hex
      obtain ⟨rfl, rfl⟩ := inv.entry_inj hx he
      exact ⟨n, d, rte, below, rfl, m.put_self _ _ _, Function.update_self .., hok⟩
    · obtain ⟨n', d', rte', hn', rfl, hm, hrte, hok'⟩ := inv.entry k mask e he
      refine ⟨n', d', rte', hn', rfl, ?_, (Function.update_of_ne hex _ _).trans hrte, hok'⟩
      rw [Stored.put_of_ne, hm]
      rintro ⟨rfl, rfl⟩
      exact hex (Option.some.inj (he.symm.trans hx))
  route := by
    intro n' k d' hm
    by_cases hnk : n' = n ∧ k = a
    · obtain ⟨rfl, rfl⟩ := hnk
      exact ⟨below, x, hx⟩
    · rw [Stored.put_of_ne _ _ hnk] at hm
      exact inv.route n' k d' hm

/-- There is no route to remove. -/
private theorem Inv.absent (inv : Inv bigEndian f routes rt m) {n : Nat} {a : List UInt8}
    (hx : routes rt.rnh a (prefixMask f n) = none) :
    Inv bigEndian f routes rt (m.put n a none) where
  family := inv.family
  entry := by
    intro k mask e he
    obtain ⟨n', d, rte, hn', rfl, hm, hrest⟩ := inv.entry k mask e he
    refine ⟨n', d, rte, hn', rfl, ?_, hrest⟩
    rw [Stored.put_of_ne, hm]
    rintro ⟨rfl, rfl⟩
    rw [hx] at he
    cases he
  route := by
    intro n' k d hm
    by_cases hnk : n' = n ∧ k = a
    · obtain ⟨rfl, rfl⟩ := hnk
      rw [Stored.put_self] at hm
      cases hm
    · rw [Stored.put_of_ne _ _ hnk] at hm
      exact inv.route n' k d hm

/-- A route is removed and its entry freed. -/
private theorem Inv.removed (inv : Inv bigEndian f routes rt m) {n : Nat} {a : List UInt8}
    {x : EntryAddr} {rnh : H} (below : n < 8 * f.addrSize)
    (hx : routes rt.rnh a (prefixMask f n) = some x)
    (hroutes : routes rnh = (routes rt.rnh).set a (prefixMask f n) none) :
    Inv bigEndian f routes (nebNetRadixEntryDel x { rt with rnh := rnh }) (m.put n a none) := by
  obtain ⟨-, -, old, -, -, -, hold, -⟩ := inv.entry a _ x hx
  refine ⟨?_, ?_, ?_⟩
  · simp [nebNetRadixEntryDel, hold, inv.family]
  · intro k mask e he
    have he' : routes rnh k mask = some e := by simpa [nebNetRadixEntryDel, hold] using he
    rw [hroutes] at he'
    by_cases hkm : k = a ∧ mask = prefixMask f n
    · obtain ⟨rfl, rfl⟩ := hkm
      rw [Routes.set_self] at he'
      cases he'
    · rw [Routes.set_of_ne _ _ hkm] at he'
      obtain ⟨n', d, rte, hn', rfl, hm, hrte, hok⟩ := inv.entry k mask e he'
      have hex : e ≠ x := by
        rintro rfl
        exact hkm (inv.entry_inj hx he')
      refine ⟨n', d, rte, hn', rfl, ?_, ?_, hok⟩
      · rw [Stored.put_of_ne _ _ (fun h => hkm ⟨h.2, by rw [h.1]⟩), hm]
      · simp [nebNetRadixEntryDel, hold, Function.update_of_ne hex, hrte]
  · intro n' k d hm
    by_cases hnk : n' = n ∧ k = a
    · obtain ⟨rfl, rfl⟩ := hnk
      rw [Stored.put_self] at hm
      cases hm
    · rw [Stored.put_of_ne _ _ hnk] at hm
      obtain ⟨hn', e, he⟩ := inv.route n' k d hm
      refine ⟨hn', e, ?_⟩
      simp only [nebNetRadixEntryDel, hold]
      rw [hroutes, Routes.set_of_ne _ _ (fun h => hnk
        ⟨prefix_mask_injective f hn'.le below.le h.2, h.1⟩), he]

/-- The effect of `neb_net_radix_tree_set` for a network. -/
private theorem Inv.set (laws : RnLaws ops f.addrOffset routes)
    (inv : Inv bigEndian f routes rt m) {v : Sockaddr} {n : Nat} {a : List UInt8}
    (net : IsNetwork bigEndian f v n a) (allocs : Allocs) (data : Int)
    (fresh : ∀ addr, allocs.entry = some addr → rt.entries addr = none) :
    nebNetRadixTreeSet ops bigEndian allocs v data rt = some (-1, rt) ∧
        ¬ (allocs.entry.isSome ∧ allocs.network = true ∧ allocs.netmask = true ∧ data ≠ 0 ∧
          m n a ≠ none) ∨
      ∃ rt', nebNetRadixTreeSet ops bigEndian allocs v data rt = some (0, rt') ∧
        Inv bigEndian f routes rt' (m.put n a (some data)) := by
  have hfamily : ¬ some rt.family ≠ saFamily bigEndian v := by
    rw [inv.family, net.family]
    simp
  by_cases hdata : data = 0
  · exact .inl ⟨by simp only [nebNetRadixTreeSet, if_neg hfamily, if_pos hdata], by simp [hdata]⟩
  rcases entry_new_cases net.size net.family allocs with ⟨hnew, hallocs⟩ |
    ⟨addr, network, netmask, hentry, hnew, new⟩
  · refine .inl ⟨by simp only [nebNetRadixTreeSet, if_neg hfamily, if_neg hdata, hnew], ?_⟩
    rw [net.port] at hallocs
    exact fun h => hallocs ⟨net.below, h.1, h.2.1, h.2.2.1⟩
  have hkey := new.key.trans net.addr
  have hmask := new.mask
  rw [net.port] at hmask
  cases hadd : ops.addroute network netmask rt.rnh addr with
  | some rnh =>
    obtain ⟨-, hroutes⟩ := laws.addroute_new network netmask rt.rnh addr rnh hadd
    rw [hkey, hmask] at hroutes
    -- the new entry describes the network
    have hok : EntryOk bigEndian f ⟨true, network, netmask, data⟩ n a data :=
      ⟨new.port.trans net.port, new.addr.trans net.addr, new.size, rfl, hdata⟩
    refine .inr ⟨_, ?_, inv.linked net.below hroutes (fresh addr hentry) hok⟩
    simp only [nebNetRadixTreeSet, if_neg hfamily, if_neg hdata, hnew, hadd]
  | none =>
    have hlookup := laws.lookup network netmask rt.rnh
    rw [hkey, hmask] at hlookup
    cases hx : routes rt.rnh a (prefixMask f n) with
    | none =>
      rw [hx] at hlookup
      refine .inl ⟨by simp only [nebNetRadixTreeSet, if_neg hfamily, if_neg hdata, hnew, hadd,
        hlookup], ?_⟩
      rintro ⟨-, -, -, -, hstored⟩
      obtain ⟨d, hd⟩ := Option.ne_none_iff_exists'.mp hstored
      obtain ⟨-, e, he⟩ := inv.route n a d hd
      rw [hx] at he
      cases he
    | some x =>
      rw [hx] at hlookup
      obtain ⟨n0, d0, old, hn0, hmask0, -, hold, hok0⟩ := inv.entry a _ x hx
      obtain rfl : n0 = n := prefix_mask_injective f hn0.le net.below.le hmask0.symm
      have hok : EntryOk bigEndian f { old with udata := data, refRt := true } n0 a data :=
        ⟨hok0.port, hok0.addr, hok0.size, rfl, hdata⟩
      refine .inr ⟨_, ?_, inv.reset hn0 hx hok (if rt.onDel then old.udata :: rt.deleted
        else rt.deleted)⟩
      simp only [nebNetRadixTreeSet, if_neg hfamily, if_neg hdata, hnew, hadd, hlookup, hold]

/-- The effect of `neb_net_radix_tree_unset` for a network. -/
private theorem Inv.unset (laws : RnLaws ops f.addrOffset routes)
    (inv : Inv bigEndian f routes rt m) {v : Sockaddr} {n : Nat} {a : List UInt8}
    (net : IsNetwork bigEndian f v n a) (calloc : Bool) :
    ∃ rt', nebNetRadixTreeUnset ops bigEndian calloc v rt = some (v, rt') ∧
      Inv bigEndian f routes rt' (if calloc then m.put n a none else m) := by
  have hfamily : ¬ some f ≠ saFamily bigEndian v := by
    rw [net.family]
    simp
  obtain ⟨hrestore, hport, hkey, hfirst⟩ := key_of_sockaddr bigEndian net.size
  rw [net.port] at hport
  rw [net.addr] at hkey
  cases calloc with
  | false =>
    refine ⟨rt, ?_, inv⟩
    simp only [nebNetRadixTreeUnset, inv.family, if_neg hfamily, rtGetNetmask, Bool.false_eq_true,
      if_false, Option.map_some, hrestore]
  | true =>
    obtain ⟨netmask, hmask, -, hcompared⟩ := rt_get_netmask_spec bigEndian f hfirst
      (by rw [hport]; exact net.below.le.trans f.addr_fits)
    rw [hport] at hcompared
    cases hx : routes rt.rnh a (prefixMask f n) with
    | none =>
      have hdel := laws.delete_none (v.set 0 (UInt8.ofNat f.keyLen)) netmask rt.rnh
        (by rw [hkey, hcompared, hx])
      refine ⟨rt, ?_, inv.absent hx⟩
      simp only [nebNetRadixTreeUnset, inv.family, if_neg hfamily, hmask, Option.map_some, hdel,
        hrestore]
    | some x =>
      obtain ⟨rnh, hdel, hroutes⟩ := laws.delete_some (v.set 0 (UInt8.ofNat f.keyLen)) netmask
        rt.rnh x (by rw [hkey, hcompared, hx])
      rw [hkey, hcompared] at hroutes
      refine ⟨nebNetRadixEntryDel x { rt with rnh := rnh }, ?_, inv.removed net.below hx hroutes⟩
      simp only [nebNetRadixTreeUnset, inv.family, if_neg hfamily, hmask, Option.map_some, hdel,
        hrestore]

theorem Inv.create (bigEndian : Bool) (laws : RnLaws ops f.addrOffset routes) (onDel : Bool) :
    Inv bigEndian f routes (nebNetRadixTreeCreate ops f onDel) (storedBy []) where
  family := rfl
  entry := by
    intro k mask e he
    rw [show routes (nebNetRadixTreeCreate ops f onDel).rnh k mask = none from
      laws.inithead k mask] at he
    cases he
  route := by
    intro n k d hm
    cases hm

/-- The call is for a network of the family. -/
def Call.Valid (bigEndian : Bool) (f : Family) (c : Call) : Prop :=
  ∃ n a, IsNetwork bigEndian f c.netaddr n a

/-- One call does to the stored map what it shows. -/
theorem Inv.ofStep (laws : RnLaws ops f.addrOffset routes) (inv : Inv bigEndian f routes rt m)
    {c : Call} (valid : c.Valid bigEndian f) (h : step ops bigEndian rt c = some rt') :
    Inv bigEndian f routes rt' ((observe ops bigEndian rt c).foldl Stored.apply m) := by
  obtain ⟨n, a, net⟩ := valid
  cases c with
  | set allocs v data =>
    have netv : IsNetwork bigEndian f v n a := net
    have hport : sinPort bigEndian v = n := netv.port
    have haddr : sinAddr rt.family v = a := by rw [inv.family]; exact netv.addr
    simp only [step] at h
    split_ifs at h with hfresh
    have fresh : ∀ addr, allocs.entry = some addr → rt.entries addr = none := by
      intro addr haddr
      simpa [haddr] using hfresh
    rcases inv.set laws netv allocs data fresh with ⟨hset, -⟩ | ⟨rt1, hset, inv1⟩
    · rw [hset] at h
      obtain rfl := Option.some.inj h
      simpa [observe, hset] using inv
    · rw [hset] at h
      obtain rfl := Option.some.inj h
      simpa [observe, hset, hport, haddr, Stored.apply] using inv1
  | unset calloc v =>
    have netv : IsNetwork bigEndian f v n a := net
    have hport : sinPort bigEndian v = n := netv.port
    have haddr : sinAddr rt.family v = a := by rw [inv.family]; exact netv.addr
    obtain ⟨rt1, hunset, inv1⟩ := inv.unset laws netv calloc
    simp only [step, hunset] at h
    obtain rfl := Option.some.inj h
    cases calloc with
    | false => simpa [observe] using inv1
    | true => simpa [observe, hport, haddr, Stored.apply] using inv1

theorem Inv.ofRun (laws : RnLaws ops f.addrOffset routes) {calls : List Call}
    (inv : Inv bigEndian f routes rt m) (valid : ∀ c ∈ calls, c.Valid bigEndian f)
    (h : Machine.run (step ops bigEndian) rt calls = some rt') :
    Inv bigEndian f routes rt'
      ((Machine.trace (step ops bigEndian) (observe ops bigEndian) rt calls).foldl
        Stored.apply m) := by
  have hstep : ∀ s c t x, Inv bigEndian f routes s x → Call.Valid bigEndian f c →
      step ops bigEndian s c = some t →
      ∃ y, Machine.Accepts (fun x e y => y = Stored.apply x e) x (observe ops bigEndian s c) y ∧
        Inv bigEndian f routes t y :=
    fun s c t x inv ok hstep => ⟨_, Machine.Accepts.foldl _ _ _, inv.ofStep laws ok hstep⟩
  obtain ⟨m', haccepts, inv'⟩ :=
    Machine.simulation_run hstep inv (Machine.StepsMeet.of_labels valid rt) h
  rwa [haccepts.eq_foldl] at inv'

/-! The lookup. -/

/-- The bytes of `w` are those of `v`, but for the port and the address. -/
def SameElsewhere (f : Family) (v w : Sockaddr) : Prop :=
  w.length = v.length ∧
    ∀ i, ¬ (2 ≤ i ∧ i < 4) → ¬ (f.addrOffset ≤ i ∧ i < f.keyLen) → w[i]? = v[i]?

private theorem fill_spec (bigEndian : Bool) {ip network : Sockaddr}
    (hip : ip.length = f.sockaddrSize)
    (hnet : network.length = f.sockaddrSize) :
    let filled := memcpyAt (memcpyAt ip 2 ((network.drop 2).take 2)) f.addrOffset
      (sinAddr f network)
    sinPort bigEndian filled = sinPort bigEndian network ∧
      sinAddr f filled = sinAddr f network ∧ SameElsewhere f ip filled := by
  intro filled
  have hsizes : 4 ≤ f.addrOffset ∧ f.keyLen ≤ f.sockaddrSize := by cases f <;> decide
  have hkey : f.keyLen = f.addrOffset + f.addrSize := rfl
  have hport : ((network.drop 2).take 2).length = 2 := by
    rw [List.length_take, List.length_drop]
    omega
  have haddr : (sinAddr f network).length = f.addrSize := by
    rw [sinAddr, List.length_take, List.length_drop]
    omega
  have hlen1 : (memcpyAt ip 2 ((network.drop 2).take 2)).length = ip.length :=
    length_memcpyAt (by omega)
  have hget : ∀ i, filled[i]? =
      if f.addrOffset ≤ i ∧ i < f.keyLen then network[i]?
      else if 2 ≤ i ∧ i < 4 then network[i]? else ip[i]? := by
    intro i
    simp only [filled]
    rw [getElem?_memcpyAt (by omega), haddr, getElem?_memcpyAt (by omega), hport, hkey]
    by_cases h1 : f.addrOffset ≤ i ∧ i < f.addrOffset + f.addrSize
    · rw [if_pos h1, if_pos h1, getElem?_sinAddr, if_pos (by omega)]
      congr 1
      omega
    · rw [if_neg h1, if_neg h1]
      by_cases h2 : 2 ≤ i ∧ i < 2 + 2
      · rw [if_pos h2, if_pos h2, List.getElem?_take_of_lt (by omega), List.getElem?_drop]
        congr 1
        omega
      · rw [if_neg h2, if_neg h2]
  refine ⟨?_, ?_, ?_, ?_⟩
  · refine sin_port_congr ?_ ?_
    · rw [hget, if_neg (by omega), if_pos (by omega)]
    · rw [hget, if_neg (by omega), if_pos (by omega)]
  · refine sin_addr_congr ?_
    intro i h1 h2
    rw [hget, if_pos ⟨h1, h2⟩]
  · exact (length_memcpyAt (by omega)).trans hlen1
  · intro i h1 h2
    rw [hget, if_neg h2, if_neg h1]

private theorem Inv.lpmGet (laws : RnLaws ops f.addrOffset routes)
    (inv : Inv bigEndian f routes rt m) {ip : Sockaddr} (hsize : ip.length = f.sockaddrSize)
    (hfamily : saFamily bigEndian ip = some f) (fill : Bool) :
    ∃ d ip', nebNetRadixTreeLpmGet ops bigEndian rt ip fill = some (d, ip') ∧
      ((d = 0 ∧ ip' = ip ∧ ∀ n a, m n a ≠ none → ¬ Contains n a (sinAddr f ip)) ∨
        ∃ n a, m n a = some d ∧ d ≠ 0 ∧ Contains n a (sinAddr f ip) ∧
          (∀ n' a', m n' a' ≠ none → Contains n' a' (sinAddr f ip) → n' ≤ n) ∧
          (fill = false → ip' = ip) ∧
          (fill = true → sinPort bigEndian ip' = n ∧ sinAddr f ip' = a ∧
            SameElsewhere f ip ip')) := by
  have hsame : ¬ some f ≠ saFamily bigEndian ip := by
    rw [hfamily]
    simp
  have hsizes : 4 ≤ f.addrOffset ∧ f.keyLen ≤ f.sockaddrSize := by cases f <;> decide
  have hpos : 0 < ip.length := by rw [hsize]; cases f <;> decide
  have hkey : comparedBytes f.addrOffset (ip.set 0 (UInt8.ofNat f.keyLen)) = sinAddr f ip :=
    compared_bytes_key (by omega)
  have hrestore : (ip.set 0 (UInt8.ofNat f.keyLen)).set 0 (ip.getD 0 0) = ip := by
    rw [List.set_set]
    simp [List.getD_eq_getElem?_getD, hpos]
  cases hmatch : ops.matchKey (ip.set 0 (UInt8.ofNat f.keyLen)) rt.rnh with
  | none =>
    have hno := laws.match_none _ rt.rnh hmatch
    rw [hkey] at hno
    refine ⟨0, ip, ?_, .inl ⟨rfl, rfl, ?_⟩⟩
    · simp only [nebNetRadixTreeLpmGet, inv.family, if_neg hsame, hmatch, hrestore]
    · intro n a hm hcontains
      obtain ⟨d, hd⟩ := Option.ne_none_iff_exists'.mp hm
      obtain ⟨hn, e, he⟩ := inv.route n a d hd
      exact hno a (prefixMask f n) (by rw [he]; simp)
        ((covers_prefix_iff f hn.le a _).mpr hcontains)
  | some x =>
    obtain ⟨k, mask, hroute, hcovers, hbest⟩ := laws.match_some _ rt.rnh x hmatch
    rw [hkey] at hcovers hbest
    obtain ⟨n, d, rte, hn, rfl, hm, hrte, hok⟩ := inv.entry k mask x hroute
    have hlongest : ∀ n' a', m n' a' ≠ none → Contains n' a' (sinAddr f ip) → n' ≤ n := by
      intro n' a' hm' hcontains
      obtain ⟨d', hd'⟩ := Option.ne_none_iff_exists'.mp hm'
      obtain ⟨hn', e', he'⟩ := inv.route n' a' d' hd'
      have hnot := hbest a' (prefixMask f n') (by rw [he']; simp)
        ((covers_prefix_iff f hn'.le a' _).mpr hcontains)
      rw [more_specific_prefix_iff f hn.le hn'.le] at hnot
      omega
    have hcontains := (covers_prefix_iff f hn.le k _).mp hcovers
    cases fill with
    | false =>
      refine ⟨d, ip, ?_, .inr ⟨n, k, hm, hok.nonzero, hcontains, hlongest, fun _ => rfl, by simp⟩⟩
      simp only [nebNetRadixTreeLpmGet, inv.family, if_neg hsame, hmatch, hrestore, hrte,
        Bool.false_eq_true, if_false, hok.data]
    | true =>
      obtain ⟨hport, haddr, helse⟩ := fill_spec (f := f) bigEndian hsize hok.size
      refine ⟨d, _, ?_, .inr ⟨n, k, hm, hok.nonzero, hcontains, hlongest, by simp, fun _ =>
        ⟨hport.trans hok.port, haddr.trans hok.addr, helse⟩⟩⟩
      simp only [nebNetRadixTreeLpmGet, inv.family, if_neg hsame, hmatch, hrestore, hrte, if_true,
        hok.data]

end Lpm

/-- After any history of sets and unsets of networks, the lookup returns the data of the longest
stored prefix that contains the address, or 0 when there is none; `fill` writes that prefix into
the address, which is otherwise unchanged. A set of a stored prefix that gets its memory succeeds,
and so replaces the data. -/
theorem nebNetRadixTree_longest_prefix_match {H : Type} (ops : RnOps H) (f : Family)
    (routes : H → Routes) (laws : RnLaws ops f.addrOffset routes) (bigEndian onDel : Bool)
    (calls : List Call) (valid : ∀ c ∈ calls, c.Valid bigEndian f) (rt : NebNetRadixTree H)
    (reached : Machine.run (step ops bigEndian) (nebNetRadixTreeCreate ops f onDel) calls =
      some rt) :
    let m := storedBy (Machine.trace (step ops bigEndian) (observe ops bigEndian)
      (nebNetRadixTreeCreate ops f onDel) calls)
    (∀ (ip : Sockaddr) (fill : Bool), ip.length = f.sockaddrSize →
      saFamily bigEndian ip = some f →
      ∃ d ip', nebNetRadixTreeLpmGet ops bigEndian rt ip fill = some (d, ip') ∧
        ((d = 0 ∧ ip' = ip ∧ ∀ n a, m n a ≠ none → ¬ Contains n a (sinAddr f ip)) ∨
          ∃ n a, m n a = some d ∧ d ≠ 0 ∧ Contains n a (sinAddr f ip) ∧
            (∀ n' a', m n' a' ≠ none → Contains n' a' (sinAddr f ip) → n' ≤ n) ∧
            (fill = false → ip' = ip) ∧
            (fill = true → sinPort bigEndian ip' = n ∧ sinAddr f ip' = a ∧
              SameElsewhere f ip ip'))) ∧
    ∀ (v : Sockaddr) (n : Nat) (a : List UInt8) (addr : EntryAddr) (data : Int),
      IsNetwork bigEndian f v n a → m n a ≠ none → rt.entries addr = none → data ≠ 0 →
      ∃ rt',
        nebNetRadixTreeSet ops bigEndian ⟨some addr, true, true⟩ v data rt = some (0, rt') := by
  have inv := (Inv.create bigEndian laws onDel).ofRun laws valid reached
  refine ⟨fun ip fill hsize hfamily => inv.lpmGet laws hsize hfamily fill, ?_⟩
  intro v n a addr data net hstored hfree hdata
  rcases inv.set laws net ⟨some addr, true, true⟩ data
    (fun addr' h => Option.some.inj h ▸ hfree) with ⟨-, hnot⟩ | ⟨rt', hset, -⟩
  · exact absurd ⟨rfl, rfl, rfl, hdata, hstored⟩ hnot
  · exact ⟨rt', hset⟩

private def sockaddr4 (port : UInt8) (addr : List UInt8) : Sockaddr :=
  [2, 0, port, 0] ++ addr ++ List.replicate 8 0

private theorem sockaddr4_is_network {port a b c d : UInt8} {n : Nat} (hport : port.toNat = n)
    (hn : n < 32) (host : ∀ i < 32, n ≤ i → bit [a, b, c, d] i = false) :
    IsNetwork false .inet (sockaddr4 port [a, b, c, d]) n [a, b, c, d] where
  size := rfl
  family := by simp [saFamily, hostU16, sockaddr4, AF_INET]
  port := by simp [sinPort, hostU16, sockaddr4, hport]
  addr := rfl
  below := hn
  host := by
    intro i hi
    by_cases hlt : i < 32
    · exact host i hlt hi
    · refine bit_beyond ?_
      simp only [List.length_cons, List.length_nil]
      omega

/-- 10.0.0.0/8 and then 10.20.0.0/16. -/
private def nestedHistory : List Call :=
  [.set ⟨some 1, true, true⟩ (sockaddr4 8 [10, 0, 0, 0]) 7,
    .set ⟨some 2, true, true⟩ (sockaddr4 16 [10, 20, 0, 0]) 9]

theorem nebNetRadixTree_longest_prefix_match_nested :
    ∃ rt, Machine.run (step (listOps 4) false) (nebNetRadixTreeCreate (listOps 4) .inet true)
        nestedHistory = some rt ∧
      nebNetRadixTreeLpmGet (listOps 4) false rt (sockaddr4 0 [10, 20, 1, 1]) true =
        some (9, sockaddr4 16 [10, 20, 0, 0]) ∧
      ∃ n a, storedBy (Machine.trace (step (listOps 4) false) (observe (listOps 4) false)
          (nebNetRadixTreeCreate (listOps 4) .inet true) nestedHistory) n a = some 9 ∧
        Contains n a [10, 20, 1, 1] := by
  have valid : ∀ c ∈ nestedHistory, c.Valid false .inet := by
    intro c hc
    simp only [nestedHistory, List.mem_cons, List.not_mem_nil, or_false] at hc
    rcases hc with rfl | rfl
    · exact ⟨8, _, sockaddr4_is_network rfl (by decide) (by decide)⟩
    · exact ⟨16, _, sockaddr4_is_network rfl (by decide) (by decide)⟩
  obtain ⟨lookup, -⟩ := nebNetRadixTree_longest_prefix_match (listOps 4) .inet listRoutes
    (list_laws 4) false true nestedHistory valid _ rfl
  obtain ⟨d, ip', hget, hspec⟩ := lookup (sockaddr4 0 [10, 20, 1, 1]) true rfl rfl
  refine ⟨_, rfl, rfl, ?_⟩
  have heq : some (d, ip') = some ((9 : Int), sockaddr4 16 [10, 20, 0, 0]) := hget.symm.trans rfl
  obtain ⟨rfl, rfl⟩ := Prod.mk.inj (Option.some.inj heq)
  rcases hspec with ⟨hzero, -⟩ | ⟨n, a, hm, -, hcontains, -⟩
  · exact absurd hzero (by decide)
  · exact ⟨n, a, hm, hcontains⟩

end Nebase.Net.Radix
