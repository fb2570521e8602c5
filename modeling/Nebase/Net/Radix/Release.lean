/- The release of the stored data: what `set` has accepted is in the tree or was handed to `on_del`,
   and after `destroy` all of it was handed over. -/

import Nebase.Net.Radix.Lpm
import Mathlib.Data.Finset.Dedup
import Mathlib.Algebra.Order.Group.Multiset

set_option autoImplicit false
set_option relaxedAutoImplicit false

namespace Nebase.Net.Radix

open Nebase.Foundation

/-- An assumption: `rn_walktree` visits the leaves that are there at its start, each once; the
callback may delete the leaf it is called for. `radix.c` does not meet it everywhere: its walk skips
the chain of the right root leaf. -/
structure WalkLaws {H : Type} (walk : H → List EntryAddr) (routes : H → Routes) : Prop where
  nodup : ∀ h, (walk h).Nodup
  visits : ∀ h e, e ∈ walk h ↔ ∃ k m, routes h k m = some e

section Destroy

variable {H : Type} (ops : RnOps H)

/-- `neb_rt_freeentry`; `none` is the use of an entry that was freed. -/
def nebRtFreeentry (e : EntryAddr) (rt : NebNetRadixTree H) : Option (NebNetRadixTree H) :=
  (rt.entries e).map (fun rte =>
    match ops.delete rte.network rte.netmask rt.rnh with
    | none => rt
    | some (x, rnh) => nebNetRadixEntryDel x { rt with rnh := rnh })

/-- `rn_walktree` over some leaves. -/
def freeEntries : List EntryAddr → NebNetRadixTree H → Option (NebNetRadixTree H)
  | [], rt => some rt
  | e :: es, rt => (nebRtFreeentry ops e rt).bind (freeEntries es)

/-- `neb_net_radix_tree_destroy` up to the release of the head and the tree. -/
def nebNetRadixTreeDestroy (walk : H → List EntryAddr) (rt : NebNetRadixTree H) :
    Option (NebNetRadixTree H) :=
  freeEntries ops (walk rt.rnh) rt

end Destroy

/-- The data that a call has the tree accept. -/
def accepts {H : Type} (ops : RnOps H) (bigEndian : Bool) (rt : NebNetRadixTree H) :
    Call → List Int
  | .set allocs netaddr data =>
    match nebNetRadixTreeSet ops bigEndian allocs netaddr data rt with
    | some (r, _) => if r = 0 then [data] else []
    | none => []
  | .unset _ _ => []

/-- The data of the entries `s`. -/
def storedData {H : Type} (rt : NebNetRadixTree H) (s : Finset EntryAddr) : Multiset Int :=
  s.val.map (fun e => ((rt.entries e).map (·.udata)).getD 0)

/-- `accepted` is what was handed to `on_del` and what the leaves of the tree hold. -/
def Released {H : Type} (routes : H → Routes) (rt : NebNetRadixTree H) (accepted : Multiset Int) :
    Prop :=
  ∃ s : Finset EntryAddr, (∀ e, e ∈ s ↔ ∃ k m, routes rt.rnh k m = some e) ∧
    accepted = (rt.deleted : Multiset Int) + storedData rt s

/-- The entries of a tree with an `on_del` callback are its leaves, each under its own network and
netmask. -/
structure Owned {H : Type} (offset : Nat) (routes : H → Routes) (rt : NebNetRadixTree H) :
    Prop where
  onDel : rt.onDel = true
  linked : ∀ e rte, rt.entries e = some rte → rte.refRt = true ∧
    routes rt.rnh (comparedBytes offset rte.network) (comparedBytes offset rte.netmask) = some e
  leaf : ∀ k m e, routes rt.rnh k m = some e → ∃ rte, rt.entries e = some rte ∧
    k = comparedBytes offset rte.network ∧ m = comparedBytes offset rte.netmask

section Owned

variable {H : Type} {ops : RnOps H} {bigEndian : Bool} {offset : Nat} {routes : H → Routes}
variable {rt rt' : NebNetRadixTree H} {accepted : Multiset Int}

theorem Owned.leaf_iff (owned : Owned offset routes rt) (e : EntryAddr) :
    (∃ k m, routes rt.rnh k m = some e) ↔ (rt.entries e).isSome := by
  constructor
  · rintro ⟨k, m, he⟩
    obtain ⟨rte, hrte, -⟩ := owned.leaf k m e he
    rw [hrte]
    rfl
  · intro he
    obtain ⟨rte, hrte⟩ := Option.isSome_iff_exists.mp he
    exact ⟨_, _, (owned.linked e rte hrte).2⟩

/-- Entries other than `e` keep their data. -/
private theorem stored_data_congr (rt rt' : NebNetRadixTree H) {s : Finset EntryAddr}
    (same : ∀ e ∈ s, rt'.entries e = rt.entries e) : storedData rt' s = storedData rt s := by
  unfold storedData
  refine Multiset.map_congr rfl ?_
  intro e he
  rw [same e he]

private theorem stored_data_insert {s : Finset EntryAddr} {e : EntryAddr} (he : e ∉ s)
    {rte : NebNetRadixEntry} (hrte : rt.entries e = some rte) :
    storedData rt (insert e s) = rte.udata ::ₘ storedData rt s := by
  unfold storedData
  rw [Finset.insert_val_of_notMem he, Multiset.map_cons, hrte]
  rfl

/-- A new entry is linked into the tree. -/
private theorem Owned.add (owned : Owned offset routes rt) (released : Released routes rt accepted)
    {addr : EntryAddr} {rnh : H} {rte : NebNetRadixEntry} (fresh : rt.entries addr = none)
    (linked : rte.refRt = true)
    (new : routes rt.rnh (comparedBytes offset rte.network) (comparedBytes offset rte.netmask) =
      none)
    (hroutes : routes rnh = (routes rt.rnh).set (comparedBytes offset rte.network)
      (comparedBytes offset rte.netmask) (some addr))
    (hrt : rt' = { rt with rnh := rnh, entries := Function.update rt.entries addr (some rte) }) :
    Owned offset routes rt' ∧ Released routes rt' (rte.udata ::ₘ accepted) := by
  subst hrt
  have owned' : Owned offset routes
      { rt with rnh := rnh, entries := Function.update rt.entries addr (some rte) } := by
    refine ⟨owned.onDel, ?_, ?_⟩
    · intro e r he
      simp only at he
      by_cases hne : e = addr
      · subst hne
        rw [Function.update_self, Option.some.injEq] at he
        subst he
        refine ⟨linked, ?_⟩
        simp only [hroutes, Routes.set_self]
      · rw [Function.update_of_ne hne] at he
        obtain ⟨href, hroute⟩ := owned.linked e r he
        refine ⟨href, ?_⟩
        simp only [hroutes]
        rw [Routes.set_of_ne, hroute]
        rintro ⟨hk, hm⟩
        rw [hk, hm, new] at hroute
        cases hroute
    · intro k m e he
      simp only [hroutes] at he
      by_cases hkm : k = comparedBytes offset rte.network ∧ m = comparedBytes offset rte.netmask
      · obtain ⟨rfl, rfl⟩ := hkm
        rw [Routes.set_self, Option.some.injEq] at he
        subst he
        exact ⟨rte, Function.update_self .., rfl, rfl⟩
      · rw [Routes.set_of_ne _ _ hkm] at he
        obtain ⟨r, hr, hrest⟩ := owned.leaf k m e he
        refine ⟨r, (Function.update_of_ne ?_ _ _).trans hr, hrest⟩
        rintro rfl
        rw [fresh] at hr
        cases hr
  refine ⟨owned', ?_⟩
  obtain ⟨s, hs, haccepted⟩ := released
  have hnot : addr ∉ s := by
    rw [hs, owned.leaf_iff, fresh]
    simp
  refine ⟨insert addr s, ?_, ?_⟩
  · intro e
    rw [owned'.leaf_iff, Finset.mem_insert, hs, owned.leaf_iff]
    by_cases hne : e = addr
    · simp [hne]
    · simp [hne]
  · have hsame : storedData _ s = storedData rt s := stored_data_congr rt
        { rt with rnh := rnh, entries := Function.update rt.entries addr (some rte) } (by
      intro e he
      refine Function.update_of_ne ?_ _ _
      rintro rfl
      exact hnot he)
    rw [stored_data_insert hnot (Function.update_self ..), hsame, Multiset.add_cons, haccepted]

/-- A leaf gets new data; the old data is handed to `on_del`. -/
private theorem Owned.replace (owned : Owned offset routes rt)
    (released : Released routes rt accepted) {x : EntryAddr} {old : NebNetRadixEntry} {data : Int}
    (hold : rt.entries x = some old)
    (hrt : rt' = { rt with
      entries := Function.update rt.entries x (some { old with udata := data, refRt := true })
      deleted := old.udata :: rt.deleted }) :
    Owned offset routes rt' ∧ Released routes rt' (data ::ₘ accepted) := by
  subst hrt
  refine ⟨⟨owned.onDel, ?_, ?_⟩, ?_⟩
  · intro e r he
    simp only at he
    by_cases hne : e = x
    · subst hne
      rw [Function.update_self, Option.some.injEq] at he
      subst he
      exact ⟨rfl, (owned.linked e old hold).2⟩
    · rw [Function.update_of_ne hne] at he
      exact owned.linked e r he
  · intro k m e he
    obtain ⟨r, hr, hrest⟩ := owned.leaf k m e he
    by_cases hne : e = x
    · subst hne
      obtain rfl := Option.some.inj (hold.symm.trans hr)
      exact ⟨_, Function.update_self .., hrest⟩
    · exact ⟨r, (Function.update_of_ne hne _ _).trans hr, hrest⟩
  · obtain ⟨s, hs, haccepted⟩ := released
    refine ⟨s, hs, ?_⟩
    have hx : x ∈ s := by
      rw [hs, owned.leaf_iff, hold]
      rfl
    have hnot : x ∉ s.erase x := Finset.notMem_erase x s
    rw [← Finset.insert_erase hx, stored_data_insert hnot hold] at haccepted
    have hsame : storedData _ (s.erase x) = storedData rt (s.erase x) := stored_data_congr rt
      { rt with
        entries := Function.update rt.entries x (some { old with udata := data, refRt := true })
        deleted := old.udata :: rt.deleted }
      (fun e he => Function.update_of_ne (Finset.ne_of_mem_erase he) _ _)
    rw [← Finset.insert_erase hx, stored_data_insert hnot (Function.update_self ..), hsame,
      haccepted, ← Multiset.cons_coe, Multiset.add_cons, Multiset.add_cons, Multiset.cons_add]

/-- A leaf is deleted; its data is handed to `on_del`. -/
private theorem Owned.remove (owned : Owned offset routes rt)
    (released : Released routes rt accepted) {x : EntryAddr} {rnh : H} {k m : List UInt8}
    (hx : routes rt.rnh k m = some x) (hroutes : routes rnh = (routes rt.rnh).set k m none) :
    Owned offset routes (nebNetRadixEntryDel x { rt with rnh := rnh }) ∧
      Released routes (nebNetRadixEntryDel x { rt with rnh := rnh }) accepted := by
  obtain ⟨old, hold, rfl, rfl⟩ := owned.leaf k m x hx
  have href := (owned.linked x old hold).1
  have hdel : nebNetRadixEntryDel x { rt with rnh := rnh } = { rt with
      rnh := rnh
      entries := Function.update rt.entries x none
      deleted := old.udata :: rt.deleted } := by
    simp [nebNetRadixEntryDel, hold, href, owned.onDel]
  rw [hdel]
  have owned' : Owned offset routes { rt with
      rnh := rnh
      entries := Function.update rt.entries x none
      deleted := old.udata :: rt.deleted } := by
    refine ⟨owned.onDel, ?_, ?_⟩
    · intro e r he
      simp only at he
      by_cases hne : e = x
      · subst hne
        rw [Function.update_self] at he
        cases he
      · rw [Function.update_of_ne hne] at he
        obtain ⟨hr, hroute⟩ := owned.linked e r he
        refine ⟨hr, ?_⟩
        simp only [hroutes]
        rw [Routes.set_of_ne, hroute]
        rintro ⟨hk, hm⟩
        rw [hk, hm, hx] at hroute
        exact hne (Option.some.inj hroute).symm
    · intro k' m' e he
      simp only [hroutes] at he
      by_cases hkm : k' = comparedBytes offset old.network ∧ m' = comparedBytes offset old.netmask
      · obtain ⟨rfl, rfl⟩ := hkm
        rw [Routes.set_self] at he
        cases he
      · rw [Routes.set_of_ne _ _ hkm] at he
        obtain ⟨r, hr, hk, hm⟩ := owned.leaf k' m' e he
        refine ⟨r, (Function.update_of_ne ?_ _ _).trans hr, hk, hm⟩
        rintro rfl
        obtain rfl := Option.some.inj (hold.symm.trans hr)
        exact hkm ⟨hk, hm⟩
  refine ⟨owned', ?_⟩
  obtain ⟨s, hs, haccepted⟩ := released
  have hxs : x ∈ s := by
    rw [hs, owned.leaf_iff, hold]
    rfl
  refine ⟨s.erase x, ?_, ?_⟩
  · intro e
    rw [owned'.leaf_iff, Finset.mem_erase, hs, owned.leaf_iff]
    by_cases hne : e = x
    · simp [hne]
    · simp [hne]
  · rw [← Finset.insert_erase hxs, stored_data_insert (Finset.notMem_erase x s) hold] at haccepted
    have hsame : storedData _ (s.erase x) = storedData rt (s.erase x) := stored_data_congr rt
      { rt with
        rnh := rnh
        entries := Function.update rt.entries x none
        deleted := old.udata :: rt.deleted }
      (fun e he => Function.update_of_ne (Finset.ne_of_mem_erase he) _ _)
    rw [haccepted, hsame, ← Multiset.cons_coe, Multiset.add_cons, Multiset.cons_add]

/-! The calls. -/

/-- The mask stays inside its `sockaddr`. -/
private theorem rt_get_netmask_defined (bigEndian calloc : Bool) (f : Family) {vk : Sockaddr}
    (hport : sinPort bigEndian vk ≤ 8 * (f.sockaddrSize - f.addrOffset)) :
    rtGetNetmask bigEndian calloc f vk ≠ none := by
  cases calloc with
  | false => simp [rtGetNetmask]
  | true =>
    rw [ne_eq, rt_get_netmask_none_iff]
    omega

private theorem entry_new_defined (bigEndian : Bool) (allocs : Allocs) (v : Sockaddr) :
    nebNetRadixEntryNew bigEndian allocs v ≠ none := by
  unfold nebNetRadixEntryNew
  cases allocs.entry with
  | none => simp
  | some addr =>
    cases hnet : rtGetNetwork bigEndian allocs.network v with
    | none => simp
    | some network =>
      cases hfam : saFamily bigEndian v with
      | none => simp
      | some f =>
        have hsizes : 4 ≤ f.sockaddrSize ∧ f.addrSize ≤ f.sockaddrSize - f.addrOffset := by
          cases f <;> decide
        unfold rtGetNetwork at hnet
        simp only [hfam] at hnet
        split_ifs at hnet with hport
        obtain rfl := Option.some.inj hnet
        have hsame : sinPort bigEndian ((v.take f.sockaddrSize).set 0 (UInt8.ofNat f.keyLen)) =
            sinPort bigEndian v := by
          refine sin_port_congr ?_ ?_ <;>
            rw [List.getElem?_set_ne (by omega), List.getElem?_take_of_lt (by omega)]
        have hfits : sinPort bigEndian ((v.take f.sockaddrSize).set 0 (UInt8.ofNat f.keyLen)) ≤
            8 * (f.sockaddrSize - f.addrOffset) := by
          rw [hsame]
          rw [Nat.shiftLeft_eq] at hport
          omega
        simpa using rt_get_netmask_defined bigEndian allocs.netmask f hfits

/-- The outcomes of `neb_net_radix_tree_set`. -/
inductive SetCases (ops : RnOps H) (rt : NebNetRadixTree H) (allocs : Allocs) (data : Int) :
    Option (Int × NebNetRadixTree H) → Prop
  | failed : SetCases ops rt allocs data (some (-1, rt))
  | added (addr : EntryAddr) (rte : NebNetRadixEntry) (rnh : H)
      (entry : allocs.entry = some addr)
      (add : ops.addroute rte.network rte.netmask rt.rnh addr = some rnh) :
      SetCases ops rt allocs data (some (0, { rt with
        rnh := rnh
        entries := Function.update rt.entries addr
          (some { rte with udata := data, refRt := true }) }))
  | replaced (v m : List UInt8) (x : EntryAddr) (old : NebNetRadixEntry)
      (lookup : ops.lookup v m rt.rnh = some x) (hold : rt.entries x = some old) :
      SetCases ops rt allocs data (some (0, { rt with
        entries := Function.update rt.entries x (some { old with udata := data, refRt := true })
        deleted := if rt.onDel then old.udata :: rt.deleted else rt.deleted }))
  | lost (v m : List UInt8) (x : EntryAddr) (lookup : ops.lookup v m rt.rnh = some x)
      (free : rt.entries x = none) : SetCases ops rt allocs data none

theorem set_cases (ops : RnOps H) (bigEndian : Bool) (allocs : Allocs) (v : Sockaddr) (data : Int)
    (rt : NebNetRadixTree H) :
    SetCases ops rt allocs data (nebNetRadixTreeSet ops bigEndian allocs v data rt) := by
  unfold nebNetRadixTreeSet
  by_cases hfam : some rt.family ≠ saFamily bigEndian v
  · rw [if_pos hfam]
    exact .failed
  by_cases hdata : data = 0
  · rw [if_neg hfam, if_pos hdata]
    exact .failed
  · rw [if_neg hfam, if_neg hdata]
    have hdefined := entry_new_defined bigEndian allocs v
    cases hnew : nebNetRadixEntryNew bigEndian allocs v with
    | none => exact absurd hnew hdefined
    | some o =>
      cases o with
      | none => exact .failed
      | some new =>
        obtain ⟨addr, rte⟩ := new
        have hentry : allocs.entry = some addr := by
          unfold nebNetRadixEntryNew at hnew
          cases hentry : allocs.entry with
          | none => simp [hentry] at hnew
          | some a =>
            simp only [hentry] at hnew
            split at hnew
            · obtain ⟨mask, -, hmask⟩ := Option.map_eq_some_iff.mp hnew
              obtain ⟨netmask, -, hpair⟩ := Option.map_eq_some_iff.mp hmask
              rw [(Prod.mk.inj hpair).1]
            · simp at hnew
        simp only
        cases hadd : ops.addroute rte.network rte.netmask rt.rnh addr with
        | some rnh => exact .added addr rte rnh hentry hadd
        | none =>
          cases hlookup : ops.lookup rte.network rte.netmask rt.rnh with
          | none => exact .failed
          | some x =>
            cases hold : rt.entries x with
            | none =>
              simp only [hold]
              exact .lost _ _ x hlookup hold
            | some old =>
              simp only [hold]
              exact .replaced _ _ x old hlookup hold

/-- One call. -/
theorem Owned.ofStep (laws : RnLaws ops offset routes) (owned : Owned offset routes rt)
    (released : Released routes rt accepted) {c : Call}
    (h : step ops bigEndian rt c = some rt') :
    Owned offset routes rt' ∧
      Released routes rt' ((accepts ops bigEndian rt c : Multiset Int) + accepted) := by
  cases c with
  | set allocs v data =>
    simp only [step] at h
    split_ifs at h with hfresh
    obtain ⟨⟨r, rt1⟩, hset, rfl⟩ := Option.map_eq_some_iff.mp h
    have cases := set_cases ops bigEndian allocs v data rt
    simp only [accepts, hset]
    rw [hset] at cases
    generalize hout : some (r, rt1) = out at cases
    cases cases with
    | failed =>
      obtain ⟨rfl, rfl⟩ := Prod.mk.inj (Option.some.inj hout)
      simpa using ⟨owned, released⟩
    | added addr rte rnh hentry hadd =>
      obtain ⟨rfl, rfl⟩ := Prod.mk.inj (Option.some.inj hout)
      obtain ⟨hnew, hroutes⟩ := laws.addroute_new _ _ _ _ _ hadd
      have hfree : rt.entries addr = none := by simpa [hentry] using hfresh
      have hadded := owned.add released hfree
        (rfl : ({ rte with udata := data, refRt := true } : NebNetRadixEntry).refRt = true)
        hnew hroutes rfl
      simpa using hadded
    | replaced v m x old hlookup hold =>
      obtain ⟨rfl, rfl⟩ := Prod.mk.inj (Option.some.inj hout)
      have hreplaced := owned.replace released hold
        (rfl : ({ rt with
          entries := Function.update rt.entries x (some { old with udata := data, refRt := true })
          deleted := old.udata :: rt.deleted } : NebNetRadixTree H) = _)
      simpa [owned.onDel] using hreplaced
    | lost => cases hout
  | unset calloc v =>
    simp only [step] at h
    obtain ⟨⟨v1, rt1⟩, hunset, rfl⟩ := Option.map_eq_some_iff.mp h
    simp only [accepts, Multiset.coe_nil, zero_add]
    unfold nebNetRadixTreeUnset at hunset
    split_ifs at hunset
    · obtain ⟨-, rfl⟩ := Prod.mk.inj (Option.some.inj hunset)
      exact ⟨owned, released⟩
    · obtain ⟨netmask, -, hres⟩ := Option.map_eq_some_iff.mp hunset
      cases netmask with
      | none =>
        obtain ⟨-, rfl⟩ := Prod.mk.inj hres
        exact ⟨owned, released⟩
      | some netmask =>
        simp only at hres
        split at hres
        · obtain ⟨-, rfl⟩ := Prod.mk.inj hres
          exact ⟨owned, released⟩
        · rename_i x rnh hdel
          obtain ⟨-, rfl⟩ := Prod.mk.inj hres
          obtain ⟨hx, hroutes⟩ := laws.keys.delete_stored _ _ _ _ _ hdel
          exact owned.remove released hx hroutes

/-- The walk of `neb_net_radix_tree_destroy` over leaves that are there. -/
theorem Owned.freeEntries (laws : RnLaws ops offset routes) (owned : Owned offset routes rt)
    (released : Released routes rt accepted) {es : List EntryAddr} (nodup : es.Nodup)
    (leaves : ∀ e ∈ es, (rt.entries e).isSome) :
    ∃ rt', freeEntries ops es rt = some rt' ∧ Owned offset routes rt' ∧
      Released routes rt' accepted ∧
      ∀ e, (rt'.entries e).isSome ↔ (rt.entries e).isSome ∧ e ∉ es := by
  induction es generalizing rt with
  | nil => exact ⟨rt, rfl, owned, released, by simp⟩
  | cons e es ih =>
    obtain ⟨rte, hrte⟩ := Option.isSome_iff_exists.mp (leaves e List.mem_cons_self)
    obtain ⟨href, hroute⟩ := owned.linked e rte hrte
    obtain ⟨rnh, hdel, hroutes⟩ := laws.delete_some rte.network rte.netmask rt.rnh e hroute
    obtain ⟨owned1, released1⟩ := owned.remove released hroute hroutes
    have hfree : nebRtFreeentry ops e rt =
        some (nebNetRadixEntryDel e { rt with rnh := rnh }) := by
      simp [nebRtFreeentry, hrte, hdel]
    have hentries : ∀ x, ((nebNetRadixEntryDel e { rt with rnh := rnh }).entries x).isSome ↔
        (rt.entries x).isSome ∧ x ≠ e := by
      intro x
      simp only [nebNetRadixEntryDel, hrte]
      by_cases hx : x = e
      · simp [hx]
      · simp [hx]
    obtain ⟨hnot, nodup'⟩ := List.nodup_cons.mp nodup
    obtain ⟨rt2, hrest, owned2, released2, hleft⟩ := ih owned1 released1 nodup' (by
      intro x hx
      rw [hentries]
      refine ⟨leaves x (List.mem_cons_of_mem e hx), ?_⟩
      rintro rfl
      exact hnot hx)
    refine ⟨rt2, ?_, owned2, released2, ?_⟩
    · rw [Radix.freeEntries, hfree, Option.bind_some, hrest]
    · intro x
      rw [hleft, hentries, List.mem_cons, not_or, and_assoc]

/-- `calloc` gives the set a new address, and the port of an unset keeps the mask inside its
`sockaddr`. -/
def Call.Ready (bigEndian : Bool) (rt : NebNetRadixTree H) : Call → Prop
  | .set allocs _ _ => ∀ addr ∈ allocs.entry, rt.entries addr = none
  | .unset _ v => saFamily bigEndian v = some rt.family →
    sinPort bigEndian v ≤ 8 * (rt.family.sockaddrSize - rt.family.addrOffset)

theorem Owned.step_defined (laws : RnLaws ops offset routes) (owned : Owned offset routes rt)
    {c : Call} (ready : c.Ready bigEndian rt) : step ops bigEndian rt c ≠ none := by
  cases c with
  | set allocs v data =>
    have hfresh : allocs.entry.all (fun a => (rt.entries a).isNone) = true := by
      rw [Option.all_eq_true]
      intro addr haddr
      rw [ready addr haddr]
      rfl
    have cases := set_cases ops bigEndian allocs v data rt
    simp only [step, if_pos hfresh, ne_eq, Option.map_eq_none_iff]
    intro hnone
    rw [hnone] at cases
    generalize hout : (none : Option (Int × NebNetRadixTree H)) = out at cases
    cases cases with
    | lost v m x hlookup hfree =>
      rw [laws.lookup] at hlookup
      obtain ⟨rte, hrte, -⟩ := owned.leaf _ _ x hlookup
      rw [hfree] at hrte
      cases hrte
    | _ => cases hout
  | unset calloc v =>
    simp only [step, ne_eq, Option.map_eq_none_iff]
    unfold nebNetRadixTreeUnset
    split_ifs with hfam
    · simp
    · simp only [Option.map_eq_none_iff]
      refine rt_get_netmask_defined bigEndian calloc rt.family ?_
      have hsame : sinPort bigEndian (v.set 0 (UInt8.ofNat rt.family.keyLen)) =
          sinPort bigEndian v := sin_port_congr (by simp) (by simp)
      rw [hsame]
      exact ready (not_ne_iff.mp hfam).symm

theorem Owned.create (laws : RnLaws ops offset routes) {f : Family}
    (hoffset : f.addrOffset = offset) :
    Owned offset routes (nebNetRadixTreeCreate ops f true) ∧
      Released routes (nebNetRadixTreeCreate ops f true) 0 := by
  subst hoffset
  have hnone : ∀ k m, routes (nebNetRadixTreeCreate ops f true).rnh k m = none :=
    fun k m => laws.inithead k m
  refine ⟨⟨rfl, ?_, ?_⟩, ∅, ?_, rfl⟩
  · intro e rte he
    cases he
  · intro k m e he
    rw [hnone] at he
    cases he
  · intro e
    simp [hnone]

end Owned

private theorem foldl_cons_multiset (es : List Int) (x : Multiset Int) :
    es.foldl (fun x e => e ::ₘ x) x = (es : Multiset Int) + x := by
  induction es generalizing x with
  | nil => simp
  | cons e es ih =>
    rw [List.foldl_cons, ih, Multiset.add_cons, ← Multiset.cons_coe, Multiset.cons_add]

/-- At every moment of a history of sets and unsets, and of the destruction after it, the data that
was accepted is the data handed to `on_del` and the data in the tree; a destroyed tree has handed
over all of it. A set that returns -1 changes nothing. No call uses a freed entry. -/
theorem nebNetRadixTree_releases_once {H : Type} (ops : RnOps H) (f : Family)
    (routes : H → Routes) (laws : RnLaws ops f.addrOffset routes) (walk : H → List EntryAddr)
    (walks : WalkLaws walk routes) (bigEndian : Bool) (calls : List Call) (rt : NebNetRadixTree H)
    (reached : Machine.run (step ops bigEndian) (nebNetRadixTreeCreate ops f true) calls =
      some rt) :
    let accepted : Multiset Int := Machine.trace (step ops bigEndian) (accepts ops bigEndian)
      (nebNetRadixTreeCreate ops f true) calls
    Released routes rt accepted ∧
      (∀ n, ∃ rt', freeEntries ops ((walk rt.rnh).take n) rt = some rt' ∧
        Released routes rt' accepted) ∧
      (∃ rt', nebNetRadixTreeDestroy ops walk rt = some rt' ∧
        accepted = (rt'.deleted : Multiset Int)) ∧
      (∀ allocs netaddr data rt',
        nebNetRadixTreeSet ops bigEndian allocs netaddr data rt = some (-1, rt') → rt' = rt) ∧
      ∀ c : Call, c.Ready bigEndian rt → step ops bigEndian rt c ≠ none := by
  intro accepted
  have hstep : ∀ s c t x, Owned f.addrOffset routes s ∧ Released routes s x → True →
      step ops bigEndian s c = some t →
      ∃ y, Machine.Accepts (fun x e y => y = e ::ₘ x) x (accepts ops bigEndian s c) y ∧
        Owned f.addrOffset routes t ∧ Released routes t y := by
    intro s c t x inv _ hstep
    refine ⟨_, Machine.Accepts.foldl _ _ _, ?_⟩
    rw [foldl_cons_multiset]
    exact inv.1.ofStep laws inv.2 hstep
  obtain ⟨x, haccepts, owned, released⟩ := Machine.simulation_run hstep (Owned.create laws rfl)
    (Machine.StepsMeet.of_forall (fun _ _ => trivial) _ _) reached
  obtain rfl : x = accepted := by
    rw [haccepts.eq_foldl, foldl_cons_multiset, add_zero]
  have hleaves : ∀ e ∈ walk rt.rnh, (rt.entries e).isSome := by
    intro e he
    exact (owned.leaf_iff e).mp ((walks.visits rt.rnh e).mp he)
  refine ⟨released, ?_, ?_, ?_, fun c ready => owned.step_defined laws ready⟩
  · intro n
    obtain ⟨rt', hfree, -, released', -⟩ := owned.freeEntries laws released
      ((walks.nodup rt.rnh).sublist (List.take_sublist n _))
      (fun e he => hleaves e (List.mem_of_mem_take he))
    exact ⟨rt', hfree, released'⟩
  · obtain ⟨rt', hfree, owned', ⟨s, hs, haccepted⟩, hleft⟩ :=
      owned.freeEntries laws released (walks.nodup rt.rnh) hleaves
    refine ⟨rt', hfree, ?_⟩
    have hempty : s = ∅ := by
      refine Finset.eq_empty_of_forall_notMem ?_
      intro e he
      rw [hs, owned'.leaf_iff, hleft] at he
      exact he.2 ((walks.visits rt.rnh e).mpr ((owned.leaf_iff e).mpr he.1))
    rw [haccepted, hempty]
    simp [storedData]
  · intro allocs netaddr data rt' hset
    have cases := set_cases ops bigEndian allocs netaddr data rt
    rw [hset] at cases
    generalize hout : some ((-1 : Int), rt') = out at cases
    cases cases with
    | failed => exact (Prod.mk.inj (Option.some.inj hout)).2
    | added => exact absurd (Prod.mk.inj (Option.some.inj hout)).1 (by decide)
    | replaced => exact absurd (Prod.mk.inj (Option.some.inj hout)).1 (by decide)
    | lost => cases hout

/-- The leaves of a list of routes. -/
def listWalk (h : List Route) : List EntryAddr :=
  ((h.filter (fun r => listRoutes h r.key r.mask = some r.node)).map (·.node)).dedup

theorem list_walks : WalkLaws listWalk listRoutes where
  nodup := fun _ => List.nodup_dedup _
  visits := by
    intro h e
    simp only [listWalk, List.mem_dedup, List.mem_map, List.mem_filter, decide_eq_true_eq]
    constructor
    · rintro ⟨r, ⟨-, hr⟩, rfl⟩
      exact ⟨r.key, r.mask, hr⟩
    · rintro ⟨k, m, he⟩
      obtain ⟨r, hfind, rfl⟩ := Option.map_eq_some_iff.mp he
      have hkm := List.find?_some hfind
      simp only [decide_eq_true_eq] at hkm
      refine ⟨r, ⟨List.mem_of_find?_eq_some hfind, ?_⟩, rfl⟩
      rw [hkm.1, hkm.2]
      exact he

/-- 10.0.0.0/8, its replacement, and 10.20.0.0/16. -/
private def replacedHistory : List Call :=
  [.set ⟨some 1, true, true⟩ [2, 0, 8, 0, 10, 0, 0, 0, 0, 0, 0, 0, 0, 0, 0, 0] 7,
    .set ⟨some 2, true, true⟩ [2, 0, 8, 0, 10, 0, 0, 0, 0, 0, 0, 0, 0, 0, 0, 0] 9,
    .set ⟨some 3, true, true⟩ [2, 0, 16, 0, 10, 20, 0, 0, 0, 0, 0, 0, 0, 0, 0, 0] 5]

theorem nebNetRadixTree_releases_once_replaced :
    ∃ rt rt', Machine.run (step (listOps 4) false) (nebNetRadixTreeCreate (listOps 4) .inet true)
        replacedHistory = some rt ∧ rt.deleted = [7] ∧
      nebNetRadixTreeDestroy (listOps 4) listWalk rt = some rt' ∧
      (([7, 9, 5] : List Int) : Multiset Int) = (rt'.deleted : Multiset Int) := by
  obtain ⟨-, -, ⟨rt', hdestroy, haccepted⟩, -⟩ := nebNetRadixTree_releases_once (listOps 4) .inet
    listRoutes (list_laws 4) listWalk list_walks false replacedHistory _ rfl
  exact ⟨_, rt', rfl, rfl, hdestroy, haccepted⟩

end Nebase.Net.Radix
