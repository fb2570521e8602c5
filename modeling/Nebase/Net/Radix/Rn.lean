/- The rn_* functions of the radix tree library: an exact map from keys and masks to nodes, with
   a match that prefers the most specific mask. -/

import Mathlib.Data.List.MinMax
import Mathlib.Data.Finset.Card
import Mathlib.Data.Finset.Filter
import Mathlib.Data.Finset.Range

set_option autoImplicit false
set_option relaxedAutoImplicit false

namespace Nebase.Net.Radix

/-- The address of a `struct neb_net_radix_entry`; its first member is its radix node. -/
abbrev EntryAddr := Nat

/-- Bit `i` of a string of bytes, the first bit of a byte being its highest. -/
def bit (v : List UInt8) (i : Nat) : Bool :=
  (v.getD (i / 8) 0).toNat.testBit (7 - i % 8)

theorem bit_beyond {v : List UInt8} {i : Nat} (h : 8 * v.length ≤ i) : bit v i = false := by
  have hlen : v.length ≤ i / 8 := by omega
  simp [bit, List.getD_eq_getElem?_getD, hlen]

/-- The address `v` agrees with the key `k` in all bits of the mask `m`. -/
def Covers (k m v : List UInt8) : Prop :=
  ∀ i, bit m i = true → bit v i = bit k i

/-- The mask `m` has all bits of `n` and more. -/
def MoreSpecific (m n : List UInt8) : Prop :=
  (∀ i, bit n i = true → bit m i = true) ∧ ∃ i, bit m i = true ∧ bit n i = false

/-- What a key or a mask is compared by: its bytes from the head offset up to the length that its
first byte gives. -/
def comparedBytes (offset : Nat) (v : List UInt8) : List UInt8 :=
  (v.take (v.getD 0 0).toNat).drop offset

/-- The functions of `net/radix.h`; `H` is a head with its tree. `addroute` and `delete` give back
`none` where the C functions return `NULL`. -/
structure RnOps (H : Type) where
  inithead : Nat → H
  addroute : List UInt8 → List UInt8 → H → EntryAddr → Option H
  lookup : List UInt8 → List UInt8 → H → Option EntryAddr
  delete : List UInt8 → List UInt8 → H → Option (EntryAddr × H)
  matchKey : List UInt8 → H → Option EntryAddr

abbrev Routes := List UInt8 → List UInt8 → Option EntryAddr

def Routes.set (c : Routes) (k m : List UInt8) (n : Option EntryAddr) : Routes :=
  fun k' m' => if k' = k ∧ m' = m then n else c k' m'

@[simp] theorem Routes.set_self (c : Routes) (k m : List UInt8) (n : Option EntryAddr) :
    c.set k m n k m = n := by
  simp [Routes.set]

theorem Routes.set_of_ne (c : Routes) {k m k' m' : List UInt8} (n : Option EntryAddr)
    (h : ¬ (k' = k ∧ m' = m)) : c.set k m n k' m' = c k' m' := by
  simp [Routes.set, h]

/-- An assumption: `ops` is an exact map with most specific match, on trees made for the head offset
`offset` (in bytes); `routes` reads the map off a head. `addroute` may fail on its own allocations.
`radix.c` does not meet it everywhere: its `rn_match` answers `NULL` for the address whose bits are
all set, where the search ends at the right root leaf, and its `rn_delete` refuses keys with bits
outside the mask. -/
structure RnLaws {H : Type} (ops : RnOps H) (offset : Nat) (routes : H → Routes) : Prop where
  inithead : ∀ k m, routes (ops.inithead (offset <<< 3)) k m = none
  addroute_new : ∀ v m h n h', ops.addroute v m h n = some h' →
    routes h (comparedBytes offset v) (comparedBytes offset m) = none ∧
    routes h' = (routes h).set (comparedBytes offset v) (comparedBytes offset m) (some n)
  lookup : ∀ v m h,
    ops.lookup v m h = routes h (comparedBytes offset v) (comparedBytes offset m)
  delete_some : ∀ v m h n, routes h (comparedBytes offset v) (comparedBytes offset m) = some n →
    ∃ h', ops.delete v m h = some (n, h') ∧
      routes h' = (routes h).set (comparedBytes offset v) (comparedBytes offset m) none
  delete_none : ∀ v m h, routes h (comparedBytes offset v) (comparedBytes offset m) = none →
    ops.delete v m h = none
  match_some : ∀ v h n, ops.matchKey v h = some n → ∃ k m, routes h k m = some n ∧
    Covers k m (comparedBytes offset v) ∧
    ∀ k' m', routes h k' m' ≠ none → Covers k' m' (comparedBytes offset v) → ¬ MoreSpecific m' m
  match_none : ∀ v h, ops.matchKey v h = none →
    ∀ k m, routes h k m ≠ none → ¬ Covers k m (comparedBytes offset v)

/-- The mask `m` is a prefix, and the key `k` has no bits beyond it. -/
def IsPrefix (k m : List UInt8) : Prop :=
  ∃ n, (∀ i, bit m i = decide (i < n)) ∧ ∀ i, n ≤ i → bit k i = false

/-- What holds of all keys, also of those with bits outside their mask: such a key is stored as it
is, but a lookup may find another route than the one it asks for. -/
structure RnKeyLaws {H : Type} (ops : RnOps H) (offset : Nat) (routes : H → Routes) : Prop where
  inithead : ∀ k m, routes (ops.inithead (offset <<< 3)) k m = none
  addroute_new : ∀ v m h n h', ops.addroute v m h n = some h' →
    routes h (comparedBytes offset v) (comparedBytes offset m) = none ∧
    routes h' = (routes h).set (comparedBytes offset v) (comparedBytes offset m) (some n)
  lookup_stored : ∀ v m h n, routes h (comparedBytes offset v) (comparedBytes offset m) = some n →
    ops.lookup v m h = some n
  lookup_prefix : ∀ v m h n, (∀ k m', routes h k m' ≠ none → IsPrefix k m') →
    IsPrefix (comparedBytes offset v) (comparedBytes offset m) → ops.lookup v m h = some n →
    routes h (comparedBytes offset v) (comparedBytes offset m) = some n
  delete_stored : ∀ v m h n h', ops.delete v m h = some (n, h') →
    routes h (comparedBytes offset v) (comparedBytes offset m) = some n ∧
    routes h' = (routes h).set (comparedBytes offset v) (comparedBytes offset m) none

theorem RnLaws.keys {H : Type} {ops : RnOps H} {offset : Nat} {routes : H → Routes}
    (laws : RnLaws ops offset routes) : RnKeyLaws ops offset routes where
  inithead := laws.inithead
  addroute_new := laws.addroute_new
  lookup_stored := fun v m h n hn => by rw [laws.lookup, hn]
  lookup_prefix := fun v m h n _ _ hn => by rw [← laws.lookup, hn]
  delete_stored := by
    intro v m h n h' hdel
    cases hroute : routes h (comparedBytes offset v) (comparedBytes offset m) with
    | none =>
      rw [laws.delete_none v m h hroute] at hdel
      cases hdel
    | some n =>
      obtain ⟨h1, hdel1, hroutes⟩ := laws.delete_some v m h n hroute
      rw [hdel1] at hdel
      obtain ⟨rfl, rfl⟩ := Prod.mk.inj (Option.some.inj hdel)
      exact ⟨rfl, hroutes⟩

/-! A list of routes meets the laws. -/

structure Route where
  key : List UInt8
  mask : List UInt8
  node : EntryAddr

def listRoutes (h : List Route) : Routes :=
  fun k m => (h.find? (fun r => r.key = k ∧ r.mask = m)).map (·.node)

/-- `Covers` as a test: a mask has no bits beyond its bytes. -/
def coversTest (k m v : List UInt8) : Bool :=
  (List.range (8 * m.length)).all (fun i => !bit m i || bit v i == bit k i)

def bitCount (m : List UInt8) : Nat :=
  ((Finset.range (8 * m.length)).filter (fun i => bit m i = true)).card

def listMatch (v : List UInt8) (h : List Route) : Option Route :=
  (h.filter (fun r => coversTest r.key r.mask v)).argmax (fun r => bitCount r.mask)

def listOps (offset : Nat) : RnOps (List Route) where
  inithead := fun _ => []
  addroute := fun v m h n =>
    if (listRoutes h (comparedBytes offset v) (comparedBytes offset m)).isSome then
      none
    else
      some (⟨comparedBytes offset v, comparedBytes offset m, n⟩ :: h)
  lookup := fun v m h => listRoutes h (comparedBytes offset v) (comparedBytes offset m)
  delete := fun v m h =>
    (listRoutes h (comparedBytes offset v) (comparedBytes offset m)).map (fun n =>
      (n, h.filter (fun r => ¬ (r.key = comparedBytes offset v ∧ r.mask = comparedBytes offset m))))
  matchKey := fun v h =>
    (listMatch (comparedBytes offset v) h).bind (fun r => listRoutes h r.key r.mask)

theorem covers_test_iff (k m v : List UInt8) : coversTest k m v = true ↔ Covers k m v := by
  unfold coversTest Covers
  rw [List.all_eq_true]
  constructor
  · intro h i hi
    by_cases hlt : i < 8 * m.length
    · have htest := h i (List.mem_range.mpr hlt)
      simpa [hi] using htest
    · rw [bit_beyond (by omega)] at hi
      cases hi
  · intro h i _
    cases hi : bit m i with
    | false => simp
    | true => simp [h i hi]

theorem bit_count_lt {m n : List UInt8} (h : MoreSpecific m n) : bitCount n < bitCount m := by
  obtain ⟨hsub, i, hm, hn⟩ := h
  have hlt : ∀ j, bit m j = true → j < 8 * m.length := by
    intro j hj
    by_contra hge
    rw [bit_beyond (by omega)] at hj
    cases hj
  apply Finset.card_lt_card
  refine ⟨?_, ?_⟩
  · intro j hj
    obtain ⟨-, hj⟩ := Finset.mem_filter.mp hj
    exact Finset.mem_filter.mpr ⟨Finset.mem_range.mpr (hlt j (hsub j hj)), hsub j hj⟩
  · intro hle
    have hi := hle (Finset.mem_filter.mpr ⟨Finset.mem_range.mpr (hlt i hm), hm⟩)
    rw [(Finset.mem_filter.mp hi).2] at hn
    cases hn

private theorem list_routes_ne_none {h : List Route} {k m : List UInt8} :
    listRoutes h k m ≠ none ↔ ∃ r ∈ h, r.key = k ∧ r.mask = m := by
  simp [listRoutes]

theorem list_laws (offset : Nat) : RnLaws (listOps offset) offset listRoutes where
  inithead := fun _ _ => rfl
  addroute_new := by
    intro v m h n h' hadd
    simp only [listOps] at hadd
    split_ifs at hadd with hsome
    obtain rfl := Option.some.inj hadd
    refine ⟨by simpa using hsome, ?_⟩
    funext k' m'
    simp only [listRoutes, Routes.set, List.find?_cons]
    by_cases hkm : k' = comparedBytes offset v ∧ m' = comparedBytes offset m
    · simp [hkm]
    · have hne : ¬ (comparedBytes offset v = k' ∧ comparedBytes offset m = m') :=
        fun h => hkm ⟨h.1.symm, h.2.symm⟩
      simp [hkm, hne]
  lookup := fun _ _ _ => rfl
  delete_some := by
    intro v m h n hn
    refine ⟨_, by simp only [listOps, hn, Option.map_some]; rfl, ?_⟩
    funext k' m'
    simp only [listRoutes, Routes.set]
    by_cases hkm : k' = comparedBytes offset v ∧ m' = comparedBytes offset m
    · rw [if_pos hkm, Option.map_eq_none_iff, List.find?_eq_none]
      intro r hr
      have hout := (List.mem_filter.mp hr).2
      simpa [hkm.1, hkm.2, ← imp_iff_not_or] using hout
    · rw [if_neg hkm, List.find?_filter]
      congr 2
      funext r
      by_cases hr : r.key = k' ∧ r.mask = m'
      · simp only [hr.1, hr.2, hkm]
        simp
      · simp [hr]
  delete_none := by
    intro v m h hnone
    simp only [listOps, hnone, Option.map_none]
  match_some := by
    intro v h n hn
    obtain ⟨r, hr, hroute⟩ := Option.bind_eq_some_iff.mp hn
    have hmem := List.mem_filter.mp (List.argmax_mem hr)
    refine ⟨r.key, r.mask, hroute, (covers_test_iff _ _ _).mp hmem.2, ?_⟩
    intro k' m' hne hcov hspec
    obtain ⟨r', hr', rfl, rfl⟩ := list_routes_ne_none.mp hne
    have hle := List.le_of_mem_argmax
      (List.mem_filter.mpr ⟨hr', (covers_test_iff _ _ _).mpr hcov⟩) hr
    exact absurd (bit_count_lt hspec) (not_lt.mpr hle)
  match_none := by
    intro v h hnone k m hne hcov
    obtain ⟨r, hr, rfl, rfl⟩ := list_routes_ne_none.mp hne
    have hin : r ∈ h.filter (fun r => coversTest r.key r.mask (comparedBytes offset v)) :=
      List.mem_filter.mpr ⟨hr, (covers_test_iff _ _ _).mpr hcov⟩
    simp only [listOps] at hnone
    cases hmatch : listMatch (comparedBytes offset v) h with
    | none =>
      rw [List.argmax_eq_none.mp hmatch] at hin
      simp at hin
    | some r' =>
      rw [hmatch, Option.bind_some] at hnone
      have hmem := (List.mem_filter.mp (List.argmax_mem hmatch)).1
      exact list_routes_ne_none.mpr ⟨r', hmem, rfl, rfl⟩ hnone

end Nebase.Net.Radix
