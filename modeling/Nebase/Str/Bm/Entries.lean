/- What the entries of `suff` and `bmGs` say about the pattern. -/

import Nebase.Str.Bm.Tables

set_option autoImplicit false
set_option relaxedAutoImplicit false

namespace Nebase.Str.Bm

open Nebase.Foundation.GoodSuffix

private theorem getElem?_eq_bytes {x : List UInt8} {k : Nat} (hk : k < x.length) :
    x[k]? = some (bytes x k) := by
  have hat := byte_at_eq (x := x) (k := k) (by omega) (by omega)
  rwa [byteAt, if_pos (by omega), Int.toNat_natCast] at hat

/-- The common suffixes of the pattern and of its beginning, byte by byte. -/
private theorem common_suffix_bytes {x : List UInt8} {i L : Nat} (hi : i < x.length) :
    CommonSuffix (x.take (i + 1)) x L ↔
      L ≤ i + 1 ∧ ∀ k : Nat, k < L → bytes x (i - k) = bytes x (x.length - 1 - k) := by
  have hlen : (x.take (i + 1)).length = i + 1 := by
    rw [List.length_take]
    omega
  have hat : ∀ k : Nat, k < i + 1 →
      ((x.take (i + 1))[i + 1 - 1 - k]? = x[x.length - 1 - k]? ↔
        bytes x (i - k) = bytes x (x.length - 1 - k)) := by
    intro k hk
    rw [List.getElem?_take_of_lt (by omega), getElem?_eq_bytes (by omega),
      getElem?_eq_bytes (by omega), Option.some.injEq,
      show ((i + 1 - 1 - k : Nat) : Int) = i - k by omega,
      show ((x.length - 1 - k : Nat) : Int) = x.length - 1 - k by omega]
  rw [common_suffix_iff, hlen]
  constructor
  · rintro ⟨hle, -, hagree⟩
    exact ⟨hle, fun k hk => (hat k (by omega)).mp (hagree k hk)⟩
  · rintro ⟨hle, hagree⟩
    exact ⟨hle, by omega, fun k hk => (hat k (by omega)).mpr (hagree k hk)⟩

private theorem suffix_length_greatest {x : List UInt8} {i : Nat} {L : Int} (hi : i < x.length)
    (h : SuffixLength (bytes x) x.length i L) :
    IsGreatest {L | CommonSuffix (x.take (i + 1)) x L} L.toNat := by
  have hnonneg := h.nonneg
  have hle := h.le
  constructor
  · refine (common_suffix_bytes hi).mpr ⟨by omega, ?_⟩
    intro k hk
    exact h.agree k (by omega) (by omega)
  · intro M hM
    obtain ⟨hMi, hagree⟩ := (common_suffix_bytes hi).mp hM
    by_contra hlt
    have hat := hagree L.toNat (by omega)
    rw [Int.toNat_of_nonneg hnonneg] at hat
    exact h.maximal (by omega) hat

/-- `suffixes` reads and writes inside of the pattern and of `suff` only, reads of `suff` what it
has written, and leaves in it the length of the longest common suffix of the pattern and each of
its beginnings. -/
theorem suffixes_longest (x : List UInt8) (hx : x ≠ []) :
    ∃ suff, suffixes x x.length (.uninit x.length) = some suff ∧
      ∀ i : Nat, i < x.length → ∃ L : Nat, suff.read i = some (L : Int) ∧
        IsGreatest {L | CommonSuffix (x.take (i + 1)) x L} L := by
  have hpos := List.length_pos_iff.mpr hx
  obtain ⟨suff, hsuff, -, hlengths⟩ := suffixes_spec (x := x) (m := x.length) (by omega) le_rfl
  refine ⟨suff, hsuff, ?_⟩
  intro i hi
  obtain ⟨L, hread, hL⟩ := hlengths i (by omega) (by omega) (by omega)
  refine ⟨L.toNat, ?_, suffix_length_greatest hi hL⟩
  rw [hread, Int.toNat_of_nonneg hL.nonneg]

/-- A pattern of period 2: the length at index 1 is found by comparing, that at 0 is copied. -/
private def abab : List UInt8 := [97, 98, 97, 98]

theorem suffixes_longest_abab :
    ∃ suff, suffixes abab 4 (.uninit 4) = some suff ∧
      ∀ i : Nat, i < 4 → ∃ L : Nat, suff.read i = some (L : Int) ∧
        IsGreatest {L | CommonSuffix (abab.take (i + 1)) abab L} L :=
  suffixes_longest abab (by decide)

/-- Every entry of `bmGs` is the least good shift, which is at least 1 and at most the length of the
pattern; every access is inside of the pattern, of `suff` and of `bmGs`. -/
theorem preBmGs_least_shift (x : List UInt8) (hx : x ≠ []) :
    ∃ bmGs, preBmGs x x.length (.uninit x.length) = some bmGs ∧
      ∀ i : Int, 0 ≤ i → i < x.length → ∃ v, bmGs.read i = some v ∧ 1 ≤ v ∧ v ≤ x.length ∧
        IsLeast {s | 1 ≤ s ∧
          (∀ k, i < k → k < x.length → k < s ∨ bytes x (k - s) = bytes x k) ∧
          (s ≤ i → bytes x (i - s) ≠ bytes x i)} v := by
  have hpos := List.length_pos_iff.mpr hx
  obtain ⟨bmGs, hgs, hgood⟩ := preBmGs_spec (x := x) (m := x.length) (by omega) le_rfl
  refine ⟨bmGs, hgs, ?_⟩
  intro i h0 hi
  obtain ⟨v, hread, hleast⟩ := hgood i h0 hi
  have hset : {s | GoodShift (bytes x) x.length i s} = {s | 1 ≤ s ∧
      (∀ k, i < k → k < x.length → k < s ∨ bytes x (k - s) = bytes x k) ∧
      (s ≤ i → bytes x (i - s) ≠ bytes x i)} := by
    ext s
    constructor
    · rintro ⟨hs, hagree, hdiffer⟩
      refine ⟨hs, fun k hik hk => ?_, hdiffer⟩
      rcases lt_or_ge k s with hks | hsk
      · exact .inl hks
      · exact .inr (hagree k hik hk hsk)
    · rintro ⟨hs, hagree, hdiffer⟩
      exact ⟨hs, fun k hik hk hsk => (hagree k hik hk).resolve_left (by omega), hdiffer⟩
  refine ⟨v, hread, hleast.1.pos, hleast.2 (good_shift_whole (by omega) hi), ?_⟩
  rwa [← hset]

theorem preBmGs_least_shift_abab :
    ∃ bmGs, preBmGs abab 4 (.uninit 4) = some bmGs ∧
      ∀ i : Int, 0 ≤ i → i < 4 → ∃ v, bmGs.read i = some v ∧ 1 ≤ v ∧ v ≤ 4 ∧
        IsLeast {s | 1 ≤ s ∧
          (∀ k, i < k → k < 4 → k < s ∨ bytes abab (k - s) = bytes abab k) ∧
          (s ≤ i → bytes abab (i - s) ≠ bytes abab i)} v :=
  preBmGs_least_shift abab (by decide)

end Nebase.Str.Bm
