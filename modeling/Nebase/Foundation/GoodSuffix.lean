/- Occurrences of a pattern in a text, and the shifts that cannot skip one: suffix lengths, periods
   and good suffix shifts of a pattern given as a function on the integers. -/

import Mathlib.Order.Bounds.Basic
import Mathlib.Data.Int.Order.Basic
import Mathlib.Data.List.Basic

set_option autoImplicit false
set_option relaxedAutoImplicit false

namespace Nebase.Foundation.GoodSuffix

universe u

variable {α : Type u} {x t : Int → α} {m : Int}

/-- The pattern `x` of length `m` occurs in `t` at `j`. -/
def Occurs (x t : Int → α) (m j : Int) : Prop :=
  ∀ k, 0 ≤ k → k < m → t (j + k) = x k

/-- `L` is the length of the longest common suffix of `x[0..i]` and `x`. -/
structure SuffixLength (x : Int → α) (m i L : Int) : Prop where
  nonneg : 0 ≤ L
  le : L ≤ i + 1
  agree : ∀ k, 0 ≤ k → k < L → x (i - k) = x (m - 1 - k)
  maximal : L ≤ i → x (i - L) ≠ x (m - 1 - L)

/-- Up to `f` and from just above `g`, the pattern agrees with its own end. -/
def Window (x : Int → α) (m f g : Int) : Prop :=
  ∀ k, g < k → k ≤ f → x k = x (k + (m - 1 - f))

def Period (x : Int → α) (m s : Int) : Prop :=
  ∀ k, s ≤ k → k < m → x (k - s) = x k

/-- The shift `s` is consistent with a match of `x[i+1..m-1]` and a mismatch at `i`. -/
structure GoodShift (x : Int → α) (m i s : Int) : Prop where
  pos : 1 ≤ s
  agree : ∀ k, i < k → k < m → s ≤ k → x (k - s) = x k
  differ : s ≤ i → x (i - s) ≠ x i

theorem suffix_length_last (hm : 0 ≤ m) : SuffixLength x m (m - 1) m where
  nonneg := hm
  le := by omega
  agree := fun _ _ _ => rfl
  maximal := by omega

theorem SuffixLength.unique {i L M : Int} (hL : SuffixLength x m i L)
    (hM : SuffixLength x m i M) : L = M := by
  rcases lt_trichotomy L M with hlt | heq | hgt
  · exact absurd (hM.agree L hL.nonneg hlt) (hL.maximal (by have := hM.le; omega))
  · exact heq
  · exact absurd (hL.agree M hM.nonneg hgt) (hM.maximal (by have := hL.le; omega))

/-- Inside a window the suffix length is that of the corresponding position, if it is short. -/
theorem SuffixLength.copy {f g i L : Int} (window : Window x m f g) (hf : f < m) (hi : i < f)
    (hg : -1 ≤ g) (h : SuffixLength x m (i + m - 1 - f) L) (short : L < i - g) :
    SuffixLength x m i L := by
  have hmap : ∀ k, 0 ≤ k → k ≤ L → x (i - k) = x (i + m - 1 - f - k) := by
    intro k hk hkL
    rw [window (i - k) (by omega) (by omega)]
    congr 1
    omega
  refine ⟨h.nonneg, by omega, ?_, ?_⟩
  · intro k hk hkL
    rw [hmap k hk (by omega)]
    exact h.agree k hk hkL
  · intro _
    rw [hmap L h.nonneg le_rfl]
    exact h.maximal (by omega)

/-- When it is long, the window moves down to the position itself. -/
theorem Window.restart {f g i L : Int} (window : Window x m f g) (hi : i < f)
    (h : SuffixLength x m (i + m - 1 - f) L) (long : i - g ≤ L) : Window x m i g := by
  intro k hgk hki
  rw [window k hgk (by omega)]
  have hagree := h.agree (i - k) (by omega) (by omega)
  rw [show i + m - 1 - f - (i - k) = k + (m - 1 - f) by omega,
    show m - 1 - (i - k) = k + (m - 1 - i) by omega] at hagree
  exact hagree

theorem Window.suffixLength {i g : Int} (window : Window x m i g) (hg : -1 ≤ g) (hgi : g ≤ i)
    (stop : 0 ≤ g → x g ≠ x (g + (m - 1 - i))) : SuffixLength x m i (i - g) := by
  refine ⟨by omega, by omega, ?_, ?_⟩
  · intro k hk hkL
    rw [window (i - k) (by omega) (by omega)]
    congr 1
    omega
  · intro hle
    rw [show i - (i - g) = g by omega, show m - 1 - (i - g) = g + (m - 1 - i) by omega]
    exact stop (by omega)

/-- A prefix that is also a suffix is a period. -/
theorem SuffixLength.eq_iff_period {i L : Int} (h : SuffixLength x m i L) :
    L = i + 1 ↔ Period x m (m - 1 - i) := by
  constructor
  · rintro rfl k hk hkm
    have hagree := h.agree (m - 1 - k) (by omega) (by omega)
    rw [show i - (m - 1 - k) = k - (m - 1 - i) by omega,
      show m - 1 - (m - 1 - k) = k by omega] at hagree
    exact hagree
  · intro hperiod
    by_contra hne
    have hle := h.le
    refine h.maximal (by omega) ?_
    have hagree := hperiod (m - 1 - L) (by omega) (by have := h.nonneg; omega)
    rw [show m - 1 - L - (m - 1 - i) = i - L by omega] at hagree
    exact hagree

theorem good_shift_beyond {i s : Int} (hi : 0 ≤ i) (hs : i < s) :
    GoodShift x m i s ↔ Period x m s := by
  constructor
  · exact fun h k hsk hkm => h.agree k (by omega) hkm hsk
  · exact fun h => ⟨by omega, fun k _ hkm hsk => h k hsk hkm, by omega⟩

/-- The whole length is a good shift everywhere. -/
theorem good_shift_whole {i : Int} (hm : 1 ≤ m) (hi : i < m) : GoodShift x m i m :=
  ⟨hm, by omega, by omega⟩

/-- Each suffix length gives a good shift. -/
theorem SuffixLength.goodShift {i L : Int} (h : SuffixLength x m i L) (hi : i ≤ m - 2) :
    GoodShift x m (m - 1 - L) (m - 1 - i) := by
  refine ⟨by omega, ?_, ?_⟩
  · intro k hk hkm hsk
    have hagree := h.agree (m - 1 - k) (by omega) (by omega)
    rw [show i - (m - 1 - k) = k - (m - 1 - i) by omega,
      show m - 1 - (m - 1 - k) = k by omega] at hagree
    exact hagree
  · intro hle
    rw [show m - 1 - L - (m - 1 - i) = i - L by omega]
    exact h.maximal (by omega)

/-- Each good shift that stays within the pattern is given by a suffix length. -/
theorem GoodShift.suffixLength {i s L : Int} (h : GoodShift x m i s) (hi : i < m) (hs : s ≤ i)
    (hL : SuffixLength x m (m - 1 - s) L) : L = m - 1 - i := by
  refine hL.unique ⟨by omega, by omega, ?_, ?_⟩
  · intro k hk hkL
    have hagree := h.agree (m - 1 - k) (by omega) (by omega) (by omega)
    rw [show m - 1 - k - s = m - 1 - s - k by omega] at hagree
    exact hagree
  · intro _
    rw [show m - 1 - s - (m - 1 - i) = i - s by omega, show m - 1 - (m - 1 - i) = i by omega]
    exact h.differ hs

/-- An occurrence further on is a good shift, seen from a mismatch at `i`. -/
theorem Occurs.goodShift {i j s : Int} (hocc : Occurs x t m (j + s)) (him : i < m)
    (hs : 1 ≤ s) (matched : ∀ k, i < k → k < m → x k = t (k + j)) (mismatch : x i ≠ t (i + j)) :
    GoodShift x m i s := by
  have hat : ∀ k, s ≤ k → k < m → x (k - s) = t (k + j) := by
    intro k hsk hkm
    rw [← hocc (k - s) (by omega) (by omega)]
    congr 1
    omega
  refine ⟨hs, ?_, ?_⟩
  · intro k hik hkm hsk
    rw [hat k hsk hkm, ← matched k hik hkm]
  · intro hsi heq
    rw [hat i hsi him] at heq
    exact mismatch heq.symm

/-- The distances from the end of the pattern at which `c` occurs before its last place, and the
length of the pattern. -/
def Distances (x : Int → α) (m : Int) (c : α) : Set Int :=
  {d | d = m ∨ ∃ k, 0 ≤ k ∧ k < m - 1 ∧ x k = c ∧ d = m - 1 - k}

/-- No occurrence is nearer than the bad character shift. -/
theorem Occurs.badCharacter {i j s b : Int} (hocc : Occurs x t m (j + s)) (him : i < m)
    (hs : 1 ≤ s) (hb : b ∈ lowerBounds (Distances x m (t (i + j)))) :
    b - m + 1 + i ≤ s := by
  by_cases hsi : s ≤ i
  · have hat : x (i - s) = t (i + j) := by
      rw [← hocc (i - s) (by omega) (by omega)]
      congr 1
      omega
    have hle := hb (.inr ⟨i - s, by omega, by omega, hat, rfl⟩)
    omega
  · have hle := hb (.inl rfl)
    omega

/-! Common suffixes of lists. -/

/-- `L` is the length of a common suffix of `a` and `b`. -/
def CommonSuffix (a b : List α) (L : Nat) : Prop :=
  ∃ s, s <:+ a ∧ s <:+ b ∧ s.length = L

private theorem suffix_getElem? {s a : List α} (h : s <:+ a) {k : Nat} (hk : k < s.length) :
    a[a.length - 1 - k]? = s[s.length - 1 - k]? := by
  obtain ⟨front, rfl⟩ := h
  rw [List.length_append, List.getElem?_append_right (by omega)]
  congr 1
  omega

/-- The lists agree on their last `L` entries. -/
theorem common_suffix_iff {a b : List α} {L : Nat} :
    CommonSuffix a b L ↔
      L ≤ a.length ∧ L ≤ b.length ∧ ∀ k, k < L → a[a.length - 1 - k]? = b[b.length - 1 - k]? := by
  constructor
  · rintro ⟨s, ha, hb, rfl⟩
    refine ⟨ha.length_le, hb.length_le, ?_⟩
    intro k hk
    rw [suffix_getElem? ha hk, suffix_getElem? hb hk]
  · rintro ⟨ha, hb, hagree⟩
    refine ⟨a.drop (a.length - L), List.drop_suffix _ _, ?_, by rw [List.length_drop]; omega⟩
    have heq : a.drop (a.length - L) = b.drop (b.length - L) := by
      apply List.ext_getElem?
      intro j
      rw [List.getElem?_drop, List.getElem?_drop]
      by_cases hj : j < L
      · have hlast := hagree (L - 1 - j) (by omega)
        rwa [show a.length - 1 - (L - 1 - j) = a.length - L + j by omega,
          show b.length - 1 - (L - 1 - j) = b.length - L + j by omega] at hlast
      · rw [List.getElem?_eq_none (by omega), List.getElem?_eq_none (by omega)]
    rw [heq]
    exact List.drop_suffix _ _

end Nebase.Foundation.GoodSuffix
