/- One's complement sums of words: what is kept when carries are folded back in, and the words of a
   list of digits. -/

import Mathlib.Data.Nat.ModEq
import Mathlib.Data.Nat.Digits.Defs
import Mathlib.Tactic.Ring

set_option autoImplicit false
set_option relaxedAutoImplicit false

namespace Nebase.Foundation.OnesComplement

/-- One's complement addition below a full word `M`: a carry out comes back in at the low end. -/
def add (M a b : Nat) : Nat := if a + b ≤ M then a + b else a + b - M

/-- The one's complement sum of a list of words. -/
def sum (M : Nat) : List Nat → Nat
  | [] => 0
  | w :: ws => add M w (sum M ws)

/-- `x` stands for the total `t`: they leave the same residue, and are zero together. A plain
residue would not tell the two representations of zero apart. -/
def Stands (M x t : Nat) : Prop := x ≡ t [MOD M] ∧ (x = 0 ↔ t = 0)

variable {M : Nat}

namespace Stands

theorem refl (x : Nat) : Stands M x x := ⟨Nat.ModEq.refl x, Iff.rfl⟩

theorem symm {x t : Nat} (h : Stands M x t) : Stands M t x := ⟨h.1.symm, h.2.symm⟩

theorem trans {x y t : Nat} (h : Stands M x y) (h' : Stands M y t) : Stands M x t :=
  ⟨h.1.trans h'.1, h.2.trans h'.2⟩

theorem add {x y s t : Nat} (h : Stands M x s) (h' : Stands M y t) :
    Stands M (x + y) (s + t) := by
  refine ⟨h.1.add h'.1, ?_⟩
  rw [Nat.add_eq_zero_iff, Nat.add_eq_zero_iff, h.2, h'.2]

theorem mul_left {x t : Nat} (c : Nat) (h : Stands M x t) : Stands M (c * x) (c * t) := by
  refine ⟨h.1.mul_left c, ?_⟩
  rw [Nat.mul_eq_zero, Nat.mul_eq_zero, h.2]

/-- Multiplying by a number that leaves residue one changes nothing. -/
theorem unit (t : Nat) : Stands M ((M + 1) * t) t := by
  constructor
  · have h : (M + 1) * t = t + M * t := by ring
    rw [h]
    exact Nat.add_mul_mod_self_left t M t
  · simp

theorem unit_pow (k t : Nat) : Stands M ((M + 1) ^ k * t) t := by
  induction k with
  | zero => simpa using refl (M := M) t
  | succ k ih =>
      rw [Nat.pow_succ, Nat.mul_comm ((M + 1) ^ k), Nat.mul_assoc]
      exact (unit _).trans ih

/-- Folding the high part of a number onto its low word. -/
theorem fold (x : Nat) : Stands M (x % (M + 1) + x / (M + 1)) x := by
  have h : (M + 1) * (x / (M + 1)) + x % (M + 1) = x := Nat.div_add_mod x (M + 1)
  have hu := (unit (M := M) (x / (M + 1))).symm.add (refl (M := M) (x % (M + 1)))
  rw [h] at hu
  rwa [Nat.add_comm]

/-- What a wider word leaves is left by the words it is made of. -/
theorem of_dvd {N x t : Nat} (hN : M ∣ N) (h : Stands N x t) : Stands M x t :=
  ⟨h.1.of_dvd hN, h.2⟩

/-- A full word that is a multiple of `M` taken off after an overflow. -/
theorem endAround {x N : Nat} (hN : M ∣ N) (h : N < x) : Stands M (x - N) x := by
  refine ⟨?_, by omega⟩
  have hx : x - N + N = x := Nat.sub_add_cancel h.le
  calc x - N ≡ x - N + N [MOD M] := by
        obtain ⟨k, rfl⟩ := hN
        exact (Nat.add_mul_mod_self_left _ M k).symm
    _ = x := hx

/-- What is added to a word to complement it makes the total a nonzero multiple of `M`. -/
theorem complement {x t : Nat} (hM : 0 < M) (h : Stands M x t) (hx : x ≤ M) :
    M ∣ t + (M - x) ∧ t + (M - x) ≠ 0 := by
  constructor
  · have hadd : t + (M - x) ≡ x + (M - x) [MOD M] := h.1.symm.add_right _
    rw [Nat.add_sub_cancel' hx] at hadd
    exact (Nat.modEq_zero_iff_dvd).1 (hadd.trans (Nat.modEq_zero_iff_dvd.2 (dvd_refl M)))
  · intro h0
    have ht : t = 0 := by omega
    have := h.2.2 ht
    omega

end Stands

private theorem add_stands {a b : Nat} : Stands M (add M a b) (a + b) := by
  unfold add
  split
  · exact Stands.refl _
  · rename_i h
    exact Stands.endAround (dvd_refl M) (by omega)

theorem sum_le {ws : List Nat} (h : ∀ w ∈ ws, w ≤ M) : sum M ws ≤ M := by
  induction ws with
  | nil => exact Nat.zero_le M
  | cons w ws ih =>
      have hw := h w List.mem_cons_self
      have hs := ih fun v hv => h v (List.mem_cons_of_mem w hv)
      unfold sum add
      split <;> omega

/-- The one's complement sum stands for the plain sum of the words. -/
theorem sum_stands (ws : List Nat) : Stands M (sum M ws) ws.sum := by
  induction ws with
  | nil => exact Stands.refl 0
  | cons w ws ih =>
      rw [List.sum_cons]
      exact add_stands.trans ((Stands.refl w).add ih)

/-- The sum is the full word exactly when the plain sum is a nonzero multiple of it. -/
theorem sum_eq_full_iff {ws : List Nat} (hM : 0 < M) (h : ∀ w ∈ ws, w ≤ M) :
    sum M ws = M ↔ M ∣ ws.sum ∧ ws.sum ≠ 0 := by
  obtain ⟨hmod, hzero⟩ := sum_stands (M := M) ws
  have hle := sum_le h
  constructor
  · intro he
    rw [he] at hmod hzero
    exact ⟨Nat.modEq_zero_iff_dvd.1 (hmod.symm.trans (Nat.modEq_zero_iff_dvd.2 (dvd_refl M))),
      fun h0 => hM.ne' (hzero.2 h0)⟩
  · rintro ⟨hd, hne⟩
    have hdvd : M ∣ sum M ws :=
      Nat.modEq_zero_iff_dvd.1 (hmod.trans (Nat.modEq_zero_iff_dvd.2 hd))
    have hpos : 0 < sum M ws := Nat.pos_of_ne_zero fun h0 => hne (hzero.1 h0)
    exact le_antisymm hle (Nat.le_of_dvd hpos hdvd)

/-- Which of two neighbouring digits is the low one of their word. -/
inductive ByteOrder
  | little | big
  deriving DecidableEq, Repr

/-- A word of two digits to the base `b`. -/
def word (b : Nat) : ByteOrder → Nat → Nat → Nat
  | .little, x, y => x + b * y
  | .big, x, y => b * x + y

/-- The words of a list of digits, an odd last digit padded with a zero after it. -/
def words (b : Nat) (o : ByteOrder) : List Nat → List Nat
  | [] => []
  | [x] => [word b o x 0]
  | x :: y :: l => word b o x y :: words b o l

/-- In little order the words sum up to what stands for the number the digits write. -/
theorem words_little_stands {b : Nat} (hb : b * b = M + 1) (l : List Nat) :
    Stands M (words b .little l).sum (Nat.ofDigits b l) := by
  fun_induction words b .little l with
  | case1 => exact Stands.refl 0
  | case2 x => simpa [word, Nat.ofDigits] using Stands.refl x
  | case3 x y l ih =>
      have hval : Nat.ofDigits b (x :: y :: l)
          = (x + b * y) + (M + 1) * Nat.ofDigits b l := by
        rw [Nat.ofDigits_cons, Nat.ofDigits_cons, ← hb]
        ring
      rw [List.sum_cons, hval]
      exact (Stands.refl _).add (ih.trans (Stands.unit _).symm)

/-- In big order they sum up to what stands for the number shifted by one digit. -/
theorem words_big_stands {b : Nat} (hb : b * b = M + 1) (l : List Nat) :
    Stands M (words b .big l).sum (b * Nat.ofDigits b l) := by
  fun_induction words b .big l with
  | case1 => exact Stands.refl 0
  | case2 x => simpa [word, Nat.ofDigits] using Stands.refl (b * x)
  | case3 x y l ih =>
      have hval : b * Nat.ofDigits b (x :: y :: l)
          = (b * x + (M + 1) * y) + (M + 1) * (b * Nat.ofDigits b l) := by
        rw [Nat.ofDigits_cons, Nat.ofDigits_cons, ← hb]
        ring
      rw [List.sum_cons, hval]
      exact ((Stands.refl _).add (Stands.unit y).symm).add (ih.trans (Stands.unit _).symm)

private theorem words_le {b : Nat} (hb : b * b = M + 1) (o : ByteOrder) {l : List Nat}
    (hl : ∀ d ∈ l, d < b) : ∀ w ∈ words b o l, w ≤ M := by
  have hword : ∀ x y, x < b → y < b → word b o x y ≤ M := by
    intro x y hx hy
    cases o <;> simp only [word] <;> nlinarith
  fun_induction words b o l with
  | case1 => simp
  | case2 x =>
      intro w hw
      have hx := hl x List.mem_cons_self
      rw [List.mem_singleton.1 hw]
      exact hword x 0 hx (by omega)
  | case3 x y l ih =>
      intro w hw
      rcases List.mem_cons.1 hw with rfl | hw
      · exact hword x y (hl x (by simp)) (hl y (by simp))
      · exact ih (fun d hd => hl d (by simp [hd])) w hw

/-- Digits that write a nonzero multiple of the full word sum up to the full word, in either
order. -/
theorem sum_words_eq_full {b : Nat} (hb : b * b = M + 1) (hM : 0 < M) (o : ByteOrder)
    {l : List Nat} (hl : ∀ d ∈ l, d < b) (hd : M ∣ Nat.ofDigits b l)
    (h0 : Nat.ofDigits b l ≠ 0) : sum M (words b o l) = M := by
  have hbpos : 0 < b := Nat.pos_of_ne_zero fun h => by simp [h] at hb
  rw [sum_eq_full_iff hM (words_le hb o hl)]
  cases o with
  | little =>
      obtain ⟨hmod, hzero⟩ := words_little_stands hb l
      exact ⟨Nat.modEq_zero_iff_dvd.1 (hmod.trans (Nat.modEq_zero_iff_dvd.2 hd)),
        fun h => h0 (hzero.1 h)⟩
  | big =>
      obtain ⟨hmod, hzero⟩ := words_big_stands hb l
      refine ⟨Nat.modEq_zero_iff_dvd.1
        (hmod.trans (Nat.modEq_zero_iff_dvd.2 (hd.mul_left b))), fun h => ?_⟩
      rcases Nat.mul_eq_zero.1 (hzero.1 h) with hb0 | hv
      · omega
      · exact h0 hv

end Nebase.Foundation.OnesComplement
