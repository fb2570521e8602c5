/- Decimal numbers as ASCII bytes, most significant digit first, and how atoi reads them back. -/

import Mathlib.Data.List.TakeWhile
import Mathlib.Data.Nat.Log
import Mathlib.Tactic.Ring

set_option autoImplicit false
set_option relaxedAutoImplicit false

namespace Nebase.Foundation.Decimal

def digit (d : Nat) : UInt8 := UInt8.ofNat (48 + d)

private def decimalLoop : Nat → Nat → List UInt8
  | 0, _ => []
  | k + 1, n => if n < 10 then [digit n] else decimalLoop k (n / 10) ++ [digit (n % 10)]

/-- What `%d` prints for `n`. -/
def decimal (n : Nat) : List UInt8 := decimalLoop (n + 1) n

private theorem decimal_loop_eq {j k n : Nat} (hj : n < j) (hk : n < k) :
    decimalLoop j n = decimalLoop k n := by
  induction j generalizing k n with
  | zero => omega
  | succ j ih =>
    cases k with
    | zero => omega
    | succ k =>
      unfold decimalLoop
      split
      · rfl
      · rw [ih (n := n / 10) (k := k) (by omega) (by omega)]

theorem decimal_of_lt {n : Nat} (h : n < 10) : decimal n = [digit n] := by
  unfold decimal decimalLoop
  rw [if_pos h]

theorem decimal_of_le {n : Nat} (h : 10 ≤ n) :
    decimal n = decimal (n / 10) ++ [digit (n % 10)] := by
  unfold decimal
  rw [decimalLoop, if_neg (by omega), decimal_loop_eq (j := n) (k := n / 10 + 1) (by omega)
    (by omega)]

def isDigit (b : UInt8) : Bool := 48 ≤ b.toNat && b.toNat ≤ 57

/-- The number that the digits at the front stand for, after the number `acc`. -/
def leadingNumber (acc : Nat) : List UInt8 → Nat
  | [] => acc
  | b :: bs => if isDigit b then leadingNumber (acc * 10 + (b.toNat - 48)) bs else acc

private theorem digit_toNat {d : Nat} (h : d < 10) : (digit d).toNat = 48 + d := by
  unfold digit
  rw [UInt8.toNat_ofNat']
  omega

private theorem is_digit_digit {d : Nat} (h : d < 10) : isDigit (digit d) = true := by
  unfold isDigit
  rw [digit_toNat h]
  simp only [Bool.and_eq_true, decide_eq_true_eq]
  omega

theorem isDigit_of_mem_decimal {n : Nat} {b : UInt8} (hb : b ∈ decimal n) : isDigit b = true := by
  induction n using Nat.strong_induction_on with
  | _ n ih =>
    by_cases h : n < 10
    · rw [decimal_of_lt h, List.mem_singleton] at hb
      rw [hb]
      exact is_digit_digit h
    · rw [decimal_of_le (by omega), List.mem_append, List.mem_singleton] at hb
      rcases hb with hb | rfl
      · exact ih (n / 10) (by omega) hb
      · exact is_digit_digit (by omega)

theorem leadingNumber_append {xs : List UInt8} (digits : ∀ b ∈ xs, isDigit b = true) (acc : Nat)
    (ys : List UInt8) :
    leadingNumber acc (xs ++ ys) = leadingNumber (leadingNumber acc xs) ys := by
  induction xs generalizing acc with
  | nil => rfl
  | cons b bs ih =>
    have hb := digits b List.mem_cons_self
    simp only [List.cons_append, leadingNumber, hb, if_true]
    exact ih (fun c hc => digits c (List.mem_cons_of_mem b hc)) _

theorem leadingNumber_acc {xs : List UInt8} (digits : ∀ b ∈ xs, isDigit b = true) (acc : Nat) :
    leadingNumber acc xs = acc * 10 ^ xs.length + leadingNumber 0 xs := by
  induction xs generalizing acc with
  | nil => simp [leadingNumber]
  | cons b bs ih =>
    have hb := digits b List.mem_cons_self
    have hbs := ih (fun c hc => digits c (List.mem_cons_of_mem b hc))
    simp only [leadingNumber, hb, if_true, List.length_cons]
    rw [hbs, hbs (0 * 10 + _), pow_succ]
    ring

theorem leadingNumber_decimal (n : Nat) : leadingNumber 0 (decimal n) = n := by
  induction n using Nat.strong_induction_on with
  | _ n ih =>
    by_cases h : n < 10
    · rw [decimal_of_lt h]
      simp only [leadingNumber, is_digit_digit h, if_true, digit_toNat h]
      omega
    · have hlast : n % 10 < 10 := by omega
      rw [decimal_of_le (by omega), leadingNumber_append (fun b hb => isDigit_of_mem_decimal hb),
        ih (n / 10) (by omega)]
      simp only [leadingNumber, is_digit_digit hlast, if_true, digit_toNat hlast]
      omega

theorem leadingNumber_lt {xs : List UInt8} (digits : ∀ b ∈ xs, isDigit b = true) :
    leadingNumber 0 xs < 10 ^ xs.length := by
  induction xs with
  | nil => simp [leadingNumber]
  | cons b bs ih =>
    have hbs : ∀ c ∈ bs, isDigit c = true := fun c hc => digits c (List.mem_cons_of_mem b hc)
    have hb := digits b List.mem_cons_self
    have hval : b.toNat - 48 ≤ 9 := by
      unfold isDigit at hb
      simp only [Bool.and_eq_true, decide_eq_true_eq] at hb
      omega
    simp only [leadingNumber, hb, if_true, List.length_cons]
    rw [leadingNumber_acc hbs, pow_succ]
    have hlt := ih hbs
    have hmul := Nat.mul_le_mul_right (10 ^ bs.length) hval
    rw [Nat.zero_mul, Nat.zero_add]
    omega

theorem decimal_length_pos (n : Nat) : 0 < (decimal n).length := by
  by_cases h : n < 10
  · rw [decimal_of_lt h]
    exact Nat.one_pos
  · rw [decimal_of_le (by omega)]
    simp

/-- There is no leading zero. -/
theorem pow_le_of_decimal {n : Nat} (pos : 0 < n) : 10 ^ ((decimal n).length - 1) ≤ n := by
  induction n using Nat.strong_induction_on with
  | _ n ih =>
    by_cases h : n < 10
    · rw [decimal_of_lt h]
      exact pos
    · have hrest := ih (n / 10) (by omega) (by omega)
      have hlen := decimal_length_pos (n / 10)
      rw [decimal_of_le (by omega), List.length_append, List.length_singleton,
        Nat.add_sub_cancel]
      obtain ⟨m, hm⟩ := Nat.exists_eq_add_of_lt hlen
      rw [hm] at hrest ⊢
      simp only [Nat.zero_add, Nat.add_sub_cancel] at hrest ⊢
      rw [pow_succ]
      omega

theorem decimal_length_le {n m : Nat} (pos : 0 < n) (h : n < 10 ^ m) : (decimal n).length ≤ m := by
  have hle := (pow_le_of_decimal pos).trans_lt h
  have hlt := (Nat.pow_lt_pow_iff_right (by omega)).1 hle
  omega

/-- Without its first digits a number is smaller. -/
theorem leadingNumber_drop_lt {n k : Nat} (pos : 0 < n) (hk : 0 < k) :
    leadingNumber 0 ((decimal n).drop k) < n := by
  have hdigits : ∀ b ∈ (decimal n).drop k, isDigit b = true :=
    fun b hb => isDigit_of_mem_decimal (List.mem_of_mem_drop hb)
  calc leadingNumber 0 ((decimal n).drop k)
      < 10 ^ ((decimal n).drop k).length := leadingNumber_lt hdigits
    _ ≤ 10 ^ ((decimal n).length - 1) := by
        apply Nat.pow_le_pow_right (by omega)
        rw [List.length_drop]
        omega
    _ ≤ n := pow_le_of_decimal pos

/-! Reading. -/

def isspace (b : UInt8) : Bool := b = 32 || (9 ≤ b.toNat && b.toNat ≤ 13)

/-- `strtol(s, NULL, 10)` on the bytes before the end of the string. -/
def strtol (s : List UInt8) : Int :=
  let t := s.dropWhile isspace
  if t.head? = some 45 then
    max (-(leadingNumber 0 t.tail : Int)) (-9223372036854775808)
  else if t.head? = some 43 then
    min (leadingNumber 0 t.tail : Int) 9223372036854775807
  else
    min (leadingNumber 0 t : Int) 9223372036854775807

/-- `strtoul(s, NULL, 10)` and `strtoull(s, NULL, 10)`: a minus sign negates the unsigned number. -/
def strtoul (s : List UInt8) : Nat :=
  let t := s.dropWhile isspace
  if t.head? = some 45 then
    if leadingNumber 0 t.tail < 2 ^ 64 then
      (2 ^ 64 - leadingNumber 0 t.tail) % 2 ^ 64
    else
      2 ^ 64 - 1
  else if t.head? = some 43 then
    min (leadingNumber 0 t.tail) (2 ^ 64 - 1)
  else
    min (leadingNumber 0 t) (2 ^ 64 - 1)

/-- Where `strtol(s, &endptr, 10)` sets `endptr`: behind the digits, and at the start if there are
none. -/
def strtolEnd (s : List UInt8) : List UInt8 :=
  let t := s.dropWhile isspace
  let u := if t.head? = some 45 ∨ t.head? = some 43 then t.tail else t
  if (u.takeWhile isDigit).isEmpty then s else u.dropWhile isDigit

/-- `(int) strtol(s, NULL, 10)`. -/
def atoi (s : List UInt8) : Int := (strtol s).bmod 4294967296

private theorem plain_of_digit {b : UInt8} (h : isDigit b = true) :
    isspace b = false ∧ b ≠ 45 ∧ b ≠ 43 := by
  unfold isDigit at h
  simp only [Bool.and_eq_true, decide_eq_true_eq] at h
  have hne : ∀ c : UInt8, c.toNat < 48 → b ≠ c := by
    intro c hc hb
    rw [hb] at h
    omega
  refine ⟨?_, hne 45 (by decide), hne 43 (by decide)⟩
  unfold isspace
  have h32 := hne 32 (by decide)
  simp only [h32, decide_false, Bool.false_or, Bool.and_eq_false_iff, decide_eq_false_iff_not]
  omega

/-- What is no digit adds nothing behind a number. -/
private theorem leadingNumber_concat {c : UInt8} (hc : isDigit c = false) (s : List UInt8)
    (acc : Nat) : leadingNumber acc (s ++ [c]) = leadingNumber acc s := by
  induction s generalizing acc with
  | nil => simp [leadingNumber, hc]
  | cons b bs ih =>
    rw [List.cons_append, leadingNumber, leadingNumber, ih]

/-- A space behind the number does not change it. -/
theorem strtoul_concat {c : UInt8} (hspace : isspace c = true) (hc : isDigit c = false)
    (s : List UInt8) : strtoul (s ++ [c]) = strtoul s := by
  unfold strtoul
  rw [List.dropWhile_append]
  cases hrest : s.dropWhile isspace with
  | nil => simp [hspace]
  | cons b bs =>
    have hall : leadingNumber 0 (b :: bs ++ [c]) = leadingNumber 0 (b :: bs) :=
      leadingNumber_concat hc (b :: bs) 0
    have htail : leadingNumber 0 (bs ++ [c]) = leadingNumber 0 bs := leadingNumber_concat hc bs 0
    simp only [List.isEmpty_cons, Bool.false_eq_true, if_false, List.cons_append,
      List.head?_cons, List.tail_cons, htail]
    rw [← List.cons_append, hall]
    rfl

theorem strtol_digits {s : List UInt8} (digits : ∀ b ∈ s, isDigit b = true) :
    strtol s = min (leadingNumber 0 s : Int) 9223372036854775807 := by
  cases s with
  | nil => rfl
  | cons b bs =>
    obtain ⟨hspace, hminus, hplus⟩ := plain_of_digit (digits b List.mem_cons_self)
    unfold strtol
    simp only [List.dropWhile_cons, hspace, Bool.false_eq_true, if_false, List.head?_cons,
      Option.some.injEq, hminus, hplus]

/-- A string that starts with a digit is read to its end when it has digits only. -/
theorem strtolEnd_eq_nil_iff {b : UInt8} {bs : List UInt8} (h : isDigit b = true) :
    strtolEnd (b :: bs) = [] ↔ ∀ c ∈ b :: bs, isDigit c = true := by
  obtain ⟨hspace, hminus, hplus⟩ := plain_of_digit h
  unfold strtolEnd
  simp only [List.dropWhile_cons, hspace, Bool.false_eq_true, if_false, List.head?_cons,
    Option.some.injEq, hminus, hplus, or_self, List.takeWhile_cons, h, if_true, List.isEmpty_cons,
    List.dropWhile_eq_nil_iff, List.forall_mem_cons, true_and]

/-- Digits that fit an `int` are read as their number. -/
theorem atoi_digits {s : List UInt8} (digits : ∀ b ∈ s, isDigit b = true)
    (fits : leadingNumber 0 s ≤ 2147483647) : atoi s = leadingNumber 0 s := by
  unfold atoi
  rw [strtol_digits digits, min_eq_left (by omega)]
  exact Int.bmod_eq_of_le (by omega) (by omega)

end Nebase.Foundation.Decimal
