/- Unsigned numbers in byte strings: written in either byte order, and read at an offset. -/

import Mathlib.Data.List.Basic
import Mathlib.Tactic.Ring

set_option autoImplicit false
set_option relaxedAutoImplicit false

namespace Nebase.Foundation.ByteOrder

/-- The number that these bytes stand for, the first one being the lowest. -/
def value : List UInt8 → Nat
  | [] => 0
  | b :: bs => b.toNat + 256 * value bs

/-- The lowest `n` bytes of a number, the lowest one first. -/
def digits : Nat → Nat → List UInt8
  | 0, _ => []
  | n + 1, v => UInt8.ofNat v :: digits n (v / 256)

def inOrder (bigEndian : Bool) (bs : List UInt8) : List UInt8 :=
  if bigEndian then bs.reverse else bs

/-- A number in `n` bytes. -/
def word (bigEndian : Bool) (n v : Nat) : List UInt8 := inOrder bigEndian (digits n v)

/-- The number in the `n` bytes at this offset, `none` where they are not all there. -/
def wordAt (bigEndian : Bool) (n : Nat) (bs : List UInt8) (offset : Nat) : Option Nat :=
  if offset + n ≤ bs.length then
    some (value (inOrder bigEndian ((bs.drop offset).take n)))
  else
    none

theorem value_digits {n v : Nat} (h : v < 256 ^ n) : value (digits n v) = v := by
  induction n generalizing v with
  | zero =>
    obtain rfl : v = 0 := by simpa using h
    rfl
  | succ n ih =>
    have hrest : v / 256 < 256 ^ n := Nat.div_lt_of_lt_mul (by rwa [← pow_succ'])
    rw [digits, value, ih hrest, UInt8.toNat_ofNat']
    exact Nat.mod_add_div v 256

theorem value_lt (bs : List UInt8) : value bs < 256 ^ bs.length := by
  induction bs with
  | nil => exact Nat.one_pos
  | cons b bs ih =>
    have hb := b.toNat_lt
    rw [value, List.length_cons, pow_succ']
    omega

@[simp] theorem length_digits (n v : Nat) : (digits n v).length = n := by
  induction n generalizing v with
  | zero => rfl
  | succ n ih => rw [digits, List.length_cons, ih]

@[simp] theorem length_in_order (bigEndian : Bool) (bs : List UInt8) :
    (inOrder bigEndian bs).length = bs.length := by
  cases bigEndian with
  | false => rfl
  | true => exact List.length_reverse

@[simp] theorem length_word (bigEndian : Bool) (n v : Nat) : (word bigEndian n v).length = n := by
  rw [word, length_in_order, length_digits]

theorem in_order_in_order (bigEndian : Bool) (bs : List UInt8) :
    inOrder bigEndian (inOrder bigEndian bs) = bs := by
  cases bigEndian with
  | false => rfl
  | true => exact List.reverse_reverse bs

/-- What was written is read. -/
theorem word_at_word (bigEndian : Bool) {n v : Nat} (h : v < 256 ^ n) (pre post : List UInt8) :
    wordAt bigEndian n (pre ++ (word bigEndian n v ++ post)) pre.length = some v := by
  have hroom : pre.length + n ≤ (pre ++ (word bigEndian n v ++ post)).length := by
    simp only [List.length_append, length_word]
    omega
  rw [wordAt, if_pos hroom, List.drop_left, List.take_left' (length_word bigEndian n v), word,
    in_order_in_order, value_digits h]

/-- A field of a record is read at its offset. -/
theorem word_at_field (bigEndian : Bool) {n v offset : Nat} {bs pre post : List UInt8}
    (h : v < 256 ^ n) (hbs : bs = pre ++ (word bigEndian n v ++ post))
    (hpre : pre.length = offset) :
    wordAt bigEndian n bs offset = some v := by
  subst hbs hpre
  exact word_at_word bigEndian h pre post

/-- Reads behind a common beginning. -/
theorem word_at_append (bigEndian : Bool) (n : Nat) (pre bs : List UInt8) (offset : Nat) :
    wordAt bigEndian n (pre ++ bs) (pre.length + offset) = wordAt bigEndian n bs offset := by
  unfold wordAt
  rw [List.drop_append, List.drop_of_length_le (Nat.le_add_right _ _), List.nil_append,
    Nat.add_sub_cancel_left, List.length_append, Nat.add_assoc]
  simp only [Nat.add_le_add_iff_left]

/-- Reads in front of what follows. -/
theorem word_at_left {bigEndian : Bool} {n offset : Nat} {bs : List UInt8}
    (h : offset + n ≤ bs.length) (post : List UInt8) :
    wordAt bigEndian n (bs ++ post) offset = wordAt bigEndian n bs offset := by
  have hroom : offset + n ≤ (bs ++ post).length := by
    rw [List.length_append]
    omega
  rw [wordAt, if_pos hroom, wordAt, if_pos h, List.drop_append_of_le_length (by omega),
    List.take_append_of_le_length (by rw [List.length_drop]; omega)]

theorem word_at_inside (bigEndian : Bool) {n offset : Nat} {bs : List UInt8}
    (h : offset + n ≤ bs.length) : ∃ v, wordAt bigEndian n bs offset = some v ∧ v < 256 ^ n := by
  refine ⟨_, if_pos h, ?_⟩
  have hlen : (inOrder bigEndian ((bs.drop offset).take n)).length = n := by
    rw [length_in_order, List.length_take, List.length_drop]
    omega
  have hlt := value_lt (inOrder bigEndian ((bs.drop offset).take n))
  rwa [hlen] at hlt

theorem word_at_outside (bigEndian : Bool) {n offset : Nat} {bs : List UInt8}
    (h : bs.length < offset + n) : wordAt bigEndian n bs offset = none :=
  if_neg (by omega)

end Nebase.Foundation.ByteOrder
