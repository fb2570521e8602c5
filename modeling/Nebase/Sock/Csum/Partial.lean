/- The word sum does not depend on the address of its bytes, and partial sums compose. -/

import Nebase.Sock.Csum.DoCsum

set_option autoImplicit false
set_option relaxedAutoImplicit false

namespace Nebase.Sock.Csum

open Nebase.Foundation.OnesComplement

/-- A word is determined by the total it stands for. -/
private theorem ones_unique {x y t : Nat} (hx : x ≤ 65535) (hy : y ≤ 65535) (hxt : Ones x t)
    (hyt : Ones y t) : x = y := by
  obtain ⟨hmod, hzero⟩ := hxt.trans hyt.symm
  have hres : x % 65535 = y % 65535 := hmod
  by_cases hx0 : x = 0
  · rw [hx0, hzero.mp hx0]
  · have hy0 : y ≠ 0 := fun h => hx0 (hzero.mpr h)
    omega

private theorem val_eq_zero_iff (m : Mem) (p len : Nat) :
    val m p len = 0 ↔ ∀ b ∈ bytesAt m p len, b = 0 := by
  induction len generalizing p with
  | zero => simp [bytesAt]
  | succ len ih =>
    rw [val_succ, Nat.add_eq_zero_iff, Nat.mul_eq_zero, ih, bytesAt, List.forall_mem_cons]
    simp

/-- At every address `do_csum` is a 16-bit word that is congruent to the sum of the little-endian
words of its bytes, an odd last byte padded with a zero; it is zero exactly for zero bytes, and two
blocks of the same bytes have the same sum. -/
theorem doCsum_word_sum (m : Mem) (buff : Nat) (len : Int) :
    (doCsum m buff len).toNat < 2 ^ 16 ∧
      (doCsum m buff len).toNat ≡ (words 256 .little (bytesAt m buff len.toNat)).sum [MOD 65535] ∧
      ((doCsum m buff len).toNat = 0 ↔ ∀ b ∈ bytesAt m buff len.toNat, b = 0) ∧
      ∀ (m' : Mem) (buff' : Nat), bytesAt m' buff' len.toNat = bytesAt m buff len.toNat →
        doCsum m' buff' len = doCsum m buff len := by
  obtain ⟨hones, hle⟩ := doCsum_ones m buff len
  have hwords := words_little_stands (b := 256) (M := 65535) rfl (bytesAt m buff len.toNat)
  refine ⟨by omega, (hones.trans hwords.symm).1, ?_, ?_⟩
  · rw [hones.2, val_eq_zero_iff]
  · intro m' buff' hbytes
    obtain ⟨hones', hle'⟩ := doCsum_ones m' buff' len
    have hval : val m' buff' len.toNat = val m buff len.toNat := by
      rw [val, hbytes, val]
    rw [hval] at hones'
    exact UInt32.toNat_inj.mp (ones_unique hle' hle hones' hones)

/-- Seven bytes at an odd address and their copy at an even one. -/
private def copied : Mem := fun a => if a < 10 then UInt8.ofNat (7 * a) else UInt8.ofNat (7 * (a - 9))

theorem doCsum_word_sum_moved : doCsum copied 12 7 = doCsum copied 3 7 := by
  obtain ⟨-, -, -, hsame⟩ := doCsum_word_sum copied 3 7
  exact hsame copied 12 (by decide)

/-- The fold of a sum is determined by the total it stands for. -/
private theorem csumFold_congr {x y : UInt32} {t : Nat} (hx : Ones x.toNat t)
    (hy : Ones y.toNat t) : csumFold x = csumFold y := by
  obtain ⟨w, hw, hwx, hfold⟩ := csumFold_toNat x
  obtain ⟨w', hw', hwy, hfold'⟩ := csumFold_toNat y
  apply UInt16.toNat_inj.mp
  rw [hfold, hfold', ones_unique hw hw' (hwx.trans hx) (hwy.trans hy)]

/-- The partial sums of two blocks, the first of even length, fold to that of the blocks one after
the other, wherever the three lie. -/
theorem csumPartial_compose (m m' m'' : Mem) (a b ab : Nat) (lenA lenB : Nat) (even : 2 ∣ lenA)
    (joined : bytesAt m'' ab (lenA + lenB) = bytesAt m a lenA ++ bytesAt m' b lenB) (s : UInt32) :
    csumFold (csumPartial m' b lenB (csumPartial m a lenA s)) =
      csumFold (csumPartial m'' ab ((lenA + lenB : Nat) : Int) s) := by
  have hfirst := csumPartial_ones m a lenA s
  have hsecond := csumPartial_ones m' b lenB (csumPartial m a lenA s)
  have hwhole := csumPartial_ones m'' ab ((lenA + lenB : Nat) : Int) s
  rw [Int.toNat_natCast] at hfirst hsecond hwhole
  have htotal : Ones (val m'' ab (lenA + lenB)) (val m a lenA + val m' b lenB) := by
    obtain ⟨j, rfl⟩ := even
    rw [val, joined, Nat.ofDigits_append, bytesAt_length, Nat.pow_mul]
    exact (Stands.refl _).add (Stands.unit_pow j _)
  refine csumFold_congr (hsecond.trans ((Stands.refl _).add hfirst)) ?_
  refine hwhole.trans ((htotal.add (Stands.refl _)).trans ?_)
  have he : val m a lenA + val m' b lenB + s.toNat =
      val m' b lenB + (val m a lenA + s.toNat) := by omega
  rw [he]
  exact Stands.refl _

/-- Four bytes at an odd address and three at an even one. -/
theorem csumPartial_compose_copied :
    csumFold (csumPartial copied 16 3 (csumPartial copied 3 4 9)) =
      csumFold (csumPartial copied 12 7 9) :=
  csumPartial_compose copied copied copied 3 16 12 4 3 (by decide) (by decide) 9

end Nebase.Sock.Csum
