/- The value of the word sums: one's complement sums of the bytes, at every alignment. -/

import Nebase.Foundation.OnesComplement
import Nebase.Sock.Csum.Model

set_option autoImplicit false
set_option relaxedAutoImplicit false

namespace Nebase.Sock.Csum

open Nebase.Foundation.OnesComplement

/-- `x` is the one's complement value of the total `t` in 16-bit words. -/
abbrev Ones (x t : Nat) : Prop := Stands 65535 x t

/-- The fold that `do_csum`, `from32to16` and `csum_fold` share. -/
def fold16 (x : UInt32) : UInt32 := (x &&& (0xffff : UInt32)) + (x >>> (16 : UInt32))

@[simp] theorem fold16_toNat (x : UInt32) :
    (fold16 x).toNat = x.toNat % 65536 + x.toNat / 65536 := by
  have hx := x.toNat_lt
  have hlow : (x &&& (0xffff : UInt32)).toNat = x.toNat % 65536 := by
    rw [UInt32.toNat_and]
    exact Nat.and_two_pow_sub_one_eq_mod x.toNat 16
  have hhigh : (x >>> (16 : UInt32)).toNat = x.toNat / 65536 := by
    rw [UInt32.toNat_shiftRight]
    exact Nat.shiftRight_eq_div_pow x.toNat 16
  rw [fold16, UInt32.toNat_add, hlow, hhigh]
  omega

theorem fold16_ones (x : UInt32) : Ones (fold16 x).toNat x.toNat := by
  rw [fold16_toNat]
  exact Stands.fold x.toNat

/-- Two folds leave a single word. -/
theorem fold16_twice_le (x : UInt32) : (fold16 (fold16 x)).toNat ≤ 65535 := by
  have hx := x.toNat_lt
  rw [fold16_toNat, fold16_toNat]
  omega

theorem from32to16_toNat (x : UInt32) : (from32to16 x).toNat = (fold16 (fold16 x)).toNat := by
  have hle := fold16_twice_le x
  change (fold16 (fold16 x)).toUInt16.toNat = _
  rw [UInt32.toNat_toUInt16]
  omega

theorem from32to16_ones (x : UInt32) : Ones (from32to16 x).toNat x.toNat := by
  rw [from32to16_toNat]
  exact (fold16_ones _).trans (fold16_ones x)

/-- Blocks of bytes add up where the first has an even length. -/
theorem val_add_ones {k : Nat} (hk : 2 ∣ k) (m : Mem) (p len : Nat) :
    Ones (val m p k + val m (p + k) len) (val m p (k + len)) := by
  obtain ⟨j, rfl⟩ := hk
  rw [val_add, Nat.pow_mul]
  exact (Stands.refl _).add (Stands.unit_pow j _).symm

/-- A 32-bit addition with its carry kept aside: the sum has room for the carry, and the two
together are the one's complement sum. -/
theorem carry_ones (a w : UInt32) :
    let c : UInt32 := if w > a + w then 1 else 0
    (a + w).toNat + c.toNat < 2 ^ 32 ∧ Ones ((a + w).toNat + c.toNat) (a.toNat + w.toNat) := by
  have ha := a.toNat_lt
  have hw := w.toNat_lt
  have hsum : (a + w).toNat = (a.toNat + w.toNat) % 2 ^ 32 := UInt32.toNat_add a w
  intro c
  by_cases hov : w > a + w
  · have hc : c.toNat = 1 := by simp only [c, if_pos hov]; rfl
    have hlt : (a + w).toNat < w.toNat := hov
    have he : (a + w).toNat + c.toNat = a.toNat + w.toNat - (2 ^ 32 - 1) := by omega
    refine ⟨by omega, ?_⟩
    rw [he]
    exact Stands.endAround (by decide) (by omega)
  · have hc : c.toNat = 0 := by simp only [c, if_neg hov]; rfl
    have hge : ¬ (a + w).toNat < w.toNat := hov
    have he : (a + w).toNat + c.toNat = a.toNat + w.toNat := by omega
    refine ⟨by omega, ?_⟩
    rw [he]
    exact Stands.refl _

/-- The rounds over 32-bit words keep the sum in `result` and its pending carry; a carry is only
pending on a `result` that has room for it. -/
theorem doCsumWords_ones (m : Mem) (rounds buff : Nat) (result carry : UInt32)
    (hroom : result.toNat + carry.toNat < 2 ^ 32) :
    let r := doCsumWords m rounds buff result carry
    r.1.toNat + r.2.toNat < 2 ^ 32 ∧
      Ones (r.1.toNat + r.2.toNat)
        (result.toNat + carry.toNat + val m buff (4 * rounds)) := by
  induction rounds generalizing buff result carry with
  | zero => exact ⟨hroom, Stands.refl _⟩
  | succ rounds ih =>
      have hplus : (result + carry).toNat = result.toNat + carry.toNat := by
        rw [UInt32.toNat_add]
        exact Nat.mod_eq_of_lt hroom
      obtain ⟨hnext, hones⟩ := carry_ones (result + carry) (load32 m buff)
      rw [hplus, load32_toNat] at hones
      obtain ⟨hout, hrest⟩ := ih (buff + 4) _ _ hnext
      refine ⟨hout, hrest.trans ?_⟩
      have hblock := val_add_ones (k := 4) ⟨2, rfl⟩ m buff (4 * rounds)
      have hlen : 4 * (rounds + 1) = 4 + 4 * rounds := by omega
      rw [hlen]
      refine (hones.add (Stands.refl _)).trans ?_
      rw [Nat.add_assoc]
      exact (Stands.refl _).add hblock

namespace Cursor

/-- From `c` to `c'` the next `k` bytes were added up. -/
def Took (m : Mem) (c c' : Cursor) (k : Nat) : Prop :=
  c'.buff = c.buff + k ∧ Ones c'.result.toNat (c.result.toNat + val m c.buff k)

theorem Took.refl (m : Mem) (c : Cursor) : Took m c c 0 := ⟨rfl, Stands.refl _⟩

theorem Took.trans {m : Mem} {c c' c'' : Cursor} {k k' : Nat} (hk : 2 ∣ k) (h : Took m c c' k)
    (h' : Took m c' c'' k') : Took m c c'' (k + k') := by
  obtain ⟨hb, ho⟩ := h
  obtain ⟨hb', ho'⟩ := h'
  refine ⟨by omega, ho'.trans ?_⟩
  rw [hb]
  refine (ho.add (Stands.refl _)).trans ?_
  rw [Nat.add_assoc]
  exact (Stands.refl _).add (val_add_ones hk m c.buff k')

private theorem result_add {r w : UInt32} {n : Nat} (hr : r.toNat + n < 2 ^ 32)
    (hw : w.toNat = n) : (r + w).toNat = r.toNat + n := by
  rw [UInt32.toNat_add, hw]
  exact Nat.mod_eq_of_lt hr

private theorem load16_le (m : Mem) (p : Nat) : val m p 2 ≤ 65535 := by
  have h := (load16 m p).toNat_lt
  rw [load16_toNat] at h
  omega

/-- A halfword added where the sum has room for it. -/
private theorem took_half (m : Mem) (c : Cursor) (len : Nat) (hr : c.result.toNat ≤ 2 ^ 31) :
    Took m c ⟨c.result + (load16 m c.buff).toUInt32, c.buff + 2, len⟩ 2 ∧
      (c.result + (load16 m c.buff).toUInt32).toNat ≤ c.result.toNat + 65535 := by
  have hw : (load16 m c.buff).toUInt32.toNat = val m c.buff 2 := by
    rw [UInt16.toNat_toUInt32, load16_toNat]
  have hle := load16_le m c.buff
  have he := result_add (r := c.result) (by omega) hw
  exact ⟨⟨rfl, by rw [he]; exact Stands.refl _⟩, by omega⟩

theorem align_took (m : Mem) (c : Cursor) (h2 : 2 ≤ c.len) (hr : c.result.toNat ≤ 65280) :
    ∃ k, 2 ∣ k ∧ k ≤ c.len ∧ (c.align m).len = c.len - k ∧ Took m c (c.align m) k ∧
      (c.align m).result.toNat ≤ 131070 := by
  unfold align
  split
  · obtain ⟨ht, hle⟩ := took_half m c (c.len - 2) (by omega)
    exact ⟨2, dvd_refl 2, h2, rfl, ht, hle.trans (by omega)⟩
  · exact ⟨0, ⟨0, rfl⟩, Nat.zero_le _, rfl, Took.refl m c, by omega⟩

theorem quads_took (m : Mem) (c : Cursor) (hr : c.result.toNat ≤ 131070) :
    Took m c (c.quads m) (4 * (c.len / 4)) ∧ (c.quads m).len = c.len ∧
      (c.quads m).result.toNat ≤ 131070 := by
  unfold quads
  split
  · obtain ⟨hroom, hones⟩ := doCsumWords_ones m (c.len / 4) c.buff c.result 0
      (by change _ + 0 < _; omega)
    have hx := (fold16_ones ((doCsumWords m (c.len / 4) c.buff c.result 0).1
      + (doCsumWords m (c.len / 4) c.buff c.result 0).2))
    rw [UInt32.toNat_add, Nat.mod_eq_of_lt hroom] at hx
    refine ⟨⟨rfl, hx.trans hones⟩, rfl, ?_⟩
    change (fold16 _).toNat ≤ _
    rw [fold16_toNat]
    have := ((doCsumWords m (c.len / 4) c.buff c.result 0).1
      + (doCsumWords m (c.len / 4) c.buff c.result 0).2).toNat_lt
    omega
  · have h0 : c.len / 4 = 0 := by omega
    rw [h0]
    exact ⟨Took.refl m c, rfl, hr⟩

theorem half_took (m : Mem) (c : Cursor) (hr : c.result.toNat ≤ 131070) :
    Took m c (c.half m) (2 * (c.len / 2 % 2)) ∧ (c.half m).len = c.len ∧
      (c.half m).result.toNat ≤ 196605 := by
  unfold half
  rw [Nat.testBit_eq_decide_div_mod_eq]
  by_cases h : c.len / 2 ^ 1 % 2 = 1
  · obtain ⟨ht, hle⟩ := took_half m c c.len (by omega)
    rw [if_pos (by simpa using h), show c.len / 2 % 2 = 1 from h]
    exact ⟨ht, rfl, by simp only; omega⟩
  · have h0 : c.len / 2 % 2 = 0 := by omega
    rw [if_neg (by simpa using h), h0]
    exact ⟨Took.refl m c, rfl, by omega⟩

theorem last_ones (m : Mem) (c : Cursor) (hr : c.result.toNat ≤ 196605) :
    Ones (c.last m).toNat (c.result.toNat + val m c.buff (c.len % 2)) := by
  unfold last
  rw [Nat.testBit_zero]
  by_cases h : c.len % 2 = 1
  · have hb := (m c.buff).toNat_lt
    have hw : (m c.buff).toUInt32.toNat = val m c.buff 1 := by
      rw [val_succ, val_zero]
      exact UInt8.toNat_toUInt32 _
    have hle : val m c.buff 1 < 256 := by
      rw [val_succ, val_zero]
      omega
    rw [if_pos (by simpa using h), h, result_add (by omega) hw]
    exact Stands.refl _
  · have h0 : c.len % 2 = 0 := by omega
    rw [if_neg (by simpa using h), h0]
    exact Stands.refl _

/-- From an even address on the sum is that of the bytes left. -/
theorem even_ones (m : Mem) (c : Cursor) (hr : c.result.toNat ≤ 65280) :
    Ones (c.even m).toNat (c.result.toNat + val m c.buff c.len) ∧
      (c.even m).toNat ≤ 65535 := by
  have hsum : ∀ c', Took m c c' (c.len - c.len % 2) → c'.result.toNat ≤ 196605 →
      c'.len % 2 = c.len % 2 →
      Ones (from32to16 (c'.last m)).toNat (c.result.toNat + val m c.buff c.len) := by
    rintro c' ⟨hb, ho⟩ hle hlen
    have hlast := last_ones m c' hle
    refine (from32to16_ones _).trans (hlast.trans ((ho.add (Stands.refl _)).trans ?_))
    rw [hb, hlen, Nat.add_assoc]
    have hblock := val_add_ones (k := c.len - c.len % 2) (by omega) m c.buff (c.len % 2)
    have he : c.len - c.len % 2 + c.len % 2 = c.len := by omega
    rw [he] at hblock
    exact (Stands.refl _).add hblock
  unfold even
  refine ⟨?_, ?_⟩
  · rw [UInt16.toNat_toUInt32]
    split
    · rename_i h2
      obtain ⟨k, hk, hkl, hlen, ht, hle⟩ := align_took m c h2 hr
      obtain ⟨ht', hlen', hle'⟩ := quads_took m (c.align m) hle
      obtain ⟨ht'', hlen'', hle''⟩ := half_took m ((c.align m).quads m) hle'
      refine hsum _ ?_ hle'' (by omega)
      have hall := (ht.trans hk ht').trans (by omega) ht''
      have he : k + 4 * ((c.align m).len / 4) + 2 * (((c.align m).quads m).len / 2 % 2)
          = c.len - c.len % 2 := by omega
      rwa [he] at hall
    · refine hsum c ?_ (by omega) rfl
      have h0 : c.len - c.len % 2 = 0 := by omega
      rw [h0]
      exact Took.refl m c
  · have h := (from32to16 (last m (if 2 ≤ c.len then ((c.align m).quads m).half m else c))).toNat_lt
    rw [UInt16.toNat_toUInt32]
    omega

end Cursor

/-- Swapping the two bytes of a word. -/
private theorem swap_toNat (x : UInt32) (hx : x.toNat ≤ 65535) :
    (((x >>> 8) &&& (0xff : UInt32)) ||| ((x &&& (0xff : UInt32)) <<< 8)).toNat
      = 256 * (x.toNat % 256) + x.toNat / 256 := by
  have hlow : (x &&& (0xff : UInt32)).toNat = x.toNat % 256 := by
    rw [UInt32.toNat_and]
    exact Nat.and_two_pow_sub_one_eq_mod x.toNat 8
  have hhigh : ((x >>> 8) &&& (0xff : UInt32)).toNat = x.toNat / 256 := by
    rw [UInt32.toNat_and, UInt32.toNat_shiftRight]
    change (x.toNat >>> 8) &&& 2 ^ 8 - 1 = _
    rw [Nat.and_two_pow_sub_one_eq_mod, Nat.shiftRight_eq_div_pow]
    omega
  have hshift : ((x &&& (0xff : UInt32)) <<< 8).toNat = 2 ^ 8 * (x.toNat % 256) := by
    rw [UInt32.toNat_shiftLeft, hlow]
    change ((x.toNat % 256) <<< 8) % 2 ^ 32 = _
    rw [Nat.shiftLeft_eq]
    omega
  rw [UInt32.toNat_or, hhigh, hshift, Nat.or_comm,
    ← Nat.two_pow_add_eq_or_of_lt (by omega : x.toNat / 256 < 2 ^ 8)]

private theorem swap_ones (x : UInt32) (hx : x.toNat ≤ 65535) :
    Ones (((x >>> 8) &&& (0xff : UInt32)) ||| ((x &&& (0xff : UInt32)) <<< 8)).toNat
      (256 * x.toNat) := by
  rw [swap_toNat x hx]
  have he : 256 * x.toNat = 256 * (x.toNat % 256) + (65535 + 1) * (x.toNat / 256) := by omega
  rw [he]
  exact (Stands.refl _).add (Stands.unit _).symm

/-- `do_csum` is the one's complement sum of the bytes, at every address. -/
theorem doCsum_ones (m : Mem) (buff : Nat) (len : Int) :
    Ones (doCsum m buff len).toNat (val m buff len.toNat) ∧
      (doCsum m buff len).toNat ≤ 65535 := by
  unfold doCsum
  split
  · rename_i h
    rw [Int.toNat_of_nonpos h]
    exact ⟨Stands.refl 0, Nat.zero_le _⟩
  rename_i hlen
  obtain ⟨n, hn⟩ : ∃ n, len.toNat = n + 1 := ⟨len.toNat - 1, by omega⟩
  split
  · -- the first byte counts for 256, the rest is summed up swapped, and the last swap undoes both
    have hb := (m buff).toNat_lt
    have hfirst : ((m buff).toUInt32 <<< 8).toNat = 256 * (m buff).toNat := by
      rw [UInt32.toNat_shiftLeft]
      change ((m buff).toNat <<< 8) % 2 ^ 32 = _
      rw [Nat.shiftLeft_eq]
      omega
    obtain ⟨heven, hle⟩ := Cursor.even_ones m
      ⟨(m buff).toUInt32 <<< 8, buff + 1, len.toNat - 1⟩ (by rw [hfirst]; omega)
    refine ⟨(swap_ones _ hle).trans ((heven.mul_left 256).trans ?_), ?_⟩
    · rw [hfirst, hn, val_succ, Nat.mul_add, ← Nat.mul_assoc, Nat.add_sub_cancel]
      exact (Stands.unit _).add (Stands.refl _)
    · rw [swap_toNat _ hle]
      omega
  · obtain ⟨heven, hle⟩ := Cursor.even_ones m ⟨0, buff, len.toNat⟩ (Nat.zero_le _)
    refine ⟨?_, hle⟩
    rwa [show (0 : UInt32).toNat = 0 from rfl, Nat.zero_add] at heven

/-- `csum_partial` adds the sum of its block to the one it is given. -/
theorem csumPartial_ones (m : Mem) (buff : Nat) (len : Int) (wsum : UInt32) :
    Ones (csumPartial m buff len wsum).toNat (val m buff len.toNat + wsum.toNat) := by
  obtain ⟨hroom, hcarry⟩ := carry_ones (doCsum m buff len) wsum
  have hsum := hcarry.trans ((doCsum_ones m buff len).1.add (Stands.refl wsum.toNat))
  unfold csumPartial
  simp only
  split
  · rename_i h
    rw [if_pos h] at hsum hroom
    rwa [UInt32.toNat_add, Nat.mod_eq_of_lt hroom]
  · rename_i h
    rwa [if_neg h] at hsum

/-- `csum_fold` complements a sum within a word. -/
theorem csumFold_toNat (csum : UInt32) :
    ∃ x, x ≤ 65535 ∧ Ones x csum.toNat ∧ (csumFold csum).toNat = 65535 - x := by
  refine ⟨(fold16 (fold16 csum)).toNat, fold16_twice_le csum,
    (fold16_ones _).trans (fold16_ones csum), ?_⟩
  have hle := fold16_twice_le csum
  change (~~~(fold16 (fold16 csum))).toUInt16.toNat = _
  have hsize : UInt32.size = 4294967296 := rfl
  rw [UInt32.toNat_toUInt16, UInt32.toNat_not]
  omega

end Nebase.Sock.Csum
