/- The bytes that a netmask takes. -/

import Nebase.Net.Radix.Mask

set_option autoImplicit false
set_option relaxedAutoImplicit false

namespace Nebase.Net.Ipaddr

open Nebase.Net.Radix

/-- What is written does not depend on the buffer, and what lies behind it stays. -/
theorem fill_mask_extent (p : Nat) :
    ∃ mask : List UInt8, mask.length = maskSize p ∧
      ∀ addr : List UInt8, maskSize p ≤ addr.length →
        nebNetinetFillMask addr p = some (mask ++ addr.drop (maskSize p)) := by
  induction p using Nat.strong_induction_on with
  | _ p ih =>
    by_cases hwhole : p > 8
    · obtain ⟨mask, hlen, hfits⟩ := ih (p - 8) (by omega)
      have hsize := maskSize_of_gt hwhole
      refine ⟨0xFF :: mask, by rw [List.length_cons, hlen, hsize], ?_⟩
      intro addr haddr
      cases addr with
      | nil =>
        rw [List.length_nil] at haddr
        omega
      | cons b addr =>
        rw [List.length_cons] at haddr
        rw [nebNetinetFillMask, if_pos hwhole, hfits addr (by omega), hsize]
        rfl
    · have hsize := maskSize_of_le (not_lt.mp hwhole)
      refine ⟨[UInt8.ofNat ((0xFF <<< (8 - p)) &&& 0xFF)], hsize.symm, ?_⟩
      intro addr haddr
      cases addr with
      | nil =>
        rw [List.length_nil] at haddr
        omega
      | cons b addr =>
        rw [nebNetinetFillMask, if_neg hwhole, hsize]
        rfl

/-- For every prefix exactly the first `max(1, ceil(prefix / 8))` bytes are written, and on zeros
the first `prefix` bits become one and the others stay zero. -/
theorem nebNetinetFillMask_writes (p : Nat) :
    (∃ mask : List UInt8, mask.length = max 1 ((p + 7) / 8) ∧
      (∀ addr : List UInt8, mask.length ≤ addr.length →
        nebNetinetFillMask addr p = some (mask ++ addr.drop mask.length)) ∧
      ∀ addr : List UInt8, addr.length < mask.length → nebNetinetFillMask addr p = none) ∧
    ∀ k, max 1 ((p + 7) / 8) ≤ k →
      ∃ addr, nebNetinetFillMask (List.replicate k 0) p = some addr ∧ addr.length = k ∧
        ∀ i, bit addr i = decide (i < p) := by
  constructor
  · obtain ⟨mask, hlen, hfits⟩ := fill_mask_extent p
    refine ⟨mask, hlen, ?_, ?_⟩
    · intro addr haddr
      rw [hlen] at haddr ⊢
      exact hfits addr haddr
    · intro addr haddr
      rw [hlen] at haddr
      exact fill_mask_overrun haddr
  · intro k hk
    exact fill_mask_spec k p (by omega) (by omega)

end Nebase.Net.Ipaddr
