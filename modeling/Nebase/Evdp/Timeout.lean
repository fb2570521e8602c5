/- The absolute timeouts of a queue: when the deadline that is a number of milliseconds away is
   normalised and stands for the right time. -/

import Nebase.Evdp.Timer.Model

set_option autoImplicit false
set_option relaxedAutoImplicit false

namespace Nebase.Evdp

open Nebase.Time
open Nebase.Evdp.Timer (EvdpTimerRbtreeNode evdpTimerRbtreeCmpNode)

/-- A product of two `int`s; on overflow it is undefined. -/
def intMul (a b : Int) : Option Int :=
  if -2147483648 ≤ a * b ∧ a * b ≤ 2147483647 then some (a * b) else none

/-! `curTs` is the `cur_ts` of the queue. -/

def nebEvdpQueueGetAbsTimeout (curTs durTs : Timespec) : Timespec := nebTimespecadd curTs durTs

def nebEvdpQueueGetAbsTimeoutS (curTs : Timespec) (sec : Int) : Timespec :=
  nebEvdpQueueGetAbsTimeout curTs ⟨sec, 0⟩

def nebEvdpQueueGetAbsTimeoutMs (curTs : Timespec) (msec : Int) : Option Timespec :=
  (intMul msec 1000000).map (fun nsec => nebEvdpQueueGetAbsTimeout curTs ⟨0, nsec⟩)

/-- Whole seconds are always added exactly. -/
theorem nebEvdpQueueGetAbsTimeoutS_exact {curTs : Timespec} (sec : Int)
    (normalised : curTs.Normalised) :
    (nebEvdpQueueGetAbsTimeoutS curTs sec).Normalised ∧
      (nebEvdpQueueGetAbsTimeoutS curTs sec).ns = curTs.ns + sec * 1000000000 := by
  constructor
  · apply (nebTimespecadd_normalised_iff normalised (Int.le_refl 0)).2
    have hlt := normalised.2
    show curTs.tvNsec + 0 < 2000000000
    omega
  · show (nebTimespecadd curTs ⟨sec, 0⟩).ns = _
    rw [nebTimespecadd_ns]
    show curTs.ns + (sec * 1000000000 + 0) = _
    omega

/-- The order of the tree is that of the times, between normalised deadlines. -/
theorem evdpTimerRbtreeCmpNode_eq_sign {n m : EvdpTimerRbtreeNode} (hn : n.ts.Normalised)
    (hm : m.ts.Normalised) : evdpTimerRbtreeCmpNode n m = (n.ts.ns - m.ts.ns).sign := by
  unfold Timespec.Normalised at hn hm
  unfold evdpTimerRbtreeCmpNode Timespec.ns
  symm
  split_ifs with hsec hlt heq hlt
  · apply Int.sign_eq_neg_one_of_neg
    omega
  · rw [hsec, heq, Int.sub_self, Int.sign_zero]
  · apply Int.sign_eq_one_of_pos
    omega
  · apply Int.sign_eq_neg_one_of_neg
    omega
  · apply Int.sign_eq_one_of_pos
    omega

/-- The deadline is computed, normalised, and `msec` milliseconds away. -/
def TimeoutExact (curTs : Timespec) (msec : Int) : Prop :=
  ∃ absTs, nebEvdpQueueGetAbsTimeoutMs curTs msec = some absTs ∧ absTs.Normalised ∧
    absTs.ns = curTs.ns + msec * 1000000

/-- The node of a deadline `msec` away stands in the tree where its time belongs. -/
def TimeoutOrdered (curTs : Timespec) (msec : Int) : Prop :=
  ∀ n m : EvdpTimerRbtreeNode, nebEvdpQueueGetAbsTimeoutMs curTs msec = some n.ts →
    m.ts.Normalised →
    evdpTimerRbtreeCmpNode n m = (curTs.ns + msec * 1000000 - m.ts.ns).sign

private theorem int_mul_eq_some {a b c : Int} (h : intMul a b = some c) : c = a * b := by
  unfold intMul at h
  split at h
  · exact (Option.some.inj h).symm
  · cases h

theorem TimeoutExact.ordered {curTs : Timespec} {msec : Int} (exact : TimeoutExact curTs msec) :
    TimeoutOrdered curTs msec := by
  obtain ⟨absTs, habs, hnorm, hns⟩ := exact
  intro n m hn hm
  rw [habs] at hn
  obtain rfl := Option.some.inj hn
  rw [evdpTimerRbtreeCmpNode_eq_sign hnorm hm, hns]

theorem timeout_exact_iff {curTs : Timespec} {msec : Int} (normalised : curTs.Normalised)
    (nonneg : 0 ≤ msec) :
    TimeoutExact curTs msec ↔ curTs.tvNsec + msec * 1000000 < 2000000000 := by
  have hdur : 0 ≤ (⟨0, msec * 1000000⟩ : Timespec).tvNsec := by
    show 0 ≤ msec * 1000000
    omega
  have hcarry := nebTimespecadd_normalised_iff normalised hdur
  constructor
  · rintro ⟨absTs, habs, hnorm, -⟩
    obtain ⟨nsec, hmul, rfl⟩ := Option.map_eq_some_iff.1 habs
    obtain rfl := int_mul_eq_some hmul
    exact hcarry.1 hnorm
  · intro hlt
    have hlow := normalised.1
    have hmul : intMul msec 1000000 = some (msec * 1000000) := if_pos (by omega)
    refine ⟨nebTimespecadd curTs ⟨0, msec * 1000000⟩, ?_, hcarry.2 hlt, ?_⟩
    · unfold nebEvdpQueueGetAbsTimeoutMs
      rw [hmul]
      rfl
    · rw [nebTimespecadd_ns]
      show curTs.ns + (0 * 1000000000 + msec * 1000000) = _
      omega

/-- The nanoseconds of the queue time and of the timeout have to add up to less than two seconds. -/
theorem nebEvdpQueueGetAbsTimeoutMs_exact_iff (curTs : Timespec) (msec : Int)
    (normalised : curTs.Normalised) (nonneg : 0 ≤ msec) :
    TimeoutExact curTs msec ∧ TimeoutOrdered curTs msec ↔
      curTs.tvNsec + msec * 1000000 < 2000000000 := by
  constructor
  · rintro ⟨hexact, -⟩
    exact (timeout_exact_iff normalised nonneg).1 hexact
  · intro hlt
    have hexact := (timeout_exact_iff normalised nonneg).2 hlt
    exact ⟨hexact, hexact.ordered⟩

theorem nebEvdpQueueGetAbsTimeoutMs_exact_iff_second :
    TimeoutExact ⟨7, 999999999⟩ 1000 ∧ TimeoutOrdered ⟨7, 999999999⟩ 1000 :=
  (nebEvdpQueueGetAbsTimeoutMs_exact_iff ⟨7, 999999999⟩ 1000 (by decide) (by decide)).mpr
    (by decide)

/-- Two seconds given in milliseconds are not normalised, and from 2148 on the product overflows. -/
theorem nebEvdpQueueGetAbsTimeoutMs_exact_fails :
    ¬ TimeoutExact ⟨7, 0⟩ 2000 ∧ nebEvdpQueueGetAbsTimeoutMs ⟨7, 0⟩ 2148 = none := by
  constructor
  · rintro ⟨absTs, habs, hnorm, -⟩
    have hts : nebEvdpQueueGetAbsTimeoutMs ⟨7, 0⟩ 2000 = some ⟨8, 1000000000⟩ := by decide
    rw [hts] at habs
    obtain rfl := Option.some.inj habs
    exact absurd hnorm (by decide)
  · decide

end Nebase.Evdp
