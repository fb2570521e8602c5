/- The wait of the epoll driver: what its two builds ask the kernel for, with the timeout that a run of
   the queue passes. -/

import Nebase.Evdp.Timer.Nearest

set_option autoImplicit false
set_option relaxedAutoImplicit false

namespace Nebase.Evdp

open Nebase.Time
open Nebase.Evdp.Timer (NebEvdpTimer evdpTimerFetchNeareastTs pastLimit rbTreeMin)

/-- How long the kernel may wait, in nanoseconds. -/
inductive Wait
  | unlimited
  | atMost (ns : Int)
  deriving DecidableEq

/-- `epoll_pwait2`, which takes the timeout as it is. -/
def epollPwait2 : Option Timespec → Wait
  | none => .unlimited
  | some t => .atMost t.ns

/-- `epoll_wait`, which takes milliseconds and no limit for a negative number of them. -/
def epollWait (msec : Int) : Wait := if msec < 0 then .unlimited else .atMost (msec * 1000000)

/-- The result of an operation on `long`; on overflow it is undefined. -/
def longResult (n : Int) : Option Int :=
  if -9223372036854775808 ≤ n ∧ n ≤ 9223372036854775807 then some n else none

/-- The conversion of a `long` to `int`. -/
def longToInt (n : Int) : Int := Int.bmod n 4294967296

/-- `timeout_msec` of `evdp_queue_wait_events`; without a timeout the access is undefined. -/
def timeoutMsec (timeout : Option Timespec) : Option Int := do
  let t ← timeout
  let sec ← longResult (t.tvSec * 1000)
  let msec ← longResult (sec + t.tvNsec.tdiv 1000000)
  some (longToInt msec)

/-- The timeout of a round of `neb_evdp_queue_run`, where `ts` is the current time. -/
def runTimeout (timer : Option NebEvdpTimer) (ts : Timespec) : Option Timespec :=
  timer.bind (evdpTimerFetchNeareastTs ts)

/-- Both builds wait without limit, or for a time where that in milliseconds is not the shorter. -/
def Wait.Covers : Wait → Wait → Prop
  | .unlimited, .unlimited => True
  | .atMost m, .atMost n => n ≤ m
  | _, _ => False

/-- The number of milliseconds is the one that is computed, without overflow, and `epoll_wait` waits
for what `epoll_pwait2` does or, in a timed wait, for longer. -/
def WaitsAlike (timeout : Option Timespec) : Prop :=
  ∃ msec, timeoutMsec timeout = some msec ∧
    (∀ t ∈ timeout, msec = t.tvSec * 1000 + t.tvNsec.tdiv 1000000) ∧
    (epollWait msec).Covers (epollPwait2 timeout)

/-- There is a timeout, of a whole number of milliseconds that is an `int`. -/
def WholeMsec (timeout : Option Timespec) : Prop :=
  ∃ t, timeout = some t ∧ t.tvNsec % 1000000 = 0 ∧
    t.tvSec * 1000 + t.tvNsec / 1000000 ≤ 2147483647

/-- A timeout that a run can pass. -/
def Passed (timeout : Option Timespec) : Prop := ∀ t ∈ timeout, t.Normalised ∧ 0 ≤ t.tvSec

/-- A run passes no other timeout, as long as the times of the tree are normalised. -/
theorem runTimeout_passed {timer : Option NebEvdpTimer} {ts : Timespec}
    (normalised : ts.Normalised) (points : ∀ t ∈ timer, ∀ n ∈ t.rbtree, n.ts.Normalised) :
    Passed (runTimeout timer ts) := by
  intro r hr
  obtain ⟨t, ht, hfetch⟩ := Option.bind_eq_some_iff.mp hr
  unfold evdpTimerFetchNeareastTs at hfetch
  split at hfetch
  · cases hfetch
  · rename_i minNode hmin
    obtain ⟨a, -, hnode⟩ := Option.bind_eq_some_iff.mp hmin
    have hmem : minNode ∈ t.rbtree := List.mem_of_find?_eq_some hnode
    have hnorm := points t ht minNode hmem
    split_ifs at hfetch with hpast
    · obtain rfl := Option.some.inj hfetch
      decide
    · obtain rfl := Option.some.inj hfetch
      have hlt : ts < minNode.ts := (nebTimespeccmp_gt _ _).mp (by simpa [pastLimit] using hpast)
      refine ⟨nebTimespecsub_normalised hnorm normalised, ?_⟩
      have hns := nebTimespecsub_ns minNode.ts ts
      have hsub := nebTimespecsub_normalised hnorm normalised
      have hbefore := (Timespec.lt_iff_ns normalised hnorm).mp hlt
      unfold Timespec.Normalised at hsub
      unfold Timespec.ns at hns hbefore
      omega

/-- A `long` becomes the `int` that it is, if it is one. -/
private theorem longToInt_eq_iff {n : Int} (low : 0 ≤ n) : longToInt n = n ↔ n ≤ 2147483647 := by
  unfold longToInt
  rw [Int.bmod_def]
  omega

theorem evdpQueueWaitEvents_alike_iff (timeout : Option Timespec) (passed : Passed timeout) :
    WaitsAlike timeout ↔ WholeMsec timeout := by
  cases timeout with
  | none =>
    refine iff_of_false ?_ ?_
    · rintro ⟨msec, hmsec, -⟩
      cases hmsec
    · rintro ⟨t, ht, -⟩
      cases ht
  | some t =>
    obtain ⟨⟨hlow, hhigh⟩, hsec⟩ := passed t rfl
    have hdiv : t.tvNsec.tdiv 1000000 = t.tvNsec / 1000000 := Int.tdiv_eq_ediv_of_nonneg hlow
    constructor
    · rintro ⟨msec, hmsec, hexact, hcovers⟩
      have heq := hexact t rfl
      rw [hdiv] at heq
      have hpos : ¬ msec < 0 := by omega
      simp only [epollWait, if_neg hpos, epollPwait2, Wait.Covers, Timespec.ns] at hcovers
      refine ⟨t, rfl, by omega, ?_⟩
      simp only [timeoutMsec, Option.bind_eq_bind, Option.bind_some, Option.bind_eq_some_iff,
        longResult, Option.ite_none_right_eq_some, Option.some.injEq, hdiv] at hmsec
      obtain ⟨sec, ⟨-, rfl⟩, sum, ⟨-, rfl⟩, hint⟩ := hmsec
      rw [heq] at hint
      exact (longToInt_eq_iff (by omega)).mp hint
    · rintro ⟨t', ht', hwhole, hfits⟩
      obtain rfl := Option.some.inj ht'
      have hint := (longToInt_eq_iff (n := t.tvSec * 1000 + t.tvNsec / 1000000) (by omega)).mpr hfits
      have hpos : ¬ t.tvSec * 1000 + t.tvNsec / 1000000 < 0 := by omega
      refine ⟨t.tvSec * 1000 + t.tvNsec / 1000000, ?_, ?_, ?_⟩
      · have hfirst : longResult (t.tvSec * 1000) = some (t.tvSec * 1000) := if_pos (by omega)
        have hsum : longResult (t.tvSec * 1000 + t.tvNsec / 1000000) =
            some (t.tvSec * 1000 + t.tvNsec / 1000000) := if_pos (by omega)
        simp only [timeoutMsec, Option.bind_eq_bind, Option.bind_some, hdiv, hfirst, hsum, hint]
      · intro r hr
        obtain rfl := Option.some.inj hr
        rw [hdiv]
      · simp only [epollWait, if_neg hpos, epollPwait2, Wait.Covers, Timespec.ns]
        omega

/-- Three milliseconds. -/
theorem evdpQueueWaitEvents_alike_at_three :
    WholeMsec (some ⟨0, 3000000⟩) ∧ WaitsAlike (some ⟨0, 3000000⟩) := by
  have whole : WholeMsec (some ⟨0, 3000000⟩) := ⟨_, rfl, by decide⟩
  refine ⟨whole, (evdpQueueWaitEvents_alike_iff (some ⟨0, 3000000⟩) ?_).mpr whole⟩
  rintro t ht
  obtain rfl := Option.some.inj ht
  decide

/-- Without a timer the timeout is `NULL`. -/
theorem evdpQueueWaitEvents_alike_fails :
    ¬ ∀ timeout, Passed timeout → WaitsAlike timeout := by
  intro claim
  obtain ⟨msec, hmsec, -⟩ := claim (runTimeout none ⟨0, 0⟩) (fun t ht => by cases ht)
  cases hmsec

end Nebase.Evdp
