/- The readiness handshake of neb_thread_create: one creating thread, the threads it creates, and
   the semaphore they all share. -/

import Nebase.Foundation.Machine
import Mathlib.Logic.Function.Basic

set_option autoImplicit false
set_option relaxedAutoImplicit false

namespace Nebase.Thread

open Nebase.Foundation

abbrev Tid := Nat

/-- Where the creating thread is. -/
inductive Ctl
  | outside
  /-- in `neb_thread_create`, after `neb_time_gettimeofday` -/
  | creating
  /-- in the loop of `neb_sem_notify_timedwait` -/
  | waiting (ptid : Tid)
  /-- back from `neb_thread_create`, with the thread of this call if there is one -/
  | returned (ret : Int) (ptid : Option Tid)
  deriving DecidableEq

/-- `threadReadySem` is the value of the semaphore. `threads` are the threads created so far, and
whether each has called `neb_thread_set_ready`. -/
structure State where
  threadReadySem : Nat
  threads : Tid → Option Bool
  ctl : Ctl

/-- How `sem_timedwait` returns: with 0, or with this `errno`. -/
inductive SemTimedwait
  | ok
  | eintr
  | etimedout

inductive Action
  /-- The creating thread calls `neb_thread_create`; `time` says that `neb_time_gettimeofday`
  succeeds. -/
  | create (time : Bool)
  /-- `pthread_create` starts this thread, or fails. -/
  | pthreadCreate (ptid : Option Tid)
  | semTimedwait (r : SemTimedwait)
  /-- This thread calls `neb_thread_set_ready`. -/
  | setReady (ptid : Tid)

/-- The state `neb_thread_init` makes. -/
def nebThreadInit : State := ⟨0, fun _ => none, .outside⟩

/-- The call of `neb_thread_create` returns. -/
def State.return (q : State) (ret : Int) (ptid : Option Tid) : State :=
  { q with ctl := .returned ret ptid }

/-- `neb_thread_create` up to `pthread_create`. -/
def nebThreadCreate (time : Bool) (q : State) : State :=
  if time then { q with ctl := .creating } else q.return (-1) none

def pthreadCreate (ptid : Option Tid) (q : State) : Option State :=
  match ptid with
  | none => some (q.return (-1) none)
  | some t =>
    if q.threads t = none then
      some { q with threads := Function.update q.threads t (some false), ctl := .waiting t }
    else
      none

/-- One turn of the loop of `neb_sem_notify_timedwait`. The semaphore counts: the wait succeeds
only when there is something to take, and it times out only when there is nothing. -/
def nebSemNotifyTimedwait (t : Tid) (r : SemTimedwait) (q : State) : Option State :=
  match r with
  | .ok =>
    if 0 < q.threadReadySem then
      some ({ q with threadReadySem := q.threadReadySem - 1 }.return 0 (some t))
    else
      none
  | .eintr => some q
  | .etimedout => if q.threadReadySem = 0 then some (q.return (-1) (some t)) else none

/-- `neb_sem_notify_signal(thread_ready_sem)`, called once by a thread that runs. -/
def nebThreadSetReady (t : Tid) (q : State) : Option State :=
  if q.threads t = some false then
    some { q with
      threadReadySem := q.threadReadySem + 1
      threads := Function.update q.threads t (some true) }
  else
    none

def step (q : State) : Action → Option State
  | .create time =>
    match q.ctl with
    | .outside | .returned _ _ => some (nebThreadCreate time q)
    | _ => none
  | .pthreadCreate ptid =>
    match q.ctl with
    | .creating => pthreadCreate ptid q
    | _ => none
  | .semTimedwait r =>
    match q.ctl with
    | .waiting t => nebSemNotifyTimedwait t r q
    | _ => none
  | .setReady t => nebThreadSetReady t q

/-- Everything a step can do. -/
private theorem step_cases {q q' : State} {a : Action} (h : step q a = some q') :
    (∃ time, a = .create time ∧ (∀ t, q.ctl ≠ .waiting t) ∧ q' = nebThreadCreate time q) ∨
    (a = .pthreadCreate none ∧ q.ctl = .creating ∧ q' = q.return (-1) none) ∨
    (∃ t, a = .pthreadCreate (some t) ∧ q.ctl = .creating ∧ q.threads t = none ∧
      q' = { q with threads := Function.update q.threads t (some false), ctl := .waiting t }) ∨
    (∃ t, a = .semTimedwait .ok ∧ q.ctl = .waiting t ∧ 0 < q.threadReadySem ∧
      q' = { q with threadReadySem := q.threadReadySem - 1 }.return 0 (some t)) ∨
    (∃ t, a = .semTimedwait .eintr ∧ q.ctl = .waiting t ∧ q' = q) ∨
    (∃ t, a = .semTimedwait .etimedout ∧ q.ctl = .waiting t ∧ q.threadReadySem = 0 ∧
      q' = q.return (-1) (some t)) ∨
    (∃ t, a = .setReady t ∧ q.threads t = some false ∧
      q' = { q with
        threadReadySem := q.threadReadySem + 1
        threads := Function.update q.threads t (some true) }) := by
  cases a with
  | create time =>
    left
    cases hctl : q.ctl with
    | outside => exact ⟨time, rfl, by simp, by simpa [step, hctl] using h.symm⟩
    | returned ret ptid => exact ⟨time, rfl, by simp, by simpa [step, hctl] using h.symm⟩
    | creating => simp [step, hctl] at h
    | waiting t => simp [step, hctl] at h
  | pthreadCreate ptid =>
    right
    cases hctl : q.ctl with
    | creating =>
      cases ptid with
      | none => exact .inl ⟨rfl, rfl, by simpa [step, hctl, pthreadCreate] using h.symm⟩
      | some t =>
        simp only [step, hctl, pthreadCreate] at h
        split at h
        · exact .inr (.inl ⟨t, rfl, rfl, ‹_›, by simpa using h.symm⟩)
        · cases h
    | outside => simp [step, hctl] at h
    | returned ret ptid => simp [step, hctl] at h
    | waiting t => simp [step, hctl] at h
  | semTimedwait r =>
    right; right; right
    cases hctl : q.ctl with
    | waiting t =>
      cases r with
      | ok =>
        simp only [step, hctl, nebSemNotifyTimedwait] at h
        split at h
        · exact .inl ⟨t, rfl, rfl, ‹_›, by simpa using h.symm⟩
        · cases h
      | eintr =>
        exact .inr (.inl ⟨t, rfl, rfl, by simpa [step, hctl, nebSemNotifyTimedwait] using h.symm⟩)
      | etimedout =>
        simp only [step, hctl, nebSemNotifyTimedwait] at h
        split at h
        · exact .inr (.inr (.inl ⟨t, rfl, rfl, ‹_›, by simpa using h.symm⟩))
        · cases h
    | outside => simp [step, hctl] at h
    | creating => simp [step, hctl] at h
    | returned ret ptid => simp [step, hctl] at h
  | setReady t =>
    simp only [step, nebThreadSetReady] at h
    split at h
    · exact .inr (.inr (.inr (.inr (.inr (.inr ⟨t, rfl, ‹_›, by simpa using h.symm⟩)))))
    · cases h

/-- The creating thread has just been told that its thread is ready, and the thread is. -/
def Told (q : State) : Prop := ∀ t, q.ctl = .returned 0 (some t) → q.threads t = some true

/-- A thread reports itself only while the call that created it waits. -/
def PostsInTime (q : State) : Action → Prop
  | .setReady t => q.ctl = .waiting t
  | _ => True

instance (q : State) (a : Action) : Decidable (PostsInTime q a) := by
  cases a with
  | setReady t => exact inferInstanceAs (Decidable (q.ctl = .waiting t))
  | _ => exact inferInstanceAs (Decidable True)

/-- The semaphore holds nothing but the report of the thread that is waited for. -/
structure Owned (q : State) : Prop where
  value : q.threadReadySem = 0 ∨
    q.threadReadySem = 1 ∧ ∃ t, q.ctl = .waiting t ∧ q.threads t = some true
  told : Told q

private theorem Owned.none {q : State} (owned : Owned q) (h : ∀ t, q.ctl ≠ .waiting t) :
    q.threadReadySem = 0 := by
  rcases owned.value with hzero | ⟨-, t, ht, -⟩
  · exact hzero
  · exact absurd ht (h t)

theorem Owned.ofStep {q q' : State} {a : Action} (owned : Owned q) (inTime : PostsInTime q a)
    (h : step q a = some q') : Owned q' := by
  rcases step_cases h with ⟨time, rfl, hctl, rfl⟩ | ⟨rfl, hctl, rfl⟩ | ⟨t, rfl, hctl, hnew, rfl⟩ |
    ⟨t, rfl, hctl, hpos, rfl⟩ | ⟨t, rfl, hctl, rfl⟩ | ⟨t, rfl, hctl, hzero, rfl⟩ |
    ⟨t, rfl, hrun, rfl⟩
  · have hzero := owned.none hctl
    cases time with
    | true => exact ⟨.inl hzero, fun t ht => by cases ht⟩
    | false => exact ⟨.inl hzero, fun t ht => by cases ht⟩
  · exact ⟨.inl (owned.none (by simp [hctl])), fun t ht => by cases ht⟩
  · exact ⟨.inl (owned.none (by simp [hctl])), fun t ht => by cases ht⟩
  · -- what is taken is the report of the thread itself
    rcases owned.value with hzero | ⟨hone, s, hs, hready⟩
    · omega
    · obtain rfl : t = s := by
        rw [hctl] at hs
        exact Ctl.waiting.inj hs
      constructor
      · left
        show q.threadReadySem - 1 = 0
        omega
      · intro u hu
        obtain rfl : t = u := by
          injection hu with _ hu
          exact Option.some.inj hu
        exact hready
  · exact owned
  · exact ⟨.inl hzero, fun t ht => by cases ht⟩
  · have hwait : q.ctl = .waiting t := inTime
    constructor
    · right
      constructor
      · rcases owned.value with hzero | ⟨-, s, hs, hready⟩
        · show q.threadReadySem + 1 = 1
          omega
        · -- it has not reported itself before
          obtain rfl : t = s := by
            rw [hwait] at hs
            exact Ctl.waiting.inj hs
          rw [hrun] at hready
          cases hready
      · exact ⟨t, hwait, Function.update_self ..⟩
    · intro u hu
      have hu : q.ctl = .returned 0 (some u) := hu
      rw [hwait] at hu
      cases hu

theorem Owned.init : Owned nebThreadInit := ⟨.inl rfl, fun t ht => by cases ht⟩

/-- In every run in which no thread reports itself late, a call that returns 0 has waited for its
own thread. -/
theorem nebThreadCreate_ready (as : List Action) (q : State)
    (inTime : Machine.StepsMeet step PostsInTime nebThreadInit as)
    (reached : Machine.run step nebThreadInit as = some q) : Told q :=
  (Machine.invariant_run (fun _ _ _ owned inTime h => Owned.ofStep owned inTime h) Owned.init inTime
    reached).told

/-- A call times out, and its thread never reports itself; the next call finds its own ready. -/
theorem nebThreadCreate_ready_second :
    ∃ q, Machine.run step nebThreadInit [.create true, .pthreadCreate (some 1),
        .semTimedwait .eintr, .semTimedwait .etimedout, .create true, .pthreadCreate (some 2),
        .setReady 2, .semTimedwait .ok] = some q ∧ Told q ∧ q.ctl = .returned 0 (some 2) := by
  obtain ⟨q, hq, hctl⟩ : ∃ q, Machine.run step nebThreadInit [.create true,
      .pthreadCreate (some 1), .semTimedwait .eintr, .semTimedwait .etimedout, .create true,
      .pthreadCreate (some 2), .setReady 2, .semTimedwait .ok] = some q ∧
      q.ctl = .returned 0 (some 2) :=
    Machine.run_reaches (by decide)
  exact ⟨q, hq, nebThreadCreate_ready _ q (by decide) hq, hctl⟩

/-- Whatever is left in the semaphore between two calls makes the next one return at once. -/
theorem left_report_misleads {q : State} {t : Tid} (left : 0 < q.threadReadySem)
    (ctl : q.ctl = .outside ∨ ∃ ret ptid, q.ctl = .returned ret ptid) (new : q.threads t = none) :
    ∃ q', Machine.run step q [.create true, .pthreadCreate (some t), .semTimedwait .ok] = some q' ∧
      ¬ Told q' := by
  have hstart : step q (.create true) = some { q with ctl := .creating } := by
    rcases ctl with h | ⟨ret, ptid, h⟩
    · simp [step, h, nebThreadCreate]
    · simp [step, h, nebThreadCreate]
  refine ⟨State.return { q with
    threadReadySem := q.threadReadySem - 1
    threads := Function.update q.threads t (some false) } 0 (some t), ?_, ?_⟩
  · rw [Machine.run_cons, hstart]
    simp [Machine.run_cons, step, pthreadCreate, new, nebSemNotifyTimedwait, left, State.return]
  · intro told
    have hready := told t rfl
    simp [State.return] at hready

/-- A thread that reports itself after its call timed out is taken for the next one. -/
theorem nebThreadCreate_ready_fails :
    ¬ ∀ q, Machine.run step nebThreadInit [.create true, .pthreadCreate (some 1),
      .semTimedwait .etimedout, .setReady 1, .create true, .pthreadCreate (some 2),
      .semTimedwait .ok] = some q → Told q := by
  intro claim
  obtain ⟨q, hq, hpair⟩ : ∃ q, Machine.run step nebThreadInit [.create true,
      .pthreadCreate (some 1), .semTimedwait .etimedout, .setReady 1, .create true,
      .pthreadCreate (some 2), .semTimedwait .ok] = some q ∧
      (q.ctl, q.threads 2) = (.returned 0 (some 2), some false) :=
    Machine.run_reaches (by decide)
  obtain ⟨hctl, hthread⟩ := Prod.mk.inj hpair
  have hready := claim q hq 2 hctl
  rw [hthread] at hready
  cases hready

end Nebase.Thread
