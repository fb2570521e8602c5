/- A queue that is stopped in the middle of a batch and run again, with both drivers: what the next
   wait submits, and what it finds armed. -/

import Nebase.Evdp.Epoll.Rearm
import Nebase.Evdp.Kevent.Changes

set_option autoImplicit false
set_option relaxedAutoImplicit false

namespace Nebase.Evdp.Rerun

open Nebase.Foundation

instance (q : Kevent.State) : Decidable (Kevent.SubmitsWritten q) :=
  inferInstanceAs (Decidable (q.ctl = .ready → q.ee.take q.nevents.toNat = q.written))

instance (q : Kevent.State) (a : Kevent.Action) : Decidable (Kevent.LeavesNothing q a) := by
  unfold Kevent.LeavesNothing
  split <;> infer_instance

/-- With the kevent driver, the changes submitted are those written in the round if and only if no
flush of the run ends without changes over events of an earlier run. With the epoll driver, every
source of the batch a run has stopped in is armed before the next wait if those whose event was not
handled, or was handled by the callback that broke, are in the pending list or armed when the next
run starts. -/
theorem nebEvdpQueueRun_reruns (batchSize : Nat) (ks : List Kevent.Action) (k : Kevent.State)
    (es : List Epoll.Action)
    (reached : Machine.run Kevent.step (Kevent.nebEvdpQueueCreate batchSize) ks = some k) :
    (Machine.AllStates Kevent.step Kevent.SubmitsWritten (Kevent.nebEvdpQueueCreate batchSize) ks ↔
      Machine.StepsMeet Kevent.step Kevent.LeavesNothing
        (Kevent.nebEvdpQueueCreate batchSize) ks) ∧
    (Machine.StepsMeet Epoll.Rerun.step
        (fun r a => Epoll.FetchesAttached r.base a ∧ Epoll.TakesUp r a)
        (Epoll.nebEvdpQueueCreateRerun batchSize) es →
      Machine.AllStates Epoll.Rerun.step Epoll.Rearmed
        (Epoll.nebEvdpQueueCreateRerun batchSize) es) := by
  constructor
  · exact Machine.all_states_iff_steps_meet (I := Kevent.Tracked) (fun _ tracked => tracked.ready)
      (fun _ _ _ tracked leaves h => Kevent.step_tracked tracked leaves h)
      (fun _ _ _ tracked stale h => Kevent.step_resubmits tracked stale h)
      (Kevent.tracked_create batchSize) reached
  · exact Machine.AllStates.of_invariant (I := Epoll.Rerun.Sound) (fun _ sound => sound.rearmed)
      (fun _ _ _ sound meets h => sound.ofStep meets.1 meets.2 h)
      (Epoll.Rerun.Sound.create batchSize)

/-- Two os_fd sources that read, an event for each, and a callback of the first that breaks. -/
def brokenKevent : List Kevent.Action :=
  [.newSource 1 .osFd 5, .newSource 2 .osFd 6, .next .read 1 (some 0) true,
    .next .read 2 (some 0) true, .attach 1, .attach 2, .run, .flush true, .flush true, .flush true,
    .wait true [(5, .read, false), (6, .read, false)], .proceed true, .cbReturn .breakExp true,
    .proceed true]

def brokenEpoll : List Epoll.Action :=
  Epoll.twoReaders ++ [.proceed true, .proceed true, .cbReturn .breakExp, .proceed true]

/-- The first source writes as well. Its read event is handled, and the callback of the second source
breaks. -/
def brokenSecond : List Epoll.Action :=
  [.openFd 5, .openFd 6, .newSource 1 .osFd 5, .newSource 2 .osFd 6, .nextRead 1 (some 0) true,
    .nextWrite 1 (some 0) true, .nextRead 2 (some 0) true, .attach 1 true, .attach 2 true, .run,
    .flush true, .flush true, .flush true,
    .wait [(5, ⟨true, false, false⟩), (6, ⟨true, false, false⟩)],
    .proceed true, .proceed true, .cbReturn .continue, .proceed true, .proceed true, .proceed true,
    .proceed true, .proceed true, .proceed true, .cbReturn .breakExp, .proceed true]

/-- With kevent the first source reads again. With epoll the second source does, and the first is
armed again for writing without a call. -/
theorem nebEvdpQueueRun_reruns_both :
    Machine.AllStates Kevent.step Kevent.SubmitsWritten (Kevent.nebEvdpQueueCreate 10)
        (brokenKevent ++ [.next .read 1 (some 0) true, .run, .flush true, .flush true]) ∧
      ∃ r, Machine.run Epoll.Rerun.step (Epoll.nebEvdpQueueCreateRerun 10) (brokenSecond ++
          [.nextRead 2 (some 0) true, .run, .flush true, .flush true, .flush true]) = some r ∧
        (r.base.ctl, r.owed.map (·.ptr)) = (.ready, [1, 2]) ∧ Epoll.Rearmed r := by
  obtain ⟨k, hk, -⟩ : ∃ k, Machine.run Kevent.step (Kevent.nebEvdpQueueCreate 10)
      (brokenKevent ++ [.next .read 1 (some 0) true, .run, .flush true, .flush true]) = some k ∧
      k.nevents = 1 := Machine.run_reaches (by decide)
  obtain ⟨r, hr, hfacts⟩ : ∃ r, Machine.run Epoll.Rerun.step (Epoll.nebEvdpQueueCreateRerun 10)
      (brokenSecond ++
        [.nextRead 2 (some 0) true, .run, .flush true, .flush true, .flush true]) = some r ∧
      (r.base.ctl, r.owed.map (·.ptr)) = (.ready, [1, 2]) := Machine.run_reaches (by decide)
  obtain ⟨kevent, epoll⟩ := nebEvdpQueueRun_reruns 10 _ k (brokenSecond ++
    [.nextRead 2 (some 0) true, .run, .flush true, .flush true, .flush true]) hk
  exact ⟨kevent.2 (by decide), r, hr, hfacts, (epoll (by decide)).reached hr⟩

/-- Run again as it is, the queue submits the two events of the array as changes; and the second
source, whose event was not handled, is not armed any more. -/
theorem nebEvdpQueueRun_reruns_fails :
    ¬ Machine.AllStates Kevent.step Kevent.SubmitsWritten (Kevent.nebEvdpQueueCreate 10)
        (brokenKevent ++ [.run, .flush true]) ∧
      ¬ Machine.AllStates Epoll.Rerun.step Epoll.Rearmed (Epoll.nebEvdpQueueCreateRerun 10)
        (brokenEpoll ++ [.run, .flush true]) := by
  constructor
  · decide
  · decide

end Nebase.Evdp.Rerun
