/- What a wait submits: the entries that the flush before it has written, or the events of an
   earlier run that were left in the array. -/

import Nebase.Evdp.Kevent.Model
import Nebase.Foundation.Machine

set_option autoImplicit false
set_option relaxedAutoImplicit false

namespace Nebase.Evdp.Kevent

open Nebase.Foundation
open Nebase.Evdp.Epoll (Ptr Handler Dir NebEvdpCbRet Stage)

/-- The changes that `evdp_queue_wait_events` is about to submit are those that the flush has
written. -/
def SubmitsWritten (q : State) : Prop :=
  q.ctl = .ready → q.ee.take q.nevents.toNat = q.written

/-- A flush that ends with nothing left to submit finds no events of an earlier run in the array. -/
def LeavesNothing (q : State) (a : Action) : Prop :=
  match q.ctl, a with
  | .flushing last s count, .flush _ => (s = none ∨ last = s) → count = 0 → q.nevents ≤ 0
  | _, _ => True

/-- What ties the ghost to the array. -/
structure Tracked (q : State) : Prop where
  sized : q.nevents.toNat ≤ q.ee.length
  flushing : ∀ last s count, q.ctl = .flushing last s count →
    count ≤ q.ee.length ∧ q.written = q.ee.take count
  ready : SubmitsWritten q

/-- The program is neither in a flush nor about to wait. -/
def Ctl.elsewhere : Ctl → Bool
  | .flushing _ _ _ => false
  | .ready => false
  | _ => true

private theorem Ctl.elsewhere_of_userTurn {c : Ctl} (h : c.userTurn = true) :
    c.elsewhere = true := by
  cases c <;> first | rfl | cases h

/-- There nothing is tracked but the size. -/
private theorem Tracked.elsewhere {q : State} (sized : q.nevents.toNat ≤ q.ee.length)
    (hctl : q.ctl.elsewhere = true) : Tracked q := by
  refine ⟨sized, fun last s count h => ?_, fun h => ?_⟩
  · rw [h] at hctl
    cases hctl
  · rw [h] at hctl
    cases hctl

/-- The array keeps its size and the program its place. -/
def Quiet (q q' : State) : Prop :=
  q'.nevents = q.nevents ∧ q'.ee.length = q.ee.length ∧ q'.ctl = q.ctl

private theorem Quiet.refl (q : State) : Quiet q q := ⟨rfl, rfl, rfl⟩

private theorem Quiet.sized {q q' : State} (quiet : Quiet q q')
    (sized : q.nevents.toNat ≤ q.ee.length) : q'.nevents.toNat ≤ q'.ee.length := by
  rw [quiet.1, quiet.2.1]
  exact sized

private theorem rmPendingEvents_length (p : Ptr) (q : State) :
    (evdpQueueRmPendingEvents p q).ee.length = q.ee.length := by
  simp only [evdpQueueRmPendingEvents, List.length_append, List.length_map, List.length_drop,
    List.length_take]
  omega

private theorem detach_quiet (p : Ptr) (src : Source) (toClose ok : Bool) (q : State) :
    Quiet q (doDetachFromQueue p src toClose ok q) := by
  have hlen := rmPendingEvents_length p q
  unfold doDetachFromQueue
  simp only
  split
  · exact ⟨rfl, hlen, rfl⟩
  · exact ⟨rfl, hlen, rfl⟩

private theorem reset_quiet (d : Dir) (p : Ptr) (src : Source) (q : State) :
    Quiet q (evdpSourceOsFdReset d p src q).2 := by
  unfold evdpSourceOsFdReset
  simp only
  split
  · exact ⟨rfl, rfl, rfl⟩
  · split
    · exact ⟨rfl, rfl, rfl⟩
    · exact ⟨rfl, rfl, rfl⟩

private theorem unset_quiet (d : Dir) (p : Ptr) (src : Source) (ok : Bool) (q : State) :
    Quiet q (evdpSourceOsFdUnset d p src ok q).2 := by
  unfold evdpSourceOsFdUnset
  simp only
  split
  · exact ⟨rfl, rfl, rfl⟩
  · split
    · split
      · exact ⟨rfl, rfl, rfl⟩
      · exact ⟨rfl, rfl, rfl⟩
    · exact ⟨rfl, rfl, rfl⟩

private theorem next_quiet (d : Dir) (p : Ptr) (src : Source) (h : Option Handler) (ok : Bool)
    (q : State) : Quiet q (nebEvdpSourceOsFdNext d p src h ok q).2 := by
  unfold nebEvdpSourceOsFdNext
  simp only
  split
  · split
    · exact reset_quiet d p _ q
    · exact unset_quiet d p _ ok q
  · exact ⟨rfl, rfl, rfl⟩

private theorem regulate_quiet (p : Ptr) (src : Source) (ok : Bool) (q : State) :
    Quiet q (evdpSourceAbstimerRegulate p src ok q).2 := by
  unfold evdpSourceAbstimerRegulate
  simp only
  split
  · split
    · exact ⟨rfl, rfl, rfl⟩
    · exact ⟨rfl, rfl, rfl⟩
  · exact ⟨rfl, rfl, rfl⟩

private theorem attach_quiet (p : Ptr) (src : Source) (q : State) :
    Quiet q (nebEvdpQueueAttach p src q).2 := by
  unfold nebEvdpQueueAttach
  split
  · exact Quiet.refl q
  · split
    · exact ⟨rfl, rfl, rfl⟩
    · exact ⟨rfl, rfl, rfl⟩
    · exact ⟨rfl, rfl, rfl⟩
    · unfold evdpSourceOsFdAttach
      simp only
      split
      · exact ⟨rfl, rfl, rfl⟩
      · exact ⟨rfl, rfl, rfl⟩

/-- A call of the user is quiet. -/
private theorem call_tracked {q q' : State} {p : Ptr} {f : Source → State}
    (quiet : ∀ src, Quiet q (f src)) (tracked : Tracked q) (h : q.call p f = some q') :
    Tracked q' := by
  unfold State.call at h
  split at h
  · rename_i hturn
    obtain ⟨src, -, rfl⟩ := Option.map_eq_some_iff.1 h
    refine Tracked.elsewhere ((quiet src).sized tracked.sized) ?_
    rw [(quiet src).2.2]
    exact Ctl.elsewhere_of_userTurn hturn
  · exact absurd h (by simp)

private theorem moveSubmitted_frame {e : KEvent} {q q' : State} (h : moveSubmitted e q = some q') :
    q'.ee = q.ee ∧ q'.nevents = q.nevents ∧ q'.written = q.written ∧ q'.ctl = q.ctl := by
  unfold moveSubmitted at h
  split at h
  · exact absurd h (by simp)
  · split at h
    · exact absurd h (by simp)
    · split at h
      · split at h
        · cases h
          exact ⟨rfl, rfl, rfl, rfl⟩
        · cases h
          exact ⟨rfl, rfl, rfl, rfl⟩
      · cases h
        exact ⟨rfl, rfl, rfl, rfl⟩

/-- Moving the submitted sources leaves the array and the ghost alone. -/
theorem moveAllSubmitted_frame {es : List KEvent} {q q' : State}
    (h : moveAllSubmitted es q = some q') :
    q'.ee = q.ee ∧ q'.nevents = q.nevents ∧ q'.written = q.written ∧ q'.ctl = q.ctl := by
  induction es generalizing q with
  | nil =>
      cases h
      exact ⟨rfl, rfl, rfl, rfl⟩
  | cons e es ih =>
      obtain ⟨q1, h1, h2⟩ := Option.bind_eq_some_iff.1 h
      obtain ⟨ha, hb, hc, hd⟩ := moveSubmitted_frame h1
      obtain ⟨ha', hb', hc', hd'⟩ := ih h2
      exact ⟨ha'.trans ha, hb'.trans hb, hc'.trans hc, hd'.trans hd⟩

/-- A batch flush that succeeds leaves nothing written; one that fails ends the run. -/
private theorem doBatchFlush_cases (nr : Nat) (room : Bool) (q : State) :
    let r := doBatchFlush nr room q
    r.2.ee = q.ee ∧ r.2.nevents = q.nevents ∧
      ((r.1 = true ∧ r.2.written = []) ∨
        (r.1 = false ∧ (r.2.ctl = .user ∨ r.2.ctl = .undefined))) := by
  unfold doBatchFlush
  simp only
  split
  · split
    · rename_i q' h
      obtain ⟨hee, hn, hw, -⟩ := moveAllSubmitted_frame h
      exact ⟨hee, hn, Or.inl ⟨rfl, hw⟩⟩
    · exact ⟨rfl, rfl, Or.inr ⟨rfl, Or.inr rfl⟩⟩
  · exact ⟨rfl, rfl, Or.inr ⟨rfl, Or.inl rfl⟩⟩

/-- The flush is at its end: there is no source left, or it is the one just handled. -/
private theorem flush_end {q : State} {last s : Option Ptr} {count : Nat} (room : Bool)
    (hend : s = none ∨ last = s) :
    evdpQueueFlushPendingSources last s count room q
      = { q with nevents := if count = 0 then q.nevents else count, ctl := .ready } := by
  unfold evdpQueueFlushPendingSources
  cases s with
  | none => rfl
  | some p =>
      rcases hend with h | h
      · cases h
      · simp only
        rw [if_pos h]

/-- The queue once a round of the flush has written the entries of `p` behind `count` others. -/
def State.wrote (q : State) (p : Ptr) (src : Source) (count : Nat) : State :=
  let q := { q with
    ee := q.ee.take count ++ src.entries ++ q.ee.drop (count + src.entries.length)
    written := q.written ++ src.entries }
  if src.type = .osFd then q.setSource p { src with statsUpdated := false } else q

section Wrote

variable {q : State} {p : Ptr} {src : Source}

theorem wrote_frame (q : State) (p : Ptr) (src : Source) (count : Nat) :
    (q.wrote p src count).pendingQs = q.pendingQs ∧
      (q.wrote p src count).batchSize = q.batchSize ∧
      (q.wrote p src count).nevents = q.nevents ∧
      (q.wrote p src count).kernel = q.kernel := by
  unfold State.wrote
  simp only
  split
  · exact ⟨rfl, rfl, rfl, rfl⟩
  · exact ⟨rfl, rfl, rfl, rfl⟩

theorem wrote_array (q : State) (p : Ptr) (src : Source) (count : Nat) :
    (q.wrote p src count).ee =
        q.ee.take count ++ src.entries ++ q.ee.drop (count + src.entries.length) ∧
      (q.wrote p src count).written = q.written ++ src.entries := by
  unfold State.wrote
  simp only
  split
  · exact ⟨rfl, rfl⟩
  · exact ⟨rfl, rfl⟩

/-- A flag apart, the sources stay as they are. -/
theorem wrote_sources (source : q.sources p = some src) (count : Nat) :
    (∀ r, r ≠ p → (q.wrote p src count).sources r = q.sources r) ∧
      ∃ src', (q.wrote p src count).sources p = some src' ∧ src'.entries = src.entries ∧
        (src'.type = .osFd → src'.statsUpdated = false) := by
  unfold State.wrote
  simp only
  split
  · exact ⟨fun r hr => Function.update_of_ne hr _ _, _, Function.update_self .., rfl, fun _ => rfl⟩
  · rename_i hos
    exact ⟨fun _ _ => rfl, src, source, rfl, fun h => absurd h hos⟩

theorem wrote_os_fd (osFd : src.type = .osFd) (count : Nat) :
    (q.wrote p src count).sources p = some { src with statsUpdated := false } := by
  unfold State.wrote
  rw [if_pos osFd]
  exact Function.update_self ..

/-- A round of the flush at a source. -/
theorem flush_source {last : Option Ptr} (ahead : last ≠ some p) (source : q.sources p = some src)
    (count : Nat) (room : Bool) :
    evdpQueueFlushPendingSources last (some p) count room q =
      if q.batchSize < count + src.entries.length then
        q.goto .undefined
      else if q.batchSize ≤ count + src.entries.length then
        let r := doBatchFlush (count + src.entries.length) room (q.wrote p src count)
        if r.1 then r.2.goto (.flushing (some p) r.2.pendingQs.head? 0) else r.2
      else
        (q.wrote p src count).goto (.flushing (some p) ((q.wrote p src count).nextPending p)
          (count + src.entries.length)) := by
  have hbatch := (wrote_frame q p src count).2.1
  simp only [evdpQueueFlushPendingSources, if_neg ahead, source]
  split
  · rfl
  · conv_rhs => rw [← hbatch]
    rfl

end Wrote

/-- A round of the flush that is not its end goes on flushing, or leaves the loop. -/
private theorem flush_tracked {q : State} {last s : Option Ptr} {count : Nat} (room : Bool)
    (tracked : Tracked q) (hctl : q.ctl = .flushing last s count)
    (hend : ¬ (s = none ∨ last = s)) :
    Tracked (evdpQueueFlushPendingSources last s count room q) := by
  obtain ⟨hcount, hwritten⟩ := tracked.flushing last s count hctl
  have hsized := tracked.sized
  cases s with
  | none => exact absurd (Or.inl rfl) hend
  | some p =>
    cases hsrc : q.sources p with
    | none =>
      simp only [evdpQueueFlushPendingSources, hsrc]
      rw [if_neg fun h => hend (Or.inr h)]
      exact Tracked.elsewhere hsized rfl
    | some src =>
      rw [flush_source (fun h => hend (Or.inr h)) hsrc]
      -- the array and the ghost after the entries of the source
      obtain ⟨hee, hwr⟩ := wrote_array q p src count
      obtain ⟨-, -, hnev, -⟩ := wrote_frame q p src count
      generalize q.wrote p src count = q1 at *
      generalize src.entries = es at *
      have hlen : q1.ee.length = max q.ee.length (count + es.length) := by
        rw [hee]
        simp only [List.length_append, List.length_take, List.length_drop]
        omega
      have htake : q1.ee.take (count + es.length) = q1.written := by
        have hl : (q.ee.take count ++ es).length = count + es.length := by
          rw [List.length_append, List.length_take]
          omega
        rw [hee, hwr, hwritten, ← hl, List.take_left]
      split
      · exact Tracked.elsewhere hsized rfl
      split
      · obtain ⟨hee', hn', hcase⟩ := doBatchFlush_cases (count + es.length) room q1
        have hsized' : (doBatchFlush (count + es.length) room q1).2.nevents.toNat
            ≤ (doBatchFlush (count + es.length) room q1).2.ee.length := by
          rw [hee', hn', hnev, hlen]
          omega
        rcases hcase with ⟨hok, hw⟩ | ⟨hok, hout⟩
        · simp only [hok, if_true]
          refine ⟨hsized', ?_, fun h => by cases h⟩
          intro l' s' c' h
          cases h
          exact ⟨Nat.zero_le _, hw⟩
        · simp only [hok, Bool.false_eq_true, if_false]
          refine Tracked.elsewhere hsized' ?_
          rcases hout with h | h
          · rw [h]
            rfl
          · rw [h]
            rfl
      · refine ⟨?_, ?_, fun h => by cases h⟩
        · change q1.nevents.toNat ≤ q1.ee.length
          rw [hnev, hlen]
          omega
        · intro l' s' c' h
          cases h
          change count + es.length ≤ q1.ee.length ∧ q1.written = q1.ee.take (count + es.length)
          rw [htake, hlen]
          exact ⟨by omega, rfl⟩

private theorem handleEvent_tracked {i : Nat} {q : State} (sized : q.nevents.toNat ≤ q.ee.length) :
    Tracked (handleEvent i q) := by
  unfold handleEvent
  split
  · split
    · exact Tracked.elsewhere sized rfl
    · exact Tracked.elsewhere (Nat.zero_le _) rfl
  · simp only
    split
    · exact Tracked.elsewhere sized rfl
    split
    · exact Tracked.elsewhere sized rfl
    split
    · exact Tracked.elsewhere sized rfl
    split
    · exact Tracked.elsewhere sized rfl
    split
    · exact Tracked.elsewhere sized rfl
    · exact Tracked.elsewhere sized rfl
    · refine Tracked.elsewhere sized ?_
      simp only [State.goto]
      split
      · rfl
      · split <;> rfl
    · split
      · refine Tracked.elsewhere sized ?_
        simp only [State.goto]
        split <;> rfl
      · refine Tracked.elsewhere sized ?_
        simp only [State.goto]
        split
        · rfl
        · split <;> rfl
      · exact Tracked.elsewhere sized rfl

private theorem finishEvent_tracked {ne : NebEvdpEvent} {src : Source} {ret : NebEvdpCbRet}
    {ok : Bool} {q : State} (sized : q.nevents.toNat ≤ q.ee.length) :
    Tracked (finishEvent ne src ret ok q) := by
  have hdetach : ∀ toClose, Tracked
      ((doDetachFromQueue ne.source { src with noDetach := false } toClose ok q).goto
        (.removed ne.index)) :=
    fun toClose => Tracked.elsewhere ((detach_quiet ne.source _ toClose ok q).sized sized)
      rfl
  unfold finishEvent
  simp only
  split
  · exact hdetach false
  · exact hdetach true
  · exact Tracked.elsewhere sized rfl
  · exact Tracked.elsewhere sized rfl
  · exact Tracked.elsewhere sized rfl

private theorem afterCallback_tracked {ne : NebEvdpEvent} {stage : Stage} {src : Source}
    {ret : NebEvdpCbRet} {ok : Bool} {q : State} (sized : q.nevents.toNat ≤ q.ee.length) :
    Tracked (afterCallback ne stage src ret ok q) := by
  unfold afterCallback
  split
  · refine Tracked.elsewhere sized ?_
    simp only [State.goto]
    split <;> rfl
  · split
    all_goals exact Tracked.elsewhere sized rfl
  · exact Tracked.elsewhere sized rfl
  · split
    · split
      all_goals exact Tracked.elsewhere sized rfl
    · exact Tracked.elsewhere sized rfl

private theorem wait_tracked {room : Bool} {evs : List (Nat × Filter × Bool)} {q q' : State}
    (h : evdpQueueWaitEvents room evs q = some q') : Tracked q' := by
  unfold evdpQueueWaitEvents at h
  simp only at h
  split at h
  · exact absurd h (by simp)
  · split at h
    · cases h
      refine Tracked.elsewhere ?_ rfl
      simp only [Int.toNat_natCast, List.length_append]
      exact Nat.le_add_right _ _
    · exact absurd h (by simp)

/-- What one step preserves, when a flush that ends without changes finds no events. -/
theorem step_tracked {q q' : State} {a : Action} (tracked : Tracked q) (leaves : LeavesNothing q a)
    (h : step q a = some q') : Tracked q' := by
  have hsized := tracked.sized
  cases a with
  | closeFd fd =>
      simp only [step] at h
      split at h
      · rename_i hturn
        cases h
        exact Tracked.elsewhere hsized (Ctl.elsewhere_of_userTurn hturn)
      · exact absurd h (by simp)
  | newSource p type ident =>
      simp only [step] at h
      split at h
      · rename_i hturn
        cases h
        simp only [Bool.and_eq_true] at hturn
        exact Tracked.elsewhere hsized (Ctl.elsewhere_of_userTurn hturn.1)
      · exact absurd h (by simp)
  | delSource p =>
      refine call_tracked (fun src => ?_) tracked h
      unfold nebEvdpSourceDel
      split
      · exact Quiet.refl q
      · exact ⟨rfl, rfl, rfl⟩
  | resetFd p fd =>
      refine call_tracked (fun src => ?_) tracked h
      unfold nebEvdpSourceOsFdReset
      split
      · exact Quiet.refl q
      · split
        · exact Quiet.refl q
        · exact ⟨rfl, rfl, rfl⟩
  | next d p handler ok =>
      simp only [step] at h
      split at h
      · exact call_tracked (fun src => next_quiet d p src handler ok q) tracked h
      · exact absurd h (by simp)
  | regulate p ok =>
      simp only [step] at h
      split at h
      · exact call_tracked (fun src => regulate_quiet p src ok q) tracked h
      · exact absurd h (by simp)
  | attach p => exact call_tracked (fun src => attach_quiet p src q) tracked h
  | detach p toClose ok =>
      refine call_tracked (fun src => ?_) tracked h
      unfold nebEvdpQueueDetach
      split
      · exact Quiet.refl q
      · split
        · exact Quiet.refl q
        · exact detach_quiet p src toClose ok q
  | run =>
      simp only [step] at h
      split at h
      · cases h
        refine ⟨hsized, ?_, fun hc => by cases hc⟩
        intro last s count hc
        cases hc
        exact ⟨Nat.zero_le _, rfl⟩
      · exact absurd h (by simp)
  | flush room =>
      simp only [step] at h
      split at h
      · rename_i last s count hctl
        cases h
        by_cases hend : s = none ∨ last = s
        · rw [flush_end room hend]
          obtain ⟨hcount, hwritten⟩ := tracked.flushing last s count hctl
          have hstale : count = 0 → q.nevents ≤ 0 := by
            simp only [LeavesNothing, hctl] at leaves
            exact leaves hend
          refine ⟨?_, fun _ _ _ hc => by (cases hc), fun _ => ?_⟩
          · simp only
            split
            · exact hsized
            · simpa using hcount
          · simp only
            split
            · rename_i h0
              have h0' : q.nevents.toNat = 0 := by
                have := hstale h0
                omega
              rw [hwritten, h0, h0']
            · rw [hwritten, Int.toNat_natCast]
        · exact flush_tracked room tracked hctl hend
      · exact absurd h (by simp)
  | wait room evs =>
      simp only [step] at h
      split at h
      · split at h
        · cases h
          exact Tracked.elsewhere hsized rfl
        · exact wait_tracked h
      · exact absurd h (by simp)
  | waitFails =>
      simp only [step] at h
      split at h
      · split at h
        · cases h
          exact Tracked.elsewhere hsized rfl
        · cases h
          exact Tracked.elsewhere (by simp) rfl
      · exact absurd h (by simp)
  | proceed ok =>
      simp only [step] at h
      split at h
      · cases h
        exact handleEvent_tracked hsized
      · split at h
        · cases h
          exact Tracked.elsewhere hsized rfl
        · cases h
          exact finishEvent_tracked hsized
      · cases h
        exact Tracked.elsewhere hsized rfl
      · exact absurd h (by simp)
  | cbReturn ret ok =>
      simp only [step] at h
      split at h
      · split at h
        · cases h
          exact Tracked.elsewhere hsized rfl
        · cases h
          exact afterCallback_tracked hsized
      · exact absurd h (by simp)

/-- A flush that ends without changes over events of an earlier run makes the wait submit them. -/
theorem step_resubmits {q q' : State} {a : Action} (tracked : Tracked q)
    (stale : ¬ LeavesNothing q a) (h : step q a = some q') : ¬ SubmitsWritten q' := by
  cases a with
  | flush room =>
      simp only [step] at h
      split at h
      · rename_i last s count hctl
        simp only [LeavesNothing, hctl] at stale
        obtain ⟨hend, h0, hn⟩ : (s = none ∨ last = s) ∧ count = 0 ∧ 0 < q.nevents := by
          by_contra hno
          exact stale fun h1 h2 => by
            by_contra h3
            exact hno ⟨h1, h2, by omega⟩
        obtain ⟨hcount, hwritten⟩ := tracked.flushing last s count hctl
        have hsized := tracked.sized
        cases h
        rw [flush_end room hend]
        intro hsub
        have heq := congrArg List.length (hsub rfl)
        simp only [h0, if_true, hwritten, List.length_take] at heq
        omega
      · exact absurd h (by simp)
  | _ =>
      refine absurd ?_ stale
      unfold LeavesNothing
      split
      · rename_i heq
        cases heq
      · trivial

theorem tracked_create (batchSize : Nat) : Tracked (nebEvdpQueueCreate batchSize) :=
  Tracked.elsewhere (Nat.zero_le _) rfl

end Nebase.Evdp.Kevent
