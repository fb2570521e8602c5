/- The counter of the running sources in the runs with an iteration: the sources in the running list
   and its head, but not the cursor. -/

import Mathlib.Data.Finset.Card
import Nebase.Evdp.Epoll.Accounting
import Nebase.Evdp.Foreach.Lists

set_option autoImplicit false
set_option relaxedAutoImplicit false

namespace Nebase.Evdp.Foreach

open Nebase.Foundation Nebase.Evdp.Epoll

/-- Whether a source is in the running list. -/
def runs (o : Option Source) : Bool := o.any (fun src => src.qInUse && !src.pending)

/-- `stats.running` counts the sources `R` and the list head; a flush counts at its end. -/
structure Tallied (q : State) (R : Finset Ptr) : Prop where
  running : ∀ p, p ∈ R ↔ q.Running p
  counted : q.statsRunning + q.ctl.uncounted = 1 + R.card

/-- The flush succeeds, no source is put into the pending list twice, and only an attached source
is detached. -/
def KeepsTally (q : State) (a : Epoll.Action) : Prop :=
  FlushSucceeds q a ∧ RequeuesRunning q a ∧ ∀ d ∈ q.detaching a, q.Attached d.1

instance (q : State) (a : Epoll.Action) : Decidable (KeepsTally q a) :=
  inferInstanceAs (Decidable (_ ∧ _ ∧ ∀ d ∈ q.detaching a, q.Attached d.1))

section Base

variable {q q' : State} {R : Finset Ptr} {p : Ptr} {o : Option Source} {src src' : Source}

theorem running_iff (q : State) (p : Ptr) : q.Running p ↔ runs (q.sources p) = true := by
  unfold State.Running runs
  cases q.sources p with
  | none => simp
  | some src => simp

@[simp] theorem runs_none : runs none = false := rfl

@[simp] theorem runs_some (src : Source) : runs (some src) = (src.qInUse && !src.pending) := rfl

theorem uncounted_of_turn (turn : q.ctl.userTurn = true) : q.ctl.uncounted = 0 := by
  cases hctl : q.ctl with
  | flushing count =>
    rw [hctl] at turn
    cases turn
  | _ => rfl

private theorem uncounted_of_event {ne : NebEvdpEvent} (event : q.ctl.event = some ne) :
    q.ctl.uncounted = 0 := by
  cases hctl : q.ctl with
  | flushing count =>
    rw [hctl] at event
    cases event
  | _ => rfl

theorem Tallied.same (tallied : Tallied q R) (sources : q'.sources = q.sources)
    (counted : q'.statsRunning + q'.ctl.uncounted = q.statsRunning + q.ctl.uncounted) :
    Tallied q' R := by
  refine ⟨fun r => ?_, counted.trans tallied.counted⟩
  rw [running_iff, sources, ← running_iff]
  exact tallied.running r

/-- A write to one source, and the counter with it. -/
theorem Tallied.update (tallied : Tallied q R)
    (sources : q'.sources = Function.update q.sources p o)
    (counted : q'.statsRunning + q'.ctl.uncounted = q.statsRunning + q.ctl.uncounted +
      (if runs o then 1 else 0) - (if runs (q.sources p) then 1 else 0)) :
    ∃ R', Tallied q' R' := by
  have hp : p ∈ R ↔ runs (q.sources p) = true := (tallied.running p).trans (running_iff q p)
  have here : q'.Running p ↔ runs o = true := by rw [running_iff, sources, Function.update_self]
  have elsewhere : ∀ r, r ≠ p → (q'.Running r ↔ r ∈ R) := by
    intro r hr
    rw [running_iff, sources, Function.update_of_ne hr, ← running_iff, tallied.running]
  rw [tallied.counted] at counted
  cases ho : runs o with
  | true =>
    refine ⟨insert p R, fun r => ?_, ?_⟩
    · by_cases hr : r = p
      · subst hr
        simp [here, ho]
      · simp [hr, elsewhere r hr]
    · by_cases hold : p ∈ R
      · rw [Finset.insert_eq_of_mem hold]
        simp only [ho, hp.mp hold, if_true] at counted
        omega
      · rw [Finset.card_insert_of_notMem hold]
        simp only [ho, Bool.eq_false_iff.mpr (mt hp.mpr hold), if_true, Bool.false_eq_true,
          if_false] at counted
        push_cast
        omega
  | false =>
    refine ⟨R.erase p, fun r => ?_, ?_⟩
    · by_cases hr : r = p
      · subst hr
        simp [here, ho]
      · simp [hr, elsewhere r hr]
    · by_cases hold : p ∈ R
      · have hcard := Finset.card_erase_add_one hold
        simp only [ho, hp.mp hold, if_true, Bool.false_eq_true, if_false] at counted
        omega
      · rw [Finset.erase_eq_of_notMem hold]
        simp only [ho, Bool.eq_false_iff.mpr (mt hp.mpr hold), Bool.false_eq_true,
          if_false] at counted
        omega

/-- A write that leaves the source in its list. -/
theorem Tallied.write (tallied : Tallied q R) (hsrc : q.sources p = some src)
    (sources : q'.sources = Function.update q.sources p (some src'))
    (qInUse : src'.qInUse = src.qInUse) (pending : src'.pending = src.pending)
    (counted : q'.statsRunning + q'.ctl.uncounted = q.statsRunning + q.ctl.uncounted) :
    ∃ R', Tallied q' R' := by
  refine tallied.update sources ?_
  rw [hsrc, runs_some, runs_some, qInUse, pending]
  omega

/-- A write to a source that is not attached before or after it. -/
theorem Tallied.writeDetached (tallied : Tallied q R)
    (sources : q'.sources = Function.update q.sources p o) (before : runs (q.sources p) = false)
    (after : runs o = false)
    (counted : q'.statsRunning + q'.ctl.uncounted = q.statsRunning + q.ctl.uncounted) :
    ∃ R', Tallied q' R' := by
  refine tallied.update sources ?_
  rw [before, after]
  omega

/-- `do_detach_from_queue` on an attached source. -/
theorem Tallied.detach (tallied : Tallied q R) {toClose : Bool} {src0 : Source}
    (hsrc : q.sources p = some src0) (attached : src0.qInUse = true)
    (det : Detached p src toClose q q') (pending : src.pending = src0.pending) :
    ∃ R', Tallied q' R' := by
  obtain ⟨src', sources, unattached, -⟩ := det.sources
  refine tallied.update sources ?_
  rw [det.statsRunning, det.ctl, hsrc, runs_some, runs_some, unattached, attached, pending]
  cases src0.pending with
  | true =>
    simp only [if_true, Bool.not_true, Bool.and_false, Bool.false_eq_true, if_false, Bool.false_and]
    omega
  | false =>
    simp only [Bool.false_eq_true, if_false, Bool.not_false, Bool.and_true, if_true, Bool.false_and]
    omega

/-- A call that sets a handler. -/
private theorem Tallied.next (tallied : Tallied q R) {d : Dir} {h : Option Handler} {room : Bool}
    (hsrc : q.sources p = some src) (cases : NextCases d p src h room q q') :
    ∃ R', Tallied q' R' := by
  cases cases with
  | quiet src' kept pending added ctlOp interest =>
    exact tallied.write hsrc rfl kept.qInUse pending rfl
  | toPending src' kept added ctlOp attached idle outside running set =>
    refine tallied.update (o := some { src' with pending := true }) rfl ?_
    simp only [moveToPending, slistPendingInsert, slistRemove, hsrc, runs_some, kept.qInUse,
      attached, running, Bool.not_true, Bool.and_false, Bool.not_false, Bool.and_true, if_true,
      Bool.false_eq_true, if_false]
    omega
  | toRunning src' kept added ctlOp attached idle pending bare =>
    refine tallied.update (o := some { src' with pending := false }) rfl ?_
    simp only [moveToRunning, slistRunningInsert, slistRunningInsertNoStats, slistRemove, hsrc,
      runs_some, kept.qInUse, attached, pending, Bool.not_true, Bool.and_false, Bool.not_false,
      Bool.and_true, if_true, Bool.false_eq_true, if_false]
    omega
  | ctl attached added set new =>
    have kept : Kept src _ := ((Kept.setHandler src d h).trans (.setInterest _ d true)).trans
      (.doCtl p _ room q.kernel)
    refine tallied.write hsrc rfl kept.qInUse ?_ rfl
    rw [doCtlOsFd_pending]
    exact (setHandler_events src d h).2.1
  | del attached added unset last bare =>
    have kept : Kept src _ := ((Kept.setHandler src d h).trans (.setInterest _ d false)).trans
      (.doDel p _ q.kernel)
    refine tallied.write hsrc rfl kept.qInUse ?_ rfl
    rw [doDelOsFd_pending]
    exact (setHandler_events src d h).2.1

/-- Every step of the base that meets the condition keeps the counter. -/
theorem Tallied.ofStep (tallied : Tallied q R) {c : Option Ptr} {P R0 : List Ptr}
    (threaded : Threaded q c P R0) {a : Epoll.Action} (keeps : KeepsTally q a)
    (h : Epoll.StepCases q a q') : ∃ R', Tallied q' R' := by
  obtain ⟨flushes, requeues, detaches⟩ := keeps
  have still : q'.sources = q.sources → q'.statsRunning = q.statsRunning →
      q'.ctl.uncounted = q.ctl.uncounted → ∃ R', Tallied q' R' := by
    intro sources statsRunning uncounted
    exact ⟨R, tallied.same sources (by rw [statsRunning, uncounted])⟩
  -- the same where the step leaves a known control state
  have advance : ∀ {ctl : Epoll.Ctl}, q.ctl = ctl → q'.sources = q.sources →
      q'.statsRunning = q.statsRunning → q'.ctl.uncounted = ctl.uncounted →
      ∃ R', Tallied q' R' := by
    rintro _ rfl
    exact still
  have unattached_runs : ∀ {p : Ptr} {src : Source}, q.sources p = some src → src.qInUse = false →
      runs (q.sources p) = false := by
    intro p src hsrc unattached
    rw [hsrc, runs_some, unattached, Bool.false_and]
  cases h with
  | opened turn => exact still rfl rfl rfl
  | closed turn => exact still rfl rfl rfl
  | created turn free k reg requests isOpen =>
    exact tallied.writeDetached rfl (by rw [free, runs_none]) rfl rfl
  | refused turn => exact ⟨R, tallied⟩
  | @freed p src turn hsrc unattached =>
    by_cases htimer : src.type.isTimer = true
    · simp only [if_pos htimer]
      exact tallied.writeDetached rfl (unattached_runs hsrc unattached) runs_none rfl
    · simp only [if_neg htimer]
      exact tallied.writeDetached rfl (unattached_runs hsrc unattached) runs_none rfl
  | refitted turn hsrc unattached =>
    refine tallied.writeDetached rfl (unattached_runs hsrc unattached) ?_ rfl
    simp [evdpResetSourceOsFdContext, unattached]
  | next turn hsrc osFd cases => exact tallied.next hsrc cases
  | joinedPending turn hsrc unattached src' joined osFd =>
    refine tallied.writeDetached rfl (unattached_runs hsrc unattached) ?_ rfl
    simp
  | joinedRunning turn hsrc unattached src' joined osFd bare =>
    refine tallied.update (o := some { src' with pending := false }) rfl ?_
    rw [unattached_runs hsrc unattached, runs_some, joined.qInUse]
    simp [State.joined, slistRunningInsert, slistRunningInsertNoStats]
    omega
  | @detached p src toClose turn hsrc attached free =>
    exact tallied.detach hsrc attached (Epoll.detached p src toClose q) rfl
  | started ctl => exact advance ctl rfl rfl rfl
  | flushEnd ctl empty =>
    refine ⟨R, tallied.same rfl ?_⟩
    rw [ctl]
    simp [Ctl.uncounted]
  | @flushed count room p src ctl head hsrc ok =>
    obtain ⟨p', src0, heq, hsrc', huse, hpend⟩ := threaded.head head
    obtain rfl := Node.source.inj heq
    obtain rfl := Option.some.inj (hsrc.symm.trans hsrc')
    refine tallied.update (o := some { src with added := true, pending := false }) rfl ?_
    rw [hsrc, ctl]
    simp [State.goto, slistRunningInsertNoStats, slistRemove, Ctl.uncounted, huse, hpend]
    omega
  | flushFailed ctl head hsrc failed =>
    exact absurd (flushes _ (flushing_eq ctl head hsrc)) failed
  | flushLost ctl head lost =>
    obtain ⟨p, src, rfl, hsrc, -⟩ := threaded.head head
    rw [lost p rfl] at hsrc
    cases hsrc
  | waited ctl nodup events => exact advance ctl rfl rfl rfl
  | waitFailed ctl => exact advance ctl rfl rfl rfl
  | batchEnd ctl beyond currentEvent => exact advance ctl rfl rfl rfl
  | skipped ctl entry cleared => exact advance ctl rfl rfl rfl
  | lost ctl entry data free => exact advance ctl rfl rfl rfl
  | fetched ctl entry data hsrc =>
    refine tallied.write hsrc rfl ?_ ?_ (by rw [ctl]; rfl)
    · split_ifs <;> rfl
    · split_ifs <;> rfl
  | vanished event free => exact still rfl rfl (uncounted_of_event event).symm
  | otherHandled ctl hsrc other event =>
    exact still rfl rfl ((uncounted_of_event (q := q.goto _) event).trans (by rw [ctl]; rfl))
  | osFdSkipped ctl hsrc osFd => exact advance ctl rfl rfl rfl
  | osFdCalled ctl hsrc osFd src' entered notLast =>
    exact tallied.write hsrc rfl entered.qInUse entered.pending (by rw [ctl]; rfl)
  | @osFdRequeued ok ne src ctl hsrc osFd rest attached =>
    have running := requeues _ (requeueing_eq ctl hsrc osFd rest)
    refine tallied.update (o := some { src with pending := true }) rfl ?_
    rw [hsrc, ctl]
    simp [State.goto, moveToPending, slistPendingInsert, slistRemove, Ctl.uncounted, attached,
      running]
  | osFdLost ctl hsrc unattached => exact advance ctl rfl rfl rfl
  | osFdDone ctl hsrc osFd bare => exact advance ctl rfl rfl rfl
  | @returned ret ne stage src ctl hsrc src' entered =>
    refine tallied.write hsrc rfl entered.qInUse entered.pending ?_
    have after : (q.goto (afterCallback ne stage ret)).ctl.uncounted = 0 :=
      uncounted_of_event (after_callback_event ne stage ret)
    rw [ctl]
    exact congrArg (fun n : Nat => q.statsRunning + n) after
  | @finishedDetach ok ne ret src ctl hsrc toClose hret =>
    subst hret
    obtain ⟨s, hs, attached⟩ := detaches _ (detaching_finish toClose ctl hsrc)
    obtain rfl := Option.some.inj (hsrc.symm.trans hs)
    have det := Epoll.detached ne.source { src with noDetach := false } toClose q
    obtain ⟨R', tallied'⟩ := tallied.detach hsrc attached det rfl
    have after := det.ctl.trans ctl
    refine ⟨R', tallied'.same rfl ?_⟩
    simp only [State.goto, after, Ctl.uncounted]
  | @finished ok ne ret src ctl' ctl hsrc hctl' =>
    refine tallied.write hsrc rfl rfl rfl ?_
    rcases hctl' with ⟨rfl, -⟩ | ⟨rfl, -⟩
    · rw [ctl]
      rfl
    · rw [ctl]
      rfl
  | resumed ctl => exact advance ctl rfl rfl rfl

end Base

/-! The queue with its iteration. -/

/-- The source that `neb_evdp_queue_foreach_next` has read before it called the callback. -/
def Queue.reading (q : Queue) : Option Ptr :=
  match q.calls with
  | ⟨_, _, .called s _⟩ :: _ => some s
  | _ => none

/-- As `KeepsTally`, for a step of the queue with its iteration. -/
def KeepsCount (q : Queue) : Action → Prop
  | .base a => KeepsTally q.base a
  | .foreachReturn ret =>
    ret = .remove ∨ ret = .close → ∀ s ∈ q.reading, q.base.Attached s
  | _ => True

instance (q : Queue) (a : Action) : Decidable (KeepsCount q a) :=
  match a with
  | .base a => inferInstanceAs (Decidable (KeepsTally q.base a))
  | .foreachReturn ret =>
    inferInstanceAs (Decidable (ret = .remove ∨ ret = .close → ∀ s ∈ q.reading, q.base.Attached s))
  | .setUtype _ _ => isTrue trivial
  | .foreachStart _ => isTrue trivial
  | .foreachNext _ => isTrue trivial
  | .foreachSetEnd => isTrue trivial
  | .proceed => isTrue trivial

/-- The lists of the queue are well formed, and the counter fits the running sources. -/
def Numbered (q : Queue) : Prop := Wound q ∧ ∃ R, Tallied q.base R

section Queue

variable {q q' : Queue} {R : Finset Ptr}

private theorem set_end_tallied (tallied : Tallied q.base R) (turn : q.base.ctl.userTurn = true) :
    Tallied (nebEvdpQueueForeachSetEnd q).base R := by
  unfold nebEvdpQueueForeachSetEnd
  split_ifs
  · split
    · exact tallied.same rfl rfl
    · exact tallied.same rfl (by rw [uncounted_of_turn turn]; rfl)
  · exact tallied

private theorem released_tallied (tallied : Tallied q.base R) {i : Ptr} {src : Source}
    (hsrc : q.base.sources i = some src) : ∃ R', Tallied (q.released i src).base R' :=
  tallied.write hsrc rfl rfl rfl rfl

/-- Every step that meets the condition keeps the counter. -/
theorem Numbered.ofStep (numbered : Numbered q) {a : Action} (keeps : KeepsCount q a)
    (h : step q a = some q') : Numbered q' := by
  obtain ⟨wound, R, tallied⟩ := numbered
  refine ⟨wound.ofStep h, ?_⟩
  have lost : ∀ {q1 : Queue} {R1 : Finset Ptr}, Tallied q1.base R1 → q1.base.ctl.userTurn = true →
      ∃ R', Tallied q1.undefined.base R' := by
    intro q1 R1 tallied1 turn
    exact ⟨R1, tallied1.same rfl (by rw [uncounted_of_turn turn]; rfl)⟩
  have userTurn : q.userTurn = true → q.base.ctl.userTurn = true := by
    intro turn
    simp only [Queue.userTurn, Bool.and_eq_true] at turn
    exact turn.1
  cases step_cases h with
  | base admits hstep =>
    obtain ⟨P, R0, wired, -⟩ := wound
    exact tallied.ofStep wired.threaded keeps (Epoll.step_cases hstep)
  | setUtype turn => exact ⟨R, tallied⟩
  | refused turn => exact ⟨R, tallied⟩
  | started turn idle hf free => exact ⟨R, tallied.same rfl rfl⟩
  | entered turn running => exact ⟨R, tallied⟩
  | ended turn => exact ⟨R, set_end_tallied tallied (userTurn turn)⟩
  | lost turn => exact lost tallied turn
  | left turn hcalls hpoint => exact ⟨R, tallied⟩
  | sought turn hf hcalls hpoint next => exact ⟨R, tallied⟩
  | skipped turn hf hcalls hpoint unfit => exact ⟨R, tallied⟩
  | calledBack turn hf hcalls hpoint hsrc fit => exact tallied.write hsrc rfl rfl rfl rfl
  | exhausted turn hf hcalls hpoint => exact ⟨R, set_end_tallied tallied turn⟩
  | resumed turn hcalls hpoint => exact ⟨R, tallied⟩
  | continued turn hcalls hpoint hsrc => exact released_tallied tallied hsrc
  | endedByCb turn hcalls hpoint hsrc =>
    obtain ⟨R', tallied'⟩ := released_tallied tallied hsrc
    exact ⟨R', set_end_tallied tallied' turn⟩
  | invalid turn hcalls hpoint hsrc hret => exact released_tallied tallied hsrc
  | @removedByCb s i call calls src srcS turn hcalls hpoint hsrc toClose hsrcS =>
    obtain ⟨R', tallied'⟩ := released_tallied tallied hsrc
    have reading : q.reading = some s := by
      obtain ⟨size, count, point⟩ := call
      obtain rfl : point = .called s i := hpoint
      simp only [Queue.reading, hcalls]
    obtain ⟨src0, hsrc0, attached⟩ := keeps (by cases toClose <;> simp) s reading
    have attachedS : srcS.qInUse = true := by
      by_cases hs : s = i
      · subst hs
        obtain rfl := Option.some.inj (hsrc.symm.trans hsrc0)
        obtain rfl : { src with noDetach := false } = srcS := by
          simpa [Queue.released, State.setSource] using hsrcS
        exact attached
      · obtain rfl : src0 = srcS := by
          simpa [Queue.released, State.setSource, hs, hsrc0] using hsrcS
        exact attached
    exact tallied'.detach hsrcS attachedS (Epoll.detached s srcS toClose _) rfl
  | removedLost turn hcalls hpoint hsrc toClose free =>
    obtain ⟨R', tallied'⟩ := released_tallied tallied hsrc
    exact lost tallied' turn

theorem Numbered.create (batchSize : Nat) : Numbered (queueCreate batchSize) := by
  refine ⟨.create batchSize, ∅, ?_, rfl⟩
  intro p
  rw [running_iff]
  simp [queueCreate, nebEvdpQueueCreate]

/-- While no iteration is under way, the running list is what `stats.running` counts, but for the
list head. -/
theorem Numbered.idle (numbered : Numbered q) (turn : q.userTurn = true)
    (idle : q.inForeach = false) :
    ∃ P R, Wired q P R ∧ q.base.statsRunning = R.length + 1 := by
  obtain ⟨⟨P, R, wired, -⟩, S, tallied⟩ := numbered
  refine ⟨P, R, wired, ?_⟩
  have hcursor : q.cursor = none := by simp [Queue.cursor, idle]
  have hset : R.toFinset = S := by
    ext p
    rw [List.mem_toFinset, wired.threaded.running, tallied.running, hcursor]
    simp
  have hcard : S.card = R.length := by
    rw [← hset]
    exact List.toFinset_card_of_nodup wired.threaded.nodup.2
  have hcounted := tallied.counted
  simp only [Queue.userTurn, Bool.and_eq_true] at turn
  rw [uncounted_of_turn turn.1, hcard] at hcounted
  push_cast at hcounted
  omega

end Queue

end Nebase.Evdp.Foreach
