/- The accounts of the queue: the lists and their counters, over every run. -/

import Nebase.Evdp.Epoll.Lists
import Nebase.Evdp.Epoll.Steps
import Nebase.Foundation.Machine

set_option autoImplicit false
set_option relaxedAutoImplicit false

namespace Nebase.Evdp.Epoll

open Nebase.Foundation

/-- The source being handled is attached and protected. -/
def Handled (q : State) : Prop :=
  ∀ ne, q.ctl.event = some ne →
    ∃ src, q.sources ne.source = some src ∧ src.qInUse = true ∧ src.noDetach = true

structure Base (q : State) (P R : List Ptr) : Prop where
  queued : Queued q P R
  handled : Handled q
  defined : q.ctl ≠ .undefined

/-- An event that the step fetches is one of an attached source. -/
def FetchesAttached (q : State) (a : Action) : Prop :=
  ∀ d ∈ q.fetching a, q.Attached d.ptr

/-- The request of a flush step succeeds. -/
def FlushSucceeds (q : State) (a : Action) : Prop :=
  ∀ f ∈ q.flushing a, (q.kernel.epollCtl f.2.ctlOp f.1 f.2 a.room).1 = .ok

/-- A source that the handle function puts into the pending list is not there yet. -/
def RequeuesRunning (q : State) (a : Action) : Prop :=
  ∀ src ∈ q.requeueing a, src.pending = false

instance (q : State) (p : Ptr) : Decidable (q.Attached p) :=
  decidable_of_iff ((q.sources p).any (·.qInUse) = true) (by
    simp [State.Attached, Option.any_eq_true])

instance (q : State) (a : Action) : Decidable (FetchesAttached q a) :=
  inferInstanceAs (Decidable (∀ d ∈ q.fetching a, q.Attached d.ptr))

instance (q : State) (a : Action) : Decidable (FlushSucceeds q a) :=
  inferInstanceAs (Decidable (∀ f ∈ q.flushing a, _ = Errno.ok))

instance (q : State) (a : Action) : Decidable (RequeuesRunning q a) :=
  inferInstanceAs (Decidable (∀ src ∈ q.requeueing a, src.pending = false))

section Step

variable {q q' : State} {a : Action} {P R : List Ptr}

theorem Handled.congr (handled : Handled q) (event : q'.ctl.event = q.ctl.event)
    (sources : ∀ p src, q.sources p = some src → src.qInUse = true → src.noDetach = true →
      ∃ src', q'.sources p = some src' ∧ src'.qInUse = true ∧ src'.noDetach = true) :
    Handled q' := by
  intro ne hne
  rw [event] at hne
  obtain ⟨src, hsrc, huse, hno⟩ := handled ne hne
  exact sources ne.source src hsrc huse hno

/-- A write to one source keeps the handled one, unless it is that one and loses its protection. -/
theorem Handled.update (handled : Handled q) (event : q'.ctl.event = q.ctl.event) {p : Ptr}
    {o : Option Source} (sources : q'.sources = Function.update q.sources p o)
    (keeps : ∀ src, q.sources p = some src → src.qInUse = true → src.noDetach = true →
      ∃ src', o = some src' ∧ src'.qInUse = true ∧ src'.noDetach = true) : Handled q' := by
  refine handled.congr event ?_
  intro r src hsrc huse hno
  rw [sources]
  by_cases hr : r = p
  · subst hr
    rw [Function.update_self]
    exact keeps src hsrc huse hno
  · rw [Function.update_of_ne hr]
    exact ⟨src, hsrc, huse, hno⟩

theorem Handled.kept (handled : Handled q) (event : q'.ctl.event = q.ctl.event) {p : Ptr}
    {src src' : Source} (hsrc : q.sources p = some src)
    (sources : q'.sources = Function.update q.sources p (some src')) (kept : Kept src src') :
    Handled q' := by
  refine handled.update event sources ?_
  intro s hs huse hno
  obtain rfl := Option.some.inj (hsrc.symm.trans hs)
  exact ⟨src', rfl, kept.qInUse.trans huse, kept.noDetach.trans hno⟩

theorem Handled.of_no_event (event : q.ctl.event = none) : Handled q := by
  intro ne hne
  rw [event] at hne
  cases hne

theorem not_undefined_of_turn (turn : q.ctl.userTurn = true) : q.ctl ≠ .undefined := by
  intro h
  rw [h] at turn
  cases turn

/-- The effect of a call on an os_fd source. -/
theorem Base.next (base : Base q P R) {d : Dir} {p : Ptr} {src : Source} {h : Option Handler}
    {room : Bool} (hsrc : q.sources p = some src) (cases : NextCases d p src h room q q') :
    ∃ P' R', Base q' P' R' ∧ (Balanced q P R → Balanced q' P' R') := by
  cases cases with
  | quiet src' kept pending added ctlOp interest =>
    exact ⟨P, R, ⟨base.queued.setSource rfl rfl hsrc kept.qInUse (fun _ => pending),
      base.handled.kept rfl hsrc rfl kept, base.defined⟩, fun h => h⟩
  | toPending src' kept added ctlOp attached idle outside running set =>
    have huse := kept.qInUse.trans attached
    have hsources : (moveToPending p src' q).sources =
        Function.update q.sources p (some { src' with pending := true }) := rfl
    obtain ⟨P', R', queued, hP, hR⟩ :=
      base.queued.toPending hsrc attached rfl hsources huse rfl
    refine ⟨P', R', ⟨queued, base.handled.kept rfl hsrc hsources
      ⟨kept.type, kept.fd, kept.qInUse, kept.noDetach, kept.data⟩, base.defined⟩, ?_⟩
    intro balanced
    refine balanced.of_drift ?_ rfl
    simp only [running, Bool.false_eq_true, if_false] at hP hR
    simp only [SameDrift, moveToPending, slistPendingInsert, slistRemove]
    omega
  | toRunning src' kept added ctlOp attached idle pending bare =>
    have huse := kept.qInUse.trans attached
    have hsources : (moveToRunning p src' q).sources =
        Function.update q.sources p (some { src' with pending := false }) := rfl
    obtain ⟨P', R', queued, hP, hR⟩ :=
      base.queued.toRunning hsrc attached pending rfl hsources huse rfl
    refine ⟨P', R', ⟨queued, base.handled.kept rfl hsrc hsources
      ⟨kept.type, kept.fd, kept.qInUse, kept.noDetach, kept.data⟩, base.defined⟩, ?_⟩
    intro balanced
    refine balanced.of_drift ?_ rfl
    simp only [SameDrift, moveToRunning, slistRunningInsert, slistRunningInsertNoStats, slistRemove]
    omega
  | ctl attached added set new =>
    have kept : Kept src _ := ((Kept.setHandler src d h).trans (.setInterest _ d true)).trans
      (.doCtl p _ room q.kernel)
    refine ⟨P, R, ⟨base.queued.setSource rfl rfl hsrc kept.qInUse (fun _ => ?_),
      base.handled.kept rfl hsrc rfl kept, base.defined⟩, fun h => h⟩
    rw [doCtlOsFd_pending]
    exact (setHandler_events src d h).2.1
  | del attached added unset last bare =>
    have kept : Kept src _ := ((Kept.setHandler src d h).trans (.setInterest _ d false)).trans
      (.doDel p _ q.kernel)
    refine ⟨P, R, ⟨base.queued.setSource rfl rfl hsrc kept.qInUse (fun _ => ?_),
      base.handled.kept rfl hsrc rfl kept, base.defined⟩, fun h => h⟩
    rw [doDelOsFd_pending]
    exact (setHandler_events src d h).2.1

/-- The effect of `do_detach_from_queue` on the lists and the counters. -/
theorem Queued.detach (queued : Queued q P R) {p : Ptr} {src src0 : Source} {toClose : Bool}
    (hsrc : q.sources p = some src0) (huse : src0.qInUse = true)
    (detached : Detached p src toClose q q') (pending : src.pending = src0.pending) :
    ∃ P' R', Queued q' P' R' ∧ SameDrift q P R q' P' R' := by
  obtain ⟨src', hsources, huse', -⟩ := detached.sources
  obtain ⟨P', R', queued', -, -, hP, hR⟩ :=
    queued.remove hsrc huse detached.links hsources huse'
  refine ⟨P', R', queued', ?_⟩
  unfold SameDrift
  rw [detached.statsPending, detached.statsRunning, hP, hR, pending]
  split_ifs <;> omega

/-- The lists after a step, and the counters if the step meets what they need. -/
def BaseAfter (q : State) (a : Action) (P R : List Ptr) (q' : State) : Prop :=
  ∃ P' R', Base q' P' R' ∧
    (FlushSucceeds q a → RequeuesRunning q a → Balanced q P R → Balanced q' P' R')

private theorem Base.sameSources (base : Base q P R) (sources : q'.sources = q.sources)
    (links : q'.links = q.links) (handled : Handled q') (defined : q'.ctl ≠ .undefined)
    (statsPending : q'.statsPending = q.statsPending)
    (statsRunning : q'.statsRunning = q.statsRunning)
    (count : q'.ctl.uncounted = q.ctl.uncounted) : BaseAfter q a P R q' := by
  refine ⟨P, R, ⟨base.queued.congr links (fun r => ?_) (fun r => ?_), handled, defined⟩, ?_⟩
  · unfold State.Pending
    rw [sources]
  · unfold State.Running
    rw [sources]
  · intro _ _ balanced
    refine balanced.of_drift ?_ count
    simp only [SameDrift, statsPending, statsRunning, and_self]

/-- The same where the step leaves a known control state, outside of the batch. -/
private theorem Base.advance (base : Base q P R) {c : Ctl} (ctl : q.ctl = c)
    (sources : q'.sources = q.sources) (links : q'.links = q.links)
    (event : q'.ctl.event = none) (defined : q'.ctl ≠ .undefined)
    (statsPending : q'.statsPending = q.statsPending)
    (statsRunning : q'.statsRunning = q.statsRunning)
    (count : q'.ctl.uncounted = c.uncounted) : BaseAfter q a P R q' := by
  subst ctl
  exact base.sameSources sources links (.of_no_event event) defined statsPending statsRunning count

/-- A write to a source that is not attached. -/
private theorem Base.setDetached (base : Base q P R) {p : Ptr} {o : Option Source}
    (links : q'.links = q.links) (sources : q'.sources = Function.update q.sources p o)
    (before : ¬ q.Attached p) (after : ∀ s, o = some s → s.qInUse = false)
    (ctl : q'.ctl = q.ctl) (statsPending : q'.statsPending = q.statsPending)
    (statsRunning : q'.statsRunning = q.statsRunning) : BaseAfter q a P R q' := by
  refine ⟨P, R, ⟨base.queued.setDetached links sources before after,
    base.handled.update (by rw [ctl]) sources ?_, ctl ▸ base.defined⟩, ?_⟩
  · intro src hsrc huse
    exact absurd ⟨src, hsrc, huse⟩ before
  · intro _ _ balanced
    refine balanced.of_drift ?_ (by rw [ctl])
    simp only [SameDrift, statsPending, statsRunning, and_self]

/-- A write to the handled source that keeps it, and the program goes on with it. -/
private theorem Base.setHandled (base : Base q P R) {ne : NebEvdpEvent} {src src' : Source}
    {c : Ctl} (event : q.ctl.event = some ne) (event' : c.event = some ne)
    (hsrc : q.sources ne.source = some src) (kept : Kept src src')
    (pending : src'.pending = src.pending) :
    BaseAfter q a P R ((q.setSource ne.source src').goto c) := by
  have uncounted : ∀ {c : Ctl}, c.event = some ne → c.uncounted = 0 ∧ c ≠ .undefined := by
    intro c hc
    refine ⟨?_, by rintro rfl; cases hc⟩
    cases c <;> first | rfl | cases hc
  refine ⟨P, R, ⟨base.queued.setSource rfl rfl hsrc kept.qInUse (fun _ => pending), ?_,
    (uncounted event').2⟩, ?_⟩
  · exact base.handled.kept (event'.trans event.symm) hsrc rfl kept
  · intro _ _ balanced
    refine balanced.of_drift ⟨rfl, rfl⟩ ?_
    exact (uncounted event').1.trans (uncounted event).1.symm

theorem after_callback_event (ne : NebEvdpEvent) (stage : Stage) (ret : NebEvdpCbRet) :
    (afterCallback ne stage ret).event = some ne := by
  cases stage <;> cases ret <;> rfl

theorem not_attached {p : Ptr} {src : Source} (hsrc : q.sources p = some src)
    (unattached : src.qInUse = false) : ¬ q.Attached p := by
  rintro ⟨s, hs, huse⟩
  obtain rfl := Option.some.inj (hsrc.symm.trans hs)
  rw [unattached] at huse
  cases huse

/-- The flush takes a pending source. -/
theorem Base.head (base : Base q P R) {n : Node} (head : q.links.next .pendingQs = some n) :
    ∃ p src, n = .source p ∧ q.sources p = some src ∧ src.qInUse = true ∧ src.pending = true := by
  rw [base.queued.head, Option.map_eq_some_iff] at head
  obtain ⟨p, hp, rfl⟩ := head
  obtain ⟨src, hsrc, huse, hpend⟩ := (base.queued.pending p).mp (List.mem_of_mem_head? hp)
  exact ⟨p, src, rfl, hsrc, huse, hpend⟩

/-- Every step keeps the lists, and the counters as long as no flush fails and no source is put
into the pending list twice. -/
theorem Base.ofStep (base : Base q P R) (fetches : FetchesAttached q a)
    (h : step q a = some q') : BaseAfter q a P R q' := by
  cases step_cases h with
  | opened turn => exact base.sameSources rfl rfl base.handled base.defined rfl rfl rfl
  | closed turn => exact base.sameSources rfl rfl base.handled base.defined rfl rfl rfl
  | @created p type fd turn free k reg requests isOpen =>
    have hnot : ¬ q.Attached p := by
      rintro ⟨s, hs, -⟩
      rw [free] at hs
      cases hs
    refine base.setDetached rfl rfl hnot ?_ rfl rfl rfl
    rintro _ ⟨⟩
    rfl
  | refused turn => exact ⟨P, R, base, fun _ _ h => h⟩
  | @freed p src turn hsrc unattached =>
    have after : ∀ s, (none : Option Source) = some s → s.qInUse = false := by simp
    by_cases htimer : src.type.isTimer = true
    · simp only [if_pos htimer]
      exact base.setDetached rfl rfl (not_attached hsrc unattached) after rfl rfl rfl
    · simp only [if_neg htimer]
      exact base.setDetached rfl rfl (not_attached hsrc unattached) after rfl rfl rfl
  | refitted turn hsrc unattached =>
    refine base.setDetached rfl rfl (not_attached hsrc unattached) ?_ rfl rfl rfl
    rintro _ ⟨⟩
    exact unattached
  | next turn hsrc osFd cases =>
    obtain ⟨P', R', base', balanced⟩ := base.next hsrc cases
    exact ⟨P', R', base', fun _ _ => balanced⟩
  | @joinedPending p src settime turn hsrc unattached src' joined osFd =>
    have hnot := not_attached hsrc unattached
    have hsources : ((slistPendingInsert p src' q).joined q p).sources =
        Function.update q.sources p (some { src' with pending := true }) := rfl
    refine ⟨p :: P, R, ⟨base.queued.insertPending hnot rfl hsources joined.qInUse rfl,
      base.handled.update rfl hsources ?_, base.defined⟩, ?_⟩
    · intro s hs huse
      exact absurd ⟨s, hs, huse⟩ hnot
    · intro _ _ balanced
      refine balanced.of_drift ⟨?_, rfl⟩ rfl
      change q.statsPending + 1 - ((p :: P).length : Int) = _
      rw [List.length_cons]
      push_cast
      omega
  | @joinedRunning p src settime turn hsrc unattached src' joined osFd bare =>
    have hnot := not_attached hsrc unattached
    have hsources : ((slistRunningInsert p src' q).joined q p).sources =
        Function.update q.sources p (some { src' with pending := false }) := rfl
    refine ⟨P, p :: R, ⟨base.queued.insertRunning hnot rfl hsources joined.qInUse rfl,
      base.handled.update rfl hsources ?_, base.defined⟩, ?_⟩
    · intro s hs huse
      exact absurd ⟨s, hs, huse⟩ hnot
    · intro _ _ balanced
      refine balanced.of_drift ⟨rfl, ?_⟩ rfl
      change q.statsRunning + 1 - ((p :: R).length : Int) = _
      rw [List.length_cons]
      push_cast
      omega
  | @detached p src toClose turn hsrc attached free =>
    have det := Epoll.detached p src toClose q
    obtain ⟨P', R', queued, drift⟩ := base.queued.detach hsrc attached det rfl
    obtain ⟨src', hsources, -⟩ := det.sources
    refine ⟨P', R', ⟨queued, base.handled.update (by rw [det.ctl]) hsources ?_,
      det.ctl ▸ base.defined⟩, fun _ _ balanced => balanced.of_drift drift (by rw [det.ctl])⟩
    intro s hs _ hno
    obtain rfl := Option.some.inj (hsrc.symm.trans hs)
    rw [free] at hno
    cases hno
  | started ctl =>
    exact base.advance ctl rfl rfl rfl (by simp [State.goto]) rfl rfl rfl
  | flushEnd ctl empty =>
    refine ⟨P, R, ⟨base.queued.congr rfl (fun _ => .rfl) (fun _ => .rfl), .of_no_event rfl,
      by simp⟩, ?_⟩
    rintro - - ⟨hp, hr⟩
    rw [ctl] at hp hr
    simp only [Ctl.uncounted] at hp hr
    simp only [Balanced, Ctl.uncounted]
    omega
  | @flushed count room p src ctl head hsrc ok =>
    obtain ⟨p', src0, heq, hsrc', huse, hpend⟩ := base.head head
    obtain rfl := Node.source.inj heq
    obtain rfl := Option.some.inj (hsrc.symm.trans hsrc')
    obtain ⟨P', R', queued, hP, hR⟩ := base.queued.toRunning hsrc huse hpend rfl
      (rfl : ((slistRunningInsertNoStats p { src with added := true }
          (slistRemove p { q with kernel := (q.kernel.epollCtl src.ctlOp p src room).2 })).goto
            (.flushing (count + 1))).sources = Function.update q.sources p
              (some { src with added := true, pending := false })) huse rfl
    refine ⟨P', R', ⟨queued, .of_no_event rfl, by simp [State.goto]⟩, ?_⟩
    rintro - - ⟨hp, hr⟩
    rw [ctl] at hp hr
    simp only [Ctl.uncounted] at hp hr
    simp only [Balanced, State.goto, slistRunningInsertNoStats, slistRemove, Ctl.uncounted]
    omega
  | flushFailed ctl head hsrc failed =>
    refine ⟨P, R, ⟨base.queued.congr rfl (fun _ => .rfl) (fun _ => .rfl), .of_no_event rfl,
      by simp⟩, ?_⟩
    intro succeeds
    exact absurd (succeeds _ (flushing_eq ctl head hsrc)) failed
  | flushLost ctl head lost =>
    obtain ⟨p, src, rfl, hsrc, -⟩ := base.head head
    rw [lost p rfl] at hsrc
    cases hsrc
  | waited ctl nodup events =>
    exact base.advance ctl rfl rfl rfl (by simp) rfl rfl rfl
  | waitFailed ctl =>
    exact base.advance ctl rfl rfl rfl (by simp) rfl rfl rfl
  | batchEnd ctl beyond currentEvent =>
    exact base.advance ctl rfl rfl rfl (by simp) rfl rfl rfl
  | skipped ctl entry cleared =>
    exact base.advance ctl rfl rfl rfl (by simp) rfl rfl rfl
  | lost ctl entry data free =>
    obtain ⟨s, hs, -⟩ := fetches _ (fetching_eq ctl entry data)
    rw [free] at hs
    cases hs
  | @fetched i ok e d src ctl entry data hsrc =>
    obtain ⟨s, hs, huse⟩ := fetches _ (fetching_eq ctl entry data)
    obtain rfl := Option.some.inj (hsrc.symm.trans hs)
    obtain ⟨src', hsrc', huse', hno', hpend'⟩ : ∃ src', src' = (if src.type = SourceType.osFd then
        { src with noDetach := true, added := false, ctlOp := .mod }
      else { src with noDetach := true }) ∧ src'.qInUse = true ∧ src'.noDetach = true ∧
        src'.pending = src.pending := by
      refine ⟨_, rfl, ?_⟩
      split_ifs <;> exact ⟨huse, rfl, rfl⟩
    rw [← hsrc']
    refine ⟨P, R, ⟨base.queued.setSource rfl rfl hsrc (huse'.trans huse.symm) (fun _ => hpend'), ?_,
      by simp [State.goto]⟩, ?_⟩
    · rintro _ ⟨⟩
      exact ⟨src', Function.update_self .., huse', hno'⟩
    · intro _ _ balanced
      exact balanced.of_drift ⟨rfl, rfl⟩ (by rw [ctl]; rfl)
  | vanished event free =>
    obtain ⟨s, hs, -⟩ := base.handled _ event
    rw [free] at hs
    cases hs
  | @otherHandled ok ne stage src ctl' ctl hsrc other event =>
    have hset : q.goto ctl' = (q.setSource ne.source src).goto ctl' := by
      simp only [State.goto, State.setSource, ← hsrc, Function.update_eq_self]
    rw [hset]
    exact base.setHandled (by rw [ctl]; rfl) event hsrc (.refl src) rfl
  | @osFdSkipped ok ne stage stage' src ctl hsrc osFd =>
    have hset : q.goto (.handle ne stage')
        = (q.setSource ne.source src).goto (.handle ne stage') := by
      simp only [State.goto, State.setSource, ← hsrc, Function.update_eq_self]
    rw [hset]
    exact base.setHandled (by rw [ctl]; rfl) rfl hsrc (.refl src) rfl
  | osFdCalled ctl hsrc osFd src' entered notLast =>
    exact base.setHandled (by rw [ctl]; rfl) rfl hsrc entered.toKept entered.pending
  | @osFdRequeued ok ne src ctl hsrc osFd rest attached =>
    obtain ⟨P', R', queued, hP, hR⟩ := base.queued.toPending hsrc attached rfl
      (rfl : ((moveToPending ne.source src q).goto (.finish ne .continue)).sources =
        Function.update q.sources ne.source (some { src with pending := true })) attached rfl
    refine ⟨P', R', ⟨queued, base.handled.kept (by rw [ctl]; rfl) hsrc rfl
      ⟨rfl, rfl, rfl, rfl, rfl⟩, by simp [State.goto]⟩, ?_⟩
    intro _ requeues balanced
    have running := requeues _ (requeueing_eq ctl hsrc osFd rest)
    simp only [running, Bool.false_eq_true, if_false] at hP hR
    refine balanced.of_drift ?_ (by rw [ctl]; rfl)
    simp only [SameDrift, State.goto, moveToPending, slistPendingInsert, slistRemove]
    omega
  | osFdLost ctl hsrc unattached =>
    obtain ⟨s, hs, huse, -⟩ := base.handled _ (by rw [ctl]; rfl)
    obtain rfl := Option.some.inj (hsrc.symm.trans hs)
    rw [unattached] at huse
    cases huse
  | @osFdDone ok ne src ctl hsrc osFd bare =>
    have hset : q.goto (.finish ne .continue) =
        (q.setSource ne.source src).goto (.finish ne .continue) := by
      simp only [State.goto, State.setSource, ← hsrc, Function.update_eq_self]
    rw [hset]
    exact base.setHandled (by rw [ctl]; rfl) rfl hsrc (.refl src) rfl
  | returned ctl hsrc src' entered =>
    exact base.setHandled (by rw [ctl]; rfl) (after_callback_event _ _ _) hsrc entered.toKept
      entered.pending
  | @finishedDetach ok ne ret src ctl hsrc toClose hret =>
    obtain ⟨s, hs, huse, -⟩ := base.handled ne (by rw [ctl]; rfl)
    obtain rfl := Option.some.inj (hsrc.symm.trans hs)
    have det := Epoll.detached ne.source { src with noDetach := false } toClose q
    obtain ⟨P', R', queued, drift⟩ := base.queued.detach hsrc huse det rfl
    refine ⟨P', R', ⟨queued.congr rfl (fun _ => .rfl) (fun _ => .rfl), .of_no_event rfl,
      by simp [State.goto]⟩, ?_⟩
    intro _ _ balanced
    exact balanced.of_drift drift (by rw [ctl]; rfl)
  | @finished ok ne ret src ctl' ctl hsrc hctl' =>
    have hc : ctl'.event = none ∧ ctl' ≠ .undefined ∧ ctl'.uncounted = 0 := by
      rcases hctl' with ⟨rfl, -⟩ | ⟨rfl, -⟩ <;> exact ⟨rfl, by simp, rfl⟩
    refine ⟨P, R, ⟨base.queued.setSource rfl rfl hsrc rfl (fun _ => rfl), .of_no_event hc.1,
      hc.2.1⟩, ?_⟩
    intro _ _ balanced
    exact balanced.of_drift ⟨rfl, rfl⟩ (by rw [ctl]; exact hc.2.2)
  | resumed ctl =>
    exact base.advance ctl rfl rfl rfl (by simp [State.goto]) rfl rfl rfl

end Step

/-! Runs. -/

def Ctl.isFlushing : Ctl → Bool
  | .flushing _ => true
  | _ => false

/-- The lists of the queue are well formed, and the counters fit them; a flush counts at its end. -/
def Accounts (q : State) : Prop :=
  ∃ P R, Queued q P R ∧
    (q.ctl.isFlushing = false →
      q.statsPending = 1 + P.length ∧ q.statsRunning = 1 + R.length)

/-- The step does not handle an event of a detached source, and puts no source into the pending
list that is there already. -/
def KeepsAccounts (q : State) (a : Action) : Prop :=
  FetchesAttached q a ∧ RequeuesRunning q a

theorem Base.create (batchSize : Nat) :
    Base (nebEvdpQueueCreate batchSize) [] [] ∧ Balanced (nebEvdpQueueCreate batchSize) [] [] := by
  refine ⟨⟨⟨⟨?_, ?_, ?_, ?_⟩, ?_, ?_⟩, .of_no_event rfl, by simp [nebEvdpQueueCreate]⟩, rfl, rfl⟩
  · exact fun _ _ => rfl
  · rintro k (rfl | rfl) <;> rfl
  · rintro k (rfl | rfl) <;> simp [carried]
  · rintro h (rfl | rfl) k (rfl | rfl) hne <;> simp_all [carried]
  · intro p
    simp [State.Pending, nebEvdpQueueCreate]
  · intro p
    simp [State.Running, nebEvdpQueueCreate]

/-- The lists and the counters of a queue after a run that keeps them. -/
theorem Base.ofRun {batchSize : Nat} {as : List Action} {q : State}
    (flushes : Machine.StepsMeet step FlushSucceeds (nebEvdpQueueCreate batchSize) as)
    (meets : Machine.StepsMeet step KeepsAccounts (nebEvdpQueueCreate batchSize) as)
    (reached : Machine.run step (nebEvdpQueueCreate batchSize) as = some q) :
    ∃ P R, Base q P R ∧ Balanced q P R :=
  Machine.invariant_run (I := fun q => ∃ P R, Base q P R ∧ Balanced q P R)
    (fun q a q' ⟨P, R, base, balanced⟩ ok h => by
      obtain ⟨P', R', base', keeps⟩ := base.ofStep ok.2.1 h
      exact ⟨P', R', base', keeps ok.1 ok.2.2 balanced⟩)
    ⟨[], [], Base.create batchSize⟩ (flushes.and meets) reached

/-- In every run in which flushes succeed, no event of a detached source is handled and no pending
source is re-queued by its handle function, the accounts are right in every state. -/
theorem nebEvdpQueue_accounts (batchSize : Nat) (as : List Action) (q : State)
    (flushes : Machine.StepsMeet step FlushSucceeds (nebEvdpQueueCreate batchSize) as)
    (meets : Machine.StepsMeet step KeepsAccounts (nebEvdpQueueCreate batchSize) as)
    (reached : Machine.run step (nebEvdpQueueCreate batchSize) as = some q) : Accounts q := by
  obtain ⟨P, R, base, balanced⟩ := Base.ofRun flushes meets reached
  refine ⟨P, R, base.queued, ?_⟩
  intro hctl
  have hcount : q.ctl.uncounted = 0 := by
    cases hq : q.ctl with
    | flushing count =>
      rw [hq] at hctl
      cases hctl
    | _ => rfl
  obtain ⟨hp, hr⟩ := balanced
  rw [hcount] at hp hr
  omega

instance (q : State) (a : Action) : Decidable (KeepsAccounts q a) :=
  inferInstanceAs (Decidable (_ ∧ _))

/-- Two os_fd sources that want to read, attached and flushed, and an event for each. -/
def twoReaders : List Action :=
  [.openFd 5, .openFd 6, .newSource 1 .osFd 5, .newSource 2 .osFd 6,
    .nextRead 1 (some 0) true, .nextRead 2 (some 0) true, .attach 1 true, .attach 2 true,
    .run, .flush true, .flush true, .flush true,
    .wait [(5, ⟨true, false, false⟩), (6, ⟨true, false, false⟩)]]

/-- The callback of the first source, and what the driver does after it. -/
def firstCallback (calls : List Action) : List Action :=
  [.proceed true, .proceed true] ++ calls ++
    [.cbReturn .continue, .proceed true, .proceed true, .proceed true, .proceed true]

/-- The second source reads again in its own callback. -/
def secondCallback : List Action :=
  [.proceed true, .proceed true, .nextRead 2 (some 0) true, .cbReturn .continue, .proceed true,
    .proceed true, .proceed true, .proceed true]

theorem nebEvdpQueue_accounts_two_readers :
    ∃ q, Machine.run step (nebEvdpQueueCreate 10)
      (twoReaders ++ firstCallback [] ++ secondCallback) = some q ∧ Accounts q := by
  obtain ⟨q, hq, -⟩ : ∃ q, Machine.run step (nebEvdpQueueCreate 10)
      (twoReaders ++ firstCallback [] ++ secondCallback) = some q ∧ q.statsPending = 2 :=
    Machine.run_reaches (by decide)
  exact ⟨q, hq, nebEvdpQueue_accounts 10 _ q (by decide) (by decide) hq⟩

/-- The first callback unsets and sets the read handler of the second source, whose event is still
to come. -/
theorem nebEvdpQueue_accounts_fail :
    ¬ ∀ (batchSize : Nat) (as : List Action) (q : State),
      Machine.StepsMeet step FlushSucceeds (nebEvdpQueueCreate batchSize) as →
      Machine.run step (nebEvdpQueueCreate batchSize) as = some q → Accounts q := by
  intro claim
  obtain ⟨q, hq, hfacts⟩ : ∃ q, Machine.run step (nebEvdpQueueCreate 10)
      (twoReaders ++ firstCallback [.nextRead 2 none true, .nextRead 2 (some 0) true] ++
        secondCallback) = some q ∧
      (q.statsPending, q.ctl.isFlushing, q.links.next .pendingQs, q.links.prev (.source 2),
        q.links.next (.source 2)) = (3, false, some (.source 2), some .pendingQs, none) :=
    Machine.run_reaches (by decide)
  simp only [Prod.mk.injEq] at hfacts
  obtain ⟨hsp, hctl, hhead, hprev, hnext⟩ := hfacts
  obtain ⟨P, R, queued, counts⟩ := claim 10 _ q (by decide) hq
  have hP : P.map Node.source = [.source 2] :=
    (queued.lists.segment .pendingQs (Or.inl rfl)).unique ⟨hhead, hprev, hnext⟩
  have hlen : P.length = 1 := by simpa using congrArg List.length hP
  obtain ⟨hp, -⟩ := counts hctl
  rw [hsp, hlen] at hp
  omega

end Nebase.Evdp.Epoll
