/- The sources of a batch in which a run has stopped, and when the next run arms them again. -/

import Nebase.Evdp.Epoll.Requeue

set_option autoImplicit false
set_option relaxedAutoImplicit false

namespace Nebase.Evdp.Epoll

open Nebase.Foundation

/-! The operation of a source is never a deletion. -/

/-- `ctl_op` holds what the driver has put there. -/
def OpsSet (q : State) : Prop := ∀ p src, q.sources p = some src → src.ctlOp ≠ .del

private theorem OpsSet.update {q q' : State} {p : Ptr} {o : Option Source} (ops : OpsSet q)
    (sources : q'.sources = Function.update q.sources p o)
    (new : ∀ src, o = some src → src.ctlOp ≠ .del) : OpsSet q' := by
  intro r src hsrc
  rw [sources] at hsrc
  by_cases hr : r = p
  · subst hr
    rw [Function.update_self] at hsrc
    exact new src hsrc
  · rw [Function.update_of_ne hr] at hsrc
    exact ops r src hsrc

private theorem del_if_added_op (p : Ptr) (src : Source) (k : Kernel) :
    (delIfAdded p src k).1.ctlOp = src.ctlOp := by
  unfold delIfAdded
  split_ifs <;> rfl

private theorem detach_op (p : Ptr) (src : Source) (toClose : Bool) (k : Kernel)
    (op : src.ctlOp ≠ .del) : (evdpSourceDetach p src toClose k).1.ctlOp ≠ .del := by
  unfold evdpSourceDetach
  cases src.type with
  | itimer =>
      simp only [evdpSourceTimerDetach, del_if_added_op]
      exact op
  | abstimer =>
      simp only [evdpSourceTimerDetach, del_if_added_op]
      exact op
  | roFd =>
      simp only [evdpSourceRoFdDetach]
      split_ifs
      · exact op
      · rw [del_if_added_op]
        exact op
  | osFd =>
      simp only [evdpSourceOsFdDetach]
      split_ifs
      · exact op
      · rw [doDelOsFd_source]
        split_ifs
        · simp
        · exact op
        · exact op
      · exact op

private theorem detached_op {q : State} (ops : OpsSet q) (p : Ptr) (src : Source) (toClose : Bool)
    (op : src.ctlOp ≠ .del) : OpsSet (doDetachFromQueue p src toClose q) := by
  have hop := detach_op p src toClose q.kernel op
  unfold doDetachFromQueue
  simp only
  split
  · refine ops.update rfl ?_
    rintro _ ⟨⟩
    exact hop
  · refine ops.update rfl ?_
    rintro _ ⟨⟩
    exact hop

private theorem next_op {q q' : State} {d : Dir} {p : Ptr} {src : Source} {h : Option Handler}
    {room : Bool} (ops : OpsSet q) (hsrc : q.sources p = some src)
    (cases : NextCases d p src h room q q') : OpsSet q' := by
  have op := ops p src hsrc
  have hset := (setHandler_events src d h).2.2.2.1
  cases cases with
  | quiet src' kept pending added ctlOp interest =>
      refine ops.update rfl ?_
      rintro _ ⟨⟩
      rwa [ctlOp]
  | toPending src' kept added ctlOp attached idle outside running set =>
      refine ops.update rfl ?_
      rintro _ ⟨⟩
      change src'.ctlOp ≠ .del
      rwa [ctlOp]
  | toRunning src' kept added ctlOp attached idle pending bare =>
      refine ops.update rfl ?_
      rintro _ ⟨⟩
      change src'.ctlOp ≠ .del
      rwa [ctlOp]
  | ctl attached added set new =>
      refine ops.update rfl ?_
      rintro _ ⟨⟩
      rw [doCtlOsFd_source]
      split_ifs
      · change (src.setHandler d h).ctlOp ≠ .del
        rwa [hset]
      · change (src.setHandler d h).ctlOp ≠ .del
        rwa [hset]
  | del attached added unset last bare =>
      refine ops.update rfl ?_
      rintro _ ⟨⟩
      rw [doDelOsFd_source]
      split_ifs
      · simp
      · change (src.setHandler d h).ctlOp ≠ .del
        rwa [hset]
      · change (src.setHandler d h).ctlOp ≠ .del
        rwa [hset]

theorem OpsSet.ofStep {q q' : State} {a : Action} (ops : OpsSet q) (h : step q a = some q') :
    OpsSet q' := by
  cases step_cases h with
  | created turn free k reg requests isOpen =>
      refine ops.update rfl ?_
      rintro _ ⟨⟩
      simp [newSource]
  | @freed p src turn hsrc unattached =>
      split_ifs
      · refine ops.update (p := p) (o := none) rfl ?_
        simp
      · refine ops.update (p := p) (o := none) rfl ?_
        simp
  | refitted turn hsrc unattached =>
      have op := ops _ _ hsrc
      refine ops.update rfl ?_
      rintro _ ⟨⟩
      exact op
  | next turn hsrc osFd cases => exact next_op ops hsrc cases
  | joinedPending turn hsrc unattached src' joined osFd =>
      refine ops.update rfl ?_
      rintro _ ⟨⟩
      simp [joined.ctlOp]
  | joinedRunning turn hsrc unattached src' joined osFd bare =>
      refine ops.update rfl ?_
      rintro _ ⟨⟩
      simp [joined.ctlOp]
  | detached turn hsrc attached free => exact detached_op ops _ _ _ (ops _ _ hsrc)
  | flushed ctl head hsrc ok =>
      have op := ops _ _ hsrc
      refine ops.update rfl ?_
      rintro _ ⟨⟩
      exact op
  | fetched ctl entry data hsrc =>
      have op := ops _ _ hsrc
      refine ops.update rfl ?_
      rintro _ ⟨⟩
      split_ifs
      · simp
      · exact op
  | osFdCalled ctl hsrc osFd src' entered notLast =>
      refine ops.update rfl ?_
      rintro _ ⟨⟩
      rw [entered.ctlOp]
      exact ops _ _ hsrc
  | osFdRequeued ctl hsrc osFd rest attached =>
      have op := ops _ _ hsrc
      refine ops.update rfl ?_
      rintro _ ⟨⟩
      exact op
  | returned ctl hsrc src' entered =>
      refine ops.update rfl ?_
      rintro _ ⟨⟩
      rw [entered.ctlOp]
      exact ops _ _ hsrc
  | finishedDetach ctl hsrc toClose hret =>
      have op := ops _ _ hsrc
      exact detached_op ops _ _ _ op
  | finished ctl hsrc hctl' =>
      have op := ops _ _ hsrc
      refine ops.update rfl ?_
      rintro _ ⟨⟩
      exact op
  | _ => exact ops

theorem OpsSet.create (batchSize : Nat) : OpsSet (nebEvdpQueueCreate batchSize) := by
  intro p src hsrc
  cases hsrc

/-! What a stopped run leaves behind. -/

/-- The queue, and the attachments of the batch that it is in or has stopped in. It has `handled`
the event of some of them, whose handle function has ended with `CONTINUE`; the others it has `owed`
their event or the rest of their interest since a callback has ended the handling in another way. -/
structure Rerun where
  base : State
  handled : List Data
  owed : List Data

/-- The present attachment of a source. -/
def State.attachmentAt (q : State) (p : Ptr) : Option Data :=
  (q.sources p).bind (·.ctlEvent.data)

/-- The attachment that was being handled, and those whose event was fetched but not handled. -/
def State.owedAt (q : State) (ne : NebEvdpEvent) : List Data :=
  (q.attachmentAt ne.source).toList ++ (q.ee.drop (ne.index + 1)).filterMap (·.data)

/-- The batch is at its end. -/
def State.batchEnds (q : State) : Bool :=
  match q.ctl with
  | .events i => (q.ee[i]?).isNone
  | _ => false

def handledAfter (r : Rerun) : Action → List Data
  | .proceed _ =>
    match r.base.ctl with
    | .finish ne .continue => (r.base.attachmentAt ne.source).toList ++ r.handled
    | _ => if r.base.batchEnds then [] else r.handled
  | .run => []
  | _ => r.handled

/-- A run that follows one that has stopped owes the whole batch, and what it owes is due at the next
wait. -/
def owedAfter (r : Rerun) : Action → List Data
  | .proceed _ =>
    match r.base.ctl with
    | .finish ne .endForeach => (r.base.attachmentAt ne.source).toList ++ r.owed
    | .finish ne .breakExp => r.base.owedAt ne ++ r.owed
    | .finish ne .breakErr => r.base.owedAt ne ++ r.owed
    | _ => if r.base.batchEnds then [] else r.owed
  | .run => r.handled ++ r.owed
  | .wait _ => []
  | _ => r.owed

def Rerun.step (r : Rerun) (a : Action) : Option Rerun :=
  (Epoll.step r.base a).map (fun q => ⟨q, handledAfter r a, owedAfter r a⟩)

def nebEvdpQueueCreateRerun (batchSize : Nat) : Rerun := ⟨nebEvdpQueueCreate batchSize, [], []⟩

/-- `src` is the os_fd source of the attachment `d`, still attached, and it wants events. -/
def Source.Wants (src : Source) (d : Data) : Prop :=
  src.type = .osFd ∧ src.qInUse = true ∧ src.ctlEvent.data = some d ∧
    src.ctlEvent.events.any = true

/-- The registration of the descriptor is armed and carries `d`. -/
def Kernel.armedWith (k : Kernel) (fd : Fd) (d : Data) : Bool :=
  (k.reg fd).any (fun r => r.armed && r.event.data = some d)

/-- Before the next wait every source that is owed something is armed again. -/
def Rearmed (r : Rerun) : Prop :=
  r.base.ctl = .ready → ∀ d ∈ r.owed, ∀ src ∈ r.base.sources d.ptr, src.Wants d →
    r.base.kernel.armedWith src.fd d = true

/-- When the next run starts, each source that is owed something is in the pending list or armed;
and the flush makes no request for another source on its descriptor. -/
def TakesUp (r : Rerun) (a : Action) : Prop :=
  match a with
  | .run => ∀ d ∈ r.owed, ∀ src ∈ r.base.sources d.ptr, src.Wants d →
      src.pending = true ∨ r.base.kernel.armedWith src.fd d = true
  | .flush _ => ∀ f ∈ r.base.flushing a, ∀ d ∈ r.owed, ∀ src ∈ r.base.sources d.ptr,
      src.Wants d → f.1 ≠ d.ptr → f.2.fd ≠ src.fd
  | _ => True

/-- During the flush each source that is owed something is still in the pending list, or armed. -/
def Promised (r : Rerun) : Prop :=
  r.base.ctl.waiting = true → ∀ d ∈ r.owed, ∀ src ∈ r.base.sources d.ptr, src.Wants d →
    src.pending = true ∨ r.base.kernel.armedWith src.fd d = true

/-- Each source that was handled rests, unless its event is one of those being handled. -/
def Rested (r : Rerun) : Prop :=
  ∀ d ∈ r.handled, d ∉ r.owed → ∀ src, r.base.sources d.ptr = some src → src.type = .osFd →
    src.qInUse = true → src.ctlEvent.data = some d →
      r.base.ctl.handling d.ptr ∨ src.Rests

structure Rerun.Sound (r : Rerun) : Prop where
  lists : ∃ P R, Base r.base P R
  ops : OpsSet r.base
  inside : Inside r.base
  requeues : Requeues r.base
  told : Told r.base
  old : ∀ d ∈ r.handled, d.attachment < r.base.attachments
  between : r.base.ctl.waiting = true → r.handled = []
  rested : Rested r
  promised : Promised r
  rearmed : Rearmed r

/-- A queue that flushes, or is about to wait, has just started to, or goes on. -/
theorem waiting_cases {q q' : State} {a : Action} (h : step q a = some q')
    (hw : q'.ctl.waiting = true) :
    (a = .run ∧ q' = q.goto (.flushing 0)) ∨
      (∃ count room, a = .flush room ∧ q.ctl = .flushing count ∧
        q.links.next .pendingQs = none ∧ q'.ctl = .ready ∧ q'.sources = q.sources ∧
          q'.kernel = q.kernel) ∨
      (∃ count room p src, a = .flush room ∧ q.ctl = .flushing count ∧
        q.links.next .pendingQs = some (.source p) ∧ q.sources p = some src ∧
        (q.kernel.epollCtl src.ctlOp p src room).1 = .ok ∧ q'.ctl = .flushing (count + 1) ∧
        q'.sources =
          Function.update q.sources p (some { src with added := true, pending := false }) ∧
        q'.kernel = (q.kernel.epollCtl src.ctlOp p src room).2) := by
  have turned : q'.ctl = q.ctl → q.ctl.userTurn = true → False := by
    intro hctl turn
    rw [hctl, not_waiting_of_turn turn] at hw
    cases hw
  cases step_cases h with
  | started ctl => exact .inl ⟨rfl, rfl⟩
  | @flushEnd count room ctl empty =>
      exact .inr (.inl ⟨count, room, rfl, ctl, empty, rfl, rfl, rfl⟩)
  | @flushed count room p src ctl head hsrc ok =>
      exact .inr (.inr ⟨count, room, p, src, rfl, ctl, head, hsrc, ok, rfl, rfl, rfl⟩)
  | opened turn => exact (turned rfl turn).elim
  | closed turn => exact (turned rfl turn).elim
  | created turn free k reg requests isOpen => exact (turned rfl turn).elim
  | refused turn => exact (turned rfl turn).elim
  | freed turn hsrc unattached =>
      refine (turned ?_ turn).elim
      simp only
      split_ifs <;> rfl
  | refitted turn hsrc unattached => exact (turned rfl turn).elim
  | next turn hsrc osFd cases => exact (turned (next_rest cases).1 turn).elim
  | joinedPending turn hsrc unattached src' joined osFd => exact (turned rfl turn).elim
  | joinedRunning turn hsrc unattached src' joined osFd bare => exact (turned rfl turn).elim
  | @detached p src toClose turn hsrc attached free =>
      exact (turned (Epoll.detached p src toClose q).ctl turn).elim
  | otherHandled ctl hsrc other event =>
      rw [State.goto, waiting_of_event event] at hw
      cases hw
  | returned ctl hsrc src' entered =>
      rw [State.goto, waiting_of_event (after_callback_event _ _ _)] at hw
      cases hw
  | finished ctl hsrc hctl' =>
      rcases hctl' with ⟨rfl, -⟩ | ⟨rfl, -⟩ <;> cases hw
  | _ => cases hw

private theorem armedWith_other {k : Kernel} {op : CtlOp} {p : Ptr} {src : Source} {room : Bool}
    {fd : Fd} {d : Data} (hfd : fd ≠ src.fd) (h : k.armedWith fd d = true) :
    (k.epollCtl op p src room).2.armedWith fd d = true := by
  unfold Kernel.armedWith at h ⊢
  rwa [epollCtl_other k op p src room hfd]

private theorem armedWith_self {k : Kernel} {op : CtlOp} {p : Ptr} {src : Source} {room : Bool}
    {d : Data} (ok : (k.epollCtl op p src room).1 = .ok) (hop : op ≠ .del)
    (data : src.ctlEvent.data = some d) :
    (k.epollCtl op p src room).2.armedWith src.fd d = true := by
  unfold Kernel.armedWith
  rw [epollCtl_ok ok, if_neg hop]
  simp [data]

section Run

variable {r r' : Rerun} {a : Action}

/-! What was handled. -/

private theorem attachment_told {q : State} (told : Told q) {p : Ptr} {d : Data}
    (h : q.attachmentAt p = some d) : d.ptr = p ∧ d.attachment < q.attachments := by
  obtain ⟨src, hsrc, hdata⟩ := Option.bind_eq_some_iff.mp h
  exact told p src d hsrc hdata

/-- An attachment that was handled before the step, or whose handling the step has ended. -/
private theorem handled_cases {d : Data} (hd : d ∈ handledAfter r a) :
    d ∈ r.handled ∨ ∃ ok ne, a = .proceed ok ∧ r.base.ctl = .finish ne .continue ∧
      r.base.attachmentAt ne.source = some d := by
  unfold handledAfter at hd
  split at hd
  · rename_i ok
    split at hd
    · rename_i ne hctl
      rcases List.mem_append.mp hd with hnew | hold
      · exact .inr ⟨ok, ne, rfl, hctl, Option.mem_toList.mp hnew⟩
      · exact .inl hold
    · split_ifs at hd
      · cases hd
      · exact .inl hd
  · cases hd
  · exact .inl hd

/-- While something is handled, what is owed stays owed. -/
private theorem owed_grows (between : r.base.ctl.waiting = true → r.handled = []) {d : Data}
    {q' : State} (h : Epoll.step r.base a = some q') (hd : d ∈ r.handled)
    (hd' : d ∈ handledAfter r a) (owed : d ∈ r.owed) : d ∈ owedAfter r a := by
  unfold owedAfter
  cases a with
  | proceed ok =>
      simp only
      split
      · exact List.mem_append_right _ owed
      · exact List.mem_append_right _ owed
      · exact List.mem_append_right _ owed
      · split_ifs with hend
        · -- a batch that ends has nothing handled any more
          unfold handledAfter at hd'
          simp only at hd'
          split at hd'
          · rename_i hctl
            simp [State.batchEnds, hctl] at hend
          · rw [if_pos hend] at hd'
            cases hd'
        · exact owed
  | run => cases hd'
  | wait evs =>
      simp only [Epoll.step] at h
      split at h
      · rename_i hctl
        rw [between (by rw [hctl]; rfl)] at hd
        cases hd
      · cases h
  | _ => exact owed

/-- A step that ends the handling of an event does it with the source as it stands. -/
private theorem finish_source {q q' : State} {ne : NebEvdpEvent} {ret : NebEvdpCbRet} {ok : Bool}
    {src src' : Source} (ctl : q.ctl = .finish ne ret) (hsrc : q.sources ne.source = some src)
    (h : Epoll.step q (.proceed ok) = some q') (hsrc' : q'.sources ne.source = some src')
    (attached : src'.qInUse = true) :
    src'.added = src.added ∧ src'.pending = src.pending ∧ src'.ctlEvent = src.ctlEvent ∧
      (ret = .continue ∨ ret = .endForeach ∨ ret = .breakExp ∨ ret = .breakErr) := by
  simp only [Epoll.step, ctl, hsrc, Option.some.injEq] at h
  have detached : ∀ toClose,
      q'.sources = (doDetachFromQueue ne.source { src with noDetach := false } toClose q).sources →
      False := by
    intro toClose hq
    obtain ⟨s, hsources, huse, -⟩ :=
      (Epoll.detached ne.source { src with noDetach := false } toClose q).sources
    rw [hq, hsources, Function.update_self] at hsrc'
    rw [← Option.some.inj hsrc', huse] at attached
    cases attached
  have kept : q'.sources = Function.update q.sources ne.source
      (some { src with noDetach := false }) →
      src'.added = src.added ∧ src'.pending = src.pending ∧ src'.ctlEvent = src.ctlEvent := by
    intro hq
    rw [hq, Function.update_self] at hsrc'
    rw [← Option.some.inj hsrc']
    exact ⟨rfl, rfl, rfl⟩
  subst h
  cases ret with
  | remove => exact (detached false rfl).elim
  | close => exact (detached true rfl).elim
  | «continue» => exact ⟨(kept rfl).1, (kept rfl).2.1, (kept rfl).2.2, .inl rfl⟩
  | endForeach => exact ⟨(kept rfl).1, (kept rfl).2.1, (kept rfl).2.2, .inr (.inl rfl)⟩
  | breakExp => exact ⟨(kept rfl).1, (kept rfl).2.1, (kept rfl).2.2, .inr (.inr (.inl rfl))⟩
  | breakErr => exact ⟨(kept rfl).1, (kept rfl).2.1, (kept rfl).2.2, .inr (.inr (.inr rfl))⟩

/-- The source whose handling ends rests, or its attachment is owed. -/
private theorem Rerun.Sound.finished (sound : r.Sound) {q' : State} {ne : NebEvdpEvent}
    {ret : NebEvdpCbRet} {ok : Bool} {src src' : Source} {d : Data}
    (ctl : r.base.ctl = .finish ne ret) (h : Epoll.step r.base (.proceed ok) = some q')
    (hsrc : r.base.sources ne.source = some src) (hsrc' : q'.sources ne.source = some src')
    (osFd : src.type = .osFd) (attached : src'.qInUse = true) (data : src.ctlEvent.data = some d) :
    src'.Rests ∨ d ∈ owedAfter r (.proceed ok) := by
  obtain ⟨hadded, hpending, hevent, hret⟩ := finish_source ctl hsrc h hsrc' attached
  have source := sound.requeues ne (by rw [ctl]; rfl) src hsrc osFd
  have owed : d ∈ (r.base.attachmentAt ne.source).toList := by
    simp [State.attachmentAt, hsrc, data]
  rcases hret with rfl | rfl | rfl | rfl
  · left
    refine ⟨hadded.trans source.added, fun hany => hpending.trans ?_⟩
    rw [hevent] at hany
    exact source.pending ctl hany
  · right
    simp only [owedAfter, ctl]
    exact List.mem_append_left _ owed
  · right
    simp only [owedAfter, ctl]
    exact List.mem_append_left _ (List.mem_append_left _ owed)
  · right
    simp only [owedAfter, ctl]
    exact List.mem_append_left _ (List.mem_append_left _ owed)

/-- What was handled goes on to rest. -/
private theorem Rerun.Sound.rested_ofStep (sound : r.Sound) {q' : State}
    (h : Epoll.step r.base a = some q') (defined : q'.ctl ≠ .undefined) :
    Rested ⟨q', handledAfter r a, owedAfter r a⟩ := by
  intro d hd notOwed src' hsrc' osFd' attached' data'
  simp only at hd notOwed hsrc' ⊢
  rcases handled_cases hd with hold | ⟨ok, ne, rfl, ctl, hat⟩
  · -- handled before: the attachment is none that the step has made
    cases (step_origins h).sources d.ptr src' hsrc' with
    | joined src hsrc type fd new count =>
        have hlt := sound.old d hold
        rw [Option.some.inj (data'.symm.trans new)] at hlt
        exact absurd hlt (lt_irrefl _)
    | created type fd action new free =>
        rw [new] at attached'
        cases attached'
    | heir src hsrc heir =>
        have osFd := heir.type.symm.trans osFd'
        have attached := heir.qInUse attached'
        have data := heir.data.symm.trans data'
        by_cases handling : r.base.ctl.handling d.ptr
        · obtain ⟨ne, event, hp⟩ := handling
          rcases event_stays h event defined with hstays | ⟨ok, ret, rfl, ctl⟩
          · exact .inl ⟨ne, hstays, hp⟩
          · rw [← hp] at hsrc hsrc'
            have hfinished := sound.finished ctl h hsrc hsrc' osFd attached' data
            exact .inr (hfinished.resolve_right notOwed)
        · have hnew := fun owed => notOwed (owed_grows sound.between h hold hd owed)
          have rests := (sound.rested d hold hnew src hsrc osFd attached data).resolve_left handling
          refine rests.ofStep sound.inside h hsrc hsrc' attached attached' ?_ handling
          rw [Bool.eq_false_iff]
          intro hw
          rw [sound.between hw] at hold
          cases hold
  · obtain ⟨src, hsrc, data⟩ := Option.bind_eq_some_iff.mp hat
    obtain ⟨hp, -⟩ := attachment_told sound.told hat
    rw [hp] at hsrc'
    have hsame := finish_source ctl hsrc h hsrc' attached'
    have osFd : src.type = .osFd := by
      cases (step_origins h).sources ne.source src' hsrc' with
      | heir s hs heir =>
          obtain rfl := Option.some.inj (hsrc.symm.trans hs)
          exact heir.type.symm.trans osFd'
      | joined s hs type fd new count =>
          obtain rfl := Option.some.inj (hsrc.symm.trans hs)
          exact type.symm.trans osFd'
      | created type fd action new free =>
          rw [hsrc] at free
          cases free
    exact .inr ((sound.finished ctl h hsrc hsrc' osFd attached' data).resolve_right notOwed)

/-! What is owed. -/

/-- What the flush of one source preserves. -/
private theorem Rerun.Sound.promised_ofStep (sound : r.Sound) (takes : TakesUp r a)
    (h : r.step a = some r') : Promised r' := by
  obtain ⟨q', hstep, rfl⟩ := Option.map_eq_some_iff.mp h
  intro hw d hd src hsrc wants
  rcases waiting_cases hstep hw with ⟨rfl, rfl⟩ | ⟨count, room, rfl, ctl, -, -, hs, hk⟩ |
    ⟨count, room, p, src0, rfl, ctl, head, hsrc0, ok, -, hs, hk⟩
  · -- the run starts: what was handled rests in the pending list
    by_cases owed : d ∈ r.owed
    · exact takes d owed src hsrc wants
    · have hold := (List.mem_append.mp hd).resolve_right owed
      obtain ⟨osFd, attached, data, hany⟩ := wants
      rcases sound.rested d hold owed src hsrc osFd attached data with ⟨ne, event, -⟩ | rests
      · have hctl : r.base.ctl = .user := by
          simp only [Epoll.step] at hstep
          split at hstep
          · assumption
          · cases hstep
        rw [hctl] at event
        cases event
      · exact .inl (rests.pending hany)
  · have hr : r.base.ctl.waiting = true := by rw [ctl]; rfl
    simp only at hsrc ⊢
    rw [hs] at hsrc
    rw [hk]
    exact sound.promised hr d hd src hsrc wants
  · have hr : r.base.ctl.waiting = true := by rw [ctl]; rfl
    simp only at hsrc ⊢
    rw [hs] at hsrc
    rw [hk]
    by_cases hp : d.ptr = p
    · -- the source itself was registered again
      rw [hp, Function.update_self] at hsrc
      obtain rfl := Option.some.inj hsrc
      exact .inr (armedWith_self ok (sound.ops p src0 hsrc0) wants.2.2.1)
    · rw [Function.update_of_ne hp] at hsrc
      have hfd := takes _ (flushing_eq ctl head hsrc0) d hd src hsrc wants (Ne.symm hp)
      exact (sound.promised hr d hd src hsrc wants).imp_right (armedWith_other (Ne.symm hfd))

/-- Nothing is pending when a flush is at its end. -/
private theorem rearmed_of_promised {q' : State} {handled owed : List Data} {P R : List Ptr}
    (base : Base r.base P R) (h : Epoll.step r.base a = some q')
    (promised : Promised ⟨q', handled, owed⟩) : Rearmed ⟨q', handled, owed⟩ := by
  intro hctl d hd src hsrc wants
  have hw : q'.ctl.waiting = true := by
    rw [show q'.ctl = .ready from hctl]
    rfl
  refine (promised hw d hd src hsrc wants).resolve_left fun pending => ?_
  rcases waiting_cases h hw with ⟨rfl, rfl⟩ | ⟨count, room, rfl, -, empty, -, hs, -⟩ |
    ⟨count, room, p, src0, rfl, -, -, -, -, hctl', -, -⟩
  · cases hctl
  · rw [base.queued.head, Option.map_eq_none_iff, List.head?_eq_none_iff] at empty
    have hmem := (base.queued.pending d.ptr).mpr ⟨src, by rwa [← hs], wants.2.1, pending⟩
    rw [empty] at hmem
    cases hmem
  · simp only at hctl
    rw [hctl'] at hctl
    cases hctl

theorem Rerun.Sound.ofStep (sound : r.Sound) (fetches : FetchesAttached r.base a)
    (takes : TakesUp r a) (h : r.step a = some r') : r'.Sound := by
  obtain ⟨P, R, base⟩ := sound.lists
  have promised := sound.promised_ofStep takes h
  obtain ⟨q', hstep, rfl⟩ := Option.map_eq_some_iff.mp h
  obtain ⟨P', R', base', -⟩ := base.ofStep fetches hstep
  have origins := step_origins hstep
  refine ⟨⟨P', R', base'⟩, sound.ops.ofStep hstep, sound.inside.ofStep hstep,
    sound.requeues.ofStep base.handled hstep, sound.told.ofOrigins origins, ?_, ?_,
    sound.rested_ofStep hstep base'.defined, promised, rearmed_of_promised base hstep promised⟩
  · intro d hd
    refine lt_of_lt_of_le ?_ origins.attachments
    rcases handled_cases hd with hold | ⟨ok, ne, -, -, hat⟩
    · exact sound.old d hold
    · exact (attachment_told sound.told hat).2
  · intro hw
    rcases waiting_cases hstep hw with ⟨rfl, -⟩ | ⟨count, room, rfl, ctl, -⟩ |
      ⟨count, room, p, src, rfl, ctl, -⟩
    · rfl
    · exact sound.between (by rw [ctl]; rfl)
    · exact sound.between (by rw [ctl]; rfl)

theorem Rerun.Sound.create (batchSize : Nat) : (nebEvdpQueueCreateRerun batchSize).Sound where
  lists := ⟨[], [], (Base.create batchSize).1⟩
  ops := OpsSet.create batchSize
  inside := Inside.create batchSize
  requeues := Requeues.create batchSize
  told := Told.create batchSize
  old := by intro d h; cases h
  between := by intro h; cases h
  rested := by intro d h; cases h
  promised := by intro h; cases h
  rearmed := by intro h; cases h

end Run

instance (src : Source) (d : Data) : Decidable (src.Wants d) :=
  inferInstanceAs (Decidable (_ ∧ _ ∧ _ ∧ _))

instance (r : Rerun) : Decidable (Rearmed r) :=
  inferInstanceAs (Decidable (_ → ∀ d ∈ r.owed, ∀ src ∈ r.base.sources d.ptr, _ → _))

instance (r : Rerun) (a : Action) : Decidable (TakesUp r a) := by
  unfold TakesUp
  split
  · infer_instance
  · infer_instance
  · infer_instance

end Nebase.Evdp.Epoll
