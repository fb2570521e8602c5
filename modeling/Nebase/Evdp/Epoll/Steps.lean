/- What one step can do: every outcome of every action, with the guards under which it arises. -/

import Nebase.Evdp.Epoll.Effects

set_option autoImplicit false
set_option relaxedAutoImplicit false

namespace Nebase.Evdp.Epoll

open Nebase.Foundation

/-- The event being handled. -/
def Ctl.event : Ctl → Option NebEvdpEvent
  | .handle ne _ => some ne
  | .callback ne _ => some ne
  | .finish ne _ => some ne
  | _ => none

/-- What attaching makes of a source that was detached. -/
structure Joined (q : State) (p : Ptr) (src src' : Source) : Prop where
  type : src'.type = src.type
  fd : src'.fd = src.fd
  qInUse : src'.qInUse = true
  noDetach : src'.noDetach = src.noDetach
  added : src'.added = src.added
  inCallback : src'.inCallback = src.inCallback
  ctlOp : src'.ctlOp = .add
  data : src'.ctlEvent.data = some ⟨p, q.attachments⟩

/-- The ghosts after an attachment. -/
def State.joined (q' q : State) (p : Ptr) : State :=
  { q' with stale := Function.update q.stale p false, attachments := q.attachments + 1 }

/-- What the calls and the handle function do with the bits of a source while it is handled. -/
structure Entered (src src' : Source) : Prop extends Kept src src' where
  pending : src'.pending = src.pending
  added : src'.added = src.added
  ctlOp : src'.ctlOp = src.ctlOp
  interest : ∀ e, src'.ctlEvent.events.has e = true → src.ctlEvent.events.has e = true

/-- The outcomes of a step. -/
inductive StepCases (q : State) : Action → State → Prop
  -- the user's turn
  | opened {fd : Fd} (turn : q.ctl.userTurn = true) :
      StepCases q (.openFd fd)
        { q with kernel := { q.kernel with isOpen := Function.update q.kernel.isOpen fd true } }
  | closed {fd : Fd} (turn : q.ctl.userTurn = true) : StepCases q (.closeFd fd) (closeFd fd q)
  | created {p : Ptr} {type : SourceType} {fd : Fd} (turn : q.ctl.userTurn = true)
      (free : q.sources p = none) (k : Kernel) (reg : k.reg = q.kernel.reg)
      (requests : k.requests = q.kernel.requests)
      (isOpen : ∀ x, q.kernel.isOpen x = true → k.isOpen x = true) :
      StepCases q (.newSource p type fd) ({ q with kernel := k }.setSource p (newSource type fd))
  | refused {a : Action} (turn : q.ctl.userTurn = true) : StepCases q a q
  | freed {p : Ptr} {src : Source} (turn : q.ctl.userTurn = true)
      (hsrc : q.sources p = some src) (unattached : src.qInUse = false) :
      StepCases q (.delSource p)
        { (if src.type.isTimer then closeFd src.fd q else q) with
          sources := Function.update q.sources p none }
  | refitted {p : Ptr} {src : Source} {fd : Fd} (turn : q.ctl.userTurn = true)
      (hsrc : q.sources p = some src) (unattached : src.qInUse = false) :
      StepCases q (.resetFd p fd)
        (q.setSource p (evdpResetSourceOsFdContext { src with fd := fd }))
  | next {d : Dir} {p : Ptr} {src : Source} {h : Option Handler} {room : Bool} {q' : State}
      (turn : q.ctl.userTurn = true) (hsrc : q.sources p = some src) (osFd : src.type = .osFd)
      (cases : NextCases d p src h room q q') : StepCases q (.next d p h room) q'
  | joinedPending {p : Ptr} {src : Source} {settime : Bool} (turn : q.ctl.userTurn = true)
      (hsrc : q.sources p = some src) (unattached : src.qInUse = false) (src' : Source)
      (joined : Joined q p src src') (osFd : src.type = .osFd → src.ctlEvent.events.any = true) :
      StepCases q (.attach p settime) ((slistPendingInsert p src' q).joined q p)
  | joinedRunning {p : Ptr} {src : Source} {settime : Bool} (turn : q.ctl.userTurn = true)
      (hsrc : q.sources p = some src) (unattached : src.qInUse = false) (src' : Source)
      (joined : Joined q p src src') (osFd : src.type = .osFd)
      (bare : src'.ctlEvent.events.any = false) :
      StepCases q (.attach p settime) ((slistRunningInsert p src' q).joined q p)
  | detached {p : Ptr} {src : Source} {toClose : Bool} (turn : q.ctl.userTurn = true)
      (hsrc : q.sources p = some src) (attached : src.qInUse = true)
      (free : src.noDetach = false) :
      StepCases q (.detach p toClose) (doDetachFromQueue p src toClose q)
  -- the loop
  | started (ctl : q.ctl = .user) : StepCases q .run (q.goto (.flushing 0))
  | flushEnd {count : Nat} {room : Bool} (ctl : q.ctl = .flushing count)
      (empty : q.links.next .pendingQs = none) :
      StepCases q (.flush room)
        { q with
          statsPending := q.statsPending - count
          statsRunning := q.statsRunning + count
          ctl := .ready }
  | flushed {count : Nat} {room : Bool} {p : Ptr} {src : Source} (ctl : q.ctl = .flushing count)
      (head : q.links.next .pendingQs = some (.source p)) (hsrc : q.sources p = some src)
      (ok : (q.kernel.epollCtl src.ctlOp p src room).1 = .ok) :
      StepCases q (.flush room)
        ((slistRunningInsertNoStats p { src with added := true }
          (slistRemove p { q with kernel := (q.kernel.epollCtl src.ctlOp p src room).2 })).goto
            (.flushing (count + 1)))
  | flushFailed {count : Nat} {room : Bool} {p : Ptr} {src : Source}
      (ctl : q.ctl = .flushing count) (head : q.links.next .pendingQs = some (.source p))
      (hsrc : q.sources p = some src)
      (failed : (q.kernel.epollCtl src.ctlOp p src room).1 ≠ .ok) :
      StepCases q (.flush room)
        { q with kernel := (q.kernel.epollCtl src.ctlOp p src room).2, ctl := .user }
  | flushLost {count : Nat} {room : Bool} {n : Node} (ctl : q.ctl = .flushing count)
      (head : q.links.next .pendingQs = some n)
      (lost : ∀ p, n = .source p → q.sources p = none) :
      StepCases q (.flush room) (q.goto .undefined)
  | waited {evs : List (Fd × Reported)} {k : Kernel} {ee : List EpollEvent} (ctl : q.ctl = .ready)
      (nodup : (evs.map Prod.fst).Nodup) (events : q.kernel.epollWait evs = some (k, ee)) :
      StepCases q (.wait evs) { q with kernel := k, ee := ee, ctl := .events 0 }
  | waitFailed (ctl : q.ctl = .ready) : StepCases q .waitFails { q with ee := [], ctl := .user }
  -- the events of a batch
  | batchEnd {i : Nat} {ok : Bool} (ctl : q.ctl = .events i) (beyond : q.ee[i]? = none)
      (currentEvent : Nat) :
      StepCases q (.proceed ok) { q with ee := [], currentEvent := currentEvent, ctl := .user }
  | skipped {i : Nat} {ok : Bool} {e : EpollEvent} (ctl : q.ctl = .events i)
      (entry : q.ee[i]? = some e) (cleared : e.data = none) :
      StepCases q (.proceed ok) { q with currentEvent := i, ctl := .events (i + 1) }
  | lost {i : Nat} {ok : Bool} {e : EpollEvent} {d : Data} (ctl : q.ctl = .events i)
      (entry : q.ee[i]? = some e) (data : e.data = some d) (free : q.sources d.ptr = none) :
      StepCases q (.proceed ok) { q with currentEvent := i, ctl := .undefined }
  | fetched {i : Nat} {ok : Bool} {e : EpollEvent} {d : Data} {src : Source}
      (ctl : q.ctl = .events i) (entry : q.ee[i]? = some e) (data : e.data = some d)
      (hsrc : q.sources d.ptr = some src) :
      StepCases q (.proceed ok)
        (({ q with currentEvent := i }.setSource d.ptr
          (if src.type = SourceType.osFd then
            { src with noDetach := true, added := false, ctlOp := .mod }
          else { src with noDetach := true })).goto (.handle ⟨i, d.ptr, e⟩ .read))
  -- the handling of one event
  | vanished {a : Action} {ne : NebEvdpEvent} (event : q.ctl.event = some ne)
      (free : q.sources ne.source = none) : StepCases q a (q.goto .undefined)
  | otherHandled {ok : Bool} {ne : NebEvdpEvent} {stage : Stage} {src : Source} {ctl' : Ctl}
      (ctl : q.ctl = .handle ne stage) (hsrc : q.sources ne.source = some src)
      (other : src.type ≠ .osFd) (event : ctl'.event = some ne) :
      StepCases q (.proceed ok) (q.goto ctl')
  | osFdSkipped {ok : Bool} {ne : NebEvdpEvent} {stage stage' : Stage} {src : Source}
      (ctl : q.ctl = .handle ne stage) (hsrc : q.sources ne.source = some src)
      (osFd : src.type = .osFd) : StepCases q (.proceed ok) (q.goto (.handle ne stage'))
  | osFdCalled {ok : Bool} {ne : NebEvdpEvent} {stage : Stage} {src : Source}
      (ctl : q.ctl = .handle ne stage) (hsrc : q.sources ne.source = some src)
      (osFd : src.type = .osFd) (src' : Source) (entered : Entered src src')
      (notLast : stage ≠ .last) :
      StepCases q (.proceed ok) ((q.setSource ne.source src').goto (.callback ne stage))
  | osFdRequeued {ok : Bool} {ne : NebEvdpEvent} {src : Source} (ctl : q.ctl = .handle ne .last)
      (hsrc : q.sources ne.source = some src) (osFd : src.type = .osFd)
      (rest : src.ctlEvent.events.any = true) (attached : src.qInUse = true) :
      StepCases q (.proceed ok) ((moveToPending ne.source src q).goto (.finish ne .continue))
  | osFdLost {ok : Bool} {ne : NebEvdpEvent} {src : Source} (ctl : q.ctl = .handle ne .last)
      (hsrc : q.sources ne.source = some src) (unattached : src.qInUse = false) :
      StepCases q (.proceed ok) (q.goto .undefined)
  | osFdDone {ok : Bool} {ne : NebEvdpEvent} {src : Source} (ctl : q.ctl = .handle ne .last)
      (hsrc : q.sources ne.source = some src) (osFd : src.type = .osFd)
      (bare : src.ctlEvent.events.any = false) :
      StepCases q (.proceed ok) (q.goto (.finish ne .continue))
  | returned {ret : NebEvdpCbRet} {ne : NebEvdpEvent} {stage : Stage} {src : Source}
      (ctl : q.ctl = .callback ne stage) (hsrc : q.sources ne.source = some src) (src' : Source)
      (entered : Entered src src') :
      StepCases q (.cbReturn ret)
        ((q.setSource ne.source src').goto (afterCallback ne stage ret))
  | finishedDetach {ok : Bool} {ne : NebEvdpEvent} {ret : NebEvdpCbRet} {src : Source}
      (ctl : q.ctl = .finish ne ret) (hsrc : q.sources ne.source = some src)
      (toClose : Bool) (hret : ret = if toClose then .close else .remove) :
      StepCases q (.proceed ok)
        ((doDetachFromQueue ne.source { src with noDetach := false } toClose q).goto
          (.removed ne.index))
  | finished {ok : Bool} {ne : NebEvdpEvent} {ret : NebEvdpCbRet} {src : Source} {ctl' : Ctl}
      (ctl : q.ctl = .finish ne ret) (hsrc : q.sources ne.source = some src)
      (hctl' : ctl' = .user ∧ (ret = .breakExp ∨ ret = .breakErr) ∨
        ctl' = .events (ne.index + 1) ∧ (ret = .continue ∨ ret = .endForeach)) :
      StepCases q (.proceed ok)
        ((q.setSource ne.source { src with noDetach := false }).goto ctl')
  | resumed {ok : Bool} {i : Nat} (ctl : q.ctl = .removed i) :
      StepCases q (.proceed ok) (q.goto (.events (i + 1)))

/-! What a step is about. -/

/-- The attachment whose event the step fetches. -/
def State.fetching (q : State) : Action → Option Data
  | .proceed _ =>
    match q.ctl with
    | .events i => (q.ee[i]?).bind (·.data)
    | _ => none
  | _ => none

/-- The source whose request the flush makes. -/
def State.flushing (q : State) : Action → Option (Ptr × Source)
  | .flush _ =>
    match q.ctl, q.links.next .pendingQs with
    | .flushing _, some (.source p) => (q.sources p).map (fun src => (p, src))
    | _, _ => none
  | _ => none

/-- The source that its handle function puts into the pending list. -/
def State.requeueing (q : State) : Action → Option Source
  | .proceed _ =>
    match q.ctl with
    | .handle ne .last =>
      (q.sources ne.source).filter (fun src => src.type = .osFd ∧ src.ctlEvent.events.any = true)
    | _ => none
  | _ => none

/-- The source that the step detaches, and whether its descriptor is to be closed. -/
def State.detaching (q : State) : Action → Option (Ptr × Source × Bool)
  | .detach p toClose =>
    ((q.sources p).filter (fun src => src.qInUse = true ∧ src.noDetach = false)).map
      (fun src => (p, src, toClose))
  | .proceed _ =>
    match q.ctl with
    | .finish ne .remove => (q.sources ne.source).map (fun src => (ne.source, src, false))
    | .finish ne .close => (q.sources ne.source).map (fun src => (ne.source, src, true))
    | _ => none
  | _ => none

theorem detaching_eq {q : State} {p : Ptr} {src : Source} (toClose : Bool)
    (hsrc : q.sources p = some src) (attached : src.qInUse = true)
    (free : src.noDetach = false) : q.detaching (.detach p toClose) = some (p, src, toClose) := by
  simp [State.detaching, hsrc, attached, free]

theorem detaching_finish {q : State} {ne : NebEvdpEvent} {ok : Bool} {src : Source}
    (toClose : Bool) (ctl : q.ctl = .finish ne (if toClose then .close else .remove))
    (hsrc : q.sources ne.source = some src) :
    q.detaching (.proceed ok) = some (ne.source, src, toClose) := by
  cases toClose <;> simp [State.detaching, ctl, hsrc]

theorem fetching_eq {q : State} {i : Nat} {ok : Bool} {e : EpollEvent} {d : Data}
    (ctl : q.ctl = .events i) (entry : q.ee[i]? = some e) (data : e.data = some d) :
    q.fetching (.proceed ok) = some d := by
  simp [State.fetching, ctl, entry, data]

theorem flushing_eq {q : State} {count : Nat} {room : Bool} {p : Ptr} {src : Source}
    (ctl : q.ctl = .flushing count) (head : q.links.next .pendingQs = some (.source p))
    (hsrc : q.sources p = some src) : q.flushing (.flush room) = some (p, src) := by
  simp [State.flushing, ctl, head, hsrc]

theorem requeueing_eq {q : State} {ne : NebEvdpEvent} {ok : Bool} {src : Source}
    (ctl : q.ctl = .handle ne .last) (hsrc : q.sources ne.source = some src)
    (osFd : src.type = .osFd) (rest : src.ctlEvent.events.any = true) :
    q.requeueing (.proceed ok) = some src := by
  simp [State.requeueing, ctl, hsrc, osFd, rest]

/-- Whether the memory the kernel needs for the step's request is there. -/
def Action.room : Action → Bool
  | .nextRead _ _ room => room
  | .nextWrite _ _ room => room
  | .flush room => room
  | _ => true

private theorem call_inv {q q' : State} {p : Ptr} {f : Source → State}
    (h : q.call p f = some q') :
    q.ctl.userTurn = true ∧ ∃ src, q.sources p = some src ∧ f src = q' := by
  unfold State.call at h
  split_ifs at h with turn
  exact ⟨turn, Option.map_eq_some_iff.mp h⟩

private theorem call_next_cases {q q' : State} {d : Dir} {p : Ptr} {h : Option Handler}
    {room : Bool} (hcall : q.callNext d p h room = some q') :
    StepCases q (.next d p h room) q' := by
  unfold State.callNext at hcall
  split_ifs at hcall with hos
  obtain ⟨turn, src, hsrc, rfl⟩ := call_inv hcall
  have osFd : src.type = .osFd := by simpa [hsrc] using hos
  exact .next turn hsrc osFd (next_cases d p src h room q)

private theorem attach_cases {q : State} {p : Ptr} {src : Source} (settime : Bool)
    (turn : q.ctl.userTurn = true) (hsrc : q.sources p = some src) :
    StepCases q (.attach p settime) (nebEvdpQueueAttach p src settime q).2 := by
  unfold nebEvdpQueueAttach
  by_cases huse : src.qInUse = true
  · rw [if_pos huse]
    exact .refused turn
  rw [if_neg huse]
  have unattached : src.qInUse = false := by simpa using huse
  obtain ⟨src1, hsrc1⟩ : ∃ src1 : Source, src1 = { src with qInUse := true } := ⟨_, rfl⟩
  rw [← hsrc1]
  have ro : ∀ b, src.type ≠ .osFd → StepCases q (.attach p settime)
      ((evdpSourceRoFdAttach p { src1 with inAction := b } q).2.joined q p) := by
    intro b hne
    subst hsrc1
    exact .joinedPending turn hsrc unattached _ ⟨rfl, rfl, rfl, rfl, rfl, rfl, rfl, rfl⟩
      (fun h => absurd h hne)
  have timer : src.type ≠ .osFd → StepCases q (.attach p settime)
      (if (evdpSourceTimerAttach p src1 settime q).1 = 0 then
        (0, (evdpSourceTimerAttach p src1 settime q).2.joined q p) else (-1, q)).2 := by
    intro hne
    unfold evdpSourceTimerAttach
    split_ifs with haction _ hset _
    · exact ro src1.inAction hne
    · exact absurd rfl ‹_›
    · exact ro true hne
    · exact absurd rfl ‹_›
    · simp at *
    · exact .refused turn
  cases htype : src.type with
  | itimer => exact timer (by simp [htype])
  | abstimer => exact timer (by simp [htype])
  | roFd => exact ro src1.inAction (by simp [htype])
  | osFd =>
    by_cases hany : src.ctlEvent.events.any = true
    · have hev : evdpSourceOsFdAttach p src1 q = (0, slistPendingInsert p
          { src1 with
            ctlOp := .add
            ctlEvent := ⟨{ src1.ctlEvent.events with epolloneshot := true },
              some ⟨p, q.attachments⟩⟩ } q) := by
        subst hsrc1
        exact if_pos hany
      simp only [hev, if_true]
      subst hsrc1
      exact .joinedPending turn hsrc unattached _ ⟨rfl, rfl, rfl, rfl, rfl, rfl, rfl, rfl⟩
        (fun _ => hany)
    · have hev : evdpSourceOsFdAttach p src1 q = (0, slistRunningInsert p
          { src1 with
            ctlOp := .add
            ctlEvent := ⟨{ src1.ctlEvent.events with epolloneshot := true },
              some ⟨p, q.attachments⟩⟩ } q) := by
        subst hsrc1
        exact if_neg hany
      simp only [hev, if_true]
      subst hsrc1
      exact .joinedRunning turn hsrc unattached _ ⟨rfl, rfl, rfl, rfl, rfl, rfl, rfl, rfl⟩ htype
        (Bool.eq_false_iff.mpr hany)

private theorem flush_cases {q : State} {count : Nat} (room : Bool)
    (ctl : q.ctl = .flushing count) :
    StepCases q (.flush room) (evdpQueueFlushPendingSources count room q) := by
  unfold evdpQueueFlushPendingSources
  split
  · exact .flushEnd ctl ‹_›
  · rename_i p head
    split
    · rename_i free
      refine .flushLost ctl head ?_
      rintro _ ⟨⟩
      exact free
    · rename_i src hsrc
      by_cases hok : (q.kernel.epollCtl src.ctlOp p src room).1 = .ok
      · simp only [hok, if_true]
        exact .flushed ctl head hsrc hok
      · simp only [hok, if_false]
        exact .flushFailed ctl head hsrc hok
  · rename_i n hn head
    exact .flushLost ctl head (fun p hp => absurd hp (hn p))

private theorem handle_event_cases {q : State} {i : Nat} (ok : Bool) (ctl : q.ctl = .events i) :
    StepCases q (.proceed ok) (handleEvent i q) := by
  unfold handleEvent
  cases entry : q.ee[i]? with
  | none =>
    simp only
    split_ifs with hempty
    · have hee : q.ee = [] := by simpa using hempty
      have hq : q.goto .user =
          { q with ee := [], currentEvent := q.currentEvent, ctl := .user } := by
        simp only [State.goto, ← hee]
      rw [hq]
      exact .batchEnd ctl entry _
    · exact .batchEnd ctl entry 0
  | some e =>
    cases data : e.data with
    | none =>
      simp only [data]
      exact .skipped ctl entry data
    | some d =>
      simp only [data]
      cases hsrc : q.sources d.ptr with
      | none => exact .lost ctl entry data hsrc
      | some src =>
        have h : StepCases q (.proceed ok) _ := .fetched ctl entry data hsrc
        simp only
        split_ifs at h ⊢ <;> exact h

private theorem os_fd_cases {q : State} {ne : NebEvdpEvent} {stage : Stage} {src : Source}
    (ok : Bool) (ctl : q.ctl = .handle ne stage) (hsrc : q.sources ne.source = some src)
    (osFd : src.type = .osFd) :
    StepCases q (.proceed ok) (evdpSourceOsFdHandle ne src stage q) := by
  have entered : ∀ d, Entered src { src.setInterest d false with inCallback := true } := by
    intro d
    refine ⟨⟨rfl, rfl, rfl, rfl, rfl⟩, rfl, rfl, rfl, ?_⟩
    intro e he
    rcases dir_cases d e with rfl | rfl
    · simp [Source.setInterest] at he
    · simpa [Source.setInterest] using he
  unfold evdpSourceOsFdHandle
  cases stage with
  | read =>
    simp only
    split_ifs
    · exact .osFdCalled ctl hsrc osFd _ (entered .read) (by simp)
    · exact .osFdSkipped ctl hsrc osFd
  | hup =>
    simp only
    split_ifs
    · exact .osFdCalled ctl hsrc osFd _ ⟨⟨rfl, rfl, rfl, rfl, rfl⟩, rfl, rfl, rfl, fun _ => id⟩
        (by simp)
    · exact .osFdSkipped ctl hsrc osFd
  | write =>
    simp only
    split_ifs
    · exact .osFdCalled ctl hsrc osFd _ (entered .write) (by simp)
    · exact .osFdSkipped ctl hsrc osFd
  | last =>
    simp only
    split_ifs with hrest huse
    · exact .osFdRequeued ctl hsrc osFd hrest huse
    · exact .osFdLost ctl hsrc (by simpa using huse)
    · exact .osFdDone ctl hsrc osFd (by simpa using hrest)

private theorem finish_cases {q : State} {ne : NebEvdpEvent} {ret : NebEvdpCbRet} {src : Source}
    (ok : Bool) (ctl : q.ctl = .finish ne ret) (hsrc : q.sources ne.source = some src) :
    StepCases q (.proceed ok) (finishEvent ne src ret q) := by
  unfold finishEvent
  cases ret with
  | «continue» => exact .finished ctl hsrc (.inr ⟨rfl, .inl rfl⟩)
  | remove => exact .finishedDetach ctl hsrc false rfl
  | close => exact .finishedDetach ctl hsrc true rfl
  | breakExp => exact .finished ctl hsrc (.inl ⟨rfl, .inl rfl⟩)
  | breakErr => exact .finished ctl hsrc (.inl ⟨rfl, .inr rfl⟩)
  | endForeach => exact .finished ctl hsrc (.inr ⟨rfl, .inr rfl⟩)

/-- The inversion of a step. -/
theorem step_cases {q q' : State} {a : Action} (h : step q a = some q') : StepCases q a q' := by
  cases a with
  | openFd fd =>
    simp only [step] at h
    split_ifs at h with hguard
    obtain rfl := Option.some.inj h
    exact .opened (by simp only [Bool.and_eq_true] at hguard; exact hguard.1)
  | closeFd fd =>
    simp only [step] at h
    split_ifs at h with turn
    obtain rfl := Option.some.inj h
    exact .closed turn
  | newSource p type fd =>
    simp only [step] at h
    split_ifs at h with hguard htimer
    · obtain rfl := Option.some.inj h
      simp only [Bool.and_eq_true, Option.isNone_iff_eq_none] at hguard
      refine .created hguard.1.1 hguard.1.2 _ rfl rfl ?_
      intro x hx
      by_cases hxf : x = fd
      · simp [hxf]
      · simp [Function.update_of_ne hxf, hx]
    · obtain rfl := Option.some.inj h
      simp only [Bool.and_eq_true, Option.isNone_iff_eq_none] at hguard
      exact .created hguard.1.1 hguard.1.2 q.kernel rfl rfl (fun _ => id)
  | delSource p =>
    obtain ⟨turn, src, hsrc, rfl⟩ := call_inv h
    unfold nebEvdpSourceDel
    by_cases huse : src.qInUse = true
    · rw [if_pos huse]
      exact .refused turn
    · rw [if_neg huse]
      have hf := StepCases.freed turn hsrc (by simpa using huse)
      simp only
      split_ifs at hf ⊢ <;> exact hf
  | resetFd p fd =>
    obtain ⟨turn, src, hsrc, rfl⟩ := call_inv h
    simp only [nebEvdpSourceOsFdReset]
    split_ifs with huse
    · exact .refused turn
    · exact .refused turn
    · exact .refitted turn hsrc (by simpa using huse)
  | nextRead p hd room => exact call_next_cases h
  | nextWrite p hd room => exact call_next_cases h
  | attach p settime =>
    obtain ⟨turn, src, hsrc, rfl⟩ := call_inv h
    exact attach_cases settime turn hsrc
  | detach p toClose =>
    obtain ⟨turn, src, hsrc, rfl⟩ := call_inv h
    unfold nebEvdpQueueDetach
    split_ifs with huse hfree
    · exact .refused turn
    · exact .refused turn
    · exact .detached turn hsrc (by simpa using huse) (by simpa using hfree)
  | run =>
    simp only [step] at h
    split at h
    · rename_i ctl
      obtain rfl := Option.some.inj h
      exact .started ctl
    · cases h
  | flush room =>
    simp only [step] at h
    split at h
    · rename_i count ctl
      obtain rfl := Option.some.inj h
      exact flush_cases room ctl
    · cases h
  | wait evs =>
    simp only [step] at h
    split at h
    · rename_i ctl
      split_ifs at h with hguard
      obtain ⟨⟨k, ee⟩, hevents, rfl⟩ := Option.map_eq_some_iff.mp h
      simp only [Bool.and_eq_true, decide_eq_true_eq] at hguard
      exact .waited ctl hguard.2 hevents
    · cases h
  | waitFails =>
    simp only [step] at h
    split at h
    · rename_i ctl
      obtain rfl := Option.some.inj h
      exact .waitFailed ctl
    · cases h
  | proceed ok =>
    simp only [step] at h
    split at h
    · rename_i i ctl
      obtain rfl := Option.some.inj h
      exact handle_event_cases ok ctl
    · rename_i ne stage ctl
      split at h
      · rename_i free
        obtain rfl := Option.some.inj h
        exact .vanished (by rw [ctl]; rfl) free
      · rename_i src hsrc
        split at h
        · obtain rfl := Option.some.inj h
          refine .otherHandled ctl hsrc (by simp [*]) ?_
          split_ifs <;> rfl
        · obtain rfl := Option.some.inj h
          refine .otherHandled ctl hsrc (by simp [*]) ?_
          split_ifs <;> rfl
        · obtain rfl := Option.some.inj h
          unfold evdpSourceRoFdHandle
          split
          · refine .otherHandled ctl hsrc (by simp [*]) ?_
            split_ifs <;> rfl
          · refine .otherHandled ctl hsrc (by simp [*]) ?_
            split_ifs <;> rfl
        · obtain rfl := Option.some.inj h
          exact os_fd_cases ok ctl hsrc ‹_›
    · rename_i ne ret ctl
      split at h
      · rename_i free
        obtain rfl := Option.some.inj h
        exact .vanished (by rw [ctl]; rfl) free
      · rename_i src hsrc
        obtain rfl := Option.some.inj h
        exact finish_cases ok ctl hsrc
    · rename_i i ctl
      obtain rfl := Option.some.inj h
      exact .resumed ctl
    · cases h
  | cbReturn ret =>
    simp only [step] at h
    split at h
    · rename_i ne stage ctl
      split at h
      · rename_i free
        obtain rfl := Option.some.inj h
        exact .vanished (by rw [ctl]; rfl) free
      · rename_i src hsrc
        obtain rfl := Option.some.inj h
        refine .returned ctl hsrc _ ?_
        split_ifs
        · exact ⟨⟨rfl, rfl, rfl, rfl, rfl⟩, rfl, rfl, rfl, fun _ => id⟩
        · exact ⟨.refl src, rfl, rfl, rfl, fun _ => id⟩
    · cases h

end Nebase.Evdp.Epoll
