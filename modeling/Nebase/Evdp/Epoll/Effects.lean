/- What the calls of the user and the steps of the driver do to one source and to the kernel. -/

import Nebase.Evdp.Epoll.Model

set_option autoImplicit false
set_option relaxedAutoImplicit false

namespace Nebase.Evdp.Epoll

open Nebase.Foundation

/-- What a source keeps as long as it stays attached. -/
structure Kept (src src' : Source) : Prop where
  type : src'.type = src.type
  fd : src'.fd = src.fd
  qInUse : src'.qInUse = src.qInUse
  noDetach : src'.noDetach = src.noDetach
  data : src'.ctlEvent.data = src.ctlEvent.data

theorem Kept.refl (src : Source) : Kept src src := ⟨rfl, rfl, rfl, rfl, rfl⟩

theorem Kept.trans {src src' src'' : Source} (h : Kept src src') (h' : Kept src' src'') :
    Kept src src'' :=
  ⟨h'.type.trans h.type, h'.fd.trans h.fd, h'.qInUse.trans h.qInUse,
    h'.noDetach.trans h.noDetach, h'.data.trans h.data⟩

/-- What a source keeps as long as it is not attached anew; the protection of the source being
handled comes and goes. -/
structure Stays (src src' : Source) : Prop where
  type : src'.type = src.type
  fd : src'.fd = src.fd
  qInUse : src'.qInUse = src.qInUse
  data : src'.ctlEvent.data = src.ctlEvent.data

theorem Kept.stays {src src' : Source} (h : Kept src src') : Stays src src' :=
  ⟨h.type, h.fd, h.qInUse, h.data⟩

/-- Writing the pending bit. -/
theorem Kept.setPending {src src' : Source} (h : Kept src src') (b : Bool) :
    Kept src { src' with pending := b } :=
  ⟨h.type, h.fd, h.qInUse, h.noDetach, h.data⟩

@[simp] theorem has_put_self (m : Interest) (d : Dir) (b : Bool) : (m.put d b).has d = b := by
  cases d <;> rfl

@[simp] theorem has_put_other (m : Interest) (d : Dir) (b : Bool) :
    (m.put d b).has d.other = m.has d.other := by
  cases d <;> rfl

theorem any_iff (m : Interest) (d : Dir) :
    m.any = true ↔ m.has d = true ∨ m.has d.other = true := by
  cases d <;> simp [Interest.any, Interest.has, Dir.other, or_comm]

theorem dir_cases (d e : Dir) : e = d ∨ e = d.other := by
  cases d <;> cases e <;> simp [Dir.other]

/-- The source after the handler of `d` is set. -/
theorem Kept.setHandler (src : Source) (d : Dir) (h : Option Handler) :
    Kept src (src.setHandler d h) := by
  cases d <;> exact ⟨rfl, rfl, rfl, rfl, rfl⟩

@[simp] theorem setHandler_events (src : Source) (d : Dir) (h : Option Handler) :
    (src.setHandler d h).ctlEvent = src.ctlEvent ∧ (src.setHandler d h).pending = src.pending ∧
      (src.setHandler d h).added = src.added ∧ (src.setHandler d h).ctlOp = src.ctlOp ∧
      (src.setHandler d h).inCallback = src.inCallback := by
  cases d <;> exact ⟨rfl, rfl, rfl, rfl, rfl⟩

theorem Kept.setInterest (src : Source) (d : Dir) (b : Bool) : Kept src (src.setInterest d b) :=
  ⟨rfl, rfl, rfl, rfl, rfl⟩

/-- The outcomes of a call that sets a handler of `src`, as states after it. -/
inductive NextCases (d : Dir) (p : Ptr) (src : Source) (h : Option Handler) (room : Bool)
    (q : State) : State → Prop
  | quiet (src' : Source) (kept : Kept src src') (pending : src'.pending = src.pending)
      (added : src'.added = src.added) (ctlOp : src'.ctlOp = src.ctlOp)
      (interest : (∀ e, src'.ctlEvent.events.has e = true → src.ctlEvent.events.has e = true) ∨
        src.added = false ∧ (src.inCallback = true ∨ src.pending = true) ∨ src.qInUse = false) :
      NextCases d p src h room q (q.setSource p src')
  | toPending (src' : Source) (kept : Kept src src') (added : src'.added = src.added)
      (ctlOp : src'.ctlOp = src.ctlOp) (attached : src.qInUse = true) (idle : src.added = false)
      (outside : src.inCallback = false) (running : src.pending = false) (set : h.isSome = true) :
      NextCases d p src h room q (moveToPending p src' q)
  | toRunning (src' : Source) (kept : Kept src src') (added : src'.added = src.added)
      (ctlOp : src'.ctlOp = src.ctlOp) (attached : src.qInUse = true) (idle : src.added = false)
      (pending : src.pending = true) (bare : src'.ctlEvent.events.any = false) :
      NextCases d p src h room q (moveToRunning p src' q)
  | ctl (attached : src.qInUse = true) (added : src.added = true) (set : h.isSome = true)
      (new : src.ctlEvent.events.has d = false) :
      NextCases d p src h room q
        ({ q with kernel :=
          (doCtlOsFd p ((src.setHandler d h).setInterest d true) room q.kernel).2.2 }.setSource p
          (doCtlOsFd p ((src.setHandler d h).setInterest d true) room q.kernel).2.1)
  | del (attached : src.qInUse = true) (added : src.added = true) (unset : h.isSome = false)
      (last : src.ctlEvent.events.has d = true) (bare : src.ctlEvent.events.has d.other = false) :
      NextCases d p src h room q
        ({ q with kernel :=
          (doDelOsFd p ((src.setHandler d h).setInterest d false) q.kernel).2.2 }.setSource p
          (doDelOsFd p ((src.setHandler d h).setInterest d false) q.kernel).2.1)

private theorem interest_false {src : Source} {d e : Dir}
    (h : (src.setInterest d false).ctlEvent.events.has e = true) :
    src.ctlEvent.events.has e = true := by
  rcases dir_cases d e with rfl | rfl
  · simp [Source.setInterest] at h
  · simpa [Source.setInterest] using h

/-- The inversion of `next_read` and `next_write`. -/
theorem next_cases (d : Dir) (p : Ptr) (src : Source) (h : Option Handler) (room : Bool)
    (q : State) : NextCases d p src h room q (nebEvdpSourceOsFdNext d p src h room q).2 := by
  have kept := Kept.setHandler src d h
  obtain ⟨hev, hpend, hadded, hop, hcb⟩ := setHandler_events src d h
  unfold nebEvdpSourceOsFdNext
  simp only
  split_ifs with huse hset
  · -- a handler is set
    unfold evdpSourceOsFdReset
    split_ifs with hadd hhas
    · exact .quiet _ kept hpend hadded hop (.inl (fun e => by rw [hev]; exact id))
    · exact .ctl (kept.qInUse ▸ huse) (hadded ▸ hadd) hset (by simpa [hev] using hhas)
    · simp only [hadded, Bool.not_eq_true] at hadd
      simp only
      split_ifs with hmove
      · simp only [Source.setInterest, hcb, hpend, Bool.and_eq_true, Bool.not_eq_true'] at hmove
        exact .toPending _ (kept.trans (.setInterest _ d true)) hadded hop (kept.qInUse ▸ huse)
          hadd hmove.1 hmove.2 hset
      · simp only [Source.setInterest, hcb, hpend, Bool.and_eq_true, Bool.not_eq_true',
          not_and_or, Bool.not_eq_false] at hmove
        exact .quiet _ (kept.trans (.setInterest _ d true)) hpend hadded hop
          (.inr (.inl ⟨hadd, hmove⟩))
  · -- the handler is removed
    have hset' : h.isSome = false := by simpa using hset
    unfold evdpSourceOsFdUnset
    split_ifs with hadd hhas
    · simp only
      split_ifs with hother
      · refine .quiet _ (kept.trans (.setInterest _ d false)) hpend hadded hop (.inl ?_)
        intro e he
        simpa [hev] using interest_false he
      · exact .del (kept.qInUse ▸ huse) (hadded ▸ hadd) hset' (by simpa [hev] using hhas)
          (by simpa [Source.setInterest, hev] using hother)
    · exact .quiet _ kept hpend hadded hop (.inl (fun e => by rw [hev]; exact id))
    · simp only [hadded, Bool.not_eq_true] at hadd
      simp only
      have hsub : ∀ e, ((src.setHandler d h).setInterest d false).ctlEvent.events.has e = true →
          src.ctlEvent.events.has e = true := by
        intro e he
        simpa [hev] using interest_false he
      split_ifs with hpending hother
      · exact .quiet _ (kept.trans (.setInterest _ d false)) hpend hadded hop (.inl hsub)
      · refine .toRunning _ (kept.trans (.setInterest _ d false)) hadded hop (kept.qInUse ▸ huse)
          hadd (hpend ▸ hpending) ?_
        rw [Bool.eq_false_iff, ne_eq, any_iff _ d]
        simpa [Source.setInterest] using hother
      · exact .quiet _ (kept.trans (.setInterest _ d false)) hpend hadded hop (.inl hsub)
  · refine .quiet _ (kept.trans ?_) ?_ ?_ ?_ (.inr (.inr ?_))
    · exact .setInterest _ d h.isSome
    · exact hpend
    · exact hadded
    · exact hop
    · simpa [kept.qInUse] using huse

/-! `epoll_ctl`. -/

@[simp] theorem epollCtl_isOpen (k : Kernel) (op : CtlOp) (p : Ptr) (src : Source) (room : Bool) :
    (k.epollCtl op p src room).2.isOpen = k.isOpen := rfl

@[simp] theorem epollCtl_requests (k : Kernel) (op : CtlOp) (p : Ptr) (src : Source)
    (room : Bool) : (k.epollCtl op p src room).2.requests =
      ⟨p, src.type, op, (k.reg src.fd).isSome, (k.epollCtl op p src room).1⟩ :: k.requests := rfl

/-- Only the source's own descriptor is concerned. -/
theorem epollCtl_other (k : Kernel) (op : CtlOp) (p : Ptr) (src : Source) (room : Bool) {fd : Fd}
    (h : fd ≠ src.fd) : (k.epollCtl op p src room).2.reg fd = k.reg fd := by
  unfold Kernel.epollCtl
  by_cases hok : k.answer op src.fd room = .ok
  · simp only [hok, if_true]
    exact Function.update_of_ne h _ _
  · simp only [hok, if_false]

/-- A registration after `epoll_ctl` was there before or is the source's own, armed. -/
theorem epollCtl_reg {k : Kernel} {op : CtlOp} {p : Ptr} {src : Source} {room : Bool} {fd : Fd}
    {r : Registration} (h : (k.epollCtl op p src room).2.reg fd = some r) :
    k.reg fd = some r ∨
      fd = src.fd ∧ r = ⟨src.ctlEvent, true⟩ ∧ op ≠ .del ∧ (k.epollCtl op p src room).1 = .ok := by
  by_cases hfd : fd = src.fd
  · subst hfd
    by_cases hok : k.answer op src.fd room = .ok
    · simp only [Kernel.epollCtl, hok, if_true, Function.update_self] at h
      split_ifs at h with hdel
      exact .inr ⟨rfl, (Option.some.inj h).symm, hdel, hok⟩
    · simp only [Kernel.epollCtl, hok, if_false] at h
      exact .inl h
  · rw [epollCtl_other k op p src room hfd] at h
    exact .inl h

theorem epollCtl_ok {k : Kernel} {op : CtlOp} {p : Ptr} {src : Source} {room : Bool}
    (h : (k.epollCtl op p src room).1 = .ok) :
    (k.epollCtl op p src room).2.reg src.fd =
      if op = .del then none else some ⟨src.ctlEvent, true⟩ := by
  have h' : k.answer op src.fd room = .ok := h
  simp [Kernel.epollCtl, h']

theorem epollCtl_failed {k : Kernel} {op : CtlOp} {p : Ptr} {src : Source} {room : Bool}
    (h : (k.epollCtl op p src room).1 ≠ .ok) : (k.epollCtl op p src room).2.reg = k.reg := by
  have h' : k.answer op src.fd room ≠ .ok := h
  simp [Kernel.epollCtl, h']

/-- A registered descriptor that is open can be un-registered. -/
theorem epollCtl_del {k : Kernel} {p : Ptr} {src : Source} {room : Bool}
    (hopen : k.isOpen src.fd = true) (hreg : k.reg src.fd ≠ none) :
    (k.epollCtl .del p src room).1 = .ok := by
  obtain ⟨r, hr⟩ := Option.ne_none_iff_exists'.mp hreg
  simp [Kernel.epollCtl, Kernel.answer, hopen, hr]

theorem doCtlOsFd_kernel (p : Ptr) (src : Source) (room : Bool) (k : Kernel) :
    (doCtlOsFd p src room k).2.2 = (k.epollCtl src.ctlOp p src room).2 := by
  unfold doCtlOsFd
  simp only
  split_ifs <;> rfl

theorem doCtlOsFd_source (p : Ptr) (src : Source) (room : Bool) (k : Kernel) :
    (doCtlOsFd p src room k).2.1 =
      if (k.epollCtl src.ctlOp p src room).1 = .ok then { src with added := true } else src := by
  unfold doCtlOsFd
  simp only
  split_ifs <;> rfl

theorem doDelOsFd_kernel (p : Ptr) (src : Source) (k : Kernel) :
    (doDelOsFd p src k).2.2 = (k.epollCtl .del p src true).2 := by
  unfold doDelOsFd
  simp only
  split_ifs <;> rfl

theorem doDelOsFd_source (p : Ptr) (src : Source) (k : Kernel) :
    (doDelOsFd p src k).2.1 =
      if (k.epollCtl .del p src true).1 = .ok then { src with added := false, ctlOp := .add }
      else if (k.epollCtl .del p src true).1 = .enoent then { src with added := false }
      else src := by
  unfold doDelOsFd
  simp only
  split_ifs <;> rfl

theorem Kept.doCtl (p : Ptr) (src : Source) (room : Bool) (k : Kernel) :
    Kept src (doCtlOsFd p src room k).2.1 := by
  rw [doCtlOsFd_source]
  split_ifs
  · exact ⟨rfl, rfl, rfl, rfl, rfl⟩
  · exact .refl src

theorem Kept.doDel (p : Ptr) (src : Source) (k : Kernel) :
    Kept src (doDelOsFd p src k).2.1 := by
  rw [doDelOsFd_source]
  split_ifs
  · exact ⟨rfl, rfl, rfl, rfl, rfl⟩
  · exact ⟨rfl, rfl, rfl, rfl, rfl⟩
  · exact .refl src

theorem doCtlOsFd_pending (p : Ptr) (src : Source) (room : Bool) (k : Kernel) :
    (doCtlOsFd p src room k).2.1.pending = src.pending := by
  rw [doCtlOsFd_source]
  split_ifs <;> rfl

theorem doDelOsFd_pending (p : Ptr) (src : Source) (k : Kernel) :
    (doDelOsFd p src k).2.1.pending = src.pending := by
  rw [doDelOsFd_source]
  split_ifs <;> rfl

/-- A delivered oneshot registration is disarmed and has an entry; the others stay as they are. -/
theorem epollWait_spec {k k' : Kernel} {evs : List (Fd × Reported)} {ee : List EpollEvent}
    (h : k.epollWait evs = some (k', ee)) :
    k'.isOpen = k.isOpen ∧ k'.requests = k.requests ∧
      (∀ fd, k'.reg fd = k.reg fd ∨ ∃ r, k.reg fd = some r ∧ r.armed = true ∧
        k'.reg fd = some { r with armed := !r.event.events.epolloneshot } ∧
        ∃ e ∈ ee, e.data = r.event.data) ∧
      ∀ e ∈ ee, ∃ fd r, k.reg fd = some r ∧ r.armed = true ∧ e.data = r.event.data := by
  induction evs generalizing k k' ee with
  | nil =>
    simp only [Kernel.epollWait, Option.some.injEq, Prod.mk.injEq] at h
    obtain ⟨rfl, rfl⟩ := h
    exact ⟨rfl, rfl, fun fd => .inl rfl, by simp⟩
  | cons ev rest ih =>
    obtain ⟨fd, e⟩ := ev
    simp only [Kernel.epollWait] at h
    cases hr : k.reg fd with
    | none => simp [hr] at h
    | some r =>
      simp only [hr] at h
      cases hr' : r.deliver e with
      | none => simp [hr'] at h
      | some r' =>
        simp only [hr'] at h
        obtain ⟨harmed, rfl⟩ : r.armed = true ∧
            { r with armed := !r.event.events.epolloneshot } = r' := by
          unfold Registration.deliver at hr'
          split_ifs at hr' with hcond
          simp only [Bool.and_eq_true] at hcond
          exact ⟨hcond.1.1, Option.some.inj hr'⟩
        split at h
        · cases h
        · rename_i k1 ee1 hrest
          simp only [Option.some.injEq, Prod.mk.injEq] at h
          obtain ⟨rfl, rfl⟩ := h
          obtain ⟨hopen, hreq, hreg, hee⟩ := ih hrest
          refine ⟨hopen, hreq, ?_, ?_⟩
          · intro x
            by_cases hx : x = fd
            · subst hx
              right
              refine ⟨r, hr, harmed, ?_, _, List.mem_cons_self, rfl⟩
              rcases hreg x with heq | ⟨r2, hr2, -, heq, -⟩
              · exact heq.trans (Function.update_self ..)
              · simp only [Function.update_self, Option.some.injEq] at hr2
                rw [heq, ← hr2]
            · rcases hreg x with heq | ⟨r2, hr2, harm2, heq, e2, he2, hdata2⟩
              · exact .inl (heq.trans (Function.update_of_ne hx _ _))
              · simp only [Function.update_of_ne hx] at hr2
                exact .inr ⟨r2, hr2, harm2, heq, e2, List.mem_cons_of_mem _ he2, hdata2⟩
          · intro e2 he2
            rcases List.mem_cons.mp he2 with rfl | he2
            · exact ⟨fd, r, hr, harmed, rfl⟩
            · obtain ⟨x, r2, hr2, harm2, hdata2⟩ := hee e2 he2
              by_cases hx : x = fd
              · subst hx
                simp only [Function.update_self, Option.some.injEq] at hr2
                subst hr2
                exact ⟨x, r, hr, harmed, hdata2⟩
              · simp only [Function.update_of_ne hx] at hr2
                exact ⟨x, r2, hr2, harm2, hdata2⟩

/-! Detaching. -/

/-- What a detach function leaves of its source. -/
structure Left (src src' : Source) : Prop where
  type : src'.type = src.type
  fd : src'.fd = src.fd
  pending : src'.pending = src.pending
  inCallback : src'.inCallback = src.inCallback

private theorem del_if_added_cases (p : Ptr) (src : Source) (k : Kernel) :
    src.added = false ∧ delIfAdded p src k = (src, k) ∨
      src.added = true ∧
        delIfAdded p src k = ({ src with added := false }, (k.epollCtl .del p src true).2) := by
  unfold delIfAdded
  cases src.added <;> simp

private theorem detach_timer {src : Source} (p : Ptr) (toClose : Bool) (k : Kernel)
    (htimer : src.type.isTimer = true) :
    evdpSourceDetach p src toClose k = delIfAdded p { src with inAction := false } k := by
  rcases src with ⟨type⟩
  cases type with
  | itimer => rfl
  | abstimer => rfl
  | roFd => cases htimer
  | osFd => cases htimer

private theorem detach_to_close {src : Source} (p : Ptr) (k : Kernel)
    (htimer : src.type.isTimer = false) :
    evdpSourceDetach p src true k = ({ src with added := false }, k) := by
  rcases src with ⟨type⟩
  cases type with
  | itimer => cases htimer
  | abstimer => cases htimer
  | roFd => rfl
  | osFd => rfl

/-- A detach function un-registers a source that it believes to be registered, unless the
descriptor is to be closed; a timer is always un-registered. -/
theorem detach_cases (p : Ptr) (src : Source) (toClose : Bool) (k : Kernel) :
    Left src (evdpSourceDetach p src toClose k).1 ∧
      ((evdpSourceDetach p src toClose k).2 = k ∧
          (evdpSourceDetach p src toClose k).1.added = false ∧
          (src.added = false ∨ toClose = true ∧ src.type.isTimer = false) ∨
        src.added = true ∧ (toClose = false ∨ src.type.isTimer = true) ∧
          (evdpSourceDetach p src toClose k).2 = (k.epollCtl .del p src true).2 ∧
          ((k.epollCtl .del p src true).1 = .ok →
            (evdpSourceDetach p src toClose k).1.added = false)) := by
  cases htimer : src.type.isTimer with
  | true =>
    rw [detach_timer p toClose k htimer]
    rcases del_if_added_cases p { src with inAction := false } k with ⟨hadded, heq⟩ | ⟨hadded, heq⟩
    · rw [heq]
      exact ⟨⟨rfl, rfl, rfl, rfl⟩, .inl ⟨rfl, hadded, .inl hadded⟩⟩
    · rw [heq]
      exact ⟨⟨rfl, rfl, rfl, rfl⟩, .inr ⟨hadded, .inr rfl, rfl, fun _ => rfl⟩⟩
  | false =>
    by_cases hclose : toClose = true
    · subst hclose
      rw [detach_to_close p k htimer]
      exact ⟨⟨rfl, rfl, rfl, rfl⟩, .inl ⟨rfl, rfl, .inr ⟨rfl, rfl⟩⟩⟩
    · have hclose' : toClose = false := by simpa using hclose
      by_cases hos : src.type = .osFd
      · cases hadded : src.added with
        | false =>
          have heq : evdpSourceDetach p src toClose k = (src, k) := by
            simp [evdpSourceDetach, hos, evdpSourceOsFdDetach, hclose', hadded]
          rw [heq]
          exact ⟨⟨rfl, rfl, rfl, rfl⟩, .inl ⟨rfl, hadded, .inl rfl⟩⟩
        | true =>
          have heq : evdpSourceDetach p src toClose k = (doDelOsFd p src k).2 := by
            simp [evdpSourceDetach, hos, evdpSourceOsFdDetach, hclose', hadded]
          rw [heq, doDelOsFd_kernel]
          refine ⟨?_, .inr ⟨rfl, .inl hclose', rfl, ?_⟩⟩
          · rw [doDelOsFd_source]
            split_ifs <;> exact ⟨rfl, rfl, rfl, rfl⟩
          · intro hok
            rw [doDelOsFd_source, if_pos hok]
      · have heq : evdpSourceDetach p src toClose k = delIfAdded p src k := by
          have hro : src.type = .roFd := by
            cases htype : src.type <;> simp [htype, SourceType.isTimer] at htimer hos ⊢
          simp [evdpSourceDetach, hro, evdpSourceRoFdDetach, hclose']
        rw [heq]
        rcases del_if_added_cases p src k with ⟨hadded, heq⟩ | ⟨hadded, heq⟩
        · rw [heq]
          exact ⟨⟨rfl, rfl, rfl, rfl⟩, .inl ⟨rfl, hadded, .inl hadded⟩⟩
        · rw [heq]
          exact ⟨⟨rfl, rfl, rfl, rfl⟩, .inr ⟨hadded, .inl hclose', rfl, fun _ => rfl⟩⟩

/-- The state after `do_detach_from_queue`, field by field. -/
structure Detached (p : Ptr) (src : Source) (toClose : Bool) (q q' : State) : Prop where
  sources : ∃ src', q'.sources = Function.update q.sources p (some src') ∧ src'.qInUse = false ∧
    src'.pending = false ∧ src'.type = src.type ∧ src'.inCallback = src.inCallback ∧
    src'.added = (evdpSourceDetach p src toClose q.kernel).1.added
  links : q'.links = SentinelList.remove (.source p) q.links
  statsPending : q'.statsPending = q.statsPending - (if src.pending then 1 else 0)
  statsRunning : q'.statsRunning = q.statsRunning - (if src.pending then 0 else 1)
  ee : q'.ee = q.ee.take q.currentEvent ++ (q.ee.drop q.currentEvent).map (·.clear p)
  currentEvent : q'.currentEvent = q.currentEvent
  kernel : q'.kernel = (evdpSourceDetach p src toClose q.kernel).2
  closing : q'.closing = if toClose && q'.kernel.registeredFor src.fd p then src.fd :: q.closing
    else q.closing
  stale : q'.stale = q.stale
  attachments : q'.attachments = q.attachments
  ctl : q'.ctl = q.ctl

theorem detached (p : Ptr) (src : Source) (toClose : Bool) (q : State) :
    Detached p src toClose q (doDetachFromQueue p src toClose q) := by
  obtain ⟨left, -⟩ := detach_cases p src toClose q.kernel
  unfold doDetachFromQueue
  have hkernel : (evdpQueueRmPendingEvents p q).kernel = q.kernel := rfl
  simp only [hkernel]
  cases hpend : src.pending with
  | true =>
    rw [if_pos (left.pending.trans hpend)]
    refine ⟨⟨_, rfl, rfl, rfl, left.type, left.inCallback, rfl⟩, rfl, ?_, ?_, rfl, rfl, rfl, ?_,
      rfl, rfl, rfl⟩
    · simp [State.setSource, slistRemove, evdpQueueRmPendingEvents, hpend]
    · simp [State.setSource, slistRemove, evdpQueueRmPendingEvents, hpend]
    · rw [← left.fd]
      rfl
  | false =>
    rw [if_neg (by rw [left.pending, hpend]; simp)]
    refine ⟨⟨_, rfl, rfl, left.pending.trans hpend, left.type, left.inCallback, rfl⟩, rfl, ?_, ?_,
      rfl, rfl, rfl, ?_, rfl, rfl, rfl⟩
    · simp [State.setSource, slistRemove, evdpQueueRmPendingEvents, hpend]
    · simp [State.setSource, slistRemove, evdpQueueRmPendingEvents, hpend]
    · rw [← left.fd]
      rfl

end Nebase.Evdp.Epoll
