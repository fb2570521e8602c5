/- Where the sources, the registrations and the entries of a batch come from, and where the program
   goes, at every step. -/

import Nebase.Evdp.Epoll.Delivery

set_option autoImplicit false
set_option relaxedAutoImplicit false

namespace Nebase.Evdp.Epoll

open Nebase.Foundation

/-- A source as it was before the step, up to its flags and to the descriptor of an os_fd source. -/
structure Heir (src src' : Source) : Prop where
  type : src'.type = src.type
  fd : src'.type.isTimer = true → src'.fd = src.fd
  data : src'.ctlEvent.data = src.ctlEvent.data
  qInUse : src'.qInUse = true → src.qInUse = true

/-- The source `p` after a step was there before it, was attached by it, or is new. -/
inductive Descends (q : State) (a : Action) (q' : State) (p : Ptr) (src' : Source) : Prop
  | heir (src : Source) (hsrc : q.sources p = some src) (heir : Heir src src')
  | joined (src : Source) (hsrc : q.sources p = some src) (type : src'.type = src.type)
      (fd : src'.fd = src.fd) (data : src'.ctlEvent.data = some ⟨p, q.attachments⟩)
      (count : q.attachments < q'.attachments)
  | created (type : SourceType) (fd : Fd) (action : a = .newSource p type fd)
      (new : src' = newSource type fd) (free : q.sources p = none)

/-- An entry of the batch holds `d`. -/
def State.Holds (q : State) (j : Nat) (d : Data) : Prop :=
  ∃ e : EpollEvent, q.ee[j]? = some e ∧ e.data = some d

/-- What every step makes of the sources, of the registrations and of the batch. -/
structure Origins (q : State) (a : Action) (q' : State) : Prop where
  sources : ∀ p src', q'.sources p = some src' → Descends q a q' p src'
  registered : ∀ fd r, q'.kernel.reg fd = some r →
    (∃ r0, q.kernel.reg fd = some r0 ∧ r0.event.data = r.event.data) ∨
      ∃ p src, q.sources p = some src ∧ src.fd = fd ∧ src.ctlEvent.data = r.event.data
  attachments : q.attachments ≤ q'.attachments
  isOpen : ∀ fd, q.kernel.isOpen fd = true → q'.kernel.isOpen fd = true ∨ a = .closeFd fd ∨
    ∃ p src, a = .delSource p ∧ q.sources p = some src ∧ src.type.isTimer = true ∧ src.fd = fd
  entries : (∀ evs, a ≠ .wait evs) → ∀ j d, q'.Holds j d → q.Holds j d

/-- The entries of a batch are the registrations that the kernel reports, in this order. -/
theorem epollWait_entry {k k' : Kernel} {evs : List (Fd × Reported)} {ee : List EpollEvent}
    {j : Nat} {e : EpollEvent} (h : k.epollWait evs = some (k', ee)) (he : ee[j]? = some e) :
    ∃ ev r, evs[j]? = some ev ∧ k.reg ev.1 = some r ∧ e.data = r.event.data := by
  induction evs generalizing k k' ee j with
  | nil =>
    obtain ⟨-, rfl⟩ := Prod.mk.inj (Option.some.inj h)
    cases he
  | cons ev rest ih =>
    obtain ⟨fd, x⟩ := ev
    simp only [Kernel.epollWait] at h
    cases hr : k.reg fd with
    | none => simp [hr] at h
    | some r =>
      simp only [hr] at h
      cases hr' : r.deliver x with
      | none => simp [hr'] at h
      | some r' =>
        simp only [hr'] at h
        have same : r'.event = r.event := by
          unfold Registration.deliver at hr'
          split_ifs at hr'
          exact (Option.some.inj hr').symm ▸ rfl
        split at h
        · cases h
        · rename_i k1 ee1 hrest
          obtain ⟨rfl, rfl⟩ := Prod.mk.inj (Option.some.inj h)
          cases j with
          | zero =>
            obtain rfl := Option.some.inj he
            exact ⟨(fd, x), r, rfl, hr, rfl⟩
          | succ j =>
            obtain ⟨ev, r1, hev, hr1, hdata⟩ := ih hrest he
            by_cases hx : ev.1 = fd
            · refine ⟨ev, r, hev, hx ▸ hr, ?_⟩
              simp only [hx, Function.update_self, Option.some.injEq] at hr1
              rw [hdata, ← hr1, same]
            · exact ⟨ev, r1, hev, by simpa [hx] using hr1, hdata⟩

section Origins

variable {q q' : State} {a : Action} {p : Ptr} {src src' : Source}

theorem Heir.refl (src : Source) : Heir src src := ⟨rfl, fun _ => rfl, rfl, id⟩

theorem Stays.heir (stays : Stays src src') : Heir src src' :=
  ⟨stays.type, fun _ => stays.fd, stays.data, fun h => stays.qInUse ▸ h⟩

/-- A step that leaves the sources, the kernel and the batch alone, or forgets the batch. -/
private theorem Origins.still (sources : q'.sources = q.sources) (kernel : q'.kernel = q.kernel)
    (attachments : q'.attachments = q.attachments) (ee : q'.ee = q.ee ∨ q'.ee = []) :
    Origins q a q' where
  sources := by
    intro r s hs
    rw [sources] at hs
    exact .heir s hs (.refl s)
  registered := by
    intro fd r hr
    rw [kernel] at hr
    exact .inl ⟨r, hr, rfl⟩
  attachments := attachments.ge
  isOpen := by
    intro fd hfd
    rw [kernel]
    exact .inl hfd
  entries := by
    rintro _ j d ⟨e, he, hd⟩
    rcases ee with hsame | hnil
    · rw [hsame] at he
      exact ⟨e, he, hd⟩
    · rw [hnil] at he
      cases he

/-- One source changes, perhaps with a request for it. -/
private theorem Origins.update (hsrc : q.sources p = some src)
    (sources : q'.sources = Function.update q.sources p (some src')) (heir : Heir src src')
    (isOpen : q'.kernel.isOpen = q.kernel.isOpen)
    (reg : ∀ fd r, q'.kernel.reg fd = some r → q.kernel.reg fd = some r ∨
      fd = src.fd ∧ r.event.data = src.ctlEvent.data)
    (attachments : q'.attachments = q.attachments)
    (ee : ∀ j d, q'.Holds j d → q.Holds j d) : Origins q a q' where
  sources := by
    intro r s hs
    rw [sources] at hs
    by_cases hr : r = p
    · subst hr
      rw [Function.update_self, Option.some.injEq] at hs
      subst hs
      exact .heir src hsrc heir
    · rw [Function.update_of_ne hr] at hs
      exact .heir s hs (.refl s)
  registered := by
    intro fd r hr
    rcases reg fd r hr with hold | ⟨hfd, hdata⟩
    · exact .inl ⟨r, hold, rfl⟩
    · exact .inr ⟨p, src, hsrc, hfd.symm, hdata.symm⟩
  attachments := attachments.ge
  isOpen := by
    intro fd hfd
    rw [isOpen]
    exact .inl hfd
  entries := fun _ => ee

/-- The batch stays as it is. -/
private theorem holds_same (ee : q'.ee = q.ee) (j : Nat) (d : Data) (h : q'.Holds j d) :
    q.Holds j d := by
  unfold State.Holds at h ⊢
  rwa [ee] at h

/-- A source is attached. -/
private theorem Origins.join (hsrc : q.sources p = some src) (joined : Joined q p src src')
    {b : Bool} (sources : q'.sources = Function.update q.sources p (some { src' with pending := b }))
    (kernel : q'.kernel = q.kernel) (attachments : q'.attachments = q.attachments + 1)
    (ee : q'.ee = q.ee) : Origins q a q' where
  sources := by
    intro r s hs
    rw [sources] at hs
    by_cases hr : r = p
    · subst hr
      rw [Function.update_self, Option.some.injEq] at hs
      subst hs
      exact .joined src hsrc joined.type joined.fd joined.data (by omega)
    · rw [Function.update_of_ne hr] at hs
      exact .heir s hs (.refl s)
  registered := by
    intro fd r hr
    rw [kernel] at hr
    exact .inl ⟨r, hr, rfl⟩
  attachments := by omega
  isOpen := by
    intro fd hfd
    rw [kernel]
    exact .inl hfd
  entries := fun _ => holds_same ee

private theorem detach_data (p : Ptr) (src : Source) (toClose : Bool) (k : Kernel) :
    (evdpSourceDetach p src toClose k).1.ctlEvent.data = src.ctlEvent.data := by
  have hdel : ∀ s : Source, (delIfAdded p s k).1.ctlEvent.data = s.ctlEvent.data := by
    intro s
    unfold delIfAdded
    split_ifs <;> rfl
  unfold evdpSourceDetach
  cases src.type with
  | itimer => exact hdel _
  | abstimer => exact hdel _
  | roFd =>
    simp only [evdpSourceRoFdDetach]
    split_ifs
    · rfl
    · exact hdel src
  | osFd =>
    simp only [evdpSourceOsFdDetach]
    split_ifs
    · rfl
    · exact (Kept.doDel p src k).data
    · rfl

/-- The source after `do_detach_from_queue`. -/
private theorem detach_source (p : Ptr) (src : Source) (toClose : Bool) (q : State) :
    ∃ src', (doDetachFromQueue p src toClose q).sources =
        Function.update q.sources p (some src') ∧ src'.type = src.type ∧ src'.fd = src.fd ∧
      src'.ctlEvent.data = src.ctlEvent.data ∧ src'.qInUse = false := by
  obtain ⟨left, -⟩ := detach_cases p src toClose q.kernel
  have hdata := detach_data p src toClose q.kernel
  unfold doDetachFromQueue
  simp only
  split
  · exact ⟨_, rfl, left.type, left.fd, hdata, rfl⟩
  · exact ⟨_, rfl, left.type, left.fd, hdata, rfl⟩

/-- `evdp_queue_rm_pending_events` only clears entries. -/
private theorem rm_entry {l : List EpollEvent} {c j : Nat} {e : EpollEvent} {d : Data}
    (h : (l.take c ++ (l.drop c).map (·.clear p))[j]? = some e) (hd : e.data = some d) :
    ∃ e0, l[j]? = some e0 ∧ e0.data = some d := by
  rw [List.getElem?_append] at h
  split_ifs at h with hj
  · rw [List.length_take] at hj
    rw [List.getElem?_take_of_lt (by omega)] at h
    exact ⟨e, h, hd⟩
  · rw [List.getElem?_map, List.getElem?_drop, Option.map_eq_some_iff] at h
    obtain ⟨e0, he0, rfl⟩ := h
    rw [List.length_take] at hj he0
    have hlen := (List.getElem?_eq_some_iff.mp he0).1
    rw [show c + (j - min c l.length) = j by omega] at he0
    exact ⟨e0, he0, (clear_data hd).1⟩

/-- A source is detached. -/
private theorem Origins.detach (src0 : Source) (toClose : Bool) (hsrc : q.sources p = some src)
    (type : src0.type = src.type) (fd : src0.fd = src.fd)
    (data : src0.ctlEvent.data = src.ctlEvent.data) (c : Ctl) :
    Origins q a ((doDetachFromQueue p src0 toClose q).goto c) := by
  have det := detached p src0 toClose q
  obtain ⟨src', hsources, htype, hfd, hdata, huse⟩ := detach_source p src0 toClose q
  refine Origins.update (p := p) hsrc hsources
    ⟨htype.trans type, fun _ => hfd.trans fd, hdata.trans data, ?_⟩ ?_ ?_ det.attachments ?_
  · intro h
    rw [huse] at h
    cases h
  · change (doDetachFromQueue p src0 toClose q).kernel.isOpen = _
    rw [det.kernel]
    rcases (detach_cases p src0 toClose q.kernel).2 with ⟨heq, -⟩ | ⟨-, -, heq, -⟩
    · rw [heq]
    · rw [heq, epollCtl_isOpen]
  · intro x r hr
    change (doDetachFromQueue p src0 toClose q).kernel.reg x = some r at hr
    rw [det.kernel] at hr
    rcases (detach_cases p src0 toClose q.kernel).2 with ⟨heq, -⟩ | ⟨-, -, heq, -⟩
    · rw [heq] at hr
      exact .inl hr
    · rw [heq] at hr
      rcases epollCtl_reg hr with hold | ⟨-, -, hdel, -⟩
      · exact .inl hold
      · exact absurd rfl hdel
  · rintro j d ⟨e, he, hd⟩
    change (doDetachFromQueue p src0 toClose q).ee[j]? = some e at he
    rw [det.ee] at he
    exact rm_entry he hd

/-- Sources come and go, and descriptors are opened and closed. -/
private theorem Origins.change
    (sources : ∀ r s, q'.sources r = some s → q.sources r = some s ∨ Descends q a q' r s)
    (reg : ∀ fd r, q'.kernel.reg fd = some r → q.kernel.reg fd = some r)
    (isOpen : ∀ fd, q.kernel.isOpen fd = true → q'.kernel.isOpen fd = true ∨ a = .closeFd fd ∨
      ∃ p src, a = .delSource p ∧ q.sources p = some src ∧ src.type.isTimer = true ∧ src.fd = fd)
    (attachments : q'.attachments = q.attachments) (ee : q'.ee = q.ee) : Origins q a q' where
  sources := by
    intro r s hs
    rcases sources r s hs with hold | hnew
    · exact .heir s hold (.refl s)
    · exact hnew
  registered := fun fd r hr => .inl ⟨r, reg fd r hr, rfl⟩
  attachments := attachments.ge
  isOpen := isOpen
  entries := fun _ => holds_same ee

/-- The descriptor of a new timer is new. -/
theorem newSource_opened {type : SourceType} {fd : Fd} (timer : type.isTimer = true)
    (h : step q (.newSource p type fd) = some q') :
    q.kernel.isOpen fd = false ∧ q'.kernel.isOpen fd = true := by
  simp only [step] at h
  split_ifs at h with guard
  obtain rfl := Option.some.inj h
  simp only [Bool.and_eq_true, Bool.not_eq_true', timer, Bool.true_and] at guard
  exact ⟨guard.2, by simp [State.setSource]⟩

private theorem newSource_origins {type : SourceType} {fd : Fd} {k : Kernel}
    (free : q.sources p = none) (reg : k.reg = q.kernel.reg)
    (isOpen : ∀ x, q.kernel.isOpen x = true → k.isOpen x = true) :
    Origins q (.newSource p type fd) ({ q with kernel := k }.setSource p (newSource type fd)) := by
  refine Origins.change ?_ ?_ (fun x hx => .inl (isOpen x hx)) rfl rfl
  · intro r s hs
    by_cases hr : r = p
    · subst hr
      refine .inr (.created type fd rfl ?_ free)
      simpa [State.setSource, eq_comm] using hs
    · exact .inl (by simpa [State.setSource, hr] using hs)
  · intro x r hr
    rw [← reg]
    exact hr

private theorem resetFd_origins {fd : Fd} (h : step q (.resetFd p fd) = some q') :
    Origins q (.resetFd p fd) q' := by
  simp only [step, State.call] at h
  split_ifs at h
  obtain ⟨src, hsrc, rfl⟩ := Option.map_eq_some_iff.mp h
  unfold nebEvdpSourceOsFdReset
  split_ifs with huse htype
  · exact .still rfl rfl rfl (.inl rfl)
  · exact .still rfl rfl rfl (.inl rfl)
  · refine Origins.update hsrc rfl ⟨rfl, ?_, rfl, id⟩ rfl (fun _ _ => .inl) rfl (holds_same rfl)
    intro timer
    rw [show src.type = .osFd by simpa using htype] at timer
    cases timer

/-- A call on an os_fd source. -/
private theorem next_origins {d : Dir} {h : Option Handler} {room : Bool}
    (hsrc : q.sources p = some src) (cases : NextCases d p src h room q q') :
    Origins q a q' := by
  cases cases with
  | quiet src' kept =>
    exact .update hsrc rfl kept.stays.heir rfl (fun _ _ => .inl) rfl (holds_same rfl)
  | toPending src' kept =>
    exact .update hsrc rfl (kept.setPending true).stays.heir rfl (fun _ _ => .inl) rfl
      (holds_same rfl)
  | toRunning src' kept =>
    exact .update hsrc rfl (kept.setPending false).stays.heir rfl (fun _ _ => .inl) rfl
      (holds_same rfl)
  | ctl =>
    have kept := (Kept.setHandler src d h).trans (.setInterest _ d true)
    refine .update hsrc rfl (kept.trans (.doCtl p _ room q.kernel)).stays.heir ?_ ?_ rfl
      (holds_same rfl)
    · change (doCtlOsFd p _ room q.kernel).2.2.isOpen = _
      rw [doCtlOsFd_kernel, epollCtl_isOpen]
    · intro fd r hr
      change (doCtlOsFd p _ room q.kernel).2.2.reg fd = some r at hr
      rw [doCtlOsFd_kernel] at hr
      rcases request_reg hr kept.fd kept.data with hold | ⟨hfd, -, hdata, -⟩
      · exact .inl hold
      · exact .inr ⟨hfd, hdata⟩
  | del =>
    have kept := (Kept.setHandler src d h).trans (.setInterest _ d false)
    refine .update hsrc rfl (kept.trans (.doDel p _ q.kernel)).stays.heir ?_ ?_ rfl
      (holds_same rfl)
    · change (doDelOsFd p _ q.kernel).2.2.isOpen = _
      rw [doDelOsFd_kernel, epollCtl_isOpen]
    · intro fd r hr
      change (doDelOsFd p _ q.kernel).2.2.reg fd = some r at hr
      rw [doDelOsFd_kernel] at hr
      rcases request_reg hr kept.fd kept.data with hold | ⟨hfd, -, hdata, -⟩
      · exact .inl hold
      · exact .inr ⟨hfd, hdata⟩

/-- The other descriptors stay open. -/
private theorem close_open {k : Kernel} {x : Fd} (fd : Fd) (h : k.isOpen x = true) :
    (k.close fd).isOpen x = true ∨ x = fd := by
  by_cases hx : x = fd
  · exact .inr hx
  · exact .inl (by simpa [Kernel.close, hx] using h)

theorem step_origins (h : step q a = some q') : Origins q a q' := by
  cases step_cases h with
  | @opened fd turn =>
    refine .change (fun _ _ hs => .inl hs) (fun _ _ => id) ?_ rfl rfl
    intro x hx
    refine .inl ?_
    by_cases hxf : x = fd
    · simp [hxf]
    · simpa [hxf] using hx
  | @closed fd turn =>
    refine .change (fun _ _ hs => .inl hs) (fun _ _ hr => (close_reg hr).2.1) ?_ rfl rfl
    intro x hx
    rcases close_open fd hx with hopen | rfl
    · exact .inl hopen
    · exact .inr (.inl rfl)
  | created turn free k reg requests isOpen => exact newSource_origins free reg isOpen
  | refused turn => exact .still rfl rfl rfl (.inl rfl)
  | @freed p src turn hsrc unattached =>
    have gone : ∀ r s, Function.update q.sources p none r = some s → q.sources r = some s := by
      intro r s hs
      by_cases hr : r = p
      · simp [hr] at hs
      · simpa [hr] using hs
    by_cases timer : src.type.isTimer = true
    · simp only [if_pos timer]
      refine .change (fun r s hs => .inl (gone r s hs)) (fun _ _ hr => (close_reg hr).2.1) ?_
        rfl rfl
      intro x hx
      rcases close_open src.fd hx with hopen | rfl
      · exact .inl hopen
      · exact .inr (.inr ⟨p, src, rfl, hsrc, timer, rfl⟩)
    · simp only [if_neg timer]
      exact .change (fun r s hs => .inl (gone r s hs)) (fun _ _ => id) (fun _ hx => .inl hx) rfl rfl
  | refitted turn hsrc unattached => exact resetFd_origins h
  | next turn hsrc osFd cases => exact next_origins hsrc cases
  | joinedPending turn hsrc unattached src' joined osFd =>
    exact .join hsrc joined rfl rfl rfl rfl
  | joinedRunning turn hsrc unattached src' joined osFd bare =>
    exact .join hsrc joined rfl rfl rfl rfl
  | @detached p src toClose turn hsrc attached free =>
    exact .detach src toClose hsrc rfl rfl rfl (doDetachFromQueue p src toClose q).ctl
  | started ctl => exact .still rfl rfl rfl (.inl rfl)
  | flushEnd ctl empty => exact .still rfl rfl rfl (.inl rfl)
  | flushed ctl head hsrc ok =>
    refine .update hsrc rfl (Stays.heir ⟨rfl, rfl, rfl, rfl⟩) rfl ?_ rfl (holds_same rfl)
    intro fd r hr
    rcases request_reg hr rfl rfl with hold | ⟨hfd, -, hdata, -⟩
    · exact .inl hold
    · exact .inr ⟨hfd, hdata⟩
  | flushFailed ctl head hsrc failed =>
    refine .change (fun _ _ hs => .inl hs) ?_ (fun _ hx => .inl hx) rfl rfl
    intro fd r hr
    simpa only [epollCtl_failed failed] using hr
  | flushLost ctl head lost => exact .still rfl rfl rfl (.inl rfl)
  | @waited evs k ee ctl nodup events =>
    obtain ⟨hopen, -, hreg, -⟩ := epollWait_spec events
    refine ⟨fun r s hs => .heir s hs (.refl s), ?_, le_rfl, ?_, fun hne => absurd rfl (hne evs)⟩
    · intro fd r hr
      rcases hreg fd with hsame | ⟨r0, hr0, -, hnew, -⟩
      · exact .inl ⟨r, hsame ▸ hr, rfl⟩
      · obtain rfl := Option.some.inj (hnew.symm.trans hr)
        exact .inl ⟨r0, hr0, rfl⟩
    · intro x hx
      exact .inl ((congrFun hopen x).trans hx)
  | waitFailed ctl => exact .still rfl rfl rfl (.inr rfl)
  | batchEnd ctl beyond currentEvent => exact .still rfl rfl rfl (.inr rfl)
  | skipped ctl entry cleared => exact .still rfl rfl rfl (.inl rfl)
  | lost ctl entry data free => exact .still rfl rfl rfl (.inl rfl)
  | fetched ctl entry data hsrc =>
    refine .update hsrc rfl (Stays.heir ?_) rfl (fun _ _ => .inl) rfl (holds_same rfl)
    split_ifs <;> exact ⟨rfl, rfl, rfl, rfl⟩
  | vanished event free => exact .still rfl rfl rfl (.inl rfl)
  | otherHandled ctl hsrc other event => exact .still rfl rfl rfl (.inl rfl)
  | osFdSkipped ctl hsrc osFd => exact .still rfl rfl rfl (.inl rfl)
  | osFdCalled ctl hsrc osFd src' entered notLast =>
    exact .update hsrc rfl entered.toKept.stays.heir rfl (fun _ _ => .inl) rfl (holds_same rfl)
  | osFdRequeued ctl hsrc osFd rest attached =>
    exact .update hsrc rfl (Stays.heir ⟨rfl, rfl, rfl, rfl⟩) rfl (fun _ _ => .inl) rfl
      (holds_same rfl)
  | osFdLost ctl hsrc unattached => exact .still rfl rfl rfl (.inl rfl)
  | osFdDone ctl hsrc osFd bare => exact .still rfl rfl rfl (.inl rfl)
  | returned ctl hsrc src' entered =>
    exact .update hsrc rfl entered.toKept.stays.heir rfl (fun _ _ => .inl) rfl (holds_same rfl)
  | @finishedDetach ok ne ret src ctl hsrc toClose hret =>
    exact .detach { src with noDetach := false } toClose hsrc rfl rfl rfl _
  | finished ctl hsrc hctl' =>
    exact .update hsrc rfl (Stays.heir ⟨rfl, rfl, rfl, rfl⟩) rfl (fun _ _ => .inl) rfl
      (holds_same rfl)
  | resumed ctl => exact .still rfl rfl rfl (.inl rfl)

/-- What a wait fetches. -/
theorem wait_origins {evs : List (Fd × Reported)} (h : step q (.wait evs) = some q') :
    q'.sources = q.sources ∧ (evs.map Prod.fst).Nodup ∧ q'.ctl = .events 0 ∧
      ∀ j d, q'.Holds j d → ∃ ev r, evs[j]? = some ev ∧ q.kernel.reg ev.1 = some r ∧
        r.event.data = some d := by
  simp only [step] at h
  split at h
  · split_ifs at h with guard
    obtain ⟨⟨k, ee⟩, events, rfl⟩ := Option.map_eq_some_iff.mp h
    simp only [Bool.and_eq_true, decide_eq_true_eq] at guard
    refine ⟨rfl, guard.2, rfl, ?_⟩
    rintro j d ⟨e, he, hd⟩
    obtain ⟨ev, r, hev, hr, hdata⟩ := epollWait_entry events he
    exact ⟨ev, r, hev, hr, hdata.symm.trans hd⟩
  · cases h

/-- A source that is not attached is gone when it has been deleted. -/
theorem delSource_gone (hsrc : q.sources p = some src) (unattached : src.qInUse = false)
    (h : step q (.delSource p) = some q') : q'.sources p = none := by
  simp only [step, State.call] at h
  split_ifs at h
  rw [hsrc, Option.map_some] at h
  obtain rfl := Option.some.inj h
  simp [nebEvdpSourceDel, unattached]

/-- A source that a step detaches is not attached after it. -/
theorem detaching_gone {toClose : Bool} (hdet : q.detaching a = some (p, src, toClose))
    (h : step q a = some q') (hsrc' : q'.sources p = some src') : src'.qInUse = false := by
  have gone : ∀ (s : Source) (b : Bool) (c : Ctl) (s' : Source),
      ((doDetachFromQueue p s b q).goto c).sources p = some s' → s'.qInUse = false := by
    intro s b c s' hs'
    obtain ⟨s1, hsources, -, -, -, huse⟩ := detach_source p s b q
    have hs1 := congrFun hsources p
    rw [Function.update_self] at hs1
    exact Option.some.inj (hs1.symm.trans hs') ▸ huse
  cases a with
  | detach r b =>
    simp only [State.detaching, Option.map_eq_some_iff, Option.filter_eq_some_iff,
      Prod.mk.injEq, decide_eq_true_eq] at hdet
    obtain ⟨s, ⟨hsrc, huse, hno⟩, rfl, rfl, rfl⟩ := hdet
    simp only [step, State.call] at h
    split_ifs at h
    rw [hsrc, Option.map_some] at h
    obtain rfl := Option.some.inj h
    simp only [nebEvdpQueueDetach, huse, hno, Bool.not_true, Bool.false_eq_true, if_false] at hsrc'
    exact gone s b _ src' hsrc'
  | proceed ok =>
    simp only [State.detaching] at hdet
    split at hdet
    · rename_i ne ctl
      simp only [Option.map_eq_some_iff, Prod.mk.injEq] at hdet
      obtain ⟨s, hsrc, rfl, rfl, rfl⟩ := hdet
      simp only [step, ctl, hsrc, finishEvent, Option.some.injEq] at h
      subst h
      exact gone _ _ _ src' hsrc'
    · rename_i ne ctl
      simp only [Option.map_eq_some_iff, Prod.mk.injEq] at hdet
      obtain ⟨s, hsrc, rfl, rfl, rfl⟩ := hdet
      simp only [step, ctl, hsrc, finishEvent, Option.some.injEq] at h
      subst h
      exact gone _ _ _ src' hsrc'
    · cases hdet
  | _ => cases hdet

/-- When the handling of an event starts, the batch and the identity of its source stay. -/
theorem fetch_keeps {i : Nat} {e : EpollEvent} {d : Data} (ctl : q.ctl = .events i)
    (entry : q.ee[i]? = some e) (data : e.data = some d) (hsrc : q.sources d.ptr = some src)
    (fetching : q.fetching a = some d) (h : step q a = some q') :
    q'.ee = q.ee ∧ ∃ src', q'.sources d.ptr = some src' ∧ Stays src src' := by
  cases a with
  | proceed ok =>
    simp only [step, ctl, handleEvent, entry, data, hsrc, Option.some.injEq] at h
    subst h
    refine ⟨rfl, _, Function.update_self .., ?_⟩
    split_ifs <;> exact ⟨rfl, rfl, rfl, rfl⟩
  | _ => cases fetching

/-- Each source carries an attachment of its own, one that was made before. -/
def Told (q : State) : Prop :=
  ∀ p src d, q.sources p = some src → src.ctlEvent.data = some d →
    d.ptr = p ∧ d.attachment < q.attachments

theorem Told.ofOrigins (told : Told q) (origins : Origins q a q') : Told q' := by
  intro p src' d hsrc hdata
  cases origins.sources p src' hsrc with
  | heir src hsrc0 heir =>
    obtain ⟨hp, old⟩ := told p src d hsrc0 (heir.data ▸ hdata)
    exact ⟨hp, lt_of_lt_of_le old origins.attachments⟩
  | joined src hsrc0 type fd new count =>
    obtain rfl := Option.some.inj (hdata.symm.trans new)
    exact ⟨rfl, count⟩
  | created type fd action new free =>
    rw [new] at hdata
    cases hdata

theorem Told.create (batchSize : Nat) : Told (nebEvdpQueueCreate batchSize) := by
  intro p src d hsrc
  cases hsrc

end Origins

/-! Where the program goes. -/

/-- The source that is handled is a timer. -/
def State.HandlesTimer (q : State) (ne : NebEvdpEvent) : Prop :=
  ∃ src, q.sources ne.source = some src ∧ src.type.isTimer = true

/-- Where the program stands after a step. -/
inductive Progress (q : State) (a : Action) : Ctl → Prop
  | turn (turn : q.ctl.userTurn = true) : Progress q a q.ctl
  | outside {c : Ctl} (upcoming : c.upcoming = none) (event : c.event = none) : Progress q a c
  | fetched {i : Nat} {e : EpollEvent} {d : Data} {src : Source} (ctl : q.ctl = .events i)
      (entry : q.ee[i]? = some e) (data : e.data = some d) (hsrc : q.sources d.ptr = some src)
      (fetching : q.fetching a = some d) : Progress q a (.handle ⟨i, d.ptr, e⟩ .read)
  | waited {evs : List (Fd × Reported)} (action : a = .wait evs) : Progress q a (.events 0)
  | next {i j : Nat} (upcoming : q.ctl.upcoming = some i) (le : i ≤ j) : Progress q a (.events j)
  | removed {ne : NebEvdpEvent} (event : q.ctl.event = some ne) : Progress q a (.removed ne.index)
  | called {ne : NebEvdpEvent} {stage stage' : Stage} (ctl : q.ctl = .handle ne stage)
      (timer : q.HandlesTimer ne → stage' = .last) : Progress q a (.callback ne stage')
  | handled {ne : NebEvdpEvent} {stage stage' : Stage} (ctl : q.ctl = .handle ne stage)
      (other : ¬ q.HandlesTimer ne) : Progress q a (.handle ne stage')
  | returned {ne : NebEvdpEvent} {stage stage' : Stage} (ctl : q.ctl = .callback ne stage)
      (notLast : stage ≠ .last) : Progress q a (.handle ne stage')
  | finished {ne : NebEvdpEvent} {ret : NebEvdpCbRet} (event : q.ctl.event = some ne)
      (broke : ret = .breakErr → a = .cbReturn .breakErr ∨
        a = .proceed false ∧ q.HandlesTimer ne ∧ ∃ stage, q.ctl = .handle ne stage) :
      Progress q a (.finish ne ret)

section Progress

variable {q q' : State} {a : Action}

private theorem not_timer {ne : NebEvdpEvent} {src : Source}
    (hsrc : q.sources ne.source = some src) (other : src.type.isTimer = false) :
    ¬ q.HandlesTimer ne := by
  rintro ⟨s, hs, htimer⟩
  obtain rfl := Option.some.inj (hsrc.symm.trans hs)
  rw [other] at htimer
  cases htimer

private theorem after_callback_progress {ne : NebEvdpEvent} {stage : Stage} (ret : NebEvdpCbRet)
    (ctl : q.ctl = .callback ne stage) :
    Progress q (.cbReturn ret) (afterCallback ne stage ret) := by
  have event : q.ctl.event = some ne := by rw [ctl]; rfl
  have finish : ∀ r, (r = .breakErr → ret = .breakErr) →
      Progress q (.cbReturn ret) (.finish ne r) :=
    fun r hr => .finished event (fun h => .inl (by rw [hr h]))
  unfold afterCallback
  cases stage with
  | read =>
    simp only
    split_ifs
    · exact .returned ctl (by simp)
    · exact finish ret id
  | hup => cases ret <;> exact finish _ (by simp)
  | write =>
    simp only
    split_ifs
    · exact .returned ctl (by simp)
    · exact finish ret id
  | last => exact finish ret id

/-- The handle function of a source other than os_fd. -/
private theorem other_progress {ok : Bool} {ne : NebEvdpEvent} {stage : Stage} {src : Source}
    (ctl : q.ctl = .handle ne stage) (hsrc : q.sources ne.source = some src)
    (other : src.type ≠ .osFd) (h : step q (.proceed ok) = some q') :
    Progress q (.proceed ok) q'.ctl := by
  have event : q.ctl.event = some ne := by rw [ctl]; rfl
  have failed : src.type.isTimer = true → ok = false →
      Progress q (.proceed ok) (.finish ne .breakErr) :=
    fun timer hok => .finished event (fun _ => .inr ⟨by rw [hok], ⟨src, hsrc, timer⟩, stage, ctl⟩)
  simp only [step, ctl, hsrc] at h
  cases htype : src.type with
  | itimer =>
    rw [htype] at h
    obtain rfl := Option.some.inj h
    cases ok with
    | true => exact .called ctl (fun _ => rfl)
    | false => exact failed (by rw [htype]; rfl) rfl
  | abstimer =>
    rw [htype] at h
    obtain rfl := Option.some.inj h
    cases ok with
    | true => exact .finished event (by simp)
    | false => exact failed (by rw [htype]; rfl) rfl
  | osFd => exact absurd htype other
  | roFd =>
    rw [htype] at h
    obtain rfl := Option.some.inj h
    have notTimer := not_timer hsrc (by rw [htype]; rfl)
    have called : ∀ stage', Progress q (.proceed ok) (.callback ne stage') :=
      fun stage' => .called ctl (fun htimer => absurd htimer notTimer)
    have finish : Progress q (.proceed ok) (.finish ne .continue) := .finished event (by simp)
    unfold evdpSourceRoFdHandle
    cases stage with
    | read =>
      simp only [State.goto]
      split_ifs
      · exact called .read
      · exact .handled ctl notTimer
    | _ =>
      simp only [State.goto]
      split_ifs
      · exact called .hup
      · exact finish

theorem step_progress (h : step q a = some q') : Progress q a q'.ctl := by
  cases step_cases h with
  | opened turn => exact .turn turn
  | closed turn => exact .turn turn
  | created turn free k reg requests isOpen => exact .turn turn
  | refused turn => exact .turn turn
  | @freed p src turn hsrc unattached =>
    split_ifs
    · exact .turn turn
    · exact .turn turn
  | refitted turn hsrc unattached => exact .turn turn
  | next turn hsrc osFd cases =>
    rw [(next_rest cases).1]
    exact .turn turn
  | joinedPending turn hsrc unattached src' joined osFd => exact .turn turn
  | joinedRunning turn hsrc unattached src' joined osFd bare => exact .turn turn
  | @detached p src toClose turn hsrc attached free =>
    rw [(Epoll.detached p src toClose q).ctl]
    exact .turn turn
  | started ctl => exact .outside rfl rfl
  | flushEnd ctl empty => exact .outside rfl rfl
  | flushed ctl head hsrc ok => exact .outside rfl rfl
  | flushFailed ctl head hsrc failed => exact .outside rfl rfl
  | flushLost ctl head lost => exact .outside rfl rfl
  | waited ctl nodup events => exact .waited rfl
  | waitFailed ctl => exact .outside rfl rfl
  | batchEnd ctl beyond currentEvent => exact .outside rfl rfl
  | @skipped i ok e ctl entry cleared => exact .next (by rw [ctl]; rfl) (Nat.le_succ i)
  | lost ctl entry data free => exact .outside rfl rfl
  | fetched ctl entry data hsrc => exact .fetched ctl entry data hsrc (fetching_eq ctl entry data)
  | vanished event free => exact .outside rfl rfl
  | otherHandled ctl hsrc other event => exact other_progress ctl hsrc other h
  | @osFdSkipped ok ne stage stage' src ctl hsrc osFd =>
    exact .handled ctl (not_timer hsrc (by rw [osFd]; rfl))
  | @osFdCalled ok ne stage src ctl hsrc osFd src' entered notLast =>
    exact .called ctl (fun htimer => absurd htimer (not_timer hsrc (by rw [osFd]; rfl)))
  | osFdRequeued ctl hsrc osFd rest attached => exact .finished (by rw [ctl]; rfl) (by simp)
  | osFdLost ctl hsrc unattached => exact .outside rfl rfl
  | osFdDone ctl hsrc osFd bare => exact .finished (by rw [ctl]; rfl) (by simp)
  | returned ctl hsrc src' entered => exact after_callback_progress _ ctl
  | finishedDetach ctl hsrc toClose hret => exact .removed (by rw [ctl]; rfl)
  | @finished ok ne ret src ctl' ctl hsrc hctl' =>
    rcases hctl' with ⟨rfl, -⟩ | ⟨rfl, -⟩
    · exact .outside rfl rfl
    · exact .next (i := ne.index + 1) (by rw [ctl]; rfl) le_rfl
  | @resumed ok i ctl => exact .next (i := i + 1) (by rw [ctl]; rfl) le_rfl

end Progress

end Nebase.Evdp.Epoll
