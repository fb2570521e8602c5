/- The delivery of events: which registrations can still report, and to whom the entries of a batch
   belong, over every run. -/

import Nebase.Evdp.Epoll.Accounting

set_option autoImplicit false
set_option relaxedAutoImplicit false

namespace Nebase.Evdp.Epoll

open Nebase.Foundation

/-- `d` was given to the kernel by the present attachment of its source. -/
def State.Lives (q : State) (d : Data) : Prop :=
  ∃ src, q.sources d.ptr = some src ∧ src.qInUse = true ∧ src.ctlEvent.data = some d

/-- The same, of the attachment of a source with the descriptor `fd`. -/
def State.LivesAt (q : State) (fd : Fd) (d : Data) : Prop :=
  ∃ src, q.sources d.ptr = some src ∧ src.qInUse = true ∧ src.ctlEvent.data = some d ∧
    src.fd = fd

/-- What the kernel can still report belongs to an attached source, or to a descriptor that the user
has to close. -/
structure Tracked (q : State) : Prop where
  data : ∀ p src, q.sources p = some src → src.qInUse = true →
    ∃ n, src.ctlEvent.data = some ⟨p, n⟩
  opened : ∀ fd r, q.kernel.reg fd = some r → q.kernel.isOpen fd = true
  armed : ∀ fd r, q.kernel.reg fd = some r → r.armed = true →
    fd ∈ q.closing ∨ ∃ d, r.event.data = some d ∧ q.LivesAt fd d
  unsent : ∀ p src r d, q.sources p = some src → src.qInUse = true → src.type ≠ .osFd →
    src.added = false → q.kernel.reg src.fd = some r → r.armed = true → r.event.data = some d →
    d.ptr = p → src.fd ∈ q.closing

/-- The first entry of the batch that is still to be looked at. -/
def Ctl.upcoming : Ctl → Option Nat
  | .events i => some i
  | .handle ne _ => some (ne.index + 1)
  | .callback ne _ => some (ne.index + 1)
  | .finish ne _ => some (ne.index + 1)
  | .removed i => some (i + 1)
  | _ => none

/-- The entry of the batch that is being looked at. -/
def Ctl.current : Ctl → Option Nat
  | .handle ne _ => some ne.index
  | .callback ne _ => some ne.index
  | .finish ne _ => some ne.index
  | .removed i => some i
  | _ => none

def Ctl.waiting : Ctl → Bool
  | .flushing _ => true
  | .ready => true
  | _ => false

/-- The entries still to come, and the one being handled, belong to the present attachments. -/
structure Batch (q : State) : Prop where
  entries : ∀ i, q.ctl.upcoming = some i → ∀ j, i ≤ j → ∀ e d, q.ee[j]? = some e →
    e.data = some d → q.Lives d
  position : ∀ i, q.ctl.current = some i → q.currentEvent = i
  handling : ∀ ne, q.ctl.event = some ne →
    ∃ d, ne.event.data = some d ∧ d.ptr = ne.source ∧ q.Lives d
  quiet : q.ctl.waiting = true → q.closing = []

section Tracked

variable {q q' : State} {p : Ptr} {src src' : Source}

/-- Nothing is attached or detached, and the kernel has no more to report. -/
theorem Tracked.mono (tracked : Tracked q)
    (same : ∀ r s, s.qInUse = true → (q'.sources r = some s ↔ q.sources r = some s))
    (reg : ∀ fd r, q'.kernel.reg fd = some r →
      q'.kernel.isOpen fd = true ∧ (r.armed = true → q.kernel.reg fd = some r))
    (closing : ∀ fd r, q'.kernel.reg fd = some r → fd ∈ q.closing → fd ∈ q'.closing) :
    Tracked q' where
  data := by
    intro r s hs huse
    exact tracked.data r s ((same r s huse).mp hs) huse
  opened := fun fd r hr => (reg fd r hr).1
  armed := by
    intro fd r hr harmed
    rcases tracked.armed fd r ((reg fd r hr).2 harmed) harmed with hclosing | ⟨d, hd, hlives⟩
    · exact .inl (closing fd r hr hclosing)
    · obtain ⟨s, hs, huse, hrest⟩ := hlives
      exact .inr ⟨d, hd, s, (same _ s huse).mpr hs, huse, hrest⟩
  unsent := by
    intro r s g d hs huse htype hadded hg harmed hd hptr
    exact closing _ g hg (tracked.unsent r s g d ((same r s huse).mp hs) huse htype hadded
      ((reg _ g hg).2 harmed) harmed hd hptr)

/-- A source that stays attached changes, perhaps with a request for it. -/
theorem Tracked.update (tracked : Tracked q) (hsrc : q.sources p = some src)
    (attached : src.qInUse = true) (sources : q'.sources = Function.update q.sources p (some src'))
    (stays : Stays src src') (isOpen : q'.kernel.isOpen = q.kernel.isOpen)
    (closing : q'.closing = q.closing)
    (reg : ∀ fd r, q'.kernel.reg fd = some r → q.kernel.reg fd = some r ∨
      fd = src.fd ∧ q.kernel.isOpen fd = true ∧ r.event.data = src.ctlEvent.data ∧
        (src.type = .osFd ∨ src'.added = true))
    (added : src.type ≠ .osFd → src'.added = false → src.added = false) : Tracked q' where
  data := by
    intro r s hs huse
    rw [sources] at hs
    by_cases hr : r = p
    · subst hr
      rw [Function.update_self, Option.some.injEq] at hs
      subst hs
      rw [stays.data]
      exact tracked.data r src hsrc attached
    · rw [Function.update_of_ne hr] at hs
      exact tracked.data r s hs huse
  opened := by
    intro fd r hr
    rw [isOpen]
    rcases reg fd r hr with hold | ⟨-, hopen, -⟩
    · exact tracked.opened fd r hold
    · exact hopen
  armed := by
    intro fd r hr harmed
    have keeps : ∀ d, q.LivesAt fd d → q'.LivesAt fd d := by
      rintro d ⟨s, hs, huse, hdata, hfd⟩
      unfold State.LivesAt
      rw [sources]
      by_cases hp : d.ptr = p
      · rw [hp] at hs ⊢
        obtain rfl := Option.some.inj (hsrc.symm.trans hs)
        exact ⟨src', Function.update_self .., stays.qInUse.trans huse, stays.data.trans hdata,
          stays.fd.trans hfd⟩
      · exact ⟨s, (Function.update_of_ne hp _ _).trans hs, huse, hdata, hfd⟩
    rcases reg fd r hr with hold | ⟨rfl, -, hdata, -⟩
    · rcases tracked.armed fd r hold harmed with hclosing | ⟨d, hd, hlives⟩
      · exact .inl (closing ▸ hclosing)
      · exact .inr ⟨d, hd, keeps d hlives⟩
    · obtain ⟨n, hn⟩ := tracked.data p src hsrc attached
      exact .inr ⟨⟨p, n⟩, hdata.trans hn, keeps _ ⟨src, hsrc, attached, hn, rfl⟩⟩
  unsent := by
    intro r s g d hs huse htype hadded hg harmed hd hptr
    rw [closing]
    rw [sources] at hs
    by_cases hr : r = p
    · subst hr
      rw [Function.update_self, Option.some.injEq] at hs
      subst hs
      rw [stays.type] at htype
      rw [stays.fd] at hg ⊢
      rcases reg _ g hg with hold | ⟨-, -, -, hos | hnew⟩
      · exact tracked.unsent r src g d hsrc attached htype (added htype hadded) hold harmed hd hptr
      · exact absurd hos htype
      · rw [hnew] at hadded
        cases hadded
    · rw [Function.update_of_ne hr] at hs
      rcases reg _ g hg with hold | ⟨-, -, hdata, -⟩
      · exact tracked.unsent r s g d hs huse htype hadded hold harmed hd hptr
      · -- the registration is that of `p`
        obtain ⟨n, hn⟩ := tracked.data p src hsrc attached
        rw [hdata, hn] at hd
        obtain rfl := Option.some.inj hd
        exact absurd hptr.symm hr

/-- A request made for a source registers it, if anything, with its own data. -/
theorem request_reg {k : Kernel} {op : CtlOp} {s : Source} {room : Bool} {fd : Fd}
    {r : Registration} (h : (k.epollCtl op p s room).2.reg fd = some r) (hfd : s.fd = src.fd)
    (hdata : s.ctlEvent.data = src.ctlEvent.data) :
    k.reg fd = some r ∨ fd = src.fd ∧ k.isOpen fd = true ∧ r.event.data = src.ctlEvent.data ∧
      (k.epollCtl op p s room).1 = .ok := by
  rcases epollCtl_reg h with hold | ⟨rfl, rfl, -, hok⟩
  · exact .inl hold
  · refine .inr ⟨hfd, ?_, hdata, hok⟩
    have hok' : k.answer op s.fd room = .ok := hok
    by_contra hopen
    simp [Kernel.answer, hopen] at hok'

/-- A source is attached: nothing can still be reported for it. -/
theorem Tracked.join (tracked : Tracked q) (hsrc : q.sources p = some src)
    (unattached : src.qInUse = false) (joined : Joined q p src src') {b : Bool}
    (sources : q'.sources = Function.update q.sources p (some { src' with pending := b }))
    (kernel : q'.kernel = q.kernel) (closing : q'.closing = q.closing) : Tracked q' := by
  have hnot := not_attached hsrc unattached
  have keeps : ∀ fd d, q.LivesAt fd d → q'.LivesAt fd d := by
    rintro fd d ⟨s, hs, huse, hrest⟩
    have hne : d.ptr ≠ p := by
      rintro rfl
      exact hnot ⟨s, hs, huse⟩
    exact ⟨s, by rw [sources, Function.update_of_ne hne, hs], huse, hrest⟩
  refine ⟨?_, ?_, ?_, ?_⟩
  · intro r s hs huse
    rw [sources] at hs
    by_cases hr : r = p
    · subst hr
      rw [Function.update_self, Option.some.injEq] at hs
      subst hs
      exact ⟨_, joined.data⟩
    · rw [Function.update_of_ne hr] at hs
      exact tracked.data r s hs huse
  · rw [kernel]
    exact tracked.opened
  · intro fd r hr harmed
    rw [kernel] at hr
    rcases tracked.armed fd r hr harmed with hclosing | ⟨d, hd, hlives⟩
    · exact .inl (closing ▸ hclosing)
    · exact .inr ⟨d, hd, keeps fd d hlives⟩
  · intro r s g d hs huse htype hadded hg harmed hd hptr
    rw [kernel] at hg
    rw [closing]
    rw [sources] at hs
    by_cases hr : r = p
    · rcases tracked.armed _ g hg harmed with hclosing | ⟨d', hd', s', hs', huse', -⟩
      · exact hclosing
      · obtain rfl := Option.some.inj (hd.symm.trans hd')
        rw [hptr, hr] at hs'
        exact absurd ⟨s', hs', huse'⟩ hnot
    · rw [Function.update_of_ne hr] at hs
      exact tracked.unsent r s g d hs huse htype hadded hg harmed hd hptr

/-- The registration of the descriptor of `src` is armed and was made for `p`. -/
def Kernel.armedFor (k : Kernel) (fd : Fd) (p : Ptr) : Bool :=
  (k.reg fd).any (fun r => r.armed && decide (r.event.data.map (·.ptr) = some p))

/-- A source is detached: what could still be reported for it is un-registered, or its descriptor
is to be closed. -/
theorem Tracked.detach (tracked : Tracked q) {src0 : Source} {toClose : Bool}
    (hsrc : q.sources p = some src) (attached : src.qInUse = true)
    (det : Detached p src0 toClose q q') (fd : src0.fd = src.fd)
    (added : src0.added = src.added)
    (leaves : src.type = .osFd → toClose = false → src.added = false →
      q.kernel.armedFor src.fd p = false) : Tracked q' := by
  obtain ⟨src', hsources, huse', -⟩ := det.sources
  have grows : ∀ x, x ∈ q.closing → x ∈ q'.closing := by
    intro x hx
    rw [det.closing]
    split_ifs
    · exact List.mem_cons_of_mem _ hx
    · exact hx
  have other : ∀ r s, q'.sources r = some s → s.qInUse = true →
      r ≠ p ∧ q.sources r = some s := by
    intro r s hs huse
    rw [hsources] at hs
    by_cases hr : r = p
    · subst hr
      rw [Function.update_self, Option.some.injEq] at hs
      rw [← hs, huse'] at huse
      cases huse
    · rw [Function.update_of_ne hr] at hs
      exact ⟨hr, hs⟩
  -- what is left in the kernel was there before
  have old : ∀ x r, q'.kernel.reg x = some r → q.kernel.reg x = some r := by
    intro x r hr
    rw [det.kernel] at hr
    rcases (detach_cases p src0 toClose q.kernel).2 with ⟨heq, -⟩ | ⟨-, -, heq, -⟩
    · rwa [heq] at hr
    · rw [heq] at hr
      rcases epollCtl_reg hr with hold | ⟨-, -, hdel, -⟩
      · exact hold
      · exact absurd rfl hdel
  -- the descriptor of the source
  have own : ∀ r d, q'.kernel.reg src.fd = some r → r.armed = true → r.event.data = some d →
      d.ptr = p → src.fd ∈ q'.closing := by
    intro r d hr harmed hd hptr
    have hold := old _ r hr
    by_cases hclose : toClose = true
    · rw [det.closing, if_pos, fd]
      · exact List.mem_cons_self
      · simp [hclose, fd, Kernel.registeredFor, hr, hd, hptr]
    · have hclose' : toClose = false := by simpa using hclose
      rcases (detach_cases p src0 toClose q.kernel).2 with
        ⟨-, -, hadded | ⟨hclose'', -⟩⟩ | ⟨-, -, heq, -⟩
      · rw [added] at hadded
        by_cases hos : src.type = .osFd
        · have hleaves := leaves hos hclose' hadded
          simp [Kernel.armedFor, hold, harmed, hd, hptr] at hleaves
        · exact grows _ (tracked.unsent p src r d hsrc attached hos hadded hold harmed hd hptr)
      · exact absurd hclose'' hclose
      · -- it was un-registered
        have hok : (q.kernel.epollCtl .del p src0 true).1 = .ok := by
          refine epollCtl_del ?_ ?_
          · rw [fd]
            exact tracked.opened _ r hold
          · rw [fd, hold]
            simp
        have hnone := epollCtl_ok hok
        rw [if_pos rfl, fd] at hnone
        rw [det.kernel, heq, hnone] at hr
        cases hr
  refine ⟨?_, ?_, ?_, ?_⟩
  · intro r s hs huse
    exact tracked.data r s (other r s hs huse).2 huse
  · intro x r hr
    have hopen : q'.kernel.isOpen = q.kernel.isOpen := by
      rw [det.kernel]
      rcases (detach_cases p src0 toClose q.kernel).2 with ⟨heq, -⟩ | ⟨-, -, heq, -⟩
      · rw [heq]
      · rw [heq, epollCtl_isOpen]
    rw [hopen]
    exact tracked.opened x r (old x r hr)
  · intro x r hr harmed
    rcases tracked.armed x r (old x r hr) harmed with hclosing | ⟨d, hd, s, hs, huse, hdata, hfd⟩
    · exact .inl (grows x hclosing)
    · by_cases hp : d.ptr = p
      · rw [hp] at hs
        obtain rfl := Option.some.inj (hsrc.symm.trans hs)
        subst hfd
        exact .inl (own r d hr harmed hd hp)
      · refine .inr ⟨d, hd, s, ?_, huse, hdata, hfd⟩
        rw [hsources, Function.update_of_ne hp, hs]
  · intro r s g d hs huse htype hadded hg harmed hd hptr
    exact grows _ (tracked.unsent r s g d (other r s hs huse).2 huse htype hadded (old _ g hg)
      harmed hd hptr)

theorem Tracked.still (tracked : Tracked q) (sources : q'.sources = q.sources)
    (kernel : q'.kernel = q.kernel) (closing : q'.closing = q.closing) : Tracked q' := by
  refine tracked.mono ?_ ?_ ?_
  · intro r s _
    rw [sources]
  · intro fd r hr
    rw [kernel] at hr ⊢
    exact ⟨tracked.opened fd r hr, fun _ => hr⟩
  · intro fd r _ hfd
    rw [closing]
    exact hfd

/-- A source that is not attached comes, goes or changes, and a descriptor may be closed. -/
theorem Tracked.unattached (tracked : Tracked q) {o : Option Source} (before : ¬ q.Attached p)
    (after : ∀ s, o = some s → s.qInUse = false)
    (sources : q'.sources = Function.update q.sources p o)
    (reg : ∀ fd r, q'.kernel.reg fd = some r →
      q.kernel.reg fd = some r ∧ (q.kernel.isOpen fd = true → q'.kernel.isOpen fd = true))
    (closing : ∀ fd r, q'.kernel.reg fd = some r → fd ∈ q.closing → fd ∈ q'.closing) :
    Tracked q' := by
  refine tracked.mono ?_ ?_ closing
  · intro r s huse
    rw [sources]
    by_cases hr : r = p
    · subst hr
      rw [Function.update_self]
      refine ⟨?_, fun hs => absurd ⟨s, hs, huse⟩ before⟩
      intro hs
      rw [after s hs] at huse
      cases huse
    · rw [Function.update_of_ne hr]
  · intro fd r hr
    obtain ⟨hold, hopen⟩ := reg fd r hr
    exact ⟨hopen (tracked.opened fd r hold), fun _ => hold⟩

theorem close_reg {k : Kernel} {fd x : Fd} {r : Registration} (h : (k.close fd).reg x = some r) :
    x ≠ fd ∧ k.reg x = some r ∧ (k.isOpen x = true → (k.close fd).isOpen x = true) := by
  by_cases hx : x = fd
  · subst hx
    simp [Kernel.close] at h
  · simp only [Kernel.close, Function.update_of_ne hx] at h ⊢
    exact ⟨hx, h, id⟩

theorem close_closing {fd x : Fd} (hx : x ≠ fd) (h : x ∈ q.closing) :
    x ∈ (closeFd fd q).closing :=
  List.mem_filter.mpr ⟨h, by simpa using hx⟩

end Tracked

section Batch

variable {q q' : State} {p : Ptr} {src src' : Source}

/-- The program goes on with the same batch, or leaves it. -/
structure Ctl.Follows (c c' : Ctl) : Prop where
  upcoming : c'.upcoming = none ∨ c'.upcoming = c.upcoming
  current : c'.current = none ∨ c'.current = c.current
  event : c'.event = none ∨ c'.event = c.event

theorem Ctl.Follows.refl (c : Ctl) : c.Follows c := ⟨.inr rfl, .inr rfl, .inr rfl⟩

theorem Batch.follow (batch : Batch q) (follows : q.ctl.Follows q'.ctl)
    (ee : q'.ctl.upcoming = none ∨ q'.ee = q.ee)
    (currentEvent : q'.ctl.current = none ∨ q'.currentEvent = q.currentEvent)
    (lives : ∀ d, q.Lives d → q'.Lives d) (quiet : q'.ctl.waiting = true → q'.closing = []) :
    Batch q' where
  entries := by
    intro i hi j hj e d he hd
    rcases follows.upcoming with hnone | hsame
    · rw [hnone] at hi
      cases hi
    · rcases ee with hnone | hee
      · rw [hnone] at hi
        cases hi
      · rw [hee] at he
        exact lives d (batch.entries i (hsame ▸ hi) j hj e d he hd)
  position := by
    intro i hi
    rcases follows.current with hnone | hsame
    · rw [hnone] at hi
      cases hi
    · rcases currentEvent with hnone | hcur
      · rw [hnone] at hi
        cases hi
      · rw [hcur]
        exact batch.position i (hsame ▸ hi)
  handling := by
    intro ne hne
    rcases follows.event with hnone | hsame
    · rw [hnone] at hne
      cases hne
    · obtain ⟨d, hd, hptr, hlives⟩ := batch.handling ne (hsame ▸ hne)
      exact ⟨d, hd, hptr, lives d hlives⟩
  quiet := quiet

theorem lives_stays (hsrc : q.sources p = some src)
    (sources : q'.sources = Function.update q.sources p (some src')) (stays : Stays src src')
    (d : Data) (hd : q.Lives d) : q'.Lives d := by
  obtain ⟨s, hs, huse, hdata⟩ := hd
  unfold State.Lives
  rw [sources]
  by_cases hp : d.ptr = p
  · rw [hp] at hs ⊢
    obtain rfl := Option.some.inj (hsrc.symm.trans hs)
    exact ⟨src', Function.update_self .., stays.qInUse.trans huse, stays.data.trans hdata⟩
  · exact ⟨s, (Function.update_of_ne hp _ _).trans hs, huse, hdata⟩

theorem lives_other {o : Option Source} (sources : q'.sources = Function.update q.sources p o)
    {d : Data} (hp : d.ptr ≠ p) (hd : q.Lives d) : q'.Lives d := by
  obtain ⟨s, hs, hrest⟩ := hd
  exact ⟨s, by rw [sources, Function.update_of_ne hp, hs], hrest⟩

theorem lives_unattached {o : Option Source} (before : ¬ q.Attached p)
    (sources : q'.sources = Function.update q.sources p o) (d : Data) (hd : q.Lives d) :
    q'.Lives d := by
  refine lives_other sources ?_ hd
  rintro rfl
  obtain ⟨s, hs, huse, -⟩ := hd
  exact before ⟨s, hs, huse⟩

theorem not_waiting_of_turn (turn : q.ctl.userTurn = true) : q.ctl.waiting = false := by
  cases hq : q.ctl <;> simp_all [Ctl.userTurn, Ctl.waiting]

/-- When the user's code runs inside a batch, the entry being looked at is behind the others. -/
theorem turn_place {c : Ctl} {i : Nat} (turn : c.userTurn = true) (h : c.upcoming = some i) :
    ∃ j < i, c.current = some j := by
  cases c with
  | callback ne stage =>
    obtain rfl := Option.some.inj h
    exact ⟨ne.index, Nat.lt_succ_self _, rfl⟩
  | removed j =>
    obtain rfl := Option.some.inj h
    exact ⟨j, Nat.lt_succ_self _, rfl⟩
  | user => cases h
  | _ => cases turn

/-- A call of the user that leaves the batch alone. -/
theorem Batch.turn (batch : Batch q) (turn : q.ctl.userTurn = true) (ctl : q'.ctl = q.ctl)
    (ee : q'.ee = q.ee) (currentEvent : q'.currentEvent = q.currentEvent)
    (lives : ∀ d, q.Lives d → q'.Lives d) : Batch q' := by
  refine batch.follow (ctl ▸ .refl q.ctl) (.inr ee) (.inr currentEvent) lives ?_
  rw [ctl, not_waiting_of_turn turn]
  simp

private theorem cleared_entry {l : List EpollEvent} {c j : Nat} {e : EpollEvent}
    (hj : c ≤ j) (h : (l.take c ++ (l.drop c).map (·.clear p))[j]? = some e) :
    ∃ e0, l[j]? = some e0 ∧ e = e0.clear p := by
  by_cases hc : c ≤ l.length
  · rw [List.getElem?_append_right (by simp [hj]), List.getElem?_map, List.getElem?_drop,
      List.length_take, Nat.min_eq_left hc, Option.map_eq_some_iff] at h
    obtain ⟨e0, he0, rfl⟩ := h
    rw [Nat.add_sub_cancel' hj] at he0
    exact ⟨e0, he0, rfl⟩
  · have hlen : l.length ≤ c := by omega
    rw [List.take_of_length_le hlen, List.drop_eq_nil_of_le hlen, List.map_nil, List.append_nil,
      List.getElem?_eq_none (by omega)] at h
    cases h

theorem clear_data {e : EpollEvent} {d : Data} (h : (e.clear p).data = some d) :
    e.data = some d ∧ d.ptr ≠ p := by
  unfold EpollEvent.clear at h
  split_ifs at h with hp
  refine ⟨h, ?_⟩
  rintro rfl
  exact hp (by rw [h]; rfl)

/-- A source that is not being handled is detached: its entries to come are cleared. -/
theorem Batch.detach (batch : Batch q) {src0 : Source} {toClose : Bool}
    (det : Detached p src0 toClose q q') {c : Ctl} (follows : q.ctl.Follows c)
    (waiting : c.waiting = false)
    (started : ∀ i, c.upcoming = some i → ∃ j < i, q.ctl.current = some j)
    (handling : ∀ ne, c.event = some ne → ne.source ≠ p) : Batch (q'.goto c) := by
  obtain ⟨src', hsources, -⟩ := det.sources
  have hgoto : (q'.goto c).sources = Function.update q.sources p (some src') := hsources
  refine ⟨?_, ?_, ?_, ?_⟩
  · intro i hi j hj e d he hd
    obtain ⟨k, hk, hcur⟩ := started i hi
    have hpos := batch.position k hcur
    have hee : (q'.goto c).ee = q'.ee := rfl
    rw [hee, det.ee, hpos] at he
    obtain ⟨e0, he0, rfl⟩ := cleared_entry (by omega) he
    obtain ⟨hd0, hne⟩ := clear_data hd
    rcases follows.upcoming with hnone | hsame
    · exact absurd (hnone.symm.trans hi) (by simp)
    · exact lives_other hgoto hne
        (batch.entries i (hsame ▸ hi) j hj e0 d he0 hd0)
  · intro i hi
    have hcur : (q'.goto c).currentEvent = q.currentEvent := det.currentEvent
    rw [hcur]
    rcases follows.current with hnone | hsame
    · exact absurd (hnone.symm.trans hi) (by simp)
    · exact batch.position i (hsame ▸ hi)
  · intro ne hne
    rcases follows.event with hnone | hsame
    · exact absurd (hnone.symm.trans hne) (by simp)
    · obtain ⟨d, hd, hptr, hlives⟩ := batch.handling ne (hsame ▸ hne)
      refine ⟨d, hd, hptr, lives_other hgoto ?_ hlives⟩
      rw [hptr]
      exact handling ne hne
  · intro hwait
    exact absurd (hwait.symm.trans waiting) (by simp)

end Batch

/-- No event can reach a source that is not attached, or a later attachment. -/
structure Safe (q : State) : Prop where
  base : ∃ P R, Base q P R
  tracked : Tracked q
  batch : Batch q

/-- The user has closed the descriptors of the sources it detached with `to_close`. -/
def ClosesBeforeWait (q : State) (a : Action) : Prop :=
  a = .run → q.closing = []

/-- An os_fd source that is detached and believed to be un-registered is not armed in the kernel. -/
def LeavesNothingArmed (q : State) (a : Action) : Prop :=
  ∀ f ∈ q.detaching a, f.2.1.type = .osFd → f.2.2 = false → f.2.1.added = false →
    q.kernel.armedFor f.2.1.fd f.1 = false

section Step

variable {q q' : State} {a : Action} {p : Ptr} {src src' : Source}

theorem Safe.fetches (safe : Safe q) (a : Action) : FetchesAttached q a := by
  intro d hd
  cases a with
  | proceed ok =>
    cases hctl : q.ctl with
    | events i =>
      simp only [State.fetching, hctl, Option.mem_def, Option.bind_eq_some_iff] at hd
      obtain ⟨e, he, hdata⟩ := hd
      obtain ⟨s, hs, huse, -⟩ := safe.batch.entries i (by rw [hctl]; rfl) i le_rfl e d he hdata
      exact ⟨s, hs, huse⟩
    | _ => simp [State.fetching, hctl] at hd
  | _ => simp [State.fetching] at hd

/-- The source being handled. -/
theorem Base.source {P R : List Ptr} (base : Base q P R) {ne : NebEvdpEvent}
    (event : q.ctl.event = some ne) (hsrc : q.sources ne.source = some src) :
    src.qInUse = true ∧ src.noDetach = true := by
  obtain ⟨s, hs, huse, hno⟩ := base.handled ne event
  obtain rfl := Option.some.inj (hsrc.symm.trans hs)
  exact ⟨huse, hno⟩

theorem follows_idle {c c' : Ctl} (upcoming : c'.upcoming = none) (current : c'.current = none)
    (event : c'.event = none) : c.Follows c' :=
  ⟨.inl upcoming, .inl current, .inl event⟩

/-- A step that leaves the batch, or is outside any. -/
private theorem Batch.idle (batch : Batch q) (upcoming : q'.ctl.upcoming = none)
    (current : q'.ctl.current = none) (event : q'.ctl.event = none)
    (lives : ∀ d, q.Lives d → q'.Lives d) (quiet : q'.ctl.waiting = true → q'.closing = []) :
    Batch q' :=
  batch.follow (follows_idle upcoming current event) (.inl upcoming) (.inl current) lives quiet

/-- An event keeps the place in the batch. -/
theorem follows_event {c c' : Ctl} {ne : NebEvdpEvent} (h : c.event = some ne)
    (h' : c'.event = some ne) : c.Follows c' := by
  have place : ∀ {c : Ctl}, c.event = some ne →
      c.upcoming = some (ne.index + 1) ∧ c.current = some ne.index := by
    intro c hc
    cases c <;> simp_all [Ctl.event, Ctl.upcoming, Ctl.current]
  exact ⟨.inr ((place h').1.trans (place h).1.symm), .inr ((place h').2.trans (place h).2.symm),
    .inr (h'.trans h.symm)⟩

theorem waiting_of_event {c : Ctl} {ne : NebEvdpEvent} (h : c.event = some ne) :
    c.waiting = false := by
  cases c <;> simp_all [Ctl.event, Ctl.waiting]

/-- A step that handles the present event. -/
theorem Batch.handle (batch : Batch q) {ne : NebEvdpEvent} (event : q.ctl.event = some ne)
    (event' : q'.ctl.event = some ne) (ee : q'.ee = q.ee)
    (currentEvent : q'.currentEvent = q.currentEvent) (lives : ∀ d, q.Lives d → q'.Lives d) :
    Batch q' := by
  refine batch.follow (follows_event event event') (.inr ee) (.inr currentEvent) lives ?_
  rw [waiting_of_event event']
  simp

theorem Tracked.next (tracked : Tracked q) {d : Dir} {h : Option Handler} {room : Bool}
    (hsrc : q.sources p = some src) (osFd : src.type = .osFd)
    (cases : NextCases d p src h room q q') : Tracked q' := by
  cases cases with
  | quiet src' kept pending added ctlOp interest =>
    by_cases huse : src.qInUse = true
    · exact tracked.update hsrc huse rfl kept.stays rfl rfl (fun _ _ => .inl)
        (fun hne => absurd osFd hne)
    · have huse' : src.qInUse = false := by simpa using huse
      refine tracked.unattached (not_attached hsrc huse') ?_ rfl (fun _ _ hr => ⟨hr, id⟩)
        (fun _ _ _ => id)
      rintro _ ⟨⟩
      exact kept.qInUse.trans huse'
  | toPending src' kept added ctlOp attached idle outside running set =>
    exact tracked.update hsrc attached rfl (kept.setPending _).stays rfl rfl
      (fun _ _ => .inl) (fun hne => absurd osFd hne)
  | toRunning src' kept added ctlOp attached idle pending bare =>
    exact tracked.update hsrc attached rfl (kept.setPending _).stays rfl rfl
      (fun _ _ => .inl) (fun hne => absurd osFd hne)
  | ctl attached added set new =>
    have kept := (Kept.setHandler src d h).trans (.setInterest _ d true)
    refine tracked.update hsrc attached rfl (kept.trans (.doCtl p _ room q.kernel)).stays ?_
      rfl ?_
      (fun hne => absurd osFd hne)
    · change (doCtlOsFd p _ room q.kernel).2.2.isOpen = _
      rw [doCtlOsFd_kernel, epollCtl_isOpen]
    · intro fd r hr
      change (doCtlOsFd p _ room q.kernel).2.2.reg fd = some r at hr
      rw [doCtlOsFd_kernel] at hr
      rcases request_reg hr kept.fd kept.data with hold | ⟨hfd, hopen, hdata, -⟩
      · exact .inl hold
      · exact .inr ⟨hfd, hopen, hdata, .inl osFd⟩
  | del attached added unset last bare =>
    have kept := (Kept.setHandler src d h).trans (.setInterest _ d false)
    refine tracked.update hsrc attached rfl (kept.trans (.doDel p _ q.kernel)).stays ?_ rfl
      ?_
      (fun hne => absurd osFd hne)
    · change (doDelOsFd p _ q.kernel).2.2.isOpen = _
      rw [doDelOsFd_kernel, epollCtl_isOpen]
    · intro fd r hr
      change (doDelOsFd p _ q.kernel).2.2.reg fd = some r at hr
      rw [doDelOsFd_kernel] at hr
      rcases request_reg hr kept.fd kept.data with hold | ⟨hfd, hopen, hdata, -⟩
      · exact .inl hold
      · exact .inr ⟨hfd, hopen, hdata, .inl osFd⟩

theorem lives_next {d : Dir} {h : Option Handler} {room : Bool} (hsrc : q.sources p = some src)
    (cases : NextCases d p src h room q q') (x : Data) (hx : q.Lives x) : q'.Lives x := by
  cases cases with
  | quiet src' kept => exact lives_stays hsrc rfl kept.stays x hx
  | toPending src' kept => exact lives_stays hsrc rfl (kept.setPending true).stays x hx
  | toRunning src' kept => exact lives_stays hsrc rfl (kept.setPending false).stays x hx
  | ctl =>
    have kept := ((Kept.setHandler src d h).trans (.setInterest _ d true)).trans
      (.doCtl p _ room q.kernel)
    exact lives_stays hsrc rfl kept.stays x hx
  | del =>
    have kept := ((Kept.setHandler src d h).trans (.setInterest _ d false)).trans
      (.doDel p _ q.kernel)
    exact lives_stays hsrc rfl kept.stays x hx

/-- A call on an os_fd source changes nothing but sources, lists, counters and the kernel. -/
theorem next_rest {d : Dir} {h : Option Handler} {room : Bool}
    (cases : NextCases d p src h room q q') :
    q'.ctl = q.ctl ∧ q'.ee = q.ee ∧ q'.currentEvent = q.currentEvent ∧ q'.closing = q.closing ∧
      q'.stale = q.stale ∧ q'.attachments = q.attachments := by
  cases cases <;> exact ⟨rfl, rfl, rfl, rfl, rfl, rfl⟩

private theorem Tracked.ofStep (tracked : Tracked q) {P R : List Ptr} (base : Base q P R)
    (fetches : FetchesAttached q a) (leaves : LeavesNothingArmed q a)
    (h : step q a = some q') : Tracked q' := by
  cases step_cases h with
  | @opened fd turn =>
    refine tracked.mono (fun _ _ _ => .rfl) ?_ (fun _ _ _ => id)
    intro x r hr
    refine ⟨?_, fun _ => hr⟩
    by_cases hx : x = fd
    · simp [hx]
    · simpa [Function.update_of_ne hx] using tracked.opened x r hr
  | closed turn =>
    refine tracked.mono (fun _ _ _ => .rfl) ?_ ?_
    · intro x r hr
      obtain ⟨-, hold, hopen⟩ := close_reg hr
      exact ⟨hopen (tracked.opened x r hold), fun _ => hold⟩
    · intro x r hr
      exact close_closing (close_reg hr).1
  | @created p type fd turn free k reg requests isOpen =>
    refine tracked.unattached (p := p) ?_ ?_ rfl ?_ (fun _ _ _ => id)
    · rintro ⟨s, hs, -⟩
      rw [free] at hs
      cases hs
    · rintro _ ⟨⟩
      rfl
    · intro x r hr
      refine ⟨?_, isOpen x⟩
      rw [← reg]
      exact hr
  | refused turn => exact tracked
  | @freed p src turn hsrc unattached =>
    have hnot := not_attached hsrc unattached
    by_cases htimer : src.type.isTimer = true
    · simp only [if_pos htimer]
      refine tracked.unattached (o := none) hnot (by simp) rfl ?_ ?_
      · intro x r hr
        exact (close_reg hr).2
      · intro x r hr
        exact close_closing (close_reg hr).1
    · simp only [if_neg htimer]
      exact tracked.unattached (o := none) hnot (by simp) rfl (fun _ _ hr => ⟨hr, id⟩)
        (fun _ _ _ => id)
  | refitted turn hsrc unattached =>
    refine tracked.unattached (not_attached hsrc unattached) ?_ rfl (fun _ _ hr => ⟨hr, id⟩)
      (fun _ _ _ => id)
    rintro _ ⟨⟩
    exact unattached
  | next turn hsrc osFd cases => exact tracked.next hsrc osFd cases
  | joinedPending turn hsrc unattached src' joined osFd =>
    exact tracked.join hsrc unattached joined rfl rfl rfl
  | joinedRunning turn hsrc unattached src' joined osFd bare =>
    exact tracked.join hsrc unattached joined rfl rfl rfl
  | @detached p src toClose turn hsrc attached free =>
    exact tracked.detach hsrc attached (Epoll.detached p src toClose q) rfl rfl
      (leaves _ (detaching_eq toClose hsrc attached free))
  | started ctl => exact tracked.still rfl rfl rfl
  | flushEnd ctl empty => exact tracked.still rfl rfl rfl
  | @flushed count room p src ctl head hsrc ok =>
    obtain ⟨p', src0, heq, hsrc', huse, -⟩ := base.head head
    obtain rfl := Node.source.inj heq
    obtain rfl := Option.some.inj (hsrc.symm.trans hsrc')
    refine tracked.update hsrc huse rfl ⟨rfl, rfl, rfl, rfl⟩ rfl rfl ?_ (by simp)
    intro fd r hr
    rcases request_reg hr rfl rfl with hold | ⟨hfd, hopen, hdata, -⟩
    · exact .inl hold
    · exact .inr ⟨hfd, hopen, hdata, .inr rfl⟩
  | flushFailed ctl head hsrc failed =>
    refine tracked.mono (fun _ _ _ => .rfl) ?_ (fun _ _ _ => id)
    intro fd r hr
    simp only [epollCtl_failed failed] at hr
    exact ⟨tracked.opened fd r hr, fun _ => hr⟩
  | flushLost ctl head lost => exact tracked.still rfl rfl rfl
  | waited ctl nodup events =>
    obtain ⟨hopen, -, hreg, -⟩ := epollWait_spec events
    refine tracked.mono (fun _ _ _ => .rfl) ?_ (fun _ _ _ => id)
    intro fd r hr
    change _ = some r at hr
    rw [show _ = _ from hopen]
    rcases hreg fd with hsame | ⟨r0, hr0, harmed0, hnew, -⟩
    · rw [hsame] at hr
      exact ⟨tracked.opened fd r hr, fun _ => hr⟩
    · rw [hnew] at hr
      obtain rfl := Option.some.inj hr
      refine ⟨tracked.opened fd r0 hr0, ?_⟩
      intro (harmed : (!r0.event.events.epolloneshot) = true)
      rw [hr0, harmed, ← harmed0]
  | waitFailed ctl => exact tracked.still rfl rfl rfl
  | batchEnd ctl beyond currentEvent => exact tracked.still rfl rfl rfl
  | skipped ctl entry cleared => exact tracked.still rfl rfl rfl
  | lost ctl entry data free => exact tracked.still rfl rfl rfl
  | @fetched i ok e d src ctl entry data hsrc =>
    obtain ⟨s, hs, huse⟩ := fetches _ (fetching_eq ctl entry data)
    obtain rfl := Option.some.inj (hsrc.symm.trans hs)
    refine tracked.update hsrc huse rfl ?_ rfl rfl (fun _ _ => .inl) ?_
    · split_ifs <;> exact ⟨rfl, rfl, rfl, rfl⟩
    · intro hne
      rw [if_neg hne]
      exact id
  | vanished event free => exact tracked.still rfl rfl rfl
  | otherHandled ctl hsrc other event => exact tracked.still rfl rfl rfl
  | osFdSkipped ctl hsrc osFd => exact tracked.still rfl rfl rfl
  | osFdCalled ctl hsrc osFd src' entered notLast =>
    obtain ⟨huse, -⟩ := base.source (by rw [ctl]; rfl) hsrc
    exact tracked.update hsrc huse rfl entered.toKept.stays rfl rfl (fun _ _ => .inl)
      (fun hne => absurd osFd hne)
  | osFdRequeued ctl hsrc osFd rest attached =>
    exact tracked.update hsrc attached rfl ⟨rfl, rfl, rfl, rfl⟩ rfl rfl (fun _ _ => .inl)
      (fun hne => absurd osFd hne)
  | osFdLost ctl hsrc unattached => exact tracked.still rfl rfl rfl
  | osFdDone ctl hsrc osFd bare => exact tracked.still rfl rfl rfl
  | returned ctl hsrc src' entered =>
    obtain ⟨huse, -⟩ := base.source (by rw [ctl]; rfl) hsrc
    refine tracked.update hsrc huse rfl entered.toKept.stays rfl rfl (fun _ _ => .inl) ?_
    intro _ hadded
    exact entered.added.symm.trans hadded
  | @finishedDetach ok ne ret src ctl hsrc toClose hret =>
    obtain ⟨huse, -⟩ := base.source (by rw [ctl]; rfl) hsrc
    have det := Epoll.detached ne.source { src with noDetach := false } toClose q
    refine (tracked.detach hsrc huse det rfl rfl ?_).still rfl rfl rfl
    exact leaves _ (detaching_finish toClose (hret ▸ ctl) hsrc)
  | finished ctl hsrc hctl' =>
    obtain ⟨huse, -⟩ := base.source (by rw [ctl]; rfl) hsrc
    exact tracked.update hsrc huse rfl ⟨rfl, rfl, rfl, rfl⟩ rfl rfl (fun _ _ => .inl) (fun _ => id)
  | resumed ctl => exact tracked.still rfl rfl rfl

/-- A wait fetches events of the present attachments only. -/
private theorem Batch.wait (batch : Batch q) (tracked : Tracked q)
    {evs : List (Fd × Reported)} {k : Kernel} {ee : List EpollEvent} (ctl : q.ctl = .ready)
    (events : q.kernel.epollWait evs = some (k, ee)) :
    Batch { q with kernel := k, ee := ee, ctl := .events 0 } := by
  obtain ⟨-, -, -, hee⟩ := epollWait_spec events
  refine ⟨?_, by simp [Ctl.current], by simp [Ctl.event], by simp [Ctl.waiting]⟩
  intro i _ j _ e d he hd
  obtain ⟨fd, r, hr, harmed, hdata⟩ := hee e (List.mem_of_getElem? he)
  rcases tracked.armed fd r hr harmed with hclosing | ⟨d', hd', s, hs, huse, hsdata, -⟩
  · rw [batch.quiet (by rw [ctl]; rfl)] at hclosing
    cases hclosing
  · obtain rfl := Option.some.inj (hd.symm.trans (hdata.trans hd'))
    exact ⟨s, hs, huse, hsdata⟩

private theorem Batch.ofStep (batch : Batch q) (tracked : Tracked q) {P R : List Ptr}
    (base : Base q P R) (closes : ClosesBeforeWait q a) (h : step q a = some q') : Batch q' := by
  cases step_cases h with
  | opened turn => exact batch.turn turn rfl rfl rfl (fun _ => id)
  | closed turn => exact batch.turn turn rfl rfl rfl (fun _ => id)
  | @created p type fd turn free k reg requests isOpen =>
    refine batch.turn turn rfl rfl rfl (lives_unattached (p := p) ?_ rfl)
    rintro ⟨s, hs, -⟩
    rw [free] at hs
    cases hs
  | refused turn => exact batch
  | @freed p src turn hsrc unattached =>
    have hnot := not_attached hsrc unattached
    by_cases htimer : src.type.isTimer = true
    · simp only [if_pos htimer]
      exact batch.turn turn rfl rfl rfl (lives_unattached hnot rfl)
    · simp only [if_neg htimer]
      exact batch.turn turn rfl rfl rfl (lives_unattached hnot rfl)
  | refitted turn hsrc unattached =>
    exact batch.turn turn rfl rfl rfl (lives_unattached (not_attached hsrc unattached) rfl)
  | next turn hsrc osFd cases =>
    obtain ⟨hctl, hee, hcur, -⟩ := next_rest cases
    exact batch.turn turn hctl hee hcur (lives_next hsrc cases)
  | joinedPending turn hsrc unattached src' joined osFd =>
    exact batch.turn turn rfl rfl rfl (lives_unattached (not_attached hsrc unattached) rfl)
  | joinedRunning turn hsrc unattached src' joined osFd bare =>
    exact batch.turn turn rfl rfl rfl (lives_unattached (not_attached hsrc unattached) rfl)
  | @detached p src toClose turn hsrc attached free =>
    have det := Epoll.detached p src toClose q
    have hctl : doDetachFromQueue p src toClose q =
        (doDetachFromQueue p src toClose q).goto q.ctl := by
      rw [← det.ctl]
      rfl
    rw [hctl]
    refine batch.detach det (.refl _) (not_waiting_of_turn turn) ?_ ?_
    · exact fun i => turn_place turn
    · rintro ne hne rfl
      obtain ⟨-, hno⟩ := base.source hne hsrc
      rw [free] at hno
      cases hno
  | started ctl =>
    exact batch.idle rfl rfl rfl (fun _ => id) (fun _ => closes rfl)
  | flushEnd ctl empty =>
    exact batch.idle rfl rfl rfl (fun _ => id) (fun _ => batch.quiet (by rw [ctl]; rfl))
  | flushed ctl head hsrc ok =>
    exact batch.idle rfl rfl rfl
      (lives_stays hsrc rfl ⟨rfl, rfl, rfl, rfl⟩) (fun _ => batch.quiet (by rw [ctl]; rfl))
  | flushFailed ctl head hsrc failed =>
    exact batch.idle rfl rfl rfl (fun _ => id) (by simp [Ctl.waiting])
  | flushLost ctl head lost =>
    exact batch.idle rfl rfl rfl (fun _ => id) (by simp [State.goto, Ctl.waiting])
  | waited ctl nodup events => exact batch.wait tracked ctl events
  | waitFailed ctl =>
    exact batch.idle rfl rfl rfl (fun _ => id) (by simp [Ctl.waiting])
  | batchEnd ctl beyond currentEvent =>
    exact batch.idle rfl rfl rfl (fun _ => id) (by simp [Ctl.waiting])
  | @skipped i ok e ctl entry cleared =>
    refine ⟨?_, by simp [Ctl.current], by simp [Ctl.event], by simp [Ctl.waiting]⟩
    rintro _ ⟨⟩ j hj
    exact batch.entries i (by rw [ctl]; rfl) j (by omega)
  | lost ctl entry data free =>
    exact batch.idle rfl rfl rfl (fun _ => id) (by simp [Ctl.waiting])
  | @fetched i ok e d src ctl entry data hsrc =>
    have entries := batch.entries i (by rw [ctl]; rfl)
    refine ⟨?_, ?_, ?_, by simp [State.goto, Ctl.waiting]⟩
    · rintro _ ⟨⟩ j hj e' d' he' hd'
      refine lives_stays hsrc rfl ?_ d' (entries j (by simp only at hj; omega) e' d' he' hd')
      split_ifs <;> exact ⟨rfl, rfl, rfl, rfl⟩
    · rintro _ ⟨⟩
      rfl
    · rintro _ ⟨⟩
      refine ⟨d, data, rfl, lives_stays hsrc rfl ?_ d (entries i le_rfl e d entry data)⟩
      split_ifs <;> exact ⟨rfl, rfl, rfl, rfl⟩
  | vanished event free =>
    exact batch.idle rfl rfl rfl (fun _ => id) (by simp [State.goto, Ctl.waiting])
  | otherHandled ctl hsrc other event =>
    exact batch.handle (by rw [ctl]; rfl) event rfl rfl (fun _ => id)
  | osFdSkipped ctl hsrc osFd =>
    exact batch.handle (by rw [ctl]; rfl) rfl rfl rfl (fun _ => id)
  | osFdCalled ctl hsrc osFd src' entered notLast =>
    exact batch.handle (by rw [ctl]; rfl) rfl rfl rfl (lives_stays hsrc rfl entered.toKept.stays)
  | osFdRequeued ctl hsrc osFd rest attached =>
    exact batch.handle (by rw [ctl]; rfl) rfl rfl rfl
      (lives_stays hsrc rfl ⟨rfl, rfl, rfl, rfl⟩)
  | osFdLost ctl hsrc unattached =>
    exact batch.idle rfl rfl rfl (fun _ => id) (by simp [State.goto, Ctl.waiting])
  | osFdDone ctl hsrc osFd bare =>
    exact batch.handle (by rw [ctl]; rfl) rfl rfl rfl (fun _ => id)
  | returned ctl hsrc src' entered =>
    exact batch.handle (by rw [ctl]; rfl) (after_callback_event _ _ _) rfl rfl
      (lives_stays hsrc rfl entered.toKept.stays)
  | @finishedDetach ok ne ret src ctl hsrc toClose hret =>
    have det := Epoll.detached ne.source { src with noDetach := false } toClose q
    refine batch.detach det (c := .removed ne.index) ?_ rfl ?_ (by simp [Ctl.event])
    · rw [ctl]
      exact ⟨.inr rfl, .inr rfl, .inl rfl⟩
    · rintro _ ⟨⟩
      exact ⟨ne.index, Nat.lt_succ_self _, by rw [ctl]; rfl⟩
  | @finished ok ne ret src ctl' ctl hsrc hctl' =>
    have follows : q.ctl.Follows ctl' ∧ ctl'.waiting = false := by
      rw [ctl]
      rcases hctl' with ⟨rfl, -⟩ | ⟨rfl, -⟩
      · exact ⟨follows_idle rfl rfl rfl, rfl⟩
      · exact ⟨⟨.inr rfl, .inl rfl, .inl rfl⟩, rfl⟩
    refine batch.follow follows.1 (.inr rfl) (.inr rfl)
      (lives_stays hsrc rfl ⟨rfl, rfl, rfl, rfl⟩) ?_
    intro hwait
    exact absurd (hwait.symm.trans follows.2) (by simp)
  | resumed ctl =>
    refine batch.follow ?_ (.inr rfl) (.inr rfl) (fun _ => id) (by simp [State.goto, Ctl.waiting])
    rw [ctl]
    exact ⟨.inr rfl, .inl rfl, .inl rfl⟩

/-- Every step keeps the queue safe, as long as no detach leaves an armed registration behind. -/
theorem Safe.ofStep (safe : Safe q) (closes : ClosesBeforeWait q a)
    (leaves : LeavesNothingArmed q a) (h : step q a = some q') : Safe q' := by
  obtain ⟨P, R, base⟩ := safe.base
  obtain ⟨P', R', base', -⟩ := base.ofStep (safe.fetches a) h
  exact ⟨⟨P', R', base'⟩, safe.tracked.ofStep base (safe.fetches a) leaves h,
    safe.batch.ofStep safe.tracked base closes h⟩

end Step

theorem Safe.create (batchSize : Nat) : Safe (nebEvdpQueueCreate batchSize) where
  base := ⟨[], [], (Base.create batchSize).1⟩
  tracked := by
    refine ⟨?_, ?_, ?_, ?_⟩ <;> simp [nebEvdpQueueCreate]
  batch := by
    refine ⟨?_, ?_, ?_, ?_⟩ <;>
      simp [nebEvdpQueueCreate, Ctl.upcoming, Ctl.current, Ctl.event, Ctl.waiting]

/-- No source is used that is not there, and a callback that runs is one of an attached source, for
an event that the kernel reported for this very attachment. -/
def Delivers (q : State) : Prop :=
  q.ctl ≠ .undefined ∧
    ∀ ne stage, q.ctl = .callback ne stage →
      ∃ src d, q.sources ne.source = some src ∧ src.qInUse = true ∧
        ne.event.data = some d ∧ d.ptr = ne.source ∧ src.ctlEvent.data = some d

theorem Safe.delivers {q : State} (safe : Safe q) : Delivers q := by
  obtain ⟨P, R, base⟩ := safe.base
  refine ⟨base.defined, ?_⟩
  intro ne stage hctl
  obtain ⟨d, hd, hptr, src, hsrc, huse, hdata⟩ := safe.batch.handling ne (by rw [hctl]; rfl)
  exact ⟨src, d, hptr ▸ hsrc, huse, hd, hptr, hdata⟩

/-- In every run in which no os_fd source is detached while it is believed to be un-registered and
is armed in the kernel, every callback is one of an attached source and of its present
attachment. -/
theorem nebEvdpQueue_delivers (batchSize : Nat) (as : List Action) (q : State)
    (closes : Machine.StepsMeet step ClosesBeforeWait (nebEvdpQueueCreate batchSize) as)
    (leaves : Machine.StepsMeet step LeavesNothingArmed (nebEvdpQueueCreate batchSize) as)
    (reached : Machine.run step (nebEvdpQueueCreate batchSize) as = some q) : Delivers q :=
  (Machine.invariant_run (fun _ _ _ safe ok h => Safe.ofStep safe ok.1 ok.2 h)
    (Safe.create batchSize) (closes.and leaves) reached).delivers

instance (q : State) (a : Action) : Decidable (ClosesBeforeWait q a) :=
  inferInstanceAs (Decidable (a = .run → q.closing = []))

instance (q : State) (a : Action) : Decidable (LeavesNothingArmed q a) :=
  inferInstanceAs (Decidable (∀ f ∈ q.detaching a, f.2.1.type = .osFd → f.2.2 = false →
    f.2.1.added = false → q.kernel.armedFor f.2.1.fd f.1 = false))

/-- The first callback detaches and deletes the second source, whose event is still to come, and
attaches a new one at the same address; then the new source has an event. -/
theorem nebEvdpQueue_delivers_recycled :
    ∃ q, Machine.run step (nebEvdpQueueCreate 10)
      (twoReaders ++ firstCallback [.detach 2 false, .delSource 2, .openFd 7,
          .newSource 2 .osFd 7, .nextRead 2 (some 0) true, .attach 2 true] ++
        [.proceed true, .proceed true, .run, .flush true, .flush true,
          .wait [(7, ⟨true, false, false⟩)], .proceed true, .proceed true]) = some q ∧
      Delivers q := by
  obtain ⟨q, hq, -⟩ : ∃ q, Machine.run step (nebEvdpQueueCreate 10)
      (twoReaders ++ firstCallback [.detach 2 false, .delSource 2, .openFd 7,
          .newSource 2 .osFd 7, .nextRead 2 (some 0) true, .attach 2 true] ++
        [.proceed true, .proceed true, .run, .flush true, .flush true,
          .wait [(7, ⟨true, false, false⟩)], .proceed true, .proceed true]) = some q ∧
      q.attachments = 3 :=
    Machine.run_reaches (by decide)
  exact ⟨q, hq, nebEvdpQueue_delivers 10 _ q (by decide) (by decide) hq⟩

/-- Both sources of `twoReaders` read again, and have their events again. -/
def secondRound : List Action :=
  firstCallback [.nextRead 1 (some 0) true] ++ secondCallback ++
    [.proceed true, .run, .flush true, .flush true, .flush true,
      .wait [(5, ⟨true, false, false⟩), (6, ⟨true, false, false⟩)]]

/-- The first callback sets the write handler of the second source, which arms it anew; the callback
of the second source has it removed, and it is deleted. -/
theorem nebEvdpQueue_delivers_fail :
    ¬ ∀ (batchSize : Nat) (as : List Action) (q : State),
      Machine.StepsMeet step ClosesBeforeWait (nebEvdpQueueCreate batchSize) as →
      Machine.run step (nebEvdpQueueCreate batchSize) as = some q → Delivers q := by
  intro claim
  obtain ⟨q, hq, hctl⟩ : ∃ q, Machine.run step (nebEvdpQueueCreate 10)
      (twoReaders ++ secondRound ++ firstCallback [.nextWrite 2 (some 0) true] ++
        [.proceed true, .proceed true, .cbReturn .remove, .proceed true, .delSource 2,
          .proceed true, .proceed true, .run, .flush true,
          .wait [(6, ⟨false, true, false⟩)], .proceed true]) = some q ∧
      decide (q.ctl = .undefined) = true :=
    Machine.run_reaches (by decide)
  exact (claim 10 _ q (by decide) hq).1 (of_decide_eq_true hctl)

end Nebase.Evdp.Epoll
