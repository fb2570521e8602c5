/- The requests that the queue makes: `EPOLL_CTL_ADD` for a descriptor that is not registered,
   `EPOLL_CTL_MOD` and `EPOLL_CTL_DEL` for one that is. -/

import Nebase.Evdp.Epoll.Accounting

set_option autoImplicit false
set_option relaxedAutoImplicit false

namespace Nebase.Evdp.Epoll

open Nebase.Foundation

/-- The request fits the registration of its descriptor. -/
def Request.valid (r : Request) : Bool :=
  match r.op with
  | .unset => false
  | .add => !r.registered
  | .mod => r.registered
  | .del => r.registered

/-- The driver takes the source for one whose descriptor is registered. -/
def Source.known (src : Source) : Bool := src.added || src.ctlOp = .mod

/-- A request for the source is to come, or the driver takes it for a registered one. -/
def Source.engaged (src : Source) : Bool := src.pending || src.known

/-- What an attached source and its registration have to do with each other. -/
structure Fits (k : Kernel) (src : Source) : Prop where
  op : src.ctlOp = .add ∨ src.ctlOp = .mod
  known : src.known = true → k.reg src.fd ≠ none
  waits : src.pending = true → src.known = false → k.reg src.fd = none
  once : src.pending = true → src.added = false

/-- An os_fd source whose event is being handled is taken for a registered one. -/
def Underway (q : State) : Prop :=
  ∀ ne, q.ctl.event = some ne → ∀ src, q.sources ne.source = some src → src.type = .osFd →
    src.added = false ∧ src.ctlOp = .mod

structure Registered (q : State) : Prop where
  valid : ∀ r ∈ q.kernel.requests, r.valid = true
  opened : ∀ fd, q.kernel.reg fd ≠ none → q.kernel.isOpen fd = true
  fits : ∀ p src, q.sources p = some src → src.qInUse = true → Fits q.kernel src
  apart : ∀ p src r s, q.sources p = some src → q.sources r = some s → src.qInUse = true →
    s.qInUse = true → src.engaged = true → s.engaged = true → r ≠ p → src.fd ≠ s.fd
  idle : ∀ p src, q.sources p = some src → src.qInUse = false → src.added = false
  underway : Underway q

/-! The conditions. -/

/-- The attached source that is given a handler. -/
def State.setting (q : State) : Action → Option (Dir × Ptr × Source)
  | .nextRead p h _ =>
    ((q.sources p).filter (fun src => src.qInUse && h.isSome)).map (fun src => (.read, p, src))
  | .nextWrite p h _ =>
    ((q.sources p).filter (fun src => src.qInUse && h.isSome)).map (fun src => (.write, p, src))
  | _ => none

/-- The source that goes into the pending list with `EPOLL_CTL_ADD`. -/
def State.joining (q : State) (a : Action) : Option (Ptr × Source) :=
  match a with
  | .attach p _ =>
    ((q.sources p).filter (fun src =>
      !src.qInUse && (src.type ≠ .osFd || src.ctlEvent.events.any))).map (fun src => (p, src))
  | a =>
    ((q.setting a).filter (fun x =>
      !x.2.2.added && !x.2.2.inCallback && !x.2.2.pending && x.2.2.ctlOp = .add)).map
        (fun x => x.2)

/-- The descriptor is not registered, and no other pending source has it. -/
def State.Unused (q : State) (p : Ptr) (fd : Fd) : Prop :=
  q.kernel.reg fd = none ∧
    ∀ r s, q.sources r = some s → r ≠ p → s.qInUse = true → s.pending = true → s.fd ≠ fd

/-- A registered source is not given a handler for a new direction before its first event; a source
that is to be registered has a descriptor that is not registered and that no other pending source
has; an event is handled for an attached source only, and not for an os_fd source that was
un-registered in the meantime. -/
def KeepsValid (q : State) (a : Action) : Prop :=
  (∀ x ∈ q.setting a, x.2.2.added = true → x.2.2.ctlEvent.events.has x.1 = false →
    x.2.2.ctlOp = .mod) ∧
  (∀ x ∈ q.joining a, q.Unused x.1 x.2.fd) ∧
  FetchesAttached q a ∧
  ∀ d ∈ q.fetching a, ∀ src ∈ q.sources d.ptr, src.type = .osFd → src.known = true

/-- The descriptor that the step closes. -/
def State.closes (q : State) : Action → Option Fd
  | .closeFd fd => some fd
  | .delSource p =>
    ((q.sources p).filter (fun src => !src.qInUse && src.type.isTimer)).map (·.fd)
  | _ => none

/-- No descriptor of an attached source is closed. -/
def KeepsOpen (q : State) (a : Action) : Prop :=
  ∀ fd ∈ q.closes a, ∀ p src, q.sources p = some src → src.qInUse = true → src.fd ≠ fd

section Step

variable {q q' : State} {a : Action} {p : Ptr} {src src' : Source}

/-! The kernel. -/

private theorem request_valid {k : Kernel} {op : CtlOp} (room : Bool)
    (valid : ∀ r ∈ k.requests, r.valid = true)
    (fits : op = .add ∧ k.reg src.fd = none ∨ (op = .mod ∨ op = .del) ∧ k.reg src.fd ≠ none) :
    ∀ r ∈ (k.epollCtl op p src room).2.requests, r.valid = true := by
  intro r hr
  rw [epollCtl_requests] at hr
  rcases List.mem_cons.1 hr with rfl | hr
  · rcases fits with ⟨rfl, hnone⟩ | ⟨rfl | rfl, hsome⟩
    · simp [Request.valid, hnone]
    · simpa [Request.valid, Option.isSome_iff_ne_none] using hsome
    · simpa [Request.valid, Option.isSome_iff_ne_none] using hsome
  · exact valid r hr

private theorem request_opened {k : Kernel} (op : CtlOp) (room : Bool)
    (opened : ∀ fd, k.reg fd ≠ none → k.isOpen fd = true) (fd : Fd)
    (hfd : (k.epollCtl op p src room).2.reg fd ≠ none) :
    (k.epollCtl op p src room).2.isOpen fd = true := by
  obtain ⟨r, hr⟩ := Option.ne_none_iff_exists'.1 hfd
  rw [epollCtl_isOpen]
  rcases epollCtl_reg hr with hold | ⟨rfl, -, -, hok⟩
  · exact opened fd (by rw [hold]; simp)
  · have hok' : k.answer op src.fd room = .ok := hok
    by_contra hopen
    simp [Kernel.answer, hopen] at hok'

/-- What the driver believes of the source fits another kernel too, if it concerns it. -/
private theorem Fits.congr {k k' : Kernel} (fits : Fits k src)
    (same : src.engaged = true → (k'.reg src.fd = none ↔ k.reg src.fd = none)) : Fits k' src where
  op := fits.op
  known := by
    intro h
    rw [ne_eq, same (by simp [Source.engaged, h])]
    exact fits.known h
  waits := by
    intro h h'
    rw [same (by simp [Source.engaged, h])]
    exact fits.waits h h'
  once := fits.once

/-! Writing one source. -/

private theorem Registered.put (reg : Registered q) {o : Option Source}
    (sources : q'.sources = Function.update q.sources p o)
    (valid : ∀ r ∈ q'.kernel.requests, r.valid = true)
    (opened : ∀ fd, q'.kernel.reg fd ≠ none → q'.kernel.isOpen fd = true)
    (fits : ∀ s, o = some s → s.qInUse = true → Fits q'.kernel s)
    (idle : ∀ s, o = some s → s.qInUse = false → s.added = false)
    (others : ∀ r s, r ≠ p → q.sources r = some s → s.qInUse = true → s.engaged = true →
      (q'.kernel.reg s.fd = none ↔ q.kernel.reg s.fd = none))
    (apart : ∀ s, o = some s → s.qInUse = true → s.engaged = true → ∀ r t, r ≠ p →
      q.sources r = some t → t.qInUse = true → t.engaged = true → s.fd ≠ t.fd)
    (underway : Underway q') : Registered q' := by
  -- a source of the new state is the one that was written, or one of the old state
  have hcases : ∀ r s, q'.sources r = some s →
      r = p ∧ o = some s ∨ r ≠ p ∧ q.sources r = some s := by
    intro r s hs
    rw [sources] at hs
    by_cases hr : r = p
    · subst hr
      rw [Function.update_self] at hs
      exact .inl ⟨rfl, hs⟩
    · rw [Function.update_of_ne hr] at hs
      exact .inr ⟨hr, hs⟩
  refine ⟨valid, opened, ?_, ?_, ?_, underway⟩
  · intro r s hs huse
    rcases hcases r s hs with ⟨-, ho⟩ | ⟨hr, hold⟩
    · exact fits s ho huse
    · exact (reg.fits r s hold huse).congr (others r s hr hold huse)
  · intro r s t u hs hu huse huse' heng heng' hne
    rcases hcases r s hs with ⟨rfl, ho⟩ | ⟨hr, hold⟩
    · rcases hcases t u hu with ⟨rfl, -⟩ | ⟨ht, hold'⟩
      · exact absurd rfl hne
      · exact apart s ho huse heng t u ht hold' huse' heng'
    · rcases hcases t u hu with ⟨rfl, ho'⟩ | ⟨-, hold'⟩
      · exact (apart u ho' huse' heng' r s hr hold huse heng).symm
      · exact reg.apart r s t u hold hold' huse huse' heng heng' hne
  · intro r s hs huse
    rcases hcases r s hs with ⟨-, ho⟩ | ⟨-, hold⟩
    · exact idle s ho huse
    · exact reg.idle r s hold huse

/-- A write keeps what holds of the source being handled. -/
private theorem Underway.put (underway : Underway q) (handled : Handled q) {o : Option Source}
    (event : q'.ctl.event = q.ctl.event) (sources : q'.sources = Function.update q.sources p o)
    (keeps : ∀ src, q.sources p = some src → src.qInUse = true → src.noDetach = true →
      ∀ s, o = some s → s.type = src.type ∧ (src.added = false → s.added = false) ∧
        (src.added = false → src.ctlOp = .mod → s.ctlOp = .mod)) : Underway q' := by
  intro ne hne s hs htype
  rw [event] at hne
  rw [sources] at hs
  by_cases hp : ne.source = p
  · rw [hp, Function.update_self] at hs
    obtain ⟨src, hsrc, huse, hno⟩ := handled ne hne
    obtain ⟨htype', hadded, hop⟩ := keeps src (hp ▸ hsrc) huse hno s hs
    obtain ⟨h1, h2⟩ := underway ne hne src hsrc (htype'.symm.trans htype)
    exact ⟨hadded h1, hop h1 h2⟩
  · rw [Function.update_of_ne hp] at hs
    exact underway ne hne s hs htype

private theorem Underway.of_no_event (event : q.ctl.event = none) : Underway q := by
  intro ne hne
  rw [event] at hne
  cases hne

/-- The same descriptors are registered, and no source changes. -/
private theorem Registered.still (reg : Registered q) (sources : q'.sources = q.sources)
    (valid : ∀ r ∈ q'.kernel.requests, r.valid = true)
    (opened : ∀ fd, q'.kernel.reg fd ≠ none → q'.kernel.isOpen fd = true)
    (same : ∀ r s, q.sources r = some s → s.qInUse = true → s.engaged = true →
      (q'.kernel.reg s.fd = none ↔ q.kernel.reg s.fd = none))
    (underway : Underway q') : Registered q' := by
  refine ⟨valid, opened, ?_, sources ▸ reg.apart, sources ▸ reg.idle, underway⟩
  intro r s hs huse
  rw [sources] at hs
  exact (reg.fits r s hs huse).congr (same r s hs huse)

private theorem Underway.congr (underway : Underway q) (sources : q'.sources = q.sources)
    (event : q'.ctl.event = none ∨ q'.ctl.event = q.ctl.event) : Underway q' := by
  rcases event with h | h
  · exact .of_no_event h
  · intro ne hne
    rw [sources]
    exact underway ne (h ▸ hne)

/-- The kernel stays as it is. -/
private theorem Registered.goto (reg : Registered q) (sources : q'.sources = q.sources)
    (kernel : q'.kernel = q.kernel) (event : q'.ctl.event = none ∨ q'.ctl.event = q.ctl.event) :
    Registered q' := by
  refine reg.still sources (kernel ▸ reg.valid) (kernel ▸ reg.opened) ?_
    (reg.underway.congr sources event)
  intro r s _ _ _
  rw [kernel]

/-- A source is written, and the kernel stays as it is. -/
private theorem Registered.write {u : Source} (reg : Registered q) (handled : Handled q)
    (hsrc : q.sources p = some src) (sources : q'.sources = Function.update q.sources p (some u))
    (kernel : q'.kernel = q.kernel) (event : q'.ctl.event = none ∨ q'.ctl.event = q.ctl.event)
    (type : u.type = src.type) (fd : u.fd = src.fd) (qInUse : u.qInUse = src.qInUse)
    (added : u.added = src.added) (ctlOp : u.ctlOp = src.ctlOp)
    (waits : src.qInUse = true → u.pending = true → src.pending = true ∨
      src.added = false ∧ (src.known = false → q.Unused p src.fd)) : Registered q' := by
  have hknown : u.known = src.known := by
    unfold Source.known
    rw [added, ctlOp]
  refine reg.put sources (kernel ▸ reg.valid) (kernel ▸ reg.opened) ?_ ?_ ?_ ?_ ?_
  · rintro _ ⟨⟩ huse
    rw [qInUse] at huse
    have hfits := reg.fits p src hsrc huse
    refine ⟨ctlOp ▸ hfits.op, ?_, ?_, ?_⟩
    · rw [hknown, fd, kernel]
      exact hfits.known
    · intro hpend hunknown
      rw [hknown] at hunknown
      rw [fd, kernel]
      rcases waits huse hpend with h | ⟨-, h⟩
      · exact hfits.waits h hunknown
      · exact (h hunknown).1
    · intro hpend
      rw [added]
      rcases waits huse hpend with h | ⟨h, -⟩
      · exact hfits.once h
      · exact h
  · rintro _ ⟨⟩ huse
    rw [added]
    exact reg.idle p src hsrc (qInUse ▸ huse)
  · intro r s _ _ _ _
    rw [kernel]
  · rintro _ ⟨⟩ huse heng r t hr ht huse' heng'
    rw [qInUse] at huse
    rw [fd]
    by_cases hold : src.engaged = true
    · exact reg.apart p src r t hsrc ht huse huse' hold heng' hr
    · -- the source was neither pending nor known
      simp only [Source.engaged, Bool.or_eq_true, not_or, Bool.not_eq_true] at hold
      simp only [Source.engaged, hknown, hold.2, Bool.or_false] at heng
      rcases waits huse heng with h | ⟨-, h⟩
      · rw [hold.1] at h
        cases h
      · obtain ⟨hnone, hothers⟩ := h hold.2
        intro heq
        simp only [Source.engaged, Bool.or_eq_true] at heng'
        rcases heng' with hpend | hknown'
        · exact hothers r t ht hr huse' hpend heq.symm
        · exact (reg.fits r t ht huse').known hknown' (heq ▸ hnone)
  · rcases event with h | h
    · exact .of_no_event h
    · refine reg.underway.put handled h sources ?_
      intro s hs _ _ t ht
      obtain rfl := Option.some.inj (hsrc.symm.trans hs)
      obtain rfl := Option.some.inj ht
      exact ⟨type, fun h => added.trans h, fun _ h => ctlOp.trans h⟩

/-- A request is made for an engaged source, and the source is written. -/
private theorem Registered.request (reg : Registered q) (hsrc : q.sources p = some src)
    (attached : src.qInUse = true) (engaged : src.engaged = true)
    (sources : q'.sources = Function.update q.sources p (some src')) {op : CtlOp} {src0 : Source}
    {room : Bool} (kernel : q'.kernel = (q.kernel.epollCtl op p src0 room).2)
    (fd0 : src0.fd = src.fd) (fd : src'.qInUse = true → src'.fd = src.fd)
    (asked : op = .add ∧ q.kernel.reg src.fd = none ∨
      (op = .mod ∨ op = .del) ∧ q.kernel.reg src.fd ≠ none)
    (fits : src'.qInUse = true → Fits q'.kernel src')
    (idle : src'.qInUse = false → src'.added = false) (underway : Underway q') :
    Registered q' := by
  refine reg.put sources ?_ ?_ ?_ ?_ ?_ ?_ underway
  · rw [kernel]
    exact request_valid room reg.valid (fd0 ▸ asked)
  · rw [kernel]
    exact request_opened op room reg.opened
  · rintro _ ⟨⟩
    exact fits
  · rintro _ ⟨⟩
    exact idle
  · intro r s hr hs huse heng
    have hne : s.fd ≠ src0.fd := by
      rw [fd0]
      exact (reg.apart p src r s hsrc hs attached huse engaged heng hr).symm
    rw [kernel, epollCtl_other _ _ _ _ _ hne]
  · rintro _ ⟨⟩ huse' _ r t hr ht huse heng
    rw [fd huse']
    exact reg.apart p src r t hsrc ht attached huse engaged heng hr

/-- A registered descriptor can be asked for. -/
private theorem request_registered {k : Kernel} {op : CtlOp} (room : Bool) (hop : op = .mod)
    (hreg : k.reg src.fd ≠ none) : (k.epollCtl op p src room).2.reg src.fd ≠ none := by
  by_cases hok : (k.epollCtl op p src room).1 = .ok
  · rw [epollCtl_ok hok, if_neg (by rw [hop]; simp)]
    simp
  · rwa [epollCtl_failed hok]

private theorem known_of_added (h : src.added = true) : src.known = true := by
  simp [Source.known, h]

private theorem engaged_of_known (h : src.known = true) : src.engaged = true := by
  simp [Source.engaged, h]

/-- The conditions of a call that sets a handler. -/
private theorem setting_of_next {d : Dir} {h : Option Handler} {room : Bool}
    (hsrc : q.sources p = some src) (attached : src.qInUse = true) (set : h.isSome = true) :
    q.setting (.next d p h room) = some (d, p, src) := by
  cases d <;> simp [State.setting, Action.next, hsrc, attached, set]

private theorem joining_of_next {d : Dir} {h : Option Handler} {room : Bool}
    (hsrc : q.sources p = some src) (attached : src.qInUse = true) (set : h.isSome = true)
    (added : src.added = false) (inCallback : src.inCallback = false)
    (pending : src.pending = false) (ctlOp : src.ctlOp = .add) :
    q.joining (.next d p h room) = some (p, src) := by
  have hset : q.setting (.next d p h room) = some (d, p, src) :=
    setting_of_next hsrc attached set
  cases d <;>
    · unfold State.joining
      simp only [Action.next] at hset ⊢
      rw [hset]
      simp [added, inCallback, pending, ctlOp]

private theorem op_of_not_known (fits : Fits q.kernel src) (h : src.known = false) :
    src.ctlOp = .add := by
  rcases fits.op with hop | hop
  · exact hop
  · simp [Source.known, hop] at h

/-- The calls on an os_fd source. -/
private theorem Registered.next (reg : Registered q) (handled : Handled q) {d : Dir}
    {h : Option Handler} {room : Bool} (hsrc : q.sources p = some src)
    (keeps : KeepsValid q (.next d p h room)) (cases : NextCases d p src h room q q') :
    Registered q' := by
  obtain ⟨hnew, hjoin, -⟩ := keeps
  cases cases with
  | quiet src' kept pending added ctlOp interest =>
    exact reg.write handled hsrc rfl rfl (.inr rfl) kept.type kept.fd kept.qInUse added ctlOp
      (fun _ hp => .inl (pending ▸ hp))
  | toPending src' kept added ctlOp attached idle outside running set =>
    refine reg.write (u := { src' with pending := true }) handled hsrc rfl rfl (.inr rfl)
      kept.type kept.fd kept.qInUse added ctlOp (fun _ _ => .inr ⟨idle, fun hunknown => ?_⟩)
    have hop := op_of_not_known (reg.fits p src hsrc attached) hunknown
    exact hjoin _ (joining_of_next hsrc attached set idle outside running hop)
  | toRunning src' kept added ctlOp attached idle pending bare =>
    exact reg.write (u := { src' with pending := false }) handled hsrc rfl rfl (.inr rfl)
      kept.type kept.fd kept.qInUse added ctlOp (fun _ hp => absurd hp (by simp))
  | ctl attached added set new =>
    have hknown := known_of_added added
    have hfits := reg.fits p src hsrc attached
    obtain ⟨-, hpend, hadded, hop, -⟩ := setHandler_events src d h
    have kept := (Kept.setHandler src d h).trans (.setInterest _ d true)
    obtain ⟨s, hs⟩ : ∃ s, (src.setHandler d h).setInterest d true = s := ⟨_, rfl⟩
    have hmod : s.ctlOp = .mod := by
      rw [← hs]
      exact hop.trans (hnew _ (setting_of_next hsrc attached set) added new)
    have hadd : s.added = true := by
      rw [← hs]
      exact hadded.trans added
    have hwaits : s.pending = false := by
      rw [← hs]
      refine hpend.trans (Bool.eq_false_iff.2 fun hp => ?_)
      rw [hfits.once hp] at added
      cases added
    rw [hs] at kept ⊢
    -- whatever the kernel answers, the source is taken for a registered one
    have hsource : (doCtlOsFd p s room q.kernel).2.1 = s := by
      rw [doCtlOsFd_source]
      split_ifs
      · rw [← hadd]
      · rfl
    have hkernel := doCtlOsFd_kernel p s room q.kernel
    rw [hmod] at hkernel
    have hreg := hfits.known hknown
    refine reg.request hsrc attached (engaged_of_known hknown) rfl hkernel kept.fd ?_
      (.inr ⟨.inl rfl, hreg⟩) ?_ ?_ ?_
    · rw [hsource]
      exact fun _ => kept.fd
    · intro _
      change Fits (doCtlOsFd p s room q.kernel).2.2 (doCtlOsFd p s room q.kernel).2.1
      rw [hsource, hkernel]
      refine ⟨.inr hmod, fun _ => ?_, fun hp => ?_, fun hp => ?_⟩
      · exact request_registered room rfl (kept.fd ▸ hreg)
      · rw [hwaits] at hp
        cases hp
      · rw [hwaits] at hp
        cases hp
    · rw [hsource, kept.qInUse, attached]
      intro h
      cases h
    · refine reg.underway.put handled rfl rfl ?_
      intro t ht _ _ u hu
      obtain rfl := Option.some.inj (hsrc.symm.trans ht)
      obtain rfl := Option.some.inj hu
      rw [hsource, added]
      exact ⟨kept.type, fun h => by (cases h), fun h => by (cases h)⟩
  | del attached added unset last bare =>
    have hknown := known_of_added added
    have hfits := reg.fits p src hsrc attached
    have hreg := hfits.known hknown
    obtain ⟨-, hpend, hadded, -, -⟩ := setHandler_events src d h
    have kept := (Kept.setHandler src d h).trans (.setInterest _ d false)
    obtain ⟨s, hs⟩ : ∃ s, (src.setHandler d h).setInterest d false = s := ⟨_, rfl⟩
    have hwaits : s.pending = false := by
      rw [← hs]
      refine hpend.trans (Bool.eq_false_iff.2 fun hp => ?_)
      rw [hfits.once hp] at added
      cases added
    rw [hs] at kept ⊢
    have hok : (q.kernel.epollCtl .del p s true).1 = .ok :=
      epollCtl_del (kept.fd ▸ reg.opened _ hreg) (kept.fd ▸ hreg)
    have hsource : (doDelOsFd p s q.kernel).2.1 = { s with added := false, ctlOp := .add } := by
      rw [doDelOsFd_source, if_pos hok]
    refine reg.request hsrc attached (engaged_of_known hknown) rfl (doDelOsFd_kernel p s q.kernel)
      kept.fd ?_ (.inr ⟨.inr rfl, hreg⟩) ?_ ?_ ?_
    · rw [hsource]
      exact fun _ => kept.fd
    · intro _
      change Fits (doDelOsFd p s q.kernel).2.2 (doDelOsFd p s q.kernel).2.1
      rw [hsource]
      refine ⟨.inl rfl, fun h => ?_, fun hp => ?_, fun _ => rfl⟩
      · simp [Source.known] at h
      · rw [hwaits] at hp
        cases hp
    · intro _
      rw [hsource]
    · refine reg.underway.put handled rfl rfl ?_
      intro t ht _ _ u hu
      obtain rfl := Option.some.inj (hsrc.symm.trans ht)
      obtain rfl := Option.some.inj hu
      rw [hsource, added]
      exact ⟨kept.type, fun _ => rfl, fun h => by (cases h)⟩

/-- A source is detached, and the program goes on. -/
private theorem Registered.detach (reg : Registered q) (hsrc : q.sources p = some src)
    (attached : src.qInUse = true) {src0 : Source} {toClose : Bool} {q1 : State}
    (det : Detached p src0 toClose q q1) (fd : src0.fd = src.fd) (added : src0.added = src.added)
    (sources : q'.sources = q1.sources) (kernel : q'.kernel = q1.kernel)
    (underway : Underway q') : Registered q' := by
  obtain ⟨src', hsources, huse', -, -, -, hadded'⟩ := det.sources
  rw [← sources] at hsources
  have hkernel : q'.kernel = (evdpSourceDetach p src0 toClose q.kernel).2 := kernel.trans det.kernel
  rcases (detach_cases p src0 toClose q.kernel).2 with ⟨hsame, hadded, -⟩ | ⟨hadd, -, hdel, hok⟩
  · have hkernel' := hkernel.trans hsame
    refine reg.put hsources (hkernel' ▸ reg.valid) (hkernel' ▸ reg.opened) ?_ ?_ ?_ ?_ underway
    · rintro _ ⟨⟩ huse
      rw [huse'] at huse
      cases huse
    · rintro _ ⟨⟩ _
      exact hadded'.trans hadded
    · intro r s _ _ _ _
      rw [hkernel']
    · rintro _ ⟨⟩ huse
      rw [huse'] at huse
      cases huse
  · -- it is registered, and is un-registered
    have hknown := known_of_added (added.symm.trans hadd)
    have hreg := (reg.fits p src hsrc attached).known hknown
    have hopen := reg.opened _ hreg
    refine reg.request hsrc attached (engaged_of_known hknown) hsources (hkernel.trans hdel) fd ?_
      (.inr ⟨.inr rfl, hreg⟩) ?_ ?_ underway
    · intro huse
      rw [huse'] at huse
      cases huse
    · intro huse
      rw [huse'] at huse
      cases huse
    · intro _
      exact hadded'.trans (hok (epollCtl_del (fd ▸ hopen) (fd ▸ hreg)))

/-- The flush makes the request of a pending source. -/
private theorem pending_request (fits : Fits q.kernel src) (pending : src.pending = true) :
    src.ctlOp = .add ∧ q.kernel.reg src.fd = none ∨
      (src.ctlOp = .mod ∨ src.ctlOp = .del) ∧ q.kernel.reg src.fd ≠ none := by
  rcases fits.op with hop | hop
  · refine .inl ⟨hop, fits.waits pending ?_⟩
    simp [Source.known, fits.once pending, hop]
  · exact .inr ⟨.inl hop, fits.known (by simp [Source.known, hop])⟩

private theorem Registered.flush (reg : Registered q) {count : Nat} {room : Bool}
    (hsrc : q.sources p = some src) (attached : src.qInUse = true) (pending : src.pending = true)
    (ok : (q.kernel.epollCtl src.ctlOp p src room).1 = .ok) :
    Registered ((slistRunningInsertNoStats p { src with added := true }
      (slistRemove p { q with kernel := (q.kernel.epollCtl src.ctlOp p src room).2 })).goto
        (.flushing (count + 1))) := by
  have hfits := reg.fits p src hsrc attached
  have hasked := pending_request hfits pending
  refine reg.request hsrc attached (by simp [Source.engaged, pending]) rfl rfl rfl (fun _ => rfl)
    hasked ?_ ?_ (.of_no_event rfl)
  · intro _
    refine ⟨hfits.op, fun _ => ?_, fun hp => by (cases hp), fun hp => by (cases hp)⟩
    change (q.kernel.epollCtl src.ctlOp p src room).2.reg src.fd ≠ none
    rw [epollCtl_ok ok, if_neg]
    · simp
    · rcases hfits.op with hop | hop <;> rw [hop] <;> simp
  · intro huse
    change src.qInUse = false at huse
    rw [attached] at huse
    cases huse

private theorem Registered.fetch (reg : Registered q) (handled : Handled q) {i : Nat}
    {e : EpollEvent} {d : Data} (hsrc : q.sources d.ptr = some src)
    (attached : src.qInUse = true) (known : src.type = .osFd → src.known = true) :
    Registered (({ q with currentEvent := i }.setSource d.ptr
      (if src.type = SourceType.osFd then
        { src with noDetach := true, added := false, ctlOp := .mod }
      else { src with noDetach := true })).goto (.handle ⟨i, d.ptr, e⟩ .read)) := by
  by_cases htype : src.type = .osFd
  · rw [if_pos htype]
    have hfits := reg.fits d.ptr src hsrc attached
    have hknown := known htype
    refine reg.put rfl reg.valid reg.opened ?_ ?_ (fun _ _ _ _ _ _ => .rfl) ?_ ?_
    · rintro _ ⟨⟩ _
      refine ⟨.inr rfl, fun _ => hfits.known hknown, fun _ h => ?_, fun _ => rfl⟩
      simp [Source.known] at h
    · rintro _ ⟨⟩ huse
      rfl
    · rintro _ ⟨⟩ _ _ r t hr ht huse heng
      exact reg.apart d.ptr src r t hsrc ht attached huse (engaged_of_known hknown) heng hr
    · rintro _ ⟨⟩ s hs _
      change Function.update q.sources d.ptr (some _) d.ptr = some s at hs
      rw [Function.update_self] at hs
      obtain rfl := Option.some.inj hs
      exact ⟨rfl, rfl⟩
  · rw [if_neg htype]
    have hwrite : Registered ({ q with currentEvent := i }.setSource d.ptr
        { src with noDetach := true }) :=
      reg.write (u := { src with noDetach := true }) handled hsrc rfl rfl (.inr rfl) rfl rfl rfl
        rfl rfl (fun _ hp => .inl hp)
    refine hwrite.still rfl hwrite.valid hwrite.opened (fun _ _ _ _ _ => .rfl) ?_
    rintro _ ⟨⟩ s hs hos
    change Function.update q.sources d.ptr (some _) d.ptr = some s at hs
    rw [Function.update_self] at hs
    obtain rfl := Option.some.inj hs
    exact absurd hos htype

private theorem Registered.attach (reg : Registered q) (handled : Handled q)
    (hsrc : q.sources p = some src) (unattached : src.qInUse = false)
    (joined : Joined q p src src') {b : Bool}
    (sources : q'.sources = Function.update q.sources p (some { src' with pending := b }))
    (kernel : q'.kernel = q.kernel) (event : q'.ctl.event = q.ctl.event)
    (unused : b = true → q.Unused p src.fd) : Registered q' := by
  have hadded : src'.added = false := joined.added.trans (reg.idle p src hsrc unattached)
  have hunknown : Source.known { src' with pending := b } = false := by
    simp [Source.known, hadded, joined.ctlOp]
  refine reg.put sources (kernel ▸ reg.valid) (kernel ▸ reg.opened) ?_ ?_ ?_ ?_ ?_
  · rintro _ ⟨⟩ _
    refine ⟨.inl joined.ctlOp, fun h => ?_, fun hp _ => ?_, fun _ => hadded⟩
    · rw [hunknown] at h
      cases h
    · rw [kernel]
      change q.kernel.reg src'.fd = none
      rw [joined.fd]
      exact (unused hp).1
  · rintro _ ⟨⟩ _
    exact hadded
  · intro r s _ _ _ _
    rw [kernel]
  · rintro _ ⟨⟩ _ heng r t hr ht huse heng' heq
    rw [Source.engaged, hunknown, Bool.or_false] at heng
    obtain ⟨hnone, hothers⟩ := unused heng
    change src'.fd = t.fd at heq
    rw [joined.fd] at heq
    simp only [Source.engaged, Bool.or_eq_true] at heng'
    rcases heng' with hpend | hknown
    · exact hothers r t ht hr huse hpend heq.symm
    · exact (reg.fits r t ht huse).known hknown (heq ▸ hnone)
  · refine reg.underway.put handled event sources ?_
    intro s hs huse
    obtain rfl := Option.some.inj (hsrc.symm.trans hs)
    rw [unattached] at huse
    cases huse

private theorem Registered.close (reg : Registered q) {fd : Fd}
    (keeps : ∀ p src, q.sources p = some src → src.qInUse = true → src.fd ≠ fd) :
    Registered (closeFd fd q) := by
  refine reg.still rfl reg.valid ?_ ?_ (reg.underway.congr rfl (.inr rfl))
  · intro x hx
    by_cases hxf : x = fd
    · subst hxf
      exact absurd (Function.update_self ..) hx
    · change Function.update q.kernel.reg fd none x ≠ none at hx
      rw [Function.update_of_ne hxf] at hx
      exact (Function.update_of_ne hxf _ _).trans (reg.opened x hx)
  · intro r s hs huse _
    have hne := keeps r s hs huse
    change Function.update q.kernel.reg fd none s.fd = none ↔ _
    rw [Function.update_of_ne hne]

/-- A source that is not attached comes, goes or is written. -/
private theorem Registered.unattached (reg : Registered q) (handled : Handled q) {o : Option Source}
    (before : ¬ q.Attached p) (sources : q'.sources = Function.update q.sources p o)
    (after : ∀ s, o = some s → s.qInUse = false ∧ s.added = false)
    (kernel : q'.kernel.reg = q.kernel.reg) (requests : q'.kernel.requests = q.kernel.requests)
    (isOpen : ∀ x, q.kernel.isOpen x = true → q'.kernel.isOpen x = true)
    (event : q'.ctl.event = q.ctl.event) : Registered q' := by
  have hno : ∀ s, o = some s → s.qInUse = true → False := by
    intro s hs huse
    rw [(after s hs).1] at huse
    cases huse
  refine reg.put sources (requests ▸ reg.valid) ?_ ?_ ?_ ?_ ?_ ?_
  · intro x hx
    rw [kernel] at hx
    exact isOpen x (reg.opened x hx)
  · exact fun s hs huse => (hno s hs huse).elim
  · exact fun s hs _ => (after s hs).2
  · intro r s _ _ _ _
    rw [kernel]
  · exact fun s hs huse => (hno s hs huse).elim
  · refine reg.underway.put handled event sources ?_
    intro s hs huse
    exact absurd ⟨s, hs, huse⟩ before

end Step

/-- What one step preserves. -/
theorem Registered.ofStep {q q' : State} {a : Action} {P R : List Ptr} (reg : Registered q)
    (base : Base q P R) (keepsOpen : KeepsOpen q a) (keeps : KeepsValid q a)
    (h : step q a = some q') : Registered q' := by
  have handled := base.handled
  cases step_cases h with
  | @opened fd turn =>
    refine reg.still rfl reg.valid ?_ (fun _ _ _ _ _ => .rfl) (reg.underway.congr rfl (.inr rfl))
    intro x hx
    by_cases hxf : x = fd
    · simp [hxf]
    · simpa [Function.update_of_ne hxf] using reg.opened x hx
  | closed turn => exact reg.close (keepsOpen _ rfl)
  | @created p type fd turn free k hreg requests isOpen =>
    refine reg.unattached (p := p) handled ?_ rfl ?_ hreg requests isOpen rfl
    · rintro ⟨s, hs, -⟩
      rw [free] at hs
      cases hs
    · rintro _ ⟨⟩
      exact ⟨rfl, rfl⟩
  | refused turn => exact reg
  | @freed p src turn hsrc unattached =>
    have hnot := not_attached hsrc unattached
    by_cases htimer : src.type.isTimer = true
    · simp only [if_pos htimer]
      have hcloses : q.closes (.delSource p) = some src.fd := by
        simp [State.closes, hsrc, unattached, htimer]
      have hclosed := reg.close (keepsOpen _ hcloses)
      exact hclosed.unattached (q := closeFd src.fd q) (o := none) handled hnot rfl (by simp)
        rfl rfl (fun _ => id) rfl
    · simp only [if_neg htimer]
      exact reg.unattached (o := none) handled hnot rfl (by simp) rfl rfl (fun _ => id) rfl
  | refitted turn hsrc unattached =>
    refine reg.unattached handled (not_attached hsrc unattached) rfl ?_ rfl rfl (fun _ => id) rfl
    rintro _ ⟨⟩
    exact ⟨unattached, rfl⟩
  | next turn hsrc osFd cases => exact reg.next handled hsrc keeps cases
  | @joinedPending p src settime turn hsrc unattached src' joined osFd =>
    refine reg.attach handled hsrc unattached joined rfl rfl rfl (fun _ => ?_)
    refine keeps.2.1 (p, src) ?_
    by_cases hos : src.type = .osFd
    · simp [State.joining, hsrc, unattached, osFd hos]
    · simp [State.joining, hsrc, unattached, hos]
  | joinedRunning turn hsrc unattached src' joined osFd bare =>
    exact reg.attach handled hsrc unattached joined rfl rfl rfl (fun h => by cases h)
  | @detached p src toClose turn hsrc attached free =>
    have det := Epoll.detached p src toClose q
    obtain ⟨src', hsources, -⟩ := det.sources
    refine reg.detach hsrc attached det rfl rfl rfl rfl ?_
    refine reg.underway.put handled (by rw [det.ctl]) hsources ?_
    intro s hs _ hno
    obtain rfl := Option.some.inj (hsrc.symm.trans hs)
    rw [free] at hno
    cases hno
  | started ctl => exact reg.goto rfl rfl (.inl rfl)
  | flushEnd ctl empty => exact reg.goto rfl rfl (.inl rfl)
  | @flushed count room p src ctl head hsrc ok =>
    obtain ⟨p', src0, heq, hsrc', huse, hpend⟩ := base.head head
    obtain rfl := Node.source.inj heq
    obtain rfl := Option.some.inj (hsrc.symm.trans hsrc')
    exact reg.flush hsrc huse hpend ok
  | @flushFailed count room p src ctl head hsrc failed =>
    obtain ⟨p', src0, heq, hsrc', huse, hpend⟩ := base.head head
    obtain rfl := Node.source.inj heq
    obtain rfl := Option.some.inj (hsrc.symm.trans hsrc')
    refine reg.still rfl ?_ ?_ ?_ (.of_no_event rfl)
    · exact request_valid room reg.valid (pending_request (reg.fits p src hsrc huse) hpend)
    · exact request_opened _ room reg.opened
    · intro r s _ _ _
      simp only [epollCtl_failed failed]
  | flushLost ctl head lost => exact reg.goto rfl rfl (.inl rfl)
  | @waited evs k ee ctl nodup events =>
    obtain ⟨hopen, hrequests, hreg, -⟩ := epollWait_spec events
    have hsame : ∀ fd, k.reg fd = none ↔ q.kernel.reg fd = none := by
      intro fd
      rcases hreg fd with h | ⟨r, hr, -, h, -⟩
      · rw [h]
      · rw [h, hr]
        simp
    refine reg.still rfl (hrequests ▸ reg.valid) ?_ (fun _ s _ _ _ => hsame s.fd) (.of_no_event rfl)
    intro fd hfd
    refine (congrFun hopen fd).trans (reg.opened fd ?_)
    exact fun h => hfd ((hsame fd).2 h)
  | waitFailed ctl => exact reg.goto rfl rfl (.inl rfl)
  | batchEnd ctl beyond currentEvent => exact reg.goto rfl rfl (.inl rfl)
  | skipped ctl entry cleared => exact reg.goto rfl rfl (.inl rfl)
  | lost ctl entry data free => exact reg.goto rfl rfl (.inl rfl)
  | @fetched i ok e d src ctl entry data hsrc =>
    have hfetching : q.fetching (.proceed ok) = some d := fetching_eq ctl entry data
    obtain ⟨s, hs, huse⟩ := keeps.2.2.1 d hfetching
    obtain rfl := Option.some.inj (hsrc.symm.trans hs)
    exact reg.fetch handled hsrc huse (keeps.2.2.2 d hfetching src hsrc)
  | vanished event free => exact reg.goto rfl rfl (.inl rfl)
  | otherHandled ctl hsrc other event =>
    refine reg.goto rfl rfl (.inr ?_)
    rw [ctl]
    exact event
  | osFdSkipped ctl hsrc osFd =>
    refine reg.goto rfl rfl (.inr ?_)
    rw [ctl]
    rfl
  | osFdCalled ctl hsrc osFd src' entered notLast =>
    refine reg.write handled hsrc rfl rfl (.inr ?_) entered.type entered.fd entered.qInUse
      entered.added entered.ctlOp (fun _ hp => .inl (entered.pending ▸ hp))
    rw [ctl]
    rfl
  | @osFdRequeued ok ne src ctl hsrc osFd rest attached =>
    have hunder := reg.underway ne (by rw [ctl]; rfl) src hsrc osFd
    refine reg.write (u := { src with pending := true }) handled hsrc rfl rfl (.inr ?_) rfl rfl
      rfl rfl rfl (fun _ _ => .inr ⟨hunder.1, fun h => ?_⟩)
    · rw [ctl]
      rfl
    · simp [Source.known, hunder.2] at h
  | osFdLost ctl hsrc unattached => exact reg.goto rfl rfl (.inl rfl)
  | osFdDone ctl hsrc osFd bare =>
    refine reg.goto rfl rfl (.inr ?_)
    rw [ctl]
    rfl
  | returned ctl hsrc src' entered =>
    refine reg.write handled hsrc rfl rfl (.inr ?_) entered.type entered.fd entered.qInUse
      entered.added entered.ctlOp (fun _ hp => .inl (entered.pending ▸ hp))
    rw [ctl]
    exact after_callback_event _ _ _
  | @finishedDetach ok ne ret src ctl hsrc toClose hret =>
    obtain ⟨s, hs, huse, -⟩ := handled ne (by rw [ctl]; rfl)
    obtain rfl := Option.some.inj (hsrc.symm.trans hs)
    exact reg.detach hsrc huse (Epoll.detached ne.source { src with noDetach := false } toClose q)
      rfl rfl rfl rfl (.of_no_event rfl)
  | finished ctl hsrc hctl' =>
    refine reg.write handled hsrc rfl rfl (.inl ?_) rfl rfl rfl rfl rfl (fun _ hp => .inl hp)
    rcases hctl' with ⟨rfl, -⟩ | ⟨rfl, -⟩ <;> rfl
  | resumed ctl => exact reg.goto rfl rfl (.inl rfl)

theorem Registered.create (batchSize : Nat) : Registered (nebEvdpQueueCreate batchSize) where
  valid := fun _ h => by cases h
  opened := fun _ h => absurd rfl h
  fits := fun _ _ h => by cases h
  apart := fun _ _ _ _ h => by cases h
  idle := fun _ _ h => by cases h
  underway := .of_no_event rfl

/-- In every run that keeps to the conditions, every request fits the registration of its
descriptor. -/
theorem nebEvdpQueue_requests_valid (batchSize : Nat) (as : List Action) (q : State)
    (keepsOpen : Machine.StepsMeet step KeepsOpen (nebEvdpQueueCreate batchSize) as)
    (keeps : Machine.StepsMeet step KeepsValid (nebEvdpQueueCreate batchSize) as)
    (reached : Machine.run step (nebEvdpQueueCreate batchSize) as = some q) :
    ∀ r ∈ q.kernel.requests, r.valid = true := by
  obtain ⟨-, reg⟩ := Machine.invariant_run (I := fun q => (∃ P R, Base q P R) ∧ Registered q)
    (fun q a q' ⟨⟨P, R, base⟩, reg⟩ ok h => by
      obtain ⟨P', R', base', -⟩ := base.ofStep ok.2.2.2.1 h
      exact ⟨⟨P', R', base'⟩, reg.ofStep base ok.1 ok.2 h⟩)
    ⟨⟨[], [], (Base.create batchSize).1⟩, Registered.create batchSize⟩ (keepsOpen.and keeps) reached
  exact reg.valid

/-- A step that puts no source into the pending list with `EPOLL_CTL_ADD`. -/
private theorem keeps_of_not_joining (q : State) (a : Action)
    (h : (∀ x ∈ q.setting a, x.2.2.added = true → x.2.2.ctlEvent.events.has x.1 = false →
        x.2.2.ctlOp = .mod) ∧ q.joining a = none ∧ FetchesAttached q a ∧
      ∀ d ∈ q.fetching a, ∀ src ∈ q.sources d.ptr, src.type = .osFd → src.known = true) :
    KeepsValid q a := by
  obtain ⟨hset, hjoin, hfetch⟩ := h
  refine ⟨hset, ?_, hfetch⟩
  rw [hjoin]
  exact fun _ hx => by cases hx

theorem keeps_open (q : State) (a : Action) (h : q.closes a = none) : KeepsOpen q a := by
  intro fd hfd
  rw [h] at hfd
  cases hfd

/-- A source reads, then waits to write, takes this handler back and is detached. -/
theorem nebEvdpQueue_requests_valid_read_then_write :
    ∃ q, Machine.run step (nebEvdpQueueCreate 10)
      ([.openFd 5, .newSource 1 .osFd 5, .nextRead 1 (some 0) true] ++ ([.attach 1 true] ++
        ([.run, .flush true, .flush true, .wait [(5, ⟨true, false, false⟩)]] ++ firstCallback [] ++
          [.proceed true, .nextWrite 1 (some 0) true, .run, .flush true, .flush true, .wait [],
            .proceed true, .nextWrite 1 none true, .detach 1 false]))) = some q ∧
      ∀ r ∈ q.kernel.requests, r.valid = true := by
  obtain ⟨q, hq, -⟩ : ∃ q, Machine.run step (nebEvdpQueueCreate 10)
      ([.openFd 5, .newSource 1 .osFd 5, .nextRead 1 (some 0) true] ++ ([.attach 1 true] ++
        ([.run, .flush true, .flush true, .wait [(5, ⟨true, false, false⟩)]] ++ firstCallback [] ++
          [.proceed true, .nextWrite 1 (some 0) true, .run, .flush true, .flush true, .wait [],
            .proceed true, .nextWrite 1 none true, .detach 1 false]))) = some q ∧
      q.kernel.requests.length = 3 :=
    Machine.run_reaches (by decide)
  refine ⟨q, hq, nebEvdpQueue_requests_valid 10 _ q (.mono keeps_open (by decide)) ?_ hq⟩
  refine .append (.mono keeps_of_not_joining (by decide)) ?_
  rintro _ ⟨⟩
  refine .append ⟨?_, fun _ _ => trivial⟩ ?_
  · -- no other source is there, and the descriptor is not registered
    refine ⟨by decide, ?_, by decide⟩
    rintro _ ⟨⟩
    refine ⟨rfl, ?_⟩
    intro r s hs hr
    change Function.update (Function.update (fun _ => none) 1 _) 1 _ r = some s at hs
    rw [Function.update_of_ne hr, Function.update_of_ne hr] at hs
    cases hs
  · rintro _ ⟨⟩
    exact .mono keeps_of_not_joining (by decide)

/-- A second direction before the first event. -/
def secondDirection : List Action :=
  [.openFd 5, .newSource 1 .osFd 5, .nextRead 1 (some 0) true, .attach 1 true, .run, .flush true,
    .flush true, .wait [], .proceed true, .nextWrite 1 (some 0) true]

/-- A source is detached after its event, and attached again. -/
def attachedAgain : List Action :=
  [.openFd 5, .newSource 1 .osFd 5, .nextRead 1 (some 0) true, .attach 1 true, .run, .flush true,
    .flush true, .wait [(5, ⟨true, false, false⟩)]] ++ firstCallback [] ++
    [.proceed true, .detach 1 false, .nextRead 1 (some 0) true, .attach 1 true, .run, .flush true]

/-- The first callback takes the handler of the second source, whose event is still to come; later
this source is to read again. -/
def unsetInBatch : List Action :=
  twoReaders ++ firstCallback [.nextRead 2 none true] ++
    [.proceed true, .proceed true, .proceed true, .proceed true, .proceed true, .proceed true,
      .proceed true, .nextRead 2 (some 0) true, .run, .flush true]

/-- Every `EPOLL_CTL` request of this run that is for a source with interest of its own fits the
registration of its descriptor. -/
def OsFdRequestsValid (as : List Action) : Prop :=
  ∀ q, Machine.StepsMeet step KeepsOpen (nebEvdpQueueCreate 10) as →
    Machine.run step (nebEvdpQueueCreate 10) as = some q →
    ∀ r ∈ q.kernel.requests, r.type = .osFd → r.valid = true

private theorem requests_valid_fails (as : List Action)
    (closes : Machine.StepsMeet step (fun q a => q.closes a = none) (nebEvdpQueueCreate 10) as)
    (bad : (Machine.run step (nebEvdpQueueCreate 10) as).map
      (fun q => q.kernel.requests.all (fun r => r.type ≠ .osFd || r.valid)) = some false) :
    ¬ OsFdRequestsValid as := by
  intro claim
  obtain ⟨q, hq, hbad⟩ := Machine.run_reaches bad
  have hall : q.kernel.requests.all (fun r => r.type ≠ .osFd || r.valid) = true := by
    rw [List.all_eq_true]
    intro r hr
    by_cases htype : r.type = .osFd
    · simp [htype, claim q (.mono keeps_open closes) hq r hr htype]
    · simp [htype]
  rw [hall] at hbad
  cases hbad

theorem nebEvdpQueue_requests_valid_fails :
    ¬ OsFdRequestsValid secondDirection ∧ ¬ OsFdRequestsValid attachedAgain ∧
      ¬ OsFdRequestsValid unsetInBatch := by
  refine ⟨?_, ?_, ?_⟩
  · exact requests_valid_fails _ (by decide) (by decide)
  · exact requests_valid_fails _ (by decide) (by decide)
  · exact requests_valid_fails _ (by decide) (by decide)

end Nebase.Evdp.Epoll
