/- One os_fd source with the epoll driver: what each call and each flush makes of its interest and
   its registration, as long as no event comes. -/

import Nebase.Evdp.Epoll.Accounting

set_option autoImplicit false
set_option relaxedAutoImplicit false

namespace Nebase.Evdp.Epoll

open Nebase.Foundation

/-- The queue has no source but `src`, an os_fd source, and the user's code runs. -/
structure Single (p : Ptr) (fd : Fd) (q : State) (src : Source) : Prop where
  ctl : q.ctl = .user
  ee : q.ee = []
  isOpen : q.kernel.isOpen fd = true
  source : q.sources p = some src
  alone : ∀ r, r ≠ p → q.sources r = none
  base : ∃ P R, Base q P R
  osFd : src.type = .osFd
  ident : src.fd = fd
  free : src.noDetach = false
  outside : src.inCallback = false
  idle : src.qInUse = false → src.added = false
  ctlOp : src.qInUse = true → src.ctlOp = .add
  pending : src.pending = (src.qInUse && (!src.added && src.ctlEvent.events.any))
  reg : q.kernel.reg fd = if src.added then some ⟨src.ctlEvent, true⟩ else none

variable {p : Ptr} {fd : Fd} {q q' : State} {src src' : Source}

/-- A new queue, and the source `p` for the open descriptor `fd`. -/
def nebEvdpQueueCreateSingle (batchSize : Nat) (p : Ptr) (fd : Fd) : State :=
  { nebEvdpQueueCreate batchSize with
    kernel := ⟨Function.update (fun _ => false) fd true, fun _ => none, []⟩ }.setSource p
    (newSource .osFd fd)

/-- The pending list of a queue with one source has the source or nothing. -/
private theorem next_pendingQs {P R : List Ptr} (base : Base q P R)
    (source : q.sources p = some src) (alone : ∀ r, r ≠ p → q.sources r = none) :
    q.links.next .pendingQs = if src.qInUse && src.pending then some (.source p) else none := by
  have honly : ∀ r ∈ P, r = p ∧ src.qInUse = true ∧ src.pending = true := by
    intro r hr
    obtain ⟨s, hs, huse, hpend⟩ := (base.queued.pending r).1 hr
    by_cases hrp : r = p
    · subst hrp
      obtain rfl := Option.some.inj (source.symm.trans hs)
      exact ⟨rfl, huse, hpend⟩
    · rw [alone r hrp] at hs
      cases hs
  rw [base.queued.head]
  cases P with
  | nil =>
    rw [if_neg]
    · rfl
    · intro h
      rw [Bool.and_eq_true] at h
      have hp := (base.queued.pending p).2 ⟨src, source, h.1, h.2⟩
      cases hp
  | cons r P =>
    obtain ⟨rfl, huse, hpend⟩ := honly r List.mem_cons_self
    rw [huse, hpend]
    rfl

/-- The call neither takes a direction out of a registration that keeps the other one, nor asks for
a new direction of a registered descriptor. -/
def KeepsRegistration (src : Source) (d : Dir) (h : Option Handler) : Prop :=
  src.added = true →
    if h.isSome then src.ctlEvent.events.has d = true
    else ¬ (src.ctlEvent.events.has d = true ∧ src.ctlEvent.events.has d.other = true)

instance (src : Source) (d : Dir) (h : Option Handler) : Decidable (KeepsRegistration src d h) :=
  inferInstanceAs (Decidable (_ → _))

/-- What a call on the source leaves of it. -/
structure NextOf (src src' : Source) (d : Dir) (b : Bool) : Prop where
  qInUse : src'.qInUse = src.qInUse
  has : src'.ctlEvent.events.has d = b
  other : src'.ctlEvent.events.has d.other = src.ctlEvent.events.has d.other

private theorem base_step {a : Action} (base : ∃ P R, Base q P R) (fetches : q.fetching a = none)
    (h : step q a = some q') : ∃ P R, Base q' P R := by
  obtain ⟨P, R, base⟩ := base
  obtain ⟨P', R', base', -⟩ := base.ofStep (fun d hd => by simp [fetches] at hd) h
  exact ⟨P', R', base'⟩

theorem Single.create (batchSize : Nat) (p : Ptr) (fd : Fd) :
    Single p fd (nebEvdpQueueCreateSingle batchSize p fd) (newSource .osFd fd) where
  ctl := rfl
  ee := rfl
  isOpen := by
    change Function.update (fun _ => false) fd true fd = true
    exact Function.update_self ..
  source := Function.update_self ..
  alone := fun _ hr => Function.update_of_ne hr ..
  base := by
    have hopen : step (nebEvdpQueueCreate batchSize) (.openFd fd)
        = some { nebEvdpQueueCreate batchSize with
          kernel := ⟨Function.update (fun _ => false) fd true, fun _ => none, []⟩ } := rfl
    have hsource : step { nebEvdpQueueCreate batchSize with
          kernel := ⟨Function.update (fun _ => false) fd true, fun _ => none, []⟩ }
        (.newSource p .osFd fd) = some (nebEvdpQueueCreateSingle batchSize p fd) := rfl
    exact base_step (base_step ⟨[], [], (Base.create batchSize).1⟩ rfl hopen) rfl hsource
  osFd := rfl
  ident := rfl
  free := rfl
  outside := rfl
  idle := fun _ => rfl
  ctlOp := fun h => by cases h
  pending := rfl
  reg := rfl

/-- One step of the queue writes its source. -/
private theorem Single.write {a : Action} (single : Single p fd q src) (h : step q a = some q')
    (fetches : q.fetching a = none) (ctl : q'.ctl = q.ctl) (ee : q'.ee = [])
    (isOpen : q'.kernel.isOpen = q.kernel.isOpen)
    (sources : q'.sources = Function.update q.sources p (some src')) (type : src'.type = src.type)
    (ident : src'.fd = src.fd) (free : src'.noDetach = src.noDetach)
    (outside : src'.inCallback = src.inCallback)
    (idle : src'.qInUse = false → src'.added = false)
    (ctlOp : src'.qInUse = true → src'.ctlOp = .add)
    (pending : src'.pending = (src'.qInUse && (!src'.added && src'.ctlEvent.events.any)))
    (reg : q'.kernel.reg fd = if src'.added then some ⟨src'.ctlEvent, true⟩ else none) :
    Single p fd q' src' where
  ctl := ctl.trans single.ctl
  ee := ee
  isOpen := by rw [isOpen, single.isOpen]
  source := by rw [sources, Function.update_self]
  alone := by
    intro r hr
    rw [sources, Function.update_of_ne hr, single.alone r hr]
  base := base_step single.base fetches h
  osFd := type.trans single.osFd
  ident := ident.trans single.ident
  free := free.trans single.free
  outside := outside.trans single.outside
  idle := idle
  ctlOp := ctlOp
  pending := pending
  reg := reg

/-- A call on a source that stays attached, or stays unattached. -/
private theorem Single.put {a : Action} (single : Single p fd q src) (h : step q a = some q')
    (fetches : q.fetching a = none) (kept : Kept src src') (ctl : q'.ctl = q.ctl)
    (ee : q'.ee = q.ee) (isOpen : q'.kernel.isOpen = q.kernel.isOpen)
    (sources : q'.sources = Function.update q.sources p (some src'))
    (outside : src'.inCallback = src.inCallback) (idle : src.qInUse = false → src'.added = false)
    (ctlOp : src.qInUse = true → src'.ctlOp = .add)
    (pending : src'.pending = (src.qInUse && (!src'.added && src'.ctlEvent.events.any)))
    (reg : q'.kernel.reg fd = if src'.added then some ⟨src'.ctlEvent, true⟩ else none) :
    Single p fd q' src' := by
  refine single.write h fetches ctl (ee.trans single.ee) isOpen sources kept.type kept.fd
    kept.noDetach outside ?_ ?_ ?_ reg
  · exact fun h => idle (kept.qInUse.symm.trans h)
  · exact fun h => ctlOp (kept.qInUse.symm.trans h)
  · rw [kept.qInUse]
    exact pending

private theorem any_eq (m : Interest) (d : Dir) : m.any = (m.has d || m.has d.other) := by
  cases d
  · rfl
  · exact Bool.or_comm _ _

private theorem next_eq (single : Single p fd q src) (d : Dir) (h : Option Handler) :
    step q (.next d p h true) = some (nebEvdpSourceOsFdNext d p src h true q).2 := by
  have hcall : q.callNext d p h true = some (nebEvdpSourceOsFdNext d p src h true q).2 := by
    unfold State.callNext State.call
    rw [single.source, single.ctl]
    simp [single.osFd, Ctl.userTurn]
  cases d <;> exact hcall

private theorem next_fetching (q : State) (d : Dir) (h : Option Handler) :
    q.fetching (.next d p h true) = none := by
  cases d <;> rfl

/-- A handler is set or removed before the source is attached. -/
private theorem next_idle (single : Single p fd q src) (d : Dir) (h : Option Handler)
    (idle : src.qInUse = false) :
    ∃ q' src', step q (.next d p h true) = some q' ∧ Single p fd q' src' ∧
      NextOf src src' d h.isSome := by
  have hstep := next_eq single d h
  obtain ⟨hev, hpend, hadded, hop, hcb⟩ := setHandler_events src d h
  have kept := (Kept.setHandler src d h).trans (.setInterest _ d h.isSome)
  have hreg := single.reg
  rw [single.idle idle] at hreg
  refine ⟨_, (src.setHandler d h).setInterest d h.isSome, hstep, ?_, kept.qInUse, ?_, ?_⟩
  · unfold nebEvdpSourceOsFdNext at hstep ⊢
    simp only at hstep ⊢
    have hnot : ¬ (src.setHandler d h).qInUse = true := by
      rw [(Kept.setHandler src d h).qInUse, idle]
      simp
    rw [if_neg hnot] at hstep ⊢
    refine single.put hstep (next_fetching q d h) kept rfl rfl rfl rfl hcb ?_ ?_ ?_ ?_
    · exact fun h => hadded.trans (single.idle h)
    · exact fun h => hop.trans (single.ctlOp h)
    · have h := single.pending
      rw [idle, Bool.false_and] at h
      rw [idle, Bool.false_and]
      exact hpend.trans h
    · rw [show ((src.setHandler d h).setInterest d h.isSome).added = false from
        hadded.trans (single.idle idle)]
      exact hreg
  · exact has_put_self _ d _
  · change ((src.setHandler d h).ctlEvent.events.put d h.isSome).has d.other = _
    rw [has_put_other, hev]

/-- A handler is set on an attached source. -/
private theorem next_set (single : Single p fd q src) (d : Dir) (h : Handler)
    (attached : src.qInUse = true) (keeps : KeepsRegistration src d (some h)) :
    ∃ q' src', step q (.next d p (some h) true) = some q' ∧ Single p fd q' src' ∧
      NextOf src src' d true := by
  have hstep := next_eq single d (some h)
  obtain ⟨hev, hpend, hadded, hop, hcb⟩ := setHandler_events src d (some h)
  have kept := Kept.setHandler src d (some h)
  have hreg := single.reg
  have hpending := single.pending
  rw [attached, Bool.true_and] at hpending
  unfold nebEvdpSourceOsFdNext at hstep
  simp only at hstep
  rw [if_pos (kept.qInUse.trans attached), if_pos (by rfl)] at hstep
  unfold evdpSourceOsFdReset at hstep
  by_cases hadd : src.added = true
  · have hhas : src.ctlEvent.events.has d = true := by simpa using keeps hadd
    rw [if_pos (hadded.trans hadd), if_pos (by rw [hev]; exact hhas)] at hstep
    refine ⟨_, src.setHandler d (some h), hstep, ?_, kept.qInUse, by rw [hev, hhas], by rw [hev]⟩
    refine single.put hstep (next_fetching q d _) kept rfl rfl rfl rfl hcb ?_ ?_ ?_ ?_
    · exact fun h => hadded.trans (single.idle h)
    · exact fun h => hop.trans (single.ctlOp h)
    · rw [attached, hpend, hadded, hev, hpending]
      rfl
    · rw [hadded, hev]
      exact hreg
  · rw [Bool.not_eq_true] at hadd
    have hnone : q.kernel.reg fd = none := by
      rw [hreg, hadd]
      rfl
    rw [if_neg (by simp [hadd])] at hstep
    simp only at hstep
    have kept' := kept.trans (.setInterest _ d true)
    have hany : ((src.setHandler d (some h)).setInterest d true).ctlEvent.events.any = true := by
      rw [any_iff _ d]
      exact .inl (has_put_self _ d true)
    have hother : ((src.setHandler d (some h)).setInterest d true).ctlEvent.events.has d.other
        = src.ctlEvent.events.has d.other := by
      change ((src.setHandler d (some h)).ctlEvent.events.put d true).has d.other = _
      rw [has_put_other, hev]
    have hadded' : ((src.setHandler d (some h)).setInterest d true).added = false :=
      hadded.trans hadd
    have hpend' : ((src.setHandler d (some h)).setInterest d true).pending = src.pending := hpend
    have hcb' : ((src.setHandler d (some h)).setInterest d true).inCallback = false :=
      hcb.trans single.outside
    have hop' : ((src.setHandler d (some h)).setInterest d true).ctlOp = src.ctlOp := hop
    generalize hnew : (src.setHandler d (some h)).setInterest d true = new at *
    have hhas : new.ctlEvent.events.has d = true := by
      rw [← hnew]
      exact has_put_self _ d true
    split at hstep
    · refine ⟨_, { new with pending := true }, hstep, ?_, kept'.qInUse, hhas, hother⟩
      refine single.put hstep (next_fetching q d _) (kept'.setPending true) rfl rfl rfl rfl
        (hcb'.trans single.outside.symm) ?_ ?_ ?_ ?_
      · exact fun _ => hadded'
      · exact fun h => hop'.trans (single.ctlOp h)
      · simp [attached, hadded', hany]
      · rw [if_neg (by simp [hadded'])]
        exact hnone
    · rename_i hstay
      refine ⟨_, new, hstep, ?_, kept'.qInUse, hhas, hother⟩
      refine single.put hstep (next_fetching q d _) kept' rfl rfl rfl rfl
        (hcb'.trans single.outside.symm) ?_ ?_ ?_ ?_
      · exact fun _ => hadded'
      · exact fun h => hop'.trans (single.ctlOp h)
      · simpa [attached, hadded', hany, hcb'] using hstay
      · rw [if_neg (by simp [hadded'])]
        exact hnone

/-- A handler is removed from an attached source. -/
private theorem next_unset (single : Single p fd q src) (d : Dir) (attached : src.qInUse = true)
    (keeps : KeepsRegistration src d none) :
    ∃ q' src', step q (.next d p none true) = some q' ∧ Single p fd q' src' ∧
      NextOf src src' d false := by
  have hstep := next_eq single d none
  obtain ⟨hev, hpend, hadded, hop, hcb⟩ := setHandler_events src d none
  have kept := Kept.setHandler src d none
  have hreg := single.reg
  have hpending := single.pending
  rw [attached, Bool.true_and] at hpending
  unfold nebEvdpSourceOsFdNext at hstep
  simp only at hstep
  rw [if_pos (kept.qInUse.trans attached), if_neg (by simp)] at hstep
  unfold evdpSourceOsFdUnset at hstep
  have kept' := kept.trans (.setInterest _ d false)
  have hother : ((src.setHandler d none).setInterest d false).ctlEvent.events.has d.other
      = src.ctlEvent.events.has d.other := by
    change ((src.setHandler d none).ctlEvent.events.put d false).has d.other = _
    rw [has_put_other, hev]
  have hhas : ((src.setHandler d none).setInterest d false).ctlEvent.events.has d = false :=
    has_put_self _ d false
  have hadded' : ((src.setHandler d none).setInterest d false).added = src.added := hadded
  have hpend' : ((src.setHandler d none).setInterest d false).pending = src.pending := hpend
  have hcb' : ((src.setHandler d none).setInterest d false).inCallback = src.inCallback := hcb
  have hop' : ((src.setHandler d none).setInterest d false).ctlOp = src.ctlOp := hop
  by_cases hadd : src.added = true
  · rw [if_pos (hadded.trans hadd)] at hstep
    rw [hadd, Bool.not_true, Bool.false_and] at hpending
    by_cases hd : src.ctlEvent.events.has d = true
    · -- the last direction: the descriptor is un-registered
      rw [if_pos (by rw [hev]; exact hd)] at hstep
      simp only at hstep
      have ho : src.ctlEvent.events.has d.other = false := by
        have h := keeps hadd
        rw [if_neg (by simp)] at h
        exact Bool.eq_false_iff.2 fun ho => h ⟨hd, ho⟩
      rw [if_neg (by rw [hother, ho]; simp)] at hstep
      generalize hnew : (src.setHandler d none).setInterest d false = new at *
      have hok : (q.kernel.epollCtl .del p new true).1 = .ok := by
        refine epollCtl_del ?_ ?_
        · rw [kept'.fd, single.ident]
          exact single.isOpen
        · rw [kept'.fd, single.ident, hreg, if_pos hadd]
          simp
      have hsrc := doDelOsFd_source p new q.kernel
      rw [if_pos hok] at hsrc
      have hk := doDelOsFd_kernel p new q.kernel
      refine ⟨_, { new with added := false, ctlOp := .add }, hstep, ?_, kept'.qInUse, hhas, hother⟩
      refine single.put hstep (next_fetching q d _) (kept'.trans ⟨rfl, rfl, rfl, rfl, rfl⟩) rfl rfl
        ?_ ?_ hcb' ?_ ?_ ?_ ?_
      · change (doDelOsFd p new q.kernel).2.2.isOpen = _
        rw [hk]
        rfl
      · change Function.update q.sources p (some (doDelOsFd p new q.kernel).2.1) = _
        rw [hsrc]
      · exact fun _ => rfl
      · exact fun _ => rfl
      · change new.pending = (src.qInUse && (!false && new.ctlEvent.events.any))
        rw [attached, hpend', hpending, any_eq _ d, hhas, hother, ho]
        rfl
      · change (doDelOsFd p new q.kernel).2.2.reg fd = none
        rw [hk, ← kept'.fd.trans single.ident, epollCtl_ok hok]
        rfl
    · rw [if_neg (by rw [hev]; exact hd)] at hstep
      refine ⟨_, src.setHandler d none, hstep, ?_, kept.qInUse, ?_, by rw [hev]⟩
      · refine single.put hstep (next_fetching q d _) kept rfl rfl rfl rfl hcb ?_ ?_ ?_ ?_
        · exact fun h => hadded.trans (single.idle h)
        · exact fun h => hop.trans (single.ctlOp h)
        · rw [attached, hpend, hpending, hadded, hadd]
          rfl
        · rw [hadded, hev]
          exact hreg
      · rw [hev]
        exact Bool.eq_false_iff.2 hd
  · rw [Bool.not_eq_true] at hadd
    have hnone : q.kernel.reg fd = none := by
      rw [hreg, hadd]
      rfl
    rw [hadd, Bool.not_false, Bool.true_and] at hpending
    rw [if_neg (by simp [hadd])] at hstep
    simp only at hstep
    generalize hnew : (src.setHandler d none).setInterest d false = new at *
    have hany : new.ctlEvent.events.any = src.ctlEvent.events.has d.other := by
      rw [any_eq _ d, hhas, hother, Bool.false_or]
    have hput : ∀ q' b, step q (.next d p none true) = some q' →
        q'.ctl = q.ctl → q'.ee = q.ee → q'.kernel = q.kernel →
        q'.sources = Function.update q.sources p (some { new with pending := b }) →
        b = src.ctlEvent.events.has d.other → Single p fd q' { new with pending := b } := by
      intro q' b h hctl hee hk hsources hb
      refine single.put h (next_fetching q d _) (kept'.setPending b) hctl hee (by rw [hk]) hsources
        hcb' ?_ ?_ ?_ ?_
      · exact fun _ => hadded'.trans hadd
      · exact fun h => hop'.trans (single.ctlOp h)
      · change b = (src.qInUse && (!new.added && new.ctlEvent.events.any))
        rw [attached, hadded', hadd, hany, hb]
        rfl
      · rw [if_neg (by simp [hadded', hadd]), hk]
        exact hnone
    have hnewp : ∀ b, src.pending = b → { new with pending := b } = new := by
      intro b hb
      rw [← hb, ← hpend']
    split at hstep
    · rename_i hp
      have hp' : src.pending = true := hpend'.symm.trans hp
      split at hstep
      · rename_i ho
        refine ⟨_, { new with pending := true }, hstep, hput _ true hstep rfl rfl rfl ?_ ?_,
          kept'.qInUse, hhas, hother⟩
        · rw [hnewp true hp']
          rfl
        · rw [← hother, ho]
      · rename_i ho
        refine ⟨_, { new with pending := false }, hstep, hput _ false hstep rfl rfl rfl rfl ?_,
          kept'.qInUse, hhas, hother⟩
        rw [← hother]
        exact (Bool.eq_false_iff.2 ho).symm
    · rename_i hp
      have hp' : src.pending = false := hpend'.symm.trans (Bool.eq_false_iff.2 hp)
      refine ⟨_, { new with pending := false }, hstep, hput _ false hstep rfl rfl rfl ?_ ?_,
        kept'.qInUse, hhas, hother⟩
      · rw [hnewp false hp']
        rfl
      · rw [hp', any_eq _ d] at hpending
        exact (Bool.or_eq_false_iff.1 hpending.symm).2.symm

/-- A call of `neb_evdp_source_os_fd_next_read` or `neb_evdp_source_os_fd_next_write`. -/
theorem Single.next (single : Single p fd q src) (d : Dir) (h : Option Handler)
    (keeps : KeepsRegistration src d h) :
    ∃ q' src', step q (.next d p h true) = some q' ∧ Single p fd q' src' ∧
      NextOf src src' d h.isSome := by
  cases huse : src.qInUse with
  | false => exact next_idle single d h huse
  | true =>
    cases h with
    | none => exact next_unset single d huse keeps
    | some h => exact next_set single d h huse keeps

/-- Attaching keeps the interest. -/
theorem Single.attach (single : Single p fd q src) :
    ∃ q' src', step q (.attach p true) = some q' ∧ Single p fd q' src' ∧ src'.qInUse = true ∧
      ∀ d, src'.ctlEvent.events.has d = src.ctlEvent.events.has d := by
  have hstep : step q (.attach p true) = some (nebEvdpQueueAttach p src true q).2 := by
    change q.call p _ = _
    unfold State.call
    rw [single.source, single.ctl]
    rfl
  have hpending := single.pending
  have hreg := single.reg
  unfold nebEvdpQueueAttach at hstep
  cases huse : src.qInUse with
  | true =>
    rw [if_pos huse] at hstep
    exact ⟨q, src, hstep, single, huse, fun _ => rfl⟩
  | false =>
    rw [if_neg (by simp [huse]), single.osFd] at hstep
    simp only at hstep
    unfold evdpSourceOsFdAttach at hstep
    simp only at hstep
    rw [huse, Bool.false_and] at hpending
    have hadded := single.idle huse
    rw [hadded] at hreg
    split at hstep
    · rename_i hany
      refine ⟨_, { src with
          type := .osFd
          qInUse := true
          pending := true
          ctlOp := .add
          ctlEvent := ⟨{ src.ctlEvent.events with epolloneshot := true },
            some ⟨p, q.attachments⟩⟩ },
        hstep, ?_, rfl, fun d => by cases d <;> rfl⟩
      refine single.write hstep rfl rfl single.ee rfl rfl single.osFd.symm rfl rfl rfl ?_ ?_ ?_ ?_
      · exact fun h => by cases h
      · exact fun _ => rfl
      · change true = (true && (!src.added && _))
        rw [hadded]
        exact hany.symm
      · change _ = if src.added = true then _ else none
        rw [hadded]
        exact hreg
    · rename_i hany
      refine ⟨_, { src with
          type := .osFd
          qInUse := true
          pending := false
          ctlOp := .add
          ctlEvent := ⟨{ src.ctlEvent.events with epolloneshot := true },
            some ⟨p, q.attachments⟩⟩ },
        hstep, ?_, rfl, fun d => by cases d <;> rfl⟩
      refine single.write hstep rfl rfl single.ee rfl rfl single.osFd.symm rfl rfl rfl ?_ ?_ ?_ ?_
      · exact fun h => by cases h
      · exact fun _ => rfl
      · change false = (true && (!src.added && _))
        rw [hadded]
        exact (Bool.eq_false_iff.2 hany).symm
      · change _ = if src.added = true then _ else none
        rw [hadded]
        exact hreg

/-- Detaching un-registers the descriptor and keeps the interest. -/
theorem Single.detach (single : Single p fd q src) :
    ∃ q' src', step q (.detach p false) = some q' ∧ Single p fd q' src' ∧ src'.qInUse = false ∧
      ∀ d, src'.ctlEvent.events.has d = src.ctlEvent.events.has d := by
  have hstep : step q (.detach p false) = some (nebEvdpQueueDetach p src false q).2 := by
    change q.call p _ = _
    unfold State.call
    rw [single.source, single.ctl]
    rfl
  unfold nebEvdpQueueDetach at hstep
  cases huse : src.qInUse with
  | false =>
    rw [if_pos (by simp [huse])] at hstep
    exact ⟨q, src, hstep, single, huse, fun _ => rfl⟩
  | true =>
    rw [if_neg (by simp [huse]), if_neg (by simp [single.free])] at hstep
    simp only at hstep
    have hdetach : ∃ src2 k2, evdpSourceDetach p src false (evdpQueueRmPendingEvents p q).kernel
        = (src2, k2) ∧ Kept src src2 ∧ src2.ctlEvent = src.ctlEvent ∧
          src2.inCallback = src.inCallback ∧ src2.added = false ∧ k2.isOpen = q.kernel.isOpen ∧
          k2.reg fd = none := by
      unfold evdpSourceDetach
      rw [single.osFd]
      simp only
      unfold evdpSourceOsFdDetach
      rw [if_neg (by simp)]
      have hreg := single.reg
      by_cases hadd : src.added = true
      · rw [if_pos hadd]
        have hok : (q.kernel.epollCtl .del p src true).1 = .ok := by
          refine epollCtl_del ?_ ?_
          · rw [single.ident]
            exact single.isOpen
          · rw [single.ident, hreg, if_pos hadd]
            simp
        have hsrc := doDelOsFd_source p src q.kernel
        rw [if_pos hok] at hsrc
        have hk := doDelOsFd_kernel p src q.kernel
        refine ⟨_, _, rfl, .doDel p src q.kernel, ?_, ?_, ?_, ?_, ?_⟩
        · exact (congrArg Source.ctlEvent hsrc :)
        · exact (congrArg Source.inCallback hsrc :)
        · exact (congrArg Source.added hsrc :)
        · exact (congrArg Kernel.isOpen hk :)
        · refine (congrFun (congrArg Kernel.reg hk) fd).trans ?_
          rw [← single.ident, epollCtl_ok hok]
          rfl
      · rw [if_neg hadd]
        rw [if_neg hadd] at hreg
        exact ⟨_, _, rfl, .refl src, rfl, rfl, Bool.eq_false_iff.2 hadd, rfl, hreg⟩
    obtain ⟨src2, k2, hdetach, kept, hevent, hcb, hadded, hopen, hnone⟩ := hdetach
    unfold doDetachFromQueue at hstep
    simp only [hdetach] at hstep
    have hput : ∀ q', step q (.detach p false) = some q' → q'.ctl = q.ctl → q'.ee = [] →
        q'.kernel = k2 → q'.sources = Function.update q.sources p
          (some { src2 with pending := false, qInUse := false }) →
        Single p fd q' { src2 with pending := false, qInUse := false } := by
      intro q' h hctl hee hk hsources
      refine single.write h rfl hctl hee (by rw [hk, hopen]) hsources kept.type kept.fd
        kept.noDetach hcb ?_ ?_ rfl ?_
      · exact fun _ => hadded
      · exact fun h => by cases h
      · rw [if_neg (by simp [hadded]), hk]
        exact hnone
    have hee : (evdpQueueRmPendingEvents p q).ee = [] := by
      simp [evdpQueueRmPendingEvents, single.ee]
    refine ⟨_, { src2 with pending := false, qInUse := false }, hstep, hput _ hstep ?_ ?_ ?_ ?_,
      rfl, fun d => by rw [← hevent]⟩
    · split <;> rfl
    · split <;> exact hee
    · split <;> rfl
    · split
      · rfl
      · rename_i hp
        rw [Bool.not_eq_true] at hp
        rw [← hp]
        rfl

/-- One run of the loop whose flush takes `rounds` rounds and whose wait finds no event. -/
def quietRun (rounds : Nat) : List Action :=
  .run :: List.replicate rounds (.flush true) ++ [.wait [], .proceed true]

/-- The direction is armed for the descriptor. -/
def Kernel.arms (k : Kernel) (fd : Fd) (d : Dir) : Bool :=
  (k.reg fd).any (fun r => r.armed && r.event.events.has d)

/-- The end of a flush, and a wait that finds no event. -/
private theorem quiet_end (source : q.sources p = some src)
    (alone : ∀ r, r ≠ p → q.sources r = none)
    (base : ∃ P R, Base q P R) (flushed : (src.qInUse && src.pending) = false) {count : Nat}
    (ctl : q.ctl = .flushing count) :
    ∃ q', Machine.run step q [.flush true, .wait [], .proceed true] = some q' ∧ q'.ctl = .user ∧
      q'.ee = [] ∧ q'.kernel = q.kernel ∧ q'.sources = q.sources ∧ ∃ P R, Base q' P R := by
  have hempty : q.links.next .pendingQs = none := by
    obtain ⟨P, R, base⟩ := base
    rw [next_pendingQs base source alone, flushed]
    rfl
  have h1 : step q (.flush true) = some { q with
      statsPending := q.statsPending - count
      statsRunning := q.statsRunning + count
      ctl := .ready } := by
    simp only [step, ctl, evdpQueueFlushPendingSources, hempty]
  generalize hq1 : { q with
      statsPending := q.statsPending - count
      statsRunning := q.statsRunning + count
      ctl := Ctl.ready } = q1 at h1
  have h2 : step q1 (.wait []) = some { q1 with ee := [], ctl := .events 0 } := by
    simp [step, ← hq1, Kernel.epollWait]
  generalize hq2 : { q1 with ee := [], ctl := Ctl.events 0 } = q2 at h2
  have h3 : step q2 (.proceed true) = some (q2.goto .user) := by
    simp [step, ← hq2, handleEvent]
  refine ⟨q2.goto .user, ?_, rfl, ?_, ?_, ?_, ?_⟩
  · simp [Machine.run, h1, h2, h3]
  · rw [← hq2]
    rfl
  · rw [← hq2, ← hq1]
    rfl
  · rw [← hq2, ← hq1]
    rfl
  · have hfetch : q2.fetching (.proceed true) = none := by
      rw [← hq2]
      rfl
    exact base_step (base_step (base_step base rfl h1) rfl h2) hfetch h3

/-- A flush without a pending source leaves the registration as it is. -/
private theorem Single.flush_idle (single : Single p fd q src) (waits : src.pending = false) :
    ∃ q', Machine.run step q (quietRun 1) = some q' ∧ Single p fd q' src ∧
      ∀ d, q'.kernel.arms fd d = (src.qInUse && src.ctlEvent.events.has d) := by
  have hrun : step q .run = some (q.goto (.flushing 0)) := by
    simp [step, single.ctl]
  obtain ⟨q', hend, hctl, hee, hk, hsources, hbase⟩ :=
    quiet_end (q := q.goto (.flushing 0)) single.source single.alone
      (base_step single.base rfl hrun) (by simp [waits]) rfl
  have hreg : q'.kernel.reg fd = if src.added then some ⟨src.ctlEvent, true⟩ else none := by
    rw [hk]
    exact single.reg
  refine ⟨q', ?_, ?_, ?_⟩
  · simp only [quietRun, List.replicate, List.cons_append, List.nil_append]
    rw [Machine.run_cons, hrun]
    exact hend
  · exact { single with
      ctl := hctl
      ee := hee
      isOpen := by
        rw [hk]
        exact single.isOpen
      source := by
        rw [hsources]
        exact single.source
      alone := by
        rw [hsources]
        exact single.alone
      base := hbase
      reg := hreg }
  · intro d
    unfold Kernel.arms
    rw [hreg]
    have hpending := single.pending
    rw [waits] at hpending
    cases huse : src.qInUse with
    | false =>
      rw [single.idle huse]
      rfl
    | true =>
      cases hadd : src.added with
      | true => simp
      | false =>
        rw [huse, hadd] at hpending
        have hany : src.ctlEvent.events.any = false := by simpa using hpending.symm
        rw [any_eq _ d, Bool.or_eq_false_iff] at hany
        simp [hany.1]

/-- A flush of the pending source registers its descriptor. -/
private theorem Single.flush_adds (single : Single p fd q src) (waits : src.pending = true) :
    ∃ q', Machine.run step q (quietRun 2) = some q' ∧
      Single p fd q' { src with added := true, pending := false } ∧
      ∀ d, q'.kernel.arms fd d = (src.qInUse && src.ctlEvent.events.has d) := by
  have hrun : step q .run = some (q.goto (.flushing 0)) := by
    simp [step, single.ctl]
  have hbase := base_step single.base rfl hrun
  have hpending := single.pending
  rw [waits] at hpending
  obtain ⟨huse, hadd, hany⟩ : src.qInUse = true ∧ src.added = false ∧
      src.ctlEvent.events.any = true := by simpa using hpending.symm
  have hnone : q.kernel.reg fd = none := by
    rw [single.reg, hadd]
    rfl
  have hok : (q.kernel.epollCtl src.ctlOp p src true).1 = .ok := by
    simp [Kernel.epollCtl, Kernel.answer, single.ctlOp huse, single.ident, single.isOpen, hnone]
  have hhead : (q.goto (.flushing 0)).links.next .pendingQs = some (.source p) := by
    obtain ⟨P, R, base⟩ := hbase
    rw [next_pendingQs base single.source single.alone, huse, waits]
    rfl
  have hsrc : (q.goto (.flushing 0)).sources p = some src := single.source
  have h1 : step (q.goto (.flushing 0)) (.flush true) = some
      ((slistRunningInsertNoStats p { src with added := true }
        (slistRemove p { q.goto (.flushing 0) with
          kernel := (q.kernel.epollCtl src.ctlOp p src true).2 })).goto (.flushing 1)) := by
    have hok' : ((q.goto (.flushing 0)).kernel.epollCtl src.ctlOp p src true).1 = .ok := hok
    change some (evdpQueueFlushPendingSources 0 true (q.goto (.flushing 0))) = _
    unfold evdpQueueFlushPendingSources
    rw [hhead]
    simp only [hsrc, hok', if_true]
    rfl
  generalize hq1 : (slistRunningInsertNoStats p { src with added := true }
        (slistRemove p { q.goto (.flushing 0) with
          kernel := (q.kernel.epollCtl src.ctlOp p src true).2 })).goto (.flushing 1) = q1 at h1
  have hsources1 : q1.sources
      = Function.update q.sources p (some { src with added := true, pending := false }) := by
    rw [← hq1]
    rfl
  have hsource1 : q1.sources p = some { src with added := true, pending := false } := by
    rw [hsources1, Function.update_self]
  have halone1 : ∀ r, r ≠ p → q1.sources r = none := by
    intro r hr
    rw [hsources1, Function.update_of_ne hr, single.alone r hr]
  obtain ⟨q', hend, hctl, hee, hk, hsources, hbase'⟩ :=
    quiet_end hsource1 halone1 (base_step hbase rfl h1) (by simp)
      (show q1.ctl = .flushing 1 by rw [← hq1]; rfl)
  have hreg : q'.kernel.reg fd = some ⟨src.ctlEvent, true⟩ := by
    rw [hk, ← hq1]
    change (q.kernel.epollCtl src.ctlOp p src true).2.reg fd = _
    rw [← single.ident, epollCtl_ok hok, single.ctlOp huse]
    rfl
  refine ⟨q', ?_, ?_, ?_⟩
  · simp only [quietRun, List.replicate, List.cons_append, List.nil_append]
    rw [Machine.run_cons, hrun, Option.bind_some, Machine.run_cons, h1]
    exact hend
  · exact {
      ctl := hctl
      ee := hee
      isOpen := by
        rw [hk, ← hq1]
        exact single.isOpen
      source := by
        rw [hsources]
        exact hsource1
      alone := by
        rw [hsources]
        exact halone1
      base := hbase'
      osFd := single.osFd
      ident := single.ident
      free := single.free
      outside := single.outside
      idle := by
        intro h
        rw [show src.qInUse = false from h] at huse
        cases huse
      ctlOp := single.ctlOp
      pending := by simp
      reg := hreg }
  · intro d
    unfold Kernel.arms
    rw [hreg, huse]
    rfl

/-- A flush registers the descriptor if the source is attached and wants a direction. -/
theorem Single.flush (single : Single p fd q src) :
    ∃ q' src', Machine.run step q (quietRun (if src.pending then 2 else 1)) = some q' ∧
      Single p fd q' src' ∧ src'.qInUse = src.qInUse ∧ src'.ctlEvent = src.ctlEvent ∧
      ∀ d, q'.kernel.arms fd d = (src.qInUse && src.ctlEvent.events.has d) := by
  cases waits : src.pending with
  | false =>
    obtain ⟨q', hrun, single', harms⟩ := single.flush_idle waits
    exact ⟨q', src, hrun, single', rfl, rfl, harms⟩
  | true =>
    obtain ⟨q', hrun, single', harms⟩ := single.flush_adds waits
    exact ⟨q', _, hrun, single', rfl, rfl, harms⟩

end Nebase.Evdp.Epoll
