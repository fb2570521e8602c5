/- One os_fd source with the kevent driver: what each call and each flush makes of its two
   directions, as long as no event comes. -/

import Nebase.Evdp.Kevent.Changes

set_option autoImplicit false
set_option relaxedAutoImplicit false

namespace Nebase.Evdp.Kevent

open Nebase.Foundation
open Nebase.Evdp.Epoll (Ptr Handler Dir)

@[simp] theorem half_setHalf_self (src : Source) (d : Dir) (h : Half) :
    (src.setHalf d h).half d = h := by
  cases d <;> rfl

@[simp] theorem half_setHalf_other (src : Source) (d : Dir) (h : Half) :
    (src.setHalf d h).half d.other = src.half d.other := by
  cases d <;> rfl

@[simp] theorem half_setHandler (src : Source) (d e : Dir) (h : Option Handler) :
    (src.setHandler d h).half e = src.half e := by
  cases d <;> rfl

@[simp] theorem setHalf_pending (src : Source) (d : Dir) (h : Half) :
    (src.setHalf d h).pending = src.pending := by
  cases d <;> rfl

@[simp] theorem setHandler_pending (src : Source) (d : Dir) (h : Option Handler) :
    (src.setHandler d h).pending = src.pending := by
  cases d <;> rfl

@[simp] theorem half_pending (src : Source) (b : Bool) (d : Dir) :
    Source.half { src with pending := b } d = src.half d := by
  cases d <;> rfl

@[simp] theorem setSource_pendingQs (q : State) (p : Ptr) (src : Source) :
    (q.setSource p src).pendingQs = q.pendingQs := rfl

@[simp] theorem setSource_kernel (q : State) (p : Ptr) (src : Source) :
    (q.setSource p src).kernel = q.kernel := rfl

@[simp] theorem moveToPending_kernel (p : Ptr) (src : Source) (q : State) :
    (moveToPending p src q).kernel = q.kernel := rfl

@[simp] theorem moveToRunning_kernel (p : Ptr) (src : Source) (q : State) :
    (moveToRunning p src q).kernel = q.kernel := rfl

/-- What the calls on an attached source keep of it. -/
structure Same (src src' : Source) : Prop where
  type : src'.type = src.type
  qInUse : src'.qInUse = src.qInUse
  noDetach : src'.noDetach = src.noDetach
  ident : src'.ident = src.ident

theorem Same.setHalf (src : Source) (d : Dir) (h : Half) : Same src (src.setHalf d h) := by
  cases d <;> exact ⟨rfl, rfl, rfl, rfl⟩

theorem Same.setHandler (src : Source) (d : Dir) (h : Option Handler) :
    Same src (src.setHandler d h) := by
  cases d <;> exact ⟨rfl, rfl, rfl, rfl⟩

theorem Same.trans {src src' src'' : Source} (h : Same src src') (h' : Same src' src'') :
    Same src src'' :=
  ⟨h'.type.trans h.type, h'.qInUse.trans h.qInUse, h'.noDetach.trans h.noDetach,
    h'.ident.trans h.ident⟩

theorem Same.setPending {src src' : Source} (h : Same src src') (b : Bool) :
    Same src { src' with pending := b } :=
  ⟨h.type, h.qInUse, h.noDetach, h.ident⟩

/-- The direction is registered, or will be at the next flush. -/
def Half.wanted (h : Half) : Bool := h.added || h.toAdd

/-- The change that a half writes into the array is the registration of its direction. -/
def Half.Ready (h : Half) (p : Ptr) (fd : Nat) (d : Dir) : Prop :=
  h.ctlEvent.ident = fd ∧ h.ctlEvent.filter = .ofDir d ∧ h.ctlEvent.udata = some p ∧
    (h.toAdd = true → h.ctlEvent.flags = .add true)

/-- What holds of one half of the source at `p`, which has the descriptor `fd`. -/
structure HalfOk (p : Ptr) (fd : Nat) (k : Kernel) (qInUse : Bool) (d : Dir) (h : Half) :
    Prop where
  knote : (k (fd, .ofDir d)).isSome = h.added
  apart : h.added = true → h.toAdd = false
  idle : qInUse = false → h.added = false
  ready : qInUse = true → h.Ready p fd d

/-- The queue has no source but `src`, an os_fd source, and the user's code runs. -/
structure Single (p : Ptr) (fd : Nat) (q : State) (src : Source) : Prop where
  ctl : q.ctl = .user
  nevents : q.nevents = 0
  source : q.sources p = some src
  osFd : src.type = .osFd
  ident : src.ident = fd
  free : src.noDetach = false
  pendingQs : q.pendingQs = if src.pending then [p] else []
  pending : src.pending = (src.qInUse && (src.rd.toAdd || src.wr.toAdd))
  halves : ∀ d, HalfOk p fd q.kernel src.qInUse d (src.half d)

private theorem forall_dir {P : Dir → Prop} (d : Dir) (h : P d) (h' : P d.other) : ∀ e, P e := by
  intro e
  cases d <;> cases e <;> first | exact h | exact h'

private theorem toAdd_or (src : Source) (d : Dir) :
    (src.rd.toAdd || src.wr.toAdd) = ((src.half d).toAdd || (src.half d.other).toAdd) := by
  cases d
  · rfl
  · exact Bool.or_comm _ _

private theorem ofDir_ne (d : Dir) : Filter.ofDir d.other ≠ Filter.ofDir d := by
  cases d <;> simp [Filter.ofDir, Dir.other]

variable {p : Ptr} {fd : Nat} {q q' : State} {src src' : Source}

/-- What a call on the source leaves of it: `d` is wanted or not, as `b` says, and the other
direction is as it was. -/
structure NextOf (src src' : Source) (d : Dir) (b : Bool) : Prop where
  qInUse : src'.qInUse = src.qInUse
  wanted : (src'.half d).wanted = b
  other : src'.half d.other = src.half d.other

/-- One half of the source is written, perhaps with a change of its knote. -/
private theorem Single.put (single : Single p fd q src) (d : Dir) (same : Same src src')
    (other : src'.half d.other = src.half d.other) (ctl : q'.ctl = q.ctl)
    (nevents : q'.nevents = q.nevents) (source : q'.sources p = some src')
    (pendingQs : q'.pendingQs = if src'.pending then [p] else [])
    (pending : src'.pending =
      (src.qInUse && ((src'.half d).toAdd || (src.half d.other).toAdd)))
    (kernel : q'.kernel (fd, .ofDir d.other) = q.kernel (fd, .ofDir d.other))
    (half : HalfOk p fd q'.kernel src.qInUse d (src'.half d)) : Single p fd q' src' where
  ctl := ctl.trans single.ctl
  nevents := nevents.trans single.nevents
  source := source
  osFd := same.type.trans single.osFd
  ident := same.ident.trans single.ident
  free := same.noDetach.trans single.free
  pendingQs := pendingQs
  pending := by rw [pending, same.qInUse, toAdd_or src' d, other]
  halves := by
    have hother := single.halves d.other
    rw [same.qInUse]
    refine forall_dir d half ?_
    rw [other]
    exact ⟨by rw [kernel]; exact hother.knote, hother.apart, hother.idle, hother.ready⟩

private theorem next_idle (single : Single p fd q src) (d : Dir) (h : Option Handler)
    (idle : src.qInUse = false) :
    ∃ src', Single p fd (nebEvdpSourceOsFdNext d p src h true q).2 src' ∧
      NextOf src src' d h.isSome := by
  have same := (Same.setHandler src d h).trans
    (.setHalf _ d { (src.setHandler d h).half d with toAdd := h.isSome })
  have hd := single.halves d
  have hpend := single.pending
  rw [idle, Bool.false_and] at hpend
  unfold nebEvdpSourceOsFdNext
  simp only
  rw [if_neg (by rw [(Same.setHandler src d h).qInUse, idle]; simp)]
  unfold evdpSourceOsFdInit
  refine ⟨_, single.put d same (by simp) rfl rfl (Function.update_self ..) ?_ ?_ rfl ?_,
    same.qInUse, ?_, by simp⟩
  · simpa using single.pendingQs
  · simp [hpend, idle]
  · rw [half_setHalf_self, half_setHandler]
    refine ⟨hd.knote, ?_, hd.idle, ?_⟩
    · intro hadded
      rw [hd.idle idle] at hadded
      cases hadded
    · rw [idle]
      intro h
      cases h
  · simp [Half.wanted, hd.idle idle]

/-- A handler is set on an attached source: a direction that is not registered will be. -/
private theorem next_set (single : Single p fd q src) (d : Dir) (h : Handler)
    (attached : src.qInUse = true) :
    ∃ src', Single p fd (nebEvdpSourceOsFdNext d p src (some h) true q).2 src' ∧
      NextOf src src' d true := by
  have same := Same.setHandler src d (some h)
  have hd := single.halves d
  have hpend := single.pending
  rw [toAdd_or src d] at hpend
  unfold nebEvdpSourceOsFdNext
  simp only
  rw [if_pos (same.qInUse.trans attached), if_pos (by rfl)]
  unfold evdpSourceOsFdReset
  simp only [half_setHandler]
  by_cases hadded : (src.half d).added = true
  · rw [if_pos hadded]
    refine ⟨_, single.put d same (by simp) rfl rfl (Function.update_self ..) ?_ ?_ rfl ?_,
      same.qInUse, ?_, by simp⟩
    · simpa using single.pendingQs
    · simpa using hpend
    · rw [half_setHandler]
      exact hd
    · simp [Half.wanted, hadded]
  rw [if_neg hadded]
  obtain ⟨hident, hfilter, hudata, -⟩ := hd.ready attached
  generalize hnew : (⟨(src.half d).added, true,
    { (src.half d).ctlEvent with flags := .add true }⟩ : Half) = new
  have same' := same.trans (.setHalf _ d new)
  have hok : HalfOk p fd q.kernel src.qInUse d new := by
    rw [← hnew]
    exact ⟨hd.knote, fun h => absurd h hadded, hd.idle,
      fun _ => ⟨hident, hfilter, hudata, fun _ => rfl⟩⟩
  have htoAdd : new.toAdd = true := by rw [← hnew]
  have hwanted : new.wanted = true := by simp [Half.wanted, htoAdd]
  by_cases hp : src.pending = true
  · rw [if_pos (by simpa using hp)]
    refine ⟨_, single.put d same' (by simp) rfl rfl (Function.update_self ..) ?_ ?_ rfl ?_,
      same'.qInUse, by simpa using hwanted, by simp⟩
    · simpa using single.pendingQs
    · simp [hp, attached, htoAdd]
    · simpa using hok
  · rw [if_neg (by simpa using hp)]
    have hq : q.pendingQs = [] := by rw [single.pendingQs, if_neg hp]
    refine ⟨_, single.put d (same'.setPending true) (by simp) rfl rfl (Function.update_self ..)
      ?_ ?_ rfl ?_, same'.qInUse, by simpa using hwanted, by simp⟩
    · change p :: q.pendingQs.erase p = [p]
      rw [hq]
      rfl
    · simp [attached, htoAdd]
    · simpa using hok

/-- A registered direction is deleted. -/
private theorem doDelOsFd_added {k : Kernel} (d : Dir)
    (hd : HalfOk p fd k src.qInUse d (src.half d))
    (attached : src.qInUse = true) (hadded : (src.half d).added = true) :
    (doDelOsFd d src true k).2 =
      (src.setHalf d ⟨false, (src.half d).toAdd,
        { (src.half d).ctlEvent with flags := .delete }⟩,
        Function.update k (fd, .ofDir d) none) := by
  obtain ⟨hident, hfilter, -⟩ := hd.ready attached
  have hknote := hd.knote
  rw [hadded] at hknote
  unfold doDelOsFd
  simp [Kernel.change, Flags.delete, hident, hfilter, hknote]

private theorem update_other (k : Kernel) (d : Dir) (o : Option Knote) :
    Function.update k (fd, .ofDir d) o (fd, .ofDir d.other) = k (fd, .ofDir d.other) := by
  refine Function.update_of_ne ?_ _ _
  intro heq
  exact ofDir_ne d (Prod.mk.inj heq).2

/-- A handler is removed from an attached source: its direction is neither registered nor asked
for. -/
private theorem next_unset (single : Single p fd q src) (d : Dir) (attached : src.qInUse = true) :
    ∃ src', Single p fd (nebEvdpSourceOsFdNext d p src none true q).2 src' ∧
      NextOf src src' d false := by
  have same := Same.setHandler src d none
  have hd := single.halves d
  have hpend := single.pending
  rw [toAdd_or src d] at hpend
  unfold nebEvdpSourceOsFdNext
  simp only
  rw [if_pos (same.qInUse.trans attached), if_neg (by simp)]
  unfold evdpSourceOsFdUnset
  simp only [half_setHandler]
  obtain ⟨hident, hfilter, hudata, -⟩ := hd.ready attached
  by_cases hadded : (src.half d).added = true
  · -- the knote is deleted
    rw [if_pos hadded]
    have htoAdd := hd.apart hadded
    have hd' : HalfOk p fd q.kernel (src.setHandler d none).qInUse d
        ((src.setHandler d none).half d) := by
      rw [same.qInUse, half_setHandler]
      exact hd
    have hdel := doDelOsFd_added d hd' (same.qInUse.trans attached)
      (by rw [half_setHandler]; exact hadded)
    rw [half_setHandler] at hdel
    have hsrc := congrArg Prod.fst hdel
    have hk := congrArg Prod.snd hdel
    simp only at hsrc hk
    rw [hsrc, hk]
    generalize hnew : (⟨false, (src.half d).toAdd,
      { (src.half d).ctlEvent with flags := .delete }⟩ : Half) = new
    have same' := same.trans (.setHalf _ d new)
    refine ⟨_, single.put d same' (by simp) rfl rfl (Function.update_self ..) ?_ ?_ ?_ ?_,
      same'.qInUse, ?_, by simp⟩
    · simpa using single.pendingQs
    · rw [setHalf_pending, setHandler_pending, half_setHalf_self, ← hnew]
      exact hpend
    · exact update_other q.kernel d none
    · rw [half_setHalf_self, ← hnew]
      refine ⟨?_, fun h => (by cases h), fun _ => rfl, fun _ => ⟨hident, hfilter, hudata, ?_⟩⟩
      · change (Function.update q.kernel (fd, .ofDir d) none (fd, .ofDir d)).isSome = false
        rw [Function.update_self]
        rfl
      · intro h
        rw [htoAdd] at h
        cases h
    · rw [half_setHalf_self, ← hnew]
      simp [Half.wanted, htoAdd]
  rw [if_neg hadded]
  generalize hnew : (⟨(src.half d).added, false, (src.half d).ctlEvent⟩ : Half) = new
  have same' := same.trans (.setHalf _ d new)
  have hok : HalfOk p fd q.kernel src.qInUse d new := by
    rw [← hnew]
    exact ⟨hd.knote, fun h => absurd h hadded, hd.idle,
      fun _ => ⟨hident, hfilter, hudata, fun h => (by cases h)⟩⟩
  have htoAdd : new.toAdd = false := by rw [← hnew]
  have hwanted : new.wanted = false := by
    rw [← hnew]
    simpa [Half.wanted] using hadded
  rw [attached, Bool.true_and] at hpend
  by_cases hp : src.pending = true
  · rw [if_pos (by simpa using hp)]
    by_cases hother : (src.half d.other).toAdd = true
    · rw [if_pos (by simpa using hother)]
      refine ⟨_, single.put d same' (by simp) rfl rfl (Function.update_self ..) ?_ ?_ rfl ?_,
        same'.qInUse, by simpa using hwanted, by simp⟩
      · simpa using single.pendingQs
      · simp [hp, attached, hother]
      · simpa using hok
    · rw [if_neg (by simpa using hother)]
      refine ⟨_, single.put d (same'.setPending false) (by simp) rfl rfl
        (Function.update_self ..) ?_ ?_ rfl ?_, same'.qInUse, by simpa using hwanted, by simp⟩
      · have hq : q.pendingQs = [p] := by rw [single.pendingQs, if_pos hp]
        change q.pendingQs.erase p = []
        rw [hq]
        simp
      · simp [htoAdd, hother]
      · simpa using hok
  · rw [if_neg (by simpa using hp)]
    have hother : (src.half d.other).toAdd = false := by
      cases ho : (src.half d.other).toAdd with
      | false => rfl
      | true =>
          rw [ho, Bool.or_true] at hpend
          exact absurd hpend hp
    refine ⟨_, single.put d same' (by simp) rfl rfl (Function.update_self ..) ?_ ?_ rfl ?_,
      same'.qInUse, by simpa using hwanted, by simp⟩
    · simpa using single.pendingQs
    · simpa [htoAdd, hother] using hp
    · simpa using hok

private theorem call_eq (single : Single p fd q src) (f : Source → State) :
    q.call p f = some (f src) := by
  unfold State.call
  rw [single.source, single.ctl]
  rfl

/-- A call of `neb_evdp_source_os_fd_next_read` or `neb_evdp_source_os_fd_next_write`. -/
theorem Single.next (single : Single p fd q src) (d : Dir) (h : Option Handler) :
    ∃ q' src', step q (.next d p h true) = some q' ∧ Single p fd q' src' ∧
      NextOf src src' d h.isSome := by
  have hstep : step q (.next d p h true) = some (nebEvdpSourceOsFdNext d p src h true q).2 := by
    simp only [step, call_eq single]
    rw [if_pos (by simp [single.source, single.osFd])]
  cases huse : src.qInUse with
  | false =>
    obtain ⟨src', hnext⟩ := next_idle single d h huse
    exact ⟨_, src', hstep, hnext⟩
  | true =>
    cases h with
    | none =>
      obtain ⟨src', hnext⟩ := next_unset single d huse
      exact ⟨_, src', hstep, hnext⟩
    | some h =>
      obtain ⟨src', hnext⟩ := next_set single d h huse
      exact ⟨_, src', hstep, hnext⟩

private theorem attach_idle (single : Single p fd q src) (idle : src.qInUse = false) :
    ∃ src', Single p fd (nebEvdpQueueAttach p src q).2 src' ∧ src'.qInUse = true ∧
      ∀ d, (src'.half d).wanted = (src.half d).wanted := by
  have hpend := single.pending
  rw [idle, Bool.false_and] at hpend
  have hq : q.pendingQs = [] := by
    rw [single.pendingQs, hpend]
    rfl
  have hhalf : ∀ b, ∀ d, HalfOk p fd q.kernel true d (Source.half
      { src with
        qInUse := true
        pending := b
        rd := { src.rd with ctlEvent := ⟨src.ident, .read, .add true, some p⟩ }
        wr := { src.wr with ctlEvent := ⟨src.ident, .write, .add true, some p⟩ } } d) := by
    intro b d
    have hd := single.halves d
    cases d with
    | read =>
        exact ⟨hd.knote, hd.apart, fun h => (by cases h),
          fun _ => ⟨single.ident, rfl, rfl, fun _ => rfl⟩⟩
    | write =>
        exact ⟨hd.knote, hd.apart, fun h => (by cases h),
          fun _ => ⟨single.ident, rfl, rfl, fun _ => rfl⟩⟩
  unfold nebEvdpQueueAttach
  rw [if_neg (by simp [idle]), single.osFd]
  simp only
  unfold evdpSourceOsFdAttach
  simp only
  by_cases hadd : (src.rd.toAdd || src.wr.toAdd) = true
  · rw [if_pos hadd]
    refine ⟨_, ⟨single.ctl, single.nevents, Function.update_self .., rfl, single.ident,
      single.free, ?_, ?_, ?_⟩, rfl, ?_⟩
    · change p :: q.pendingQs = [p]
      rw [hq]
    · exact hadd.symm
    · intro d
      have := hhalf true d
      cases d <;> exact this
    · intro d
      cases d <;> rfl
  · rw [if_neg hadd]
    refine ⟨_, ⟨single.ctl, single.nevents, Function.update_self .., rfl, single.ident,
      single.free, ?_, ?_, ?_⟩, rfl, ?_⟩
    · exact hq
    · simpa using hadd
    · intro d
      have := hhalf false d
      cases d <;> exact this
    · intro d
      cases d <;> rfl

/-- Attaching keeps what is wanted. -/
theorem Single.attach (single : Single p fd q src) :
    ∃ q' src', step q (.attach p) = some q' ∧ Single p fd q' src' ∧ src'.qInUse = true ∧
      ∀ d, (src'.half d).wanted = (src.half d).wanted := by
  have hstep : step q (.attach p) = some (nebEvdpQueueAttach p src q).2 := call_eq single _
  cases huse : src.qInUse with
  | false =>
    obtain ⟨src', hattach⟩ := attach_idle single huse
    exact ⟨_, src', hstep, hattach⟩
  | true =>
    unfold nebEvdpQueueAttach at hstep
    rw [if_pos huse] at hstep
    exact ⟨q, src, hstep, single, huse, fun _ => rfl⟩

/-- What a detach makes of one half. -/
private def Half.dropped (h : Half) : Half :=
  if h.added then { h with added := false, ctlEvent := { h.ctlEvent with flags := .delete } } else h

@[simp] private theorem dropped_added (h : Half) : h.dropped.added = false := by
  unfold Half.dropped
  split
  · rfl
  · rename_i hadded
    exact Bool.eq_false_iff.2 hadded

private theorem dropped_wanted (h : Half) : h.dropped.wanted = h.toAdd := by
  unfold Half.wanted
  rw [dropped_added, Bool.false_or]
  unfold Half.dropped
  split <;> rfl

/-- One half of the detach function. -/
private def dropHalf (d : Dir) (x : Source × Kernel) : Source × Kernel :=
  if (x.1.half d).added then (doDelOsFd d x.1 true x.2).2 else x

private theorem detach_eq (src : Source) (k : Kernel) :
    evdpSourceOsFdDetach src false true k = dropHalf .write (dropHalf .read (src, k)) := by
  unfold evdpSourceOsFdDetach dropHalf
  rw [if_neg (by simp)]
  rfl

private theorem dropHalf_spec {k : Kernel} (d : Dir)
    (hd : HalfOk p fd k src.qInUse d (src.half d)) (attached : src.qInUse = true) :
    let x := dropHalf d (src, k)
    Same src x.1 ∧ x.1.pending = src.pending ∧ x.1.half d = (src.half d).dropped ∧
      x.1.half d.other = src.half d.other ∧ (x.2 (fd, .ofDir d)).isSome = false ∧
      x.2 (fd, .ofDir d.other) = k (fd, .ofDir d.other) := by
  unfold dropHalf Half.dropped
  simp only
  by_cases hadded : (src.half d).added = true
  · rw [if_pos hadded, if_pos hadded, doDelOsFd_added d hd attached hadded]
    refine ⟨.setHalf _ d _, by simp, by simp, by simp, ?_, update_other k d none⟩
    simp
  · rw [if_neg hadded, if_neg hadded]
    refine ⟨⟨rfl, rfl, rfl, rfl⟩, rfl, rfl, rfl, ?_, rfl⟩
    rw [hd.knote]
    simpa using hadded

private theorem detach_attached (single : Single p fd q src) (attached : src.qInUse = true) :
    ∃ src', Single p fd (nebEvdpQueueDetach p src false true q).2 src' ∧ src'.qInUse = false ∧
      ∀ d, (src'.half d).wanted = (src.half d).toAdd := by
  have hread := dropHalf_spec (k := q.kernel) .read (single.halves .read) attached
  generalize hx : dropHalf .read (src, q.kernel) = x at hread
  obtain ⟨src1, k1⟩ := x
  obtain ⟨same1, hpend1, hrd1, hwr1, hkrd1, hkwr1⟩ := hread
  have hok : HalfOk p fd k1 src1.qInUse .write (src1.half .write) := by
    have h := single.halves .write
    rw [same1.qInUse, show src1.half .write = src.half .write from hwr1]
    exact ⟨(congrArg Option.isSome hkwr1).trans h.knote, h.apart, h.idle, h.ready⟩
  have hwrite := dropHalf_spec .write hok (same1.qInUse.trans attached)
  generalize hy : dropHalf .write (src1, k1) = y at hwrite
  obtain ⟨src2, k2⟩ := y
  obtain ⟨same2, hpend2, hwr2, hrd2, hkwr2, hkrd2⟩ := hwrite
  have hsource : evdpSourceOsFdDetach src false true q.kernel = (src2, k2) := by
    rw [detach_eq, hx, hy]
  have hhalf : ∀ d, src2.half d = (src.half d).dropped := by
    refine forall_dir .read (hrd2.trans hrd1) ?_
    rw [show src2.half Dir.read.other = _ from hwr2]
    exact congrArg Half.dropped hwr1
  have hk : ∀ d, (k2 (fd, .ofDir d)).isSome = false := by
    refine forall_dir .read ?_ hkwr2
    exact (congrArg Option.isSome hkrd2).trans hkrd1
  have hpend := hpend2.trans hpend1
  have hq : q.pendingQs.erase p = [] := by
    rw [single.pendingQs]
    split <;> simp
  unfold nebEvdpQueueDetach
  rw [if_neg (by simp [attached]), if_neg (by simp [single.free])]
  unfold doDetachFromQueue evdpSourceDetach
  rw [single.osFd]
  simp only
  rw [show evdpSourceOsFdDetach src false true (evdpQueueRmPendingEvents p q).kernel = (src2, k2)
    from hsource]
  simp only
  have same := same1.trans same2
  have hends : ∀ q', q'.ctl = q.ctl → q'.nevents = q.nevents → q'.pendingQs = [] →
      q'.kernel = k2 → q'.sources p = some { src2 with pending := false, qInUse := false } →
      Single p fd q' { src2 with pending := false, qInUse := false } := by
    intro q' hctl hnevents hpending hkernel hsrc
    refine ⟨hctl.trans single.ctl, hnevents.trans single.nevents, hsrc,
      same.type.trans single.osFd, same.ident.trans single.ident,
      same.noDetach.trans single.free, hpending, rfl, ?_⟩
    intro d
    have hd : Source.half { src2 with pending := false, qInUse := false } d
        = (src.half d).dropped := by
      rw [← hhalf d]
      cases d <;> rfl
    rw [hkernel, hd]
    exact ⟨(hk d).trans (dropped_added _).symm, fun h => by simp at h, fun _ => dropped_added _,
      fun h => by cases h⟩
  refine ⟨{ src2 with pending := false, qInUse := false }, ?_, rfl, ?_⟩
  · split
    · exact hends _ rfl rfl hq rfl (Function.update_self ..)
    · rename_i hp
      refine hends _ rfl rfl hq rfl ?_
      rw [Bool.not_eq_true] at hp
      rw [← hp]
      exact Function.update_self ..
  · intro d
    have hd : Source.half { src2 with pending := false, qInUse := false } d
        = (src.half d).dropped := by
      rw [← hhalf d]
      cases d <;> rfl
    rw [hd, dropped_wanted]

/-- Detaching deletes what is registered; a direction that is still to be added stays so. -/
theorem Single.detach (single : Single p fd q src) :
    ∃ q' src', step q (.detach p false true) = some q' ∧ Single p fd q' src' ∧
      src'.qInUse = false ∧ ∀ d, (src'.half d).wanted = (src.half d).toAdd := by
  have hstep : step q (.detach p false true) = some (nebEvdpQueueDetach p src false true q).2 :=
    call_eq single _
  cases huse : src.qInUse with
  | true =>
    obtain ⟨src', hdetach⟩ := detach_attached single huse
    exact ⟨_, src', hstep, hdetach⟩
  | false =>
    unfold nebEvdpQueueDetach at hstep
    rw [if_pos (by simp [huse])] at hstep
    refine ⟨q, src, hstep, single, huse, fun d => ?_⟩
    unfold Half.wanted
    rw [(single.halves d).idle huse, Bool.false_or]

/-! The flush. -/

/-- One run of the loop whose flush takes `rounds` rounds and whose wait finds no event. -/
def quietRun (rounds : Nat) : List Action :=
  .run :: List.replicate rounds (.flush true) ++ [.wait true [], .proceed true]

/-- The direction is armed for the descriptor. -/
def Kernel.arms (k : Kernel) (fd : Nat) (d : Dir) : Bool := (k (fd, .ofDir d)).isSome

/-- Registrations succeed, in a batch and before a wait. -/
private theorem changes_add (k : Kernel) {es : List KEvent} (add : ∀ e ∈ es, e.flags = .add true) :
    ∃ k', k.changes true es = (true, k') ∧ k.submit true es = (k', []) ∧
      ∀ x, (k' x).isSome = ((k x).isSome || es.any (fun e => (e.ident, e.filter) = x)) := by
  induction es generalizing k with
  | nil => exact ⟨k, rfl, rfl, fun x => by simp⟩
  | cons e es ih =>
    have hchange : k.change e true =
        some (Function.update k (e.ident, e.filter) (some ⟨e.udata, true⟩)) := by
      simp [Kernel.change, add e List.mem_cons_self, Flags.add]
    obtain ⟨k', hchanges, hsubmit, hk'⟩ :=
      ih (Function.update k (e.ident, e.filter) (some ⟨e.udata, true⟩))
        fun e' he' => add e' (List.mem_cons_of_mem e he')
    refine ⟨k', ?_, ?_, ?_⟩
    · simp only [Kernel.changes, hchange, hchanges]
    · simp only [Kernel.submit, hchange, hsubmit]
    · intro x
      rw [hk', List.any_cons]
      by_cases hx : (e.ident, e.filter) = x
      · simp [hx]
      · rw [Function.update_of_ne (Ne.symm hx)]
        simp [hx]

/-- What a flush makes of a source: what was to be added is. -/
structure Submitted (src src' : Source) : Prop where
  same : Same src src'
  pending : src'.pending = false
  half : ∀ d, src'.half d = { src.half d with added := (src.half d).wanted, toAdd := false }

private theorem move_first {e : KEvent} (udata : e.udata = some p) (source : q.sources p = some src)
    (osFd : src.type = .osFd) (updated : src.statsUpdated = false) :
    moveSubmitted e q = some (slistRunningInsertNoStats p
      { src.submitted e.filter with statsUpdated := true } (slistRemove p q)) := by
  simp [moveSubmitted, udata, source, osFd, updated]

private theorem move_again {e : KEvent} (udata : e.udata = some p) (source : q.sources p = some src)
    (osFd : src.type = .osFd) (updated : src.statsUpdated = true) :
    moveSubmitted e q = some ({ q with
      statsPending := q.statsPending + 1
      statsRunning := q.statsRunning - 1 }.setSource p (src.submitted e.filter)) := by
  simp [moveSubmitted, udata, source, osFd, updated]

private theorem move_all_one (e : KEvent) (q : State) :
    moveAllSubmitted [e] q = moveSubmitted e q :=
  Option.bind_fun_some _

/-- The entries of the source are submitted: it leaves the pending list. -/
private theorem move_entries (osFd : src.type = .osFd) (ready : ∀ d, (src.half d).Ready p fd d)
    (wanted : (src.rd.toAdd || src.wr.toAdd) = true)
    (source : q.sources p = some { src with statsUpdated := false })
    (pendingQs : q.pendingQs = [p]) :
    ∃ q' src', moveAllSubmitted src.entries q = some q' ∧ q'.sources p = some src' ∧
      Submitted src src' ∧ q'.pendingQs = [] ∧ q'.kernel = q.kernel ∧
      q'.batchSize = q.batchSize := by
  obtain ⟨-, (hrf : src.rd.ctlEvent.filter = .read), (hru : src.rd.ctlEvent.udata = some p), -⟩ :=
    ready .read
  obtain ⟨-, (hwf : src.wr.ctlEvent.filter = .write), (hwu : src.wr.ctlEvent.udata = some p), -⟩ :=
    ready .write
  have hgone : q.pendingQs.erase p = [] := by
    rw [pendingQs]
    simp
  unfold Source.entries
  rw [if_pos osFd]
  cases hr : src.rd.toAdd with
  | false =>
    have hw : src.wr.toAdd = true := by simpa [hr] using wanted
    have h1 := move_first (e := src.wr.ctlEvent) hwu source osFd rfl
    rw [hwf] at h1
    rw [if_neg (by simp), if_pos hw, List.nil_append]
    refine ⟨_, _, (move_all_one _ q).trans h1, Function.update_self .., ?_, hgone, rfl, rfl⟩
    refine ⟨⟨rfl, rfl, rfl, rfl⟩, rfl, forall_dir .read ?_ ?_⟩
    · change src.rd = ⟨src.rd.added || src.rd.toAdd, false, src.rd.ctlEvent⟩
      rw [hr, Bool.or_false, ← hr]
    · change (⟨true, false, src.wr.ctlEvent⟩ : Half)
        = ⟨src.wr.added || src.wr.toAdd, false, src.wr.ctlEvent⟩
      rw [hw, Bool.or_true]
  | true =>
    have h1 := move_first (e := src.rd.ctlEvent) hru source osFd rfl
    rw [hrf] at h1
    cases hw : src.wr.toAdd with
    | false =>
      rw [if_pos (by rfl), if_neg (by simp), List.append_nil]
      refine ⟨_, _, (move_all_one _ q).trans h1, Function.update_self .., ?_, hgone, rfl, rfl⟩
      refine ⟨⟨rfl, rfl, rfl, rfl⟩, rfl, forall_dir .read ?_ ?_⟩
      · change (⟨true, false, src.rd.ctlEvent⟩ : Half)
          = ⟨src.rd.added || src.rd.toAdd, false, src.rd.ctlEvent⟩
        rw [hr, Bool.or_true]
      · change src.wr = ⟨src.wr.added || src.wr.toAdd, false, src.wr.ctlEvent⟩
        rw [hw, Bool.or_false, ← hw]
    | true =>
      obtain ⟨q1, hq1⟩ : ∃ q1, q1 = slistRunningInsertNoStats p
        { Source.submitted { src with statsUpdated := false } Filter.read with
          statsUpdated := true } (slistRemove p q) := ⟨_, rfl⟩
      rw [← hq1] at h1
      have hsource1 : q1.sources p = some { Source.submitted { src with statsUpdated := false }
          Filter.read with statsUpdated := true, pending := false } := by
        rw [hq1]
        exact Function.update_self ..
      have h2 := move_again (e := src.wr.ctlEvent) hwu hsource1 osFd rfl
      rw [hwf] at h2
      rw [if_pos (by rfl), if_pos (by rfl), List.singleton_append]
      have hboth : moveAllSubmitted [src.rd.ctlEvent, src.wr.ctlEvent] q
          = moveAllSubmitted [src.wr.ctlEvent] q1 :=
        congrArg (Option.bind · (moveAllSubmitted [src.wr.ctlEvent])) h1
      refine ⟨_, _, hboth.trans ((move_all_one _ q1).trans h2), Function.update_self .., ?_, ?_, ?_,
        ?_⟩
      · refine ⟨⟨rfl, rfl, rfl, rfl⟩, rfl, forall_dir .read ?_ ?_⟩
        · change (⟨true, false, src.rd.ctlEvent⟩ : Half)
            = ⟨src.rd.added || src.rd.toAdd, false, src.rd.ctlEvent⟩
          rw [hr, Bool.or_true]
        · change (⟨true, false, src.wr.ctlEvent⟩ : Half)
            = ⟨src.wr.added || src.wr.toAdd, false, src.wr.ctlEvent⟩
          rw [hw, Bool.or_true]
      · rw [hq1]
        exact hgone
      · rw [hq1]
        rfl
      · rw [hq1]
        rfl

/-- The queue before its wait, with `count` entries to submit. -/
private def waiting (q : State) (count : Nat) : State :=
  { q with
    nevents := count
    ctl := .ready
    statsPending := q.statsPending - count
    statsRunning := q.statsRunning + count }

/-- The end of a flush, and a wait that submits what was written and finds no event. -/
private theorem quiet_end {last : Option Ptr} {count : Nat} {k : Kernel} {q1 : State}
    (ctl : q.ctl = .flushing last none count) (nevents : q.nevents = 0)
    (submit : q.kernel.submit true (q.ee.take count) = (k, []))
    (moved : moveAllSubmitted (q.ee.take count) (waiting q count) = some q1)
    (kernel : q1.kernel = q.kernel) :
    ∃ q', Machine.run step q [.flush true, .wait true [], .proceed true] = some q' ∧
      q'.ctl = .user ∧ q'.nevents = 0 ∧ q'.kernel = k ∧ q'.sources = q1.sources ∧
      q'.pendingQs = q1.pendingQs := by
  obtain ⟨hee, hnevents, -, -⟩ := moveAllSubmitted_frame moved
  have hcount : (if count = 0 then q.nevents else (count : Int)) = count := by
    split
    · rename_i h
      rw [h, nevents]
      rfl
    · rfl
  have h1 : step q (.flush true) = some { q with nevents := count, ctl := .ready } := by
    simp only [step, ctl, evdpQueueFlushPendingSources, hcount]
  have h2 : step { q with nevents := count, ctl := .ready } (.wait true [])
      = some { q1 with kernel := k, nevents := 0, written := [], ctl := .events 0 } := by
    have hbefore : beforeWait { q with nevents := count, ctl := .ready } = some q1 := moved
    have hsubmit : q1.kernel.submit true (q1.ee.take q1.nevents.toNat) = (k, []) := by
      rw [kernel, hee, hnevents]
      exact submit
    simp only [step, hbefore, evdpQueueWaitEvents, hsubmit]
    simp [Kernel.deliver]
  have h3 : step { q1 with kernel := k, nevents := 0, written := [], ctl := .events 0 }
      (.proceed true)
      = some { q1 with kernel := k, nevents := 0, written := [], ctl := .user } := by
    simp [step, handleEvent, State.goto]
  refine ⟨{ q1 with kernel := k, nevents := 0, written := [], ctl := .user }, ?_, rfl, rfl, rfl,
    rfl, rfl⟩
  rw [Machine.run_cons, h1, Option.bind_some, Machine.run_cons, h2, Option.bind_some,
    Machine.run_cons, h3]
  rfl

/-- The entries of a source that waits for a flush register what is to be added. -/
private theorem entries_add (osFd : src.type = .osFd) (ready : ∀ d, (src.half d).Ready p fd d)
    (knotes : ∀ d, (q.kernel (fd, .ofDir d)).isSome = (src.half d).added) :
    ∃ k, q.kernel.changes true src.entries = (true, k) ∧
      q.kernel.submit true src.entries = (k, []) ∧
      ∀ d, (k (fd, .ofDir d)).isSome = (src.half d).wanted := by
  obtain ⟨hri, hrf, -, hra⟩ := ready .read
  obtain ⟨hwi, hwf, -, hwa⟩ := ready .write
  change src.rd.ctlEvent.ident = fd at hri
  change src.rd.ctlEvent.filter = .read at hrf
  change src.rd.toAdd = true → src.rd.ctlEvent.flags = .add true at hra
  change src.wr.ctlEvent.ident = fd at hwi
  change src.wr.ctlEvent.filter = .write at hwf
  change src.wr.toAdd = true → src.wr.ctlEvent.flags = .add true at hwa
  have hentries : src.entries = (if src.rd.toAdd then [src.rd.ctlEvent] else []) ++
      (if src.wr.toAdd then [src.wr.ctlEvent] else []) := if_pos osFd
  have hadd : ∀ e ∈ src.entries, e.flags = .add true := by
    intro e he
    rw [hentries, List.mem_append] at he
    rcases he with he | he
    · split at he
      · rename_i h
        rw [List.mem_singleton.1 he, hra h]
      · cases he
    · split at he
      · rename_i h
        rw [List.mem_singleton.1 he, hwa h]
      · cases he
  obtain ⟨k, hchanges, hsubmit, hk⟩ := changes_add q.kernel hadd
  refine ⟨k, hchanges, hsubmit, ?_⟩
  intro d
  rw [hk, knotes d, hentries]
  unfold Half.wanted
  congr 1
  cases d <;> cases hr : src.rd.toAdd <;> cases hw : src.wr.toAdd <;>
    simp [Source.half, Filter.ofDir, hri, hrf, hwi, hwf, hr, hw]

/-- The source after its entries were submitted. -/
private theorem Single.submitted (single : Single p fd q src) (attached : src.qInUse = true)
    (submitted : Submitted src src') (ctl : q'.ctl = .user) (nevents : q'.nevents = 0)
    (source : q'.sources p = some src') (pendingQs : q'.pendingQs = [])
    (knotes : ∀ d, (q'.kernel (fd, .ofDir d)).isSome = (src.half d).wanted) :
    Single p fd q' src' where
  ctl := ctl
  nevents := nevents
  source := source
  osFd := submitted.same.type.trans single.osFd
  ident := submitted.same.ident.trans single.ident
  free := submitted.same.noDetach.trans single.free
  pendingQs := by
    rw [pendingQs, submitted.pending]
    rfl
  pending := by
    have hr : src'.rd.toAdd = false := congrArg Half.toAdd (submitted.half .read)
    have hw : src'.wr.toAdd = false := congrArg Half.toAdd (submitted.half .write)
    rw [submitted.pending, hr, hw]
    simp
  halves := by
    intro d
    have hd := single.halves d
    obtain ⟨hident, hfilter, hudata, -⟩ := hd.ready attached
    rw [submitted.half d, submitted.same.qInUse, attached]
    exact ⟨knotes d, fun _ => rfl, fun h => by (cases h),
      fun _ => ⟨hident, hfilter, hudata, fun h => by (cases h)⟩⟩

/-- A flush without a pending source submits nothing. -/
private theorem Single.flush_idle (single : Single p fd q src) (idle : src.pending = false) :
    ∃ q', Machine.run step q (quietRun 1) = some q' ∧ Single p fd q' src ∧
      ∀ d, q'.kernel.arms fd d = (src.qInUse && (src.half d).wanted) := by
  have hq : q.pendingQs = [] := by
    rw [single.pendingQs, if_neg (by simp [idle])]
  have hrun : step q .run = some { q with written := [], ctl := .flushing none none 0 } := by
    simp [step, single.ctl, hq]
  obtain ⟨q', hend, hctl, hnevents, hk, hsources, hpendingQs⟩ :=
    quiet_end (q := { q with written := [], ctl := .flushing none none 0 }) rfl single.nevents
      rfl rfl rfl
  refine ⟨q', ?_, ⟨hctl, hnevents, ?_, single.osFd, single.ident, single.free, ?_,
    single.pending, ?_⟩, ?_⟩
  · simp only [quietRun, List.replicate, List.cons_append, List.nil_append]
    rw [Machine.run_cons, hrun]
    exact hend
  · rw [hsources]
    exact single.source
  · rw [hpendingQs]
    exact single.pendingQs
  · rw [hk]
    exact single.halves
  · intro d
    have hd := single.halves d
    have hpending := single.pending
    unfold Kernel.arms
    rw [hk, show ({ q with written := [], ctl := .flushing none none 0 } : State).kernel
      = q.kernel from rfl, hd.knote]
    cases huse : src.qInUse with
    | false => rw [hd.idle huse, Bool.false_and]
    | true =>
      rw [idle, huse, Bool.true_and, toAdd_or src d] at hpending
      unfold Half.wanted
      rw [(Bool.or_eq_false_iff.1 hpending.symm).1, Bool.or_false, Bool.true_and]

/-- A flush of the pending source submits its entries, with the batch that they fill or with the
wait. -/
private theorem flush_submits (osFd : src.type = .osFd) (ready : ∀ d, (src.half d).Ready p fd d)
    (knotes : ∀ d, (q.kernel (fd, .ofDir d)).isSome = (src.half d).added)
    (adds : (src.rd.toAdd || src.wr.toAdd) = true) (fits : src.entries.length ≤ q.batchSize)
    (source : q.sources p = some src) (pendingQs : q.pendingQs = [p]) (nevents : q.nevents = 0)
    (ctl : q.ctl = .flushing none (some p) 0) :
    ∃ q' src', Machine.run step q [.flush true, .flush true, .wait true [], .proceed true] =
        some q' ∧ Submitted src src' ∧ q'.ctl = .user ∧ q'.nevents = 0 ∧ q'.sources p = some src' ∧
      q'.pendingQs = [] ∧ ∀ d, (q'.kernel (fd, .ofDir d)).isSome = (src.half d).wanted := by
  obtain ⟨k, hchanges, hsubmit, hk⟩ := entries_add (q := q) osFd ready knotes
  -- the array after the entries are written
  have hstep : step q (.flush true) =
      some (evdpQueueFlushPendingSources none (some p) 0 true q) := by
    simp only [step, ctl]
  rw [flush_source (by simp) source, if_neg (by omega), Nat.zero_add] at hstep
  have hsource := wrote_os_fd (q := q) (p := p) osFd 0
  obtain ⟨hpend, hbatch, hnev, hkernel⟩ := wrote_frame q p src 0
  have htake : (q.wrote p src 0).ee.take src.entries.length = src.entries := by
    rw [(wrote_array q p src 0).1]
    simp
  generalize q.wrote p src 0 = q1 at *
  by_cases hfull : q.batchSize ≤ src.entries.length
  · -- the entries fill the batch
    obtain ⟨q2, src', hmoved, hsrc2, hsub, hpqs2, hk2, -⟩ :=
      move_entries (q := { q1 with
          kernel := k
          written := []
          statsPending := q1.statsPending - src.entries.length
          statsRunning := q1.statsRunning + src.entries.length }) osFd ready adds hsource
        (hpend.trans pendingQs)
    have hdo : doBatchFlush src.entries.length true q1 = (true, q2) := by
      unfold doBatchFlush
      rw [htake, hkernel, hchanges]
      simp only [if_true, hmoved]
    simp only [if_pos hfull, hdo, if_true] at hstep
    obtain ⟨-, hn2, -, -⟩ := moveAllSubmitted_frame hmoved
    have hctl2 : (q2.goto (.flushing (some p) q2.pendingQs.head? 0)).ctl
        = .flushing (some p) none 0 := by
      rw [hpqs2]
      rfl
    obtain ⟨q', hend, hctl, hn', hk', hsources, hpqs'⟩ :=
      quiet_end hctl2 (hn2.trans (hnev.trans nevents)) rfl rfl rfl
    refine ⟨q', src', ?_, hsub, hctl, hn', (congrFun hsources p).trans hsrc2, hpqs'.trans hpqs2, ?_⟩
    · rw [Machine.run_cons, hstep]
      exact hend
    · rw [hk', show (q2.goto (.flushing (some p) q2.pendingQs.head? 0)).kernel = k from hk2]
      exact hk
  · -- the wait submits them
    have hnext : q1.nextPending p = none := by
      simp [State.nextPending, hpend, pendingQs]
    rw [if_neg hfull, hnext] at hstep
    obtain ⟨q2, src', hmoved, hsrc2, hsub, hpqs2, hk2, -⟩ :=
      move_entries (q := waiting (q1.goto (.flushing (some p) none src.entries.length))
        src.entries.length) osFd ready adds hsource (hpend.trans pendingQs)
    have hctl1 : (q1.goto (.flushing (some p) none src.entries.length)).ctl
        = .flushing (some p) none src.entries.length := rfl
    have hsubmit1 : q1.kernel.submit true (q1.ee.take src.entries.length) = (k, []) := by
      rw [htake, hkernel, hsubmit]
    have hmoved1 : moveAllSubmitted (q1.ee.take src.entries.length) (waiting
        (q1.goto (.flushing (some p) none src.entries.length)) src.entries.length) = some q2 := by
      rw [htake, hmoved]
    obtain ⟨q', hend, hctl, hn', hk', hsources, hpqs'⟩ :=
      quiet_end hctl1 (hnev.trans nevents) hsubmit1 hmoved1 hk2
    refine ⟨q', src', ?_, hsub, hctl, hn', (congrFun hsources p).trans hsrc2, hpqs'.trans hpqs2, ?_⟩
    · rw [Machine.run_cons, hstep]
      exact hend
    · rw [hk']
      exact hk

/-- A flush registers what is to be added, when the entries of the source fit into the array. -/
theorem Single.flush (single : Single p fd q src)
    (fits : src.pending = true → src.entries.length ≤ q.batchSize) :
    ∃ q' src', Machine.run step q (quietRun (if src.pending then 2 else 1)) = some q' ∧
      Single p fd q' src' ∧ src'.qInUse = src.qInUse ∧
      (∀ d, (src'.half d).wanted = (src.half d).wanted) ∧
      ∀ d, q'.kernel.arms fd d = (src.qInUse && (src.half d).wanted) := by
  cases hp : src.pending with
  | false =>
    obtain ⟨q', hrun, single', harms⟩ := single.flush_idle hp
    exact ⟨q', src, hrun, single', rfl, fun _ => rfl, harms⟩
  | true =>
    have hpending := single.pending
    rw [hp] at hpending
    obtain ⟨huse, hadd⟩ : src.qInUse = true ∧ (src.rd.toAdd || src.wr.toAdd) = true := by
      simpa using hpending.symm
    have hq : q.pendingQs = [p] := by
      rw [single.pendingQs, hp]
      rfl
    have hrun : step q .run = some { q with written := [], ctl := .flushing none (some p) 0 } := by
      simp [step, single.ctl, hq]
    obtain ⟨q', src', hrest, hsub, hctl, hn, hsrc, hpqs, hk⟩ :=
      flush_submits (q := { q with written := [], ctl := .flushing none (some p) 0 }) single.osFd
        (fun d => (single.halves d).ready huse) (fun d => (single.halves d).knote) hadd (fits hp)
        single.source hq single.nevents rfl
    refine ⟨q', src', ?_, single.submitted huse hsub hctl hn hsrc hpqs hk, hsub.same.qInUse, ?_, ?_⟩
    · simp only [if_true, quietRun, List.replicate, List.cons_append, List.nil_append]
      rw [Machine.run_cons, hrun]
      exact hrest
    · intro d
      rw [hsub.half d]
      exact Bool.or_false _
    · intro d
      unfold Kernel.arms
      rw [hk, huse, Bool.true_and]

end Nebase.Evdp.Kevent
