/- The aio_poll driver keeps its flags right, as long as no request is made for a source that has
   one, none is forgotten, and the kernel takes its batches whole. -/

import Nebase.Evdp.Poll.Requests

set_option autoImplicit false
set_option relaxedAutoImplicit false

namespace Nebase.Evdp.Poll

open Nebase.Evdp.Epoll (Ptr Fd Handler SourceType Dir NebEvdpCbRet Stage)

/-- The event that is being handled. -/
def Ctl.event : Ctl → Option NebEvdpEvent
  | .handle ne _ => some ne
  | .callback ne _ => some ne
  | .finish ne _ => some ne
  | _ => none

/-- The place in the batch of the event that is, or was, being handled. -/
def Ctl.current : Ctl → Option Nat
  | .handle ne _ => some ne.index
  | .callback ne _ => some ne.index
  | .finish ne _ => some ne.index
  | .removed i => some i
  | _ => none

/-- The flush is that of aio: the sources gathered are the first of the pending list, and it goes on
behind them. -/
structure Gathered (q : State) : Prop where
  aio : ∀ count, q.ctl ≠ .flushing count
  first : ∀ last s iocbv, q.ctl = .gathering last s iocbv →
    ∃ rest, q.pendingQs = iocbv ++ rest ∧ s = rest.head? ∧ ∀ p, last = some p → p ∉ rest

structure Sound (q : State) : Prop where
  nodup : q.kernel.carried.Nodup
  oneshot : ∀ r ∈ q.kernel.requests, r.multishot = false
  live : ∀ p, q.Live p →
    ∃ src, q.sources p = some src ∧ src.qInUse = true ∧ src.submitted = true
  flag : ∀ p src, q.sources p = some src → src.submitted = true →
    src.qInUse = true ∧ (q.Live p ∨ q.Waiting p)
  waiting : ∀ e ∈ q.unhandled, e.cancelled = false → ∀ p, e.data = some p →
    q.Attached p ∧ ¬ q.Live p
  pending : ∀ p ∈ q.pendingQs,
    ∃ src, q.sources p = some src ∧ src.qInUse = true ∧ src.submitted = false
  pendingNodup : q.pendingQs.Nodup
  handled : ∀ ne, q.ctl.event = some ne → ∃ src, q.sources ne.source = some src ∧
    src.qInUse = true ∧ src.noDetach = true ∧ src.submitted = false
  place : ∀ i, q.ctl.current = some i → q.currentEvent = i
  gathered : Gathered q

theorem Sound.tracks {q : State} (sound : Sound q) : Tracks q where
  flagged := by
    intro p src hsrc hlive
    obtain ⟨s, hs, -, hsub⟩ := sound.live p hlive
    rwa [Option.some.inj (hsrc.symm.trans hs)]
  outstanding := fun p src hsrc hsub => (sound.flag p src hsrc hsub).2
  once := fun p _ _ _ => List.nodup_iff_count_le_one.1 sound.nodup p
  released := by
    intro p hlive
    obtain ⟨s, hs, huse, -⟩ := sound.live p hlive
    exact ⟨s, hs, huse⟩

theorem Sound.create (batchSize : Nat) : Sound (nebEvdpQueueCreate batchSize) where
  nodup := .nil
  oneshot := fun _ h => by cases h
  live := fun _ h => by cases h
  flag := fun _ _ h => by cases h
  waiting := fun _ h => by cases h
  pending := fun _ h => by cases h
  pendingNodup := .nil
  handled := fun _ h => by cases h
  place := fun _ h => by cases h
  gathered := ⟨fun _ h => by (cases h), fun _ _ _ h => by cases h⟩

/-- What a flush step submits. -/
def State.submits (q : State) : Nat :=
  match q.ctl with
  | .gathering last s iocbv =>
    if s = none ∨ last = s then iocbv.length
    else if q.batchSize ≤ iocbv.length + 1 then iocbv.length + 1
    else 0
  | _ => 0

/-- The source that the event to be fetched names, where it is the completion of a request that was
cancelled. -/
def State.fetchingCancelled (q : State) : Option Ptr :=
  match q.ctl with
  | .events i => (q.ee[i]?).bind (fun e => if e.cancelled then e.data else none)
  | _ => none

/-- A handler is not set for a new direction of a source that has its request, or the kernel refuses
the second one; a source is not left to be closed while it has a request; a run does not start with
completions that the last one has not handled; the kernel takes a batch whole or not at all; and the
completion of a cancelled request finds its source attached and without a request. -/
def KeepsTrack (q : State) : Action → Prop
  | .next d p h _ taken => ∀ src ∈ q.sources p, src.qInUse = true → src.submitted = true →
      h.isSome = true → src.ctlEvent.has d = false → taken = none
  | .detach p toClose => ∀ src ∈ q.sources p, src.qInUse = true → src.noDetach = false →
      toClose = true → src.type.isTimer = false → p ∉ q.kernel.carried
  | .run => ∀ e ∈ q.unhandled, e.cancelled = false →
      ∀ p ∈ e.data, ∀ src ∈ q.sources p, src.submitted = false
  | .flush _ taken => ∀ n ∈ taken, q.submits ≤ n
  | .proceed _ => ∀ p ∈ q.fetchingCancelled,
      (∃ src ∈ q.sources p, src.qInUse = true) ∧ p ∉ q.kernel.carried
  | _ => True

instance (q : State) : ∀ a, Decidable (KeepsTrack q a)
  | .next _ p _ _ _ => inferInstanceAs (Decidable (∀ src ∈ q.sources p, _))
  | .detach p _ => inferInstanceAs (Decidable (∀ src ∈ q.sources p, _))
  | .run => inferInstanceAs (Decidable (∀ e ∈ q.unhandled, e.cancelled = false → ∀ p ∈ e.data, _))
  | .flush _ taken => inferInstanceAs (Decidable (∀ n ∈ taken, q.submits ≤ n))
  | .newSource .. => isTrue trivial
  | .delSource _ => isTrue trivial
  | .resetFd .. => isTrue trivial
  | .attach .. => isTrue trivial
  | .wait _ => isTrue trivial
  | .waitFails => isTrue trivial
  | .proceed _ => inferInstanceAs (Decidable (∀ p ∈ q.fetchingCancelled, _))
  | .cbReturn _ => isTrue trivial

section Step

variable {q q' : State} {p : Ptr} {src src' : Source}

/-- The program stands behind the current event. -/
def Ctl.behind : Ctl → Bool
  | .stopped => true
  | .handle _ _ => true
  | .callback _ _ => true
  | .finish _ _ => true
  | .removed _ => true
  | _ => false

private theorem unhandled_of_behind (h : q.ctl.behind = true) :
    q.unhandled = q.ee.drop (q.currentEvent + 1) := by
  unfold State.unhandled
  cases hc : q.ctl <;> first | rfl | (rw [hc] at h; cases h)

/-- No flush is going on. -/
def Ctl.settled : Ctl → Bool
  | .flushing _ => false
  | .gathering _ _ _ => false
  | _ => true

private theorem gathered_of_settled (h : q.ctl.settled = true) : Gathered q := by
  refine ⟨fun count hctl => ?_, fun last s iocbv hctl => ?_⟩
  · rw [hctl] at h
    cases h
  · rw [hctl] at h
    cases h

/-- A source is written, with its flag as it was and its requests as they were. -/
private theorem Sound.write (sound : Sound q) (hsrc : q.sources p = some src)
    (sources : q'.sources = Function.update q.sources p (some src'))
    (requests : q'.kernel.requests = q.kernel.requests) (unhandled : q'.unhandled = q.unhandled)
    (qInUse : src'.qInUse = src.qInUse) (submitted : src'.submitted = src.submitted)
    (noDetach : q'.ctl.event ≠ none → src'.noDetach = src.noDetach)
    (event : ∀ ne, q'.ctl.event = some ne → q.ctl.event = some ne)
    (place : ∀ i, q'.ctl.current = some i → q'.currentEvent = i) (settled : q'.ctl.settled = true)
    (pendingNodup : q'.pendingQs.Nodup) (pending : ∀ r ∈ q'.pendingQs, r ≠ p → r ∈ q.pendingQs)
    (pendingSelf : p ∈ q'.pendingQs → src.qInUse = true ∧ src.submitted = false) : Sound q' := by
  have hcarried : q'.kernel.carried = q.kernel.carried := by
    unfold Kernel.carried
    rw [requests]
  have hlive : ∀ r, q'.Live r ↔ q.Live r := by
    intro r
    unfold State.Live
    rw [hcarried]
  have hwaiting : ∀ r, q'.Waiting r ↔ q.Waiting r := by
    intro r
    unfold State.Waiting
    rw [unhandled]
  -- what holds of the source before holds after
  have htransfer : ∀ (P : Source → Prop), (P src → P src') → ∀ r,
      (∃ s, q.sources r = some s ∧ P s) → ∃ s, q'.sources r = some s ∧ P s := by
    rintro P hP r ⟨s, hs, hPs⟩
    by_cases hr : r = p
    · subst hr
      obtain rfl := Option.some.inj (hsrc.symm.trans hs)
      exact ⟨src', by rw [sources, Function.update_self], hP hPs⟩
    · exact ⟨s, by rw [sources, Function.update_of_ne hr, hs], hPs⟩
  refine ⟨hcarried ▸ sound.nodup, requests ▸ sound.oneshot, ?_, ?_, ?_, ?_, pendingNodup, ?_, place,
    gathered_of_settled settled⟩
  · intro r hr
    refine htransfer (fun s => s.qInUse = true ∧ s.submitted = true) ?_ r
      (sound.live r ((hlive r).1 hr))
    rw [qInUse, submitted]
    exact id
  · intro r s hs hsub
    rw [hlive, hwaiting]
    by_cases hr : r = p
    · subst hr
      rw [sources, Function.update_self] at hs
      obtain rfl := Option.some.inj hs
      rw [qInUse]
      exact sound.flag r src hsrc (submitted.symm.trans hsub)
    · rw [sources, Function.update_of_ne hr] at hs
      exact sound.flag r s hs hsub
  · intro e he hc r hr
    rw [unhandled] at he
    obtain ⟨hatt, hnot⟩ := sound.waiting e he hc r hr
    refine ⟨htransfer (fun s => s.qInUse = true) ?_ r hatt, fun h => hnot ((hlive r).1 h)⟩
    rw [qInUse]
    exact id
  · intro r hr
    by_cases hrp : r = p
    · subst hrp
      obtain ⟨huse, hsub⟩ := pendingSelf hr
      exact ⟨src', by rw [sources, Function.update_self], qInUse.trans huse, submitted.trans hsub⟩
    · obtain ⟨s, hs, h⟩ := sound.pending r (pending r hr hrp)
      exact ⟨s, by rw [sources, Function.update_of_ne hrp, hs], h⟩
  · intro ne hne
    refine htransfer (fun s => s.qInUse = true ∧ s.noDetach = true ∧ s.submitted = false) ?_
      ne.source (sound.handled ne (event ne hne))
    rw [qInUse, submitted, noDetach (by rw [hne]; simp)]
    exact id

/-- A source without a request is written, or loses its request: its flag is not set any more. -/
private theorem Sound.clear (sound : Sound q) {o : Option Source}
    (sources : q'.sources = Function.update q.sources p o)
    (flag : ∀ s, o = some s → s.submitted = false)
    (nodup : q'.kernel.carried.Nodup) (oneshot : ∀ r ∈ q'.kernel.requests, r.multishot = false)
    (live : ∀ r, q'.Live r → r ≠ p ∧ q.Live r) (stays : ∀ r, r ≠ p → q.Live r → q'.Live r)
    (unhandled : ∀ e ∈ q'.unhandled, e.cancelled = false → ∀ r, e.data = some r →
      q.Waiting r ∧ (r = p → ∃ s, o = some s ∧ s.qInUse = true))
    (waits : ∀ r, r ≠ p → q.Waiting r → q'.Waiting r)
    (event : ∀ ne, q'.ctl.event = some ne → q.ctl.event = some ne ∧ ne.source ≠ p ∨
      ne.source = p ∧ ∃ s, o = some s ∧ s.qInUse = true ∧ s.noDetach = true)
    (place : ∀ i, q'.ctl.current = some i → q'.currentEvent = i) (settled : q'.ctl.settled = true)
    (pendingNodup : q'.pendingQs.Nodup) (pending : ∀ r ∈ q'.pendingQs, r ≠ p → r ∈ q.pendingQs)
    (pendingSelf : p ∈ q'.pendingQs → ∃ s, o = some s ∧ s.qInUse = true) : Sound q' := by
  have hother : ∀ r, r ≠ p → q'.sources r = q.sources r := by
    intro r hr
    rw [sources, Function.update_of_ne hr]
  refine ⟨nodup, oneshot, ?_, ?_, ?_, ?_, pendingNodup, ?_, place, gathered_of_settled settled⟩
  · intro r hr
    obtain ⟨hne, hlive⟩ := live r hr
    rw [hother r hne]
    exact sound.live r hlive
  · intro r s hs hsub
    have hr : r ≠ p := by
      rintro rfl
      rw [sources, Function.update_self] at hs
      rw [flag s hs] at hsub
      cases hsub
    rw [hother r hr] at hs
    obtain ⟨huse, h⟩ := sound.flag r s hs hsub
    exact ⟨huse, h.imp (stays r hr) (waits r hr)⟩
  · intro e he hc r hr
    obtain ⟨⟨e', he', hc', hr'⟩, hself⟩ := unhandled e he hc r hr
    obtain ⟨⟨s, hs, huse⟩, hnot⟩ := sound.waiting e' he' hc' r hr'
    refine ⟨?_, fun h => hnot (live r h).2⟩
    by_cases hrp : r = p
    · obtain ⟨s', rfl, huse'⟩ := hself hrp
      exact ⟨s', by rw [sources, hrp, Function.update_self], huse'⟩
    · exact ⟨s, by rw [hother r hrp, hs], huse⟩
  · intro r hr
    by_cases hrp : r = p
    · subst hrp
      obtain ⟨s, rfl, huse⟩ := pendingSelf hr
      exact ⟨s, by rw [sources, Function.update_self], huse, flag s rfl⟩
    · obtain ⟨s, hs, h⟩ := sound.pending r (pending r hr hrp)
      exact ⟨s, by rw [hother r hrp, hs], h⟩
  · intro ne hne
    rcases event ne hne with ⟨hevent, hnp⟩ | ⟨hp, s, rfl, huse, hnd⟩
    · obtain ⟨s, hs, h⟩ := sound.handled ne hevent
      exact ⟨s, by rw [hother _ hnp, hs], h⟩
    · exact ⟨s, by rw [sources, hp, Function.update_self], huse, hnd, flag s rfl⟩

private theorem not_live_of_idle (sound : Sound q)
    (idle : ∀ s, q.sources p = some s → s.qInUse = false) :
    ¬ q.Live p ∧ ¬ q.Waiting p ∧ p ∉ q.pendingQs ∧ ∀ ne, q.ctl.event = some ne → ne.source ≠ p := by
  have hno : ∀ s, q.sources p = some s → s.qInUse = true → False := by
    intro s hs huse
    rw [idle s hs] at huse
    cases huse
  refine ⟨?_, ?_, ?_, ?_⟩
  · intro h
    obtain ⟨s, hs, huse, -⟩ := sound.live p h
    exact hno s hs huse
  · rintro ⟨e, he, hc, hp⟩
    obtain ⟨⟨s, hs, huse⟩, -⟩ := sound.waiting e he hc p hp
    exact hno s hs huse
  · intro h
    obtain ⟨s, hs, huse, -⟩ := sound.pending p h
    exact hno s hs huse
  · rintro ne hne rfl
    obtain ⟨s, hs, huse, -⟩ := sound.handled ne hne
    exact hno s hs huse

/-- A source that is not attached is written, freed or attached. -/
private theorem Sound.idle (sound : Sound q) {o : Option Source} (turn : q.ctl.userTurn = true)
    (before : ∀ s, q.sources p = some s → s.qInUse = false)
    (sources : q'.sources = Function.update q.sources p o)
    (flag : ∀ s, o = some s → s.submitted = false) (kernel : q'.kernel = q.kernel)
    (ee : q'.ee = q.ee) (currentEvent : q'.currentEvent = q.currentEvent) (ctl : q'.ctl = q.ctl)
    (pending : q'.pendingQs = q.pendingQs ∨
      q'.pendingQs = p :: q.pendingQs ∧ ∃ s, o = some s ∧ s.qInUse = true) : Sound q' := by
  obtain ⟨hlive, hwait, hpend, hevent⟩ := not_live_of_idle sound before
  have hunhandled : q'.unhandled = q.unhandled := by
    unfold State.unhandled
    rw [ctl, ee, currentEvent]
  have hlive' : ∀ r, q'.Live r ↔ q.Live r := by
    intro r
    unfold State.Live
    rw [kernel]
  have hwaiting : ∀ r, q'.Waiting r ↔ q.Waiting r := by
    intro r
    unfold State.Waiting
    rw [hunhandled]
  refine sound.clear sources flag (kernel ▸ sound.nodup) (kernel ▸ sound.oneshot)
    ?_ ?_ ?_
    ?_ ?_ ?_ ?_ ?_ ?_ ?_
  · intro r hr
    have hr' := (hlive' r).1 hr
    refine ⟨?_, hr'⟩
    rintro rfl
    exact hlive hr'
  · exact fun r _ hr => (hlive' r).2 hr
  · intro e he hc r hr
    have hw : q.Waiting r := ⟨e, hunhandled ▸ he, hc, hr⟩
    refine ⟨hw, ?_⟩
    rintro rfl
    exact absurd hw hwait
  · exact fun r _ hr => (hwaiting r).2 hr
  · rw [ctl]
    exact fun ne hne => .inl ⟨hne, hevent ne hne⟩
  · rw [ctl, currentEvent]
    exact sound.place
  · rw [ctl]
    cases h : q.ctl <;> first | rfl | (rw [h] at turn; cases turn)
  · rcases pending with h | ⟨h, -⟩
    · rw [h]
      exact sound.pendingNodup
    · rw [h]
      exact List.nodup_cons.2 ⟨hpend, sound.pendingNodup⟩
  · intro r hr hne
    rcases pending with h | ⟨h, -⟩
    · rwa [h] at hr
    · rw [h] at hr
      exact (List.mem_cons.1 hr).resolve_left hne
  · intro hp
    rcases pending with h | ⟨-, h⟩
    · rw [h] at hp
      exact absurd hp hpend
    · exact h

private theorem settled_of_turn (turn : q.ctl.userTurn = true) : q.ctl.settled = true := by
  cases h : q.ctl <;> first | rfl | (rw [h] at turn; cases turn)

/-- A call writes a source and keeps its attachment, its flag and its requests. -/
private theorem Sound.call (sound : Sound q) (turn : q.ctl.userTurn = true)
    (hsrc : q.sources p = some src)
    (sources : q'.sources = Function.update q.sources p (some src'))
    (requests : q'.kernel.requests = q.kernel.requests) (ee : q'.ee = q.ee)
    (currentEvent : q'.currentEvent = q.currentEvent) (ctl : q'.ctl = q.ctl)
    (qInUse : src'.qInUse = src.qInUse) (submitted : src'.submitted = src.submitted)
    (noDetach : src'.noDetach = src.noDetach)
    (pending : q'.pendingQs = q.pendingQs ∨ q'.pendingQs = q.pendingQs.erase p ∨
      q'.pendingQs = p :: q.pendingQs.erase p ∧ src.qInUse = true ∧ src.submitted = false) :
    Sound q' := by
  have hself : p ∈ q.pendingQs → src.qInUse = true ∧ src.submitted = false := by
    intro hp
    obtain ⟨s, hs, h⟩ := sound.pending p hp
    rwa [Option.some.inj (hsrc.symm.trans hs)]
  refine sound.write hsrc sources requests ?_ qInUse submitted (fun _ => noDetach) ?_ ?_ ?_ ?_ ?_ ?_
  · unfold State.unhandled
    rw [ctl, ee, currentEvent]
  · rw [ctl]
    exact fun _ h => h
  · rw [ctl, currentEvent]
    exact sound.place
  · rw [ctl]
    exact settled_of_turn turn
  · rcases pending with h | h | ⟨h, -⟩
    · rw [h]
      exact sound.pendingNodup
    · rw [h]
      exact sound.pendingNodup.erase p
    · rw [h]
      exact List.nodup_cons.2 ⟨sound.pendingNodup.not_mem_erase, sound.pendingNodup.erase p⟩
  · intro r hr hne
    rcases pending with h | h | ⟨h, -⟩
    · rwa [h] at hr
    · rw [h] at hr
      exact List.mem_of_mem_erase hr
    · rw [h] at hr
      exact List.mem_of_mem_erase ((List.mem_cons.1 hr).resolve_left hne)
  · intro hp
    rcases pending with h | h | ⟨-, h⟩
    · rw [h] at hp
      exact hself hp
    · rw [h] at hp
      exact hself (List.mem_of_mem_erase hp)
    · exact h

/-- The request of an attached source is cancelled. -/
private theorem Sound.cancel (sound : Sound q) (hsrc : q.sources p = some src)
    (turn : q.ctl.userTurn = true) (submitted : src.submitted = true)
    (qInUse : src'.qInUse = true) (flag : src'.submitted = false) :
    Sound ({ q with kernel := (q.kernel.cancel .aioPoll p).2 }.setSource p src') := by
  have hcarried : (q.kernel.cancel .aioPoll p).2.carried = q.kernel.carried.erase p :=
    carried_cancel q.kernel.requests p
  have hlive : ∀ r, r ∈ (q.kernel.cancel .aioPoll p).2.carried ↔ r ≠ p ∧ r ∈ q.kernel.carried := by
    intro r
    rw [hcarried, sound.nodup.mem_erase_iff]
  have hself : p ∉ q.pendingQs := by
    intro hp
    obtain ⟨s, hs, -, hsub⟩ := sound.pending p hp
    rw [← Option.some.inj (hsrc.symm.trans hs), submitted] at hsub
    cases hsub
  refine sound.clear (p := p) (o := some src') rfl ?_ ?_ ?_ ?_ ?_ ?_ ?_ ?_ sound.place
    (settled_of_turn turn) sound.pendingNodup (fun r hr _ => hr) (fun hp => absurd hp hself)
  · intro s hs
    rw [← Option.some.inj hs, flag]
  · change ((q.kernel.cancel .aioPoll p).2.carried).Nodup
    rw [hcarried]
    exact sound.nodup.erase p
  · exact cancelRequest_multishot sound.oneshot p
  · exact fun r hr => (hlive r).1 hr
  · exact fun r hne hr => (hlive r).2 ⟨hne, hr⟩
  · exact fun e he hc r hr => ⟨⟨e, he, hc, hr⟩, fun _ => ⟨src', rfl, qInUse⟩⟩
  · exact fun r _ hr => hr
  · intro ne hne
    refine .inl ⟨hne, ?_⟩
    rintro rfl
    obtain ⟨s, hs, -, -, hsub⟩ := sound.handled ne hne
    rw [← Option.some.inj (hsrc.symm.trans hs), submitted] at hsub
    cases hsub

theorem Sound.next (sound : Sound q) (turn : q.ctl.userTurn = true) (hsrc : q.sources p = some src)
    (d : Dir) (h : Option Handler) (sqe : Bool) (taken : Option Nat)
    (refused : src.qInUse = true → src.submitted = true → h.isSome = true →
      src.ctlEvent.has d = false → taken = none) :
    Sound (nebEvdpSourceOsFdNext .aioPoll d p src h sqe taken q).2 := by
  obtain ⟨huse, hsub, hnd, hctl⟩ : (src.setHandler d h).qInUse = src.qInUse ∧
      (src.setHandler d h).submitted = src.submitted ∧
      (src.setHandler d h).noDetach = src.noDetach ∧
      (src.setHandler d h).ctlEvent = src.ctlEvent := by
    cases d <;> exact ⟨rfl, rfl, rfl, rfl⟩
  have hset : ∀ src', src'.qInUse = (src.setHandler d h).qInUse →
      src'.submitted = (src.setHandler d h).submitted →
      src'.noDetach = (src.setHandler d h).noDetach → Sound (q.setSource p src') := by
    intro src' h1 h2 h3
    exact sound.call turn hsrc rfl rfl rfl rfl rfl (h1.trans huse) (h2.trans hsub) (h3.trans hnd)
      (.inl rfl)
  unfold nebEvdpSourceOsFdNext
  simp only
  split_ifs with hin hsome
  · -- a handler is set
    unfold evdpSourceOsFdReset
    split_ifs with hs hhas
    · exact hset _ rfl rfl rfl
    · have hnone := refused (huse.symm.trans hin) (hsub.symm.trans hs) hsome
        (by rw [← hctl]; exact Bool.eq_false_iff.2 hhas)
      simp only [doSubmitOsFd, Kernel.ioSubmit, hnone]
      exact hset _ rfl rfl rfl
    · simp only
      have hno : src.submitted = false := hsub.symm.trans (Bool.eq_false_iff.2 hs)
      split_ifs
      · exact sound.call turn hsrc rfl rfl rfl rfl rfl huse hsub hnd
          (.inr (.inr ⟨rfl, huse.symm.trans hin, hno⟩))
      · exact hset _ rfl rfl rfl
  · -- the handler is removed
    unfold evdpSourceOsFdUnset
    split_ifs with hs hhas
    · simp only
      split_ifs
      · exact hset _ rfl rfl rfl
      · exact sound.cancel hsrc turn (hsub.symm.trans hs) hin rfl
    · exact hset _ rfl rfl rfl
    · simp only
      split_ifs
      · exact hset _ rfl rfl rfl
      · exact sound.call turn hsrc rfl rfl rfl rfl rfl huse hsub hnd (.inr (.inl rfl))
      · exact hset _ rfl rfl rfl
  · exact hset _ rfl rfl rfl

theorem Sound.attach (sound : Sound q) (turn : q.ctl.userTurn = true)
    (hsrc : q.sources p = some src) (settime : Bool) :
    Sound (nebEvdpQueueAttach p src settime q).2 := by
  unfold nebEvdpQueueAttach
  split_ifs with huse
  · exact sound
  have hidle : ∀ s, q.sources p = some s → s.qInUse = false := by
    intro s hs
    rw [← Option.some.inj (hsrc.symm.trans hs)]
    exact Bool.eq_false_iff.2 huse
  have hflag : src.submitted = false := by
    cases hs : src.submitted with
    | false => rfl
    | true => exact absurd (sound.flag p src hsrc hs).1 huse
  have hpending : ∀ s', s'.qInUse = true → s'.submitted = src.submitted →
      Sound (slistPendingInsert p s' q) := by
    intro s' h1 h2
    refine sound.idle turn hidle rfl ?_ rfl rfl rfl rfl (.inr ⟨rfl, _, rfl, h1⟩)
    intro s hs
    rw [← Option.some.inj hs]
    exact h2.trans hflag
  have htimer : Sound (evdpSourceTimerAttach p { src with qInUse := true } settime q).2 := by
    unfold evdpSourceTimerAttach
    split_ifs
    · exact hpending _ rfl rfl
    · exact hpending _ rfl rfl
    · exact sound
  split
  · exact htimer
  · exact htimer
  · exact hpending _ rfl rfl
  · unfold evdpSourceOsFdAttach
    split_ifs
    · exact hpending _ rfl rfl
    · refine sound.idle turn hidle rfl ?_ rfl rfl rfl rfl (.inl rfl)
      intro s hs
      rw [← Option.some.inj hs]
      exact hflag

/-- What the detach functions make of the flag and of the requests. -/
private theorem detach_requests {k : Kernel} (toClose : Bool)
    (oneshot : ∀ r ∈ k.requests, r.multishot = false)
    (flag : p ∈ k.carried → src.submitted = true)
    (closed : toClose = true → src.type.isTimer = false → p ∉ k.carried) :
    let x := evdpSourceDetach .aioPoll p src toClose k
    x.1.submitted = false ∧ (∀ r ∈ x.2.requests, r.multishot = false) ∧
      x.2.carried = k.carried.erase p := by
  have hnone : p ∉ k.carried → k.carried = k.carried.erase p :=
    fun h => (List.erase_of_not_mem h).symm
  -- what the functions do when the descriptor is not to be closed
  have hcancel : ∀ s : Source, s.submitted = src.submitted →
      (cancelIfSubmitted .aioPoll p s k).1.submitted = false ∧
      (∀ r ∈ (cancelIfSubmitted .aioPoll p s k).2.requests, r.multishot = false) ∧
      (cancelIfSubmitted .aioPoll p s k).2.carried = k.carried.erase p := by
    intro s hs
    unfold cancelIfSubmitted
    split_ifs with hsub
    · exact ⟨rfl, cancelRequest_multishot oneshot p, carried_cancel k.requests p⟩
    · refine ⟨Bool.eq_false_iff.2 hsub, oneshot, hnone fun h => ?_⟩
      rw [hs] at hsub
      exact hsub (flag h)
  unfold evdpSourceDetach
  split
  · exact hcancel _ rfl
  · exact hcancel _ rfl
  · rename_i htype
    unfold evdpSourceRoFdDetach
    split_ifs with hclose
    · exact ⟨rfl, oneshot, hnone (closed hclose (by rw [htype]; rfl))⟩
    · exact hcancel _ rfl
  · rename_i htype
    unfold evdpSourceOsFdDetach
    split_ifs with hclose hsub
    · exact ⟨rfl, oneshot, hnone (closed hclose (by rw [htype]; rfl))⟩
    · exact ⟨rfl, cancelRequest_multishot oneshot p, carried_cancel k.requests p⟩
    · exact ⟨Bool.eq_false_iff.2 hsub, oneshot, hnone fun h => hsub (flag h)⟩

private theorem clear_data {e : Completion} {r : Ptr} (h : (e.clear p).data = some r) :
    r ≠ p ∧ e.data = some r := by
  unfold Completion.clear at h
  split_ifs at h with hp
  refine ⟨?_, h⟩
  rintro rfl
  exact hp h

private theorem clear_cancelled (e : Completion) : (e.clear p).cancelled = e.cancelled := by
  unfold Completion.clear
  split_ifs <;> rfl

/-- What clearing the events of a source leaves behind the current one. -/
private theorem clear_drop (q : State) (p : Ptr) :
    (evdpQueueRmPendingEvents p q).ee.drop (q.currentEvent + 1)
      = (q.ee.drop (q.currentEvent + 1)).map (·.clear p) := by
  unfold evdpQueueRmPendingEvents
  simp only
  rw [List.drop_append, List.drop_of_length_le (by rw [List.length_take]; omega), List.nil_append,
    ← List.map_drop, List.drop_drop, List.length_take]
  by_cases h : q.currentEvent ≤ q.ee.length
  · rw [Nat.min_eq_left h, Nat.add_sub_cancel_left]
  · rw [List.drop_of_length_le (by omega), List.drop_of_length_le (by omega)]

/-- A source is detached, and the program goes on at `c`. -/
private theorem Sound.detach (sound : Sound q) (hsrc : q.sources p = some src)
    (submitted : src'.submitted = src.submitted) (type : src'.type = src.type) (toClose : Bool)
    (closed : toClose = true → src.type.isTimer = false → p ∉ q.kernel.carried) {c : Ctl}
    (behind : q.ctl.behind = true ∧ c.behind = true ∨ q.ctl = .user ∧ c = .user)
    (event : ∀ ne, c.event = some ne → q.ctl.event = some ne ∧ ne.source ≠ p)
    (place : ∀ i, c.current = some i → q.currentEvent = i) (settled : c.settled = true) :
    Sound ((doDetachFromQueue .aioPoll p src' toClose q).goto c) := by
  have hflag : p ∈ q.kernel.carried → src'.submitted = true := by
    intro hp
    obtain ⟨s, hs, -, hsub⟩ := sound.live p hp
    rw [submitted, Option.some.inj (hsrc.symm.trans hs)]
    exact hsub
  obtain ⟨hfalse, hrequests, hcarried⟩ :=
    detach_requests toClose sound.oneshot hflag (by rw [type]; exact closed)
  generalize hx : evdpSourceDetach .aioPoll p src' toClose q.kernel = x at hfalse hrequests hcarried
  obtain ⟨s1, k1⟩ := x
  simp only at hfalse hrequests hcarried
  -- the state after the detach
  obtain ⟨s2, hs2, huse2, hq'⟩ : ∃ s2 : Source, s2.submitted = false ∧ s2.qInUse = false ∧
      ∀ q', q' = (doDetachFromQueue .aioPoll p src' toClose q).goto c →
        q'.sources = Function.update q.sources p (some s2) ∧ q'.kernel = k1 ∧
        q'.ee = (evdpQueueRmPendingEvents p q).ee ∧ q'.currentEvent = q.currentEvent ∧
        q'.pendingQs = q.pendingQs.erase p ∧ q'.ctl = c := by
    refine ⟨{ s1 with pending := false, qInUse := false }, hfalse, rfl, ?_⟩
    rintro q' rfl
    unfold doDetachFromQueue
    simp only
    rw [show evdpSourceDetach .aioPoll p src' toClose
      (evdpQueueRmPendingEvents p q).kernel = (s1, k1)
      from hx]
    simp only
    split_ifs with hp
    · exact ⟨rfl, rfl, rfl, rfl, rfl, rfl⟩
    · refine ⟨?_, rfl, rfl, rfl, rfl, rfl⟩
      rw [Bool.not_eq_true] at hp
      rw [← hp]
      rfl
  obtain ⟨hsources, hk, hee, hcur, hpend, hctl⟩ := hq' _ rfl
  generalize (doDetachFromQueue .aioPoll p src' toClose q).goto c = q'
    at hsources hk hee hcur hpend hctl
  have hlive : ∀ r, q'.Live r ↔ r ≠ p ∧ q.Live r := by
    intro r
    unfold State.Live
    rw [hk, hcarried, sound.nodup.mem_erase_iff]
  have hun : q'.unhandled = q.unhandled.map (·.clear p) := by
    rcases behind with ⟨h, h'⟩ | ⟨h, h'⟩
    · rw [unhandled_of_behind h, unhandled_of_behind (by rw [hctl]; exact h'), hee, hcur,
        clear_drop]
    · unfold State.unhandled
      rw [hctl, h', h]
      rfl
  have hwait : ∀ e ∈ q'.unhandled, e.cancelled = false → ∀ r, e.data = some r →
      r ≠ p ∧ q.Waiting r := by
    intro e he hc r hr
    rw [hun] at he
    obtain ⟨e0, he0, rfl⟩ := List.mem_map.1 he
    obtain ⟨hne, hr0⟩ := clear_data hr
    exact ⟨hne, e0, he0, (clear_cancelled e0).symm.trans hc, hr0⟩
  refine sound.clear hsources ?_ ?_ ?_ ?_ ?_ ?_ ?_ ?_ ?_ ?_ ?_ ?_ ?_
  · intro s hs
    rw [← Option.some.inj hs, hs2]
  · rw [hk, hcarried]
    exact sound.nodup.erase p
  · rw [hk]
    exact hrequests
  · exact fun r hr => (hlive r).1 hr
  · exact fun r hne hr => (hlive r).2 ⟨hne, hr⟩
  · exact fun e he hc r hr => ⟨(hwait e he hc r hr).2, fun h => absurd h (hwait e he hc r hr).1⟩
  · rintro r hne ⟨e, he, hc, hr⟩
    refine ⟨e.clear p, ?_, (clear_cancelled e).trans hc, ?_⟩
    · rw [hun]
      exact List.mem_map_of_mem he
    · unfold Completion.clear
      rw [if_neg (by rw [hr]; exact fun h => hne (Option.some.inj h)), hr]
  · rw [hctl]
    exact fun ne hne => .inl (event ne hne)
  · rw [hctl, hcur]
    exact place
  · rw [hctl]
    exact settled
  · rw [hpend]
    exact sound.pendingNodup.erase p
  · intro r hr _
    rw [hpend] at hr
    exact List.mem_of_mem_erase hr
  · intro hp
    rw [hpend] at hp
    exact absurd hp sound.pendingNodup.not_mem_erase

/-- Only the place of the program changes, and what is to be handled but for cleared entries. -/
private theorem Sound.same (sound : Sound q) (sources : q'.sources = q.sources)
    (kernel : q'.kernel = q.kernel) (pendingQs : q'.pendingQs = q.pendingQs)
    (sub : ∀ e ∈ q'.unhandled, e ∈ q.unhandled)
    (sup : ∀ e ∈ q.unhandled, e.data ≠ none → e ∈ q'.unhandled)
    (event : ∀ ne, q'.ctl.event = some ne → q.ctl.event = some ne)
    (place : ∀ i, q'.ctl.current = some i → q'.currentEvent = i) (gathered : Gathered q') :
    Sound q' where
  nodup := kernel ▸ sound.nodup
  oneshot := kernel ▸ sound.oneshot
  live := by
    unfold State.Live
    rw [kernel, sources]
    exact sound.live
  flag := by
    intro r s hs hsub
    rw [sources] at hs
    obtain ⟨huse, h⟩ := sound.flag r s hs hsub
    refine ⟨huse, h.imp (fun h => ?_) ?_⟩
    · unfold State.Live
      rwa [kernel]
    · rintro ⟨e, he, hc, hr⟩
      exact ⟨e, sup e he (by rw [hr]; simp), hc, hr⟩
  waiting := by
    intro e he hc r hr
    unfold State.Attached State.Live
    rw [kernel, sources]
    exact sound.waiting e (sub e he) hc r hr
  pending := by
    rw [pendingQs, sources]
    exact sound.pending
  pendingNodup := pendingQs ▸ sound.pendingNodup
  handled := by
    intro ne hne
    rw [sources]
    exact sound.handled ne (event ne hne)
  place := place
  gathered := gathered

/-- The program goes on at `c`, with the same completions to be handled. -/
private theorem Sound.goto (sound : Sound q) {c : Ctl}
    (unhandled : (q.goto c).unhandled = q.unhandled)
    (event : ∀ ne, c.event = some ne → q.ctl.event = some ne)
    (place : ∀ i, c.current = some i → q.currentEvent = i) (gathered : Gathered (q.goto c)) :
    Sound (q.goto c) :=
  sound.same rfl rfl rfl (fun _ he => unhandled ▸ he) (fun _ he _ => unhandled ▸ he) event place
    gathered

/-- Between two batches there is no completion to be handled. -/
def Ctl.between : Ctl → Bool
  | .user => true
  | .gathering _ _ _ => true
  | .ready => true
  | _ => false

private theorem unhandled_of_between (h : q.ctl.between = true) : q.unhandled = [] := by
  unfold State.unhandled
  cases hc : q.ctl <;> first | rfl | (rw [hc] at h; cases h)

private theorem nothing_between {c : Ctl} (h : c.between = true) :
    c.event = none ∧ c.current = none := by
  cases c <;> simp_all [Ctl.between, Ctl.event, Ctl.current]

private theorem Sound.between (sound : Sound q) {c : Ctl} (ctl : q.ctl.between = true)
    (between : c.between = true) (gathered : Gathered (q.goto c)) : Sound (q.goto c) := by
  refine sound.goto ?_ ?_ ?_ gathered
  · rw [unhandled_of_between ctl, unhandled_of_between (q := q.goto c) between]
  · intro ne hne
    rw [(nothing_between between).1] at hne
    cases hne
  · intro i hi
    rw [(nothing_between between).2] at hi
    cases hi

/-- A batch is submitted whole, or it is refused. -/
private theorem Sound.submit (sound : Sound q) (between : q.ctl.between = true) {ps rest : List Ptr}
    (pendingQs : q.pendingQs = ps ++ rest) {taken : Option Nat}
    (whole : ∀ n ∈ taken, ps.length ≤ n) :
    (doBatchFlush ps taken q = (false, q.goto .user)) ∨
      ∃ q', doBatchFlush ps taken q = (true, q') ∧ q'.pendingQs = rest ∧
        ∀ c : Ctl, c.between = true → Gathered (q'.goto c) → Sound (q'.goto c) := by
  have hnodup := sound.pendingNodup
  rw [pendingQs] at hnodup
  have hsource : ∀ p ∈ ps, ∃ src, q.sources p = some src ∧ src.qInUse = true ∧
      src.submitted = false := by
    intro p hp
    exact sound.pending p (by rw [pendingQs]; exact List.mem_append_left _ hp)
  have hsome : ∀ p ∈ ps, (q.sources p).isSome = true := by
    intro p hp
    obtain ⟨src, hsrc, -⟩ := hsource p hp
    rw [hsrc]
    rfl
  unfold doBatchFlush
  cases taken with
  | none => exact .inl rfl
  | some n =>
    right
    have hlen : (q.controlBlocks ps).length ≤ n := by
      have h := congrArg List.length (controlBlocks_sources hsome)
      rw [List.length_map] at h
      rw [h]
      exact whole n rfl
    have hcarried := carried_batch hsome
    have hshot : ∀ r ∈ q.controlBlocks ps, r.multishot = false :=
      fun r hr => (mem_controlBlocks hr).1
    have hblocks : (ps.filterMap fun p => (q.sources p).map fun src => src.request p false)
        = q.controlBlocks ps := rfl
    simp only [hblocks, Kernel.ioSubmit, List.take_of_length_le hlen]
    generalize q.controlBlocks ps = rs at hcarried hshot
    obtain ⟨q', hmove, hpend, hk, hee, hcur, hctl, hsources⟩ :=
      moveSubmitted_spec (q := { q with
        kernel := { q.kernel with requests := q.kernel.requests ++ rs }
        statsPending := q.statsPending - ps.length
        statsRunning := q.statsRunning + ps.length }) pendingQs hnodup hsome
    refine ⟨q', by simp only [if_true, hmove], hpend, ?_⟩
    intro c hc hgathered
    have hcarried' : q'.kernel.carried = q.kernel.carried ++ ps := by
      rw [hk]
      exact (carriedBy_append q.kernel.requests rs).trans (by rw [hcarried]; rfl)
    have hnot : ∀ p ∈ ps, ¬ q.Live p := by
      intro p hp hlive
      obtain ⟨src, hsrc, -, hsub⟩ := hsource p hp
      obtain ⟨s, hs, -, hsub'⟩ := sound.live p hlive
      rw [Option.some.inj (hs.symm.trans hsrc), hsub] at hsub'
      cases hsub'
    have hnone : (q'.goto c).unhandled = [] := unhandled_of_between hc
    have hself : ∀ p ∈ ps, ∃ src, q'.sources p = some src ∧ src.qInUse = true ∧
        src.submitted = true := by
      intro p hp
      obtain ⟨src, hsrc, huse, -⟩ := hsource p hp
      refine ⟨{ src with submitted := true, pending := false }, ?_, huse, rfl⟩
      rw [hsources p, if_pos hp]
      change (q.sources p).map _ = _
      rw [hsrc]
      rfl
    have hother : ∀ p, p ∉ ps → q'.sources p = q.sources p := by
      intro p hp
      rw [hsources p, if_neg hp]
    exact {
      nodup := by
        change q'.kernel.carried.Nodup
        rw [hcarried']
        refine List.nodup_append.2 ⟨sound.nodup, (List.nodup_append.1 hnodup).1, ?_⟩
        rintro a ha b hb rfl
        exact hnot a hb ha
      oneshot := by
        intro r hr
        change r ∈ q'.kernel.requests at hr
        rw [hk] at hr
        exact (List.mem_append.1 hr).elim (sound.oneshot r) (hshot r)
      live := by
        intro r hr
        change r ∈ q'.kernel.carried at hr
        change ∃ src, q'.sources r = some src ∧ _
        by_cases hps : r ∈ ps
        · exact hself r hps
        · rw [hcarried', List.mem_append] at hr
          rw [hother r hps]
          exact sound.live r (hr.resolve_right hps)
      flag := by
        intro r s hs hsub
        change q'.sources r = some s at hs
        by_cases hps : r ∈ ps
        · obtain ⟨src, hsrc, huse, -⟩ := hself r hps
          rw [Option.some.inj (hs.symm.trans hsrc)]
          refine ⟨huse, .inl ?_⟩
          change r ∈ q'.kernel.carried
          rw [hcarried']
          exact List.mem_append_right _ hps
        · rw [hother r hps] at hs
          obtain ⟨huse, h⟩ := sound.flag r s hs hsub
          refine ⟨huse, .inl ?_⟩
          change r ∈ q'.kernel.carried
          rw [hcarried']
          rcases h with h | ⟨e, he, -⟩
          · exact List.mem_append_left _ h
          · rw [unhandled_of_between between] at he
            cases he
      waiting := by
        intro e he
        rw [hnone] at he
        cases he
      pending := by
        intro r hr
        change r ∈ q'.pendingQs at hr
        change ∃ src, q'.sources r = some src ∧ _
        rw [hpend] at hr
        have hps : r ∉ ps := fun h => (List.nodup_append.1 hnodup).2.2 r h r hr rfl
        rw [hother r hps]
        exact sound.pending r (by rw [pendingQs]; exact List.mem_append_right _ hr)
      pendingNodup := by
        change q'.pendingQs.Nodup
        rw [hpend]
        exact (List.nodup_append.1 hnodup).2.1
      handled := by
        intro ne hne
        rw [show (q'.goto c).ctl.event = none from (nothing_between hc).1] at hne
        cases hne
      place := by
        intro i hi
        rw [show (q'.goto c).ctl.current = none from (nothing_between hc).2] at hi
        cases hi
      gathered := hgathered }

/-- The end of the flush. -/
private theorem Sound.flushEnd (sound : Sound q) (between : q.ctl.between = true)
    {iocbv rest : List Ptr} (pendingQs : q.pendingQs = iocbv ++ rest) {taken : Option Nat}
    (whole : ∀ n ∈ taken, iocbv.length ≤ n) : Sound (flushAioEnd iocbv taken q) := by
  have hready : ∀ q' : State, Gathered (q'.goto .ready) := fun q' => gathered_of_settled rfl
  unfold flushAioEnd
  split_ifs
  · exact sound.between between rfl (hready q)
  · rcases sound.submit between pendingQs whole with h | ⟨q', h, -, hsound⟩
    · rw [h]
      exact sound.between between rfl (gathered_of_settled rfl)
    · rw [h]
      exact hsound .ready rfl (hready q')

theorem Sound.flush (sound : Sound q) {last s : Option Ptr} {iocbv : List Ptr}
    (ctl : q.ctl = .gathering last s iocbv) {taken : Option Nat}
    (whole : ∀ n ∈ taken, q.submits ≤ n) :
    Sound (flushAio last s iocbv taken q) := by
  have between : q.ctl.between = true := by rw [ctl]; rfl
  obtain ⟨rest, hpend, hs, hlast⟩ := sound.gathered.first last s iocbv ctl
  have hsubmits : q.submits = if s = none ∨ last = s then iocbv.length
      else if q.batchSize ≤ iocbv.length + 1 then iocbv.length + 1 else 0 := by
    unfold State.submits
    rw [ctl]
  unfold flushAio
  split
  · refine sound.flushEnd between hpend ?_
    rw [hsubmits, if_pos (.inl rfl)] at whole
    exact whole
  rename_i p
  split_ifs with hsame
  · refine sound.flushEnd between hpend ?_
    rw [hsubmits, if_pos (.inr hsame)] at whole
    exact whole
  rw [hsubmits, if_neg (by simp [hsame])] at whole
  -- the list goes on with the source
  obtain ⟨rest', rfl⟩ : ∃ rest', rest = p :: rest' := by
    cases rest with
    | nil => cases hs
    | cons r rest' => exact ⟨rest', by rw [Option.some.inj hs]⟩
  obtain ⟨src, hsrc, -⟩ := sound.pending p (by rw [hpend]; simp)
  have hpend' : q.pendingQs = (iocbv ++ [p]) ++ rest' := by
    rw [hpend, List.append_assoc, List.singleton_append]
  have hnodup := sound.pendingNodup
  have hp : p ∉ rest' := by
    rw [hpend] at hnodup
    exact (List.nodup_cons.1 (List.nodup_append.1 hnodup).2.1).1
  have hlen : (iocbv ++ [p]).length = iocbv.length + 1 := by simp
  rw [hsrc]
  simp only
  by_cases hbatch : q.batchSize ≤ (iocbv ++ [p]).length
  · rw [if_pos hbatch]
    rw [hlen] at hbatch
    rw [if_pos hbatch, ← hlen] at whole
    rcases sound.submit between hpend' whole with h | ⟨q', h, hq', hsound⟩
    · rw [h]
      exact sound.between between rfl (gathered_of_settled rfl)
    · rw [h]
      refine hsound _ rfl ⟨fun count hc => by (cases hc), ?_⟩
      intro last' s' iocbv' hc
      cases hc
      refine ⟨rest', hq', by rw [hq'], ?_⟩
      rintro r hr
      rwa [← Option.some.inj hr]
  · rw [if_neg hbatch]
    refine sound.between between rfl ⟨fun count hc => by (cases hc), ?_⟩
    intro last' s' iocbv' hc
    cases hc
    refine ⟨rest', hpend', nextPending_eq hpend hnodup, ?_⟩
    rintro r hr
    rwa [← Option.some.inj hr]

theorem Sound.run (sound : Sound q)
    (handled : ∀ e ∈ q.unhandled, e.cancelled = false →
      ∀ p ∈ e.data, ∀ src ∈ q.sources p, src.submitted = false) :
    Sound (q.goto (.gathering none q.pendingQs.head? [])) where
  nodup := sound.nodup
  oneshot := sound.oneshot
  live := sound.live
  flag := by
    intro r s hs hsub
    obtain ⟨huse, h⟩ := sound.flag r s hs hsub
    refine ⟨huse, .inl (h.resolve_right ?_)⟩
    rintro ⟨e, he, hc, hr⟩
    rw [handled e he hc r hr s hs] at hsub
    cases hsub
  waiting := fun e he => by cases he
  pending := sound.pending
  pendingNodup := sound.pendingNodup
  handled := fun ne hne => by cases hne
  place := fun i hi => by cases hi
  gathered := by
    refine ⟨fun count hc => by (cases hc), ?_⟩
    intro last s iocbv hc
    cases hc
    exact ⟨q.pendingQs, rfl, rfl, fun p hp => by cases hp⟩

theorem Sound.wait (sound : Sound q) (ctl : q.ctl = .ready) {done : List (Nat × Reported × Bool)}
    (h : evdpQueueWaitEvents .aioPoll done q = some q') : Sound q' := by
  unfold evdpQueueWaitEvents at h
  split at h
  · cases h
  rename_i k cs hcomplete
  simp only at h
  split at h
  swap
  · cases h
  cases h
  obtain ⟨hnodup, hshot, hkept, hsub, hcs⟩ := complete_spec hcomplete sound.oneshot sound.nodup
  have hnone : q.unhandled = [] := unhandled_of_between (by rw [ctl]; rfl)
  refine ⟨hnodup, hshot, fun r hr => sound.live r (hsub r hr), ?_, ?_, sound.pending,
    sound.pendingNodup, fun ne hne => by (cases hne), fun i hi => by (cases hi),
    gathered_of_settled rfl⟩
  · intro r s hs hflag
    obtain ⟨huse, hlive⟩ := sound.flag r s hs hflag
    refine ⟨huse, hkept r (hlive.resolve_right ?_)⟩
    rintro ⟨e, he, -⟩
    rw [hnone] at he
    cases he
  · intro e he hc r hr
    obtain ⟨hlive, hnot⟩ := hcs e he hc r hr
    obtain ⟨s, hs, huse, -⟩ := sound.live r hlive
    exact ⟨⟨s, hs, huse⟩, hnot⟩

theorem Sound.handleEvent (sound : Sound q) {i : Nat} (ctl : q.ctl = .events i)
    (cancelled : ∀ p ∈ q.fetchingCancelled,
      (∃ src ∈ q.sources p, src.qInUse = true) ∧ p ∉ q.kernel.carried) :
    Sound (handleEvent i q) := by
  have hunhandled : q.unhandled = q.ee.drop i := by
    unfold State.unhandled
    rw [ctl]
  unfold Poll.handleEvent
  split
  · -- the batch is handled
    rename_i hend
    have hnil : q.unhandled = [] := by
      rw [hunhandled]
      exact List.drop_of_length_le (List.getElem?_eq_none_iff.1 hend)
    have hend' : ∀ q' : State, q'.sources = q.sources → q'.kernel = q.kernel →
        q'.pendingQs = q.pendingQs → q'.ctl = .user → Sound q' := by
      intro q' hsources hk hp hc
      refine sound.same hsources hk hp ?_ ?_ ?_ ?_ (gathered_of_settled (by rw [hc]; rfl))
      · intro e he
        rw [unhandled_of_between (by rw [hc]; rfl)] at he
        cases he
      · intro e he
        rw [hnil] at he
        cases he
      · intro ne hne
        rw [hc] at hne
        cases hne
      · intro j hj
        rw [hc] at hj
        cases hj
    split
    · exact hend' _ rfl rfl rfl rfl
    · exact hend' _ rfl rfl rfl rfl
  rename_i e hentry
  obtain ⟨hi, rfl⟩ := List.getElem?_eq_some_iff.1 hentry
  have hdrop : q.unhandled = q.ee[i] :: q.ee.drop (i + 1) := by
    rw [hunhandled, List.drop_eq_getElem_cons hi]
  simp only
  split
  · -- the source was detached
    rename_i hdata
    refine sound.same rfl rfl rfl ?_ ?_ (fun ne hne => by (cases hne)) (fun j hj => by (cases hj))
      (gathered_of_settled rfl)
    · intro e he
      rw [hdrop]
      exact List.mem_cons_of_mem _ he
    · intro e he hne
      rw [hdrop] at he
      rcases List.mem_cons.1 he with rfl | he
      · exact absurd hdata hne
      · exact he
  rename_i p hdata
  obtain ⟨⟨src, hsrc, huse⟩, hnot⟩ : q.Attached p ∧ ¬ q.Live p := by
    cases hc : q.ee[i].cancelled with
    | false => exact sound.waiting _ (by rw [hdrop]; exact List.mem_cons_self) hc p hdata
    | true =>
      refine cancelled p ?_
      simp [State.fetchingCancelled, ctl, List.getElem?_eq_getElem hi, hc, hdata]
  simp only [hsrc]
  refine sound.clear (p := p) (o := some { src with noDetach := true, submitted := false }) rfl ?_
    sound.nodup sound.oneshot ?_ (fun r _ hr => hr) ?_ ?_ ?_ ?_ rfl sound.pendingNodup
    (fun r hr _ => hr) (fun _ => ⟨_, rfl, huse⟩)
  · intro s hs
    rw [← Option.some.inj hs]
  · refine fun r hr => ⟨?_, hr⟩
    rintro rfl
    exact hnot hr
  · intro e he hc r hr
    refine ⟨⟨e, ?_, hc, hr⟩, fun _ => ⟨_, rfl, huse⟩⟩
    rw [hdrop]
    exact List.mem_cons_of_mem _ he
  · rintro r hne ⟨e, he, hc, hr⟩
    rw [hdrop] at he
    rcases List.mem_cons.1 he with rfl | he
    · exact absurd (Option.some.inj (hr.symm.trans hdata)) hne
    · exact ⟨e, he, hc, hr⟩
  · intro ne hne
    cases hne
    exact .inr ⟨rfl, _, rfl, huse, rfl⟩
  · intro j hj
    exact Option.some.inj hj

private theorem event_frame {c : Ctl} {ne : NebEvdpEvent} (h : c.event = some ne) :
    c.behind = true ∧ c.settled = true ∧ c.current = some ne.index := by
  cases c <;> first | (cases h; exact ⟨rfl, rfl, rfl⟩) | cases h

/-- The handling of an event goes on. -/
private theorem Sound.proceed (sound : Sound q) {ne : NebEvdpEvent} {c : Ctl}
    (event : q.ctl.event = some ne) (event' : c.event = some ne) : Sound (q.goto c) := by
  obtain ⟨hb, -, hcur⟩ := event_frame event
  obtain ⟨hb', hs', hcur'⟩ := event_frame event'
  refine sound.goto ?_ ?_ ?_ (gathered_of_settled hs')
  · rw [unhandled_of_behind hb, unhandled_of_behind (q := q.goto c) hb']
    rfl
  · intro ne' hne
    rw [← hne, event, event']
  · intro i hi
    rw [hcur'] at hi
    exact sound.place i (hcur.trans hi)

/-- The source being handled is written, with its flag as it was, and the program goes on at `c`. -/
private theorem Sound.handling (sound : Sound q) {ne : NebEvdpEvent} {c : Ctl} {q1 : State}
    (event : q.ctl.event = some ne) (hsrc : q.sources ne.source = some src)
    (sources : q1.sources = Function.update q.sources ne.source (some src'))
    (kernel : q1.kernel = q.kernel) (currentEvent : q1.currentEvent = q.currentEvent)
    (qInUse : src'.qInUse = src.qInUse) (submitted : src'.submitted = src.submitted)
    (noDetach : c.event ≠ none → src'.noDetach = src.noDetach)
    (unhandled : (q1.goto c).unhandled = q.ee.drop (q.currentEvent + 1))
    (place : ∀ i, c.current = some i → i = ne.index) (settled : c.settled = true)
    (event' : ∀ ne', c.event = some ne' → ne' = ne)
    (pending : q1.pendingQs = q.pendingQs ∨
      q1.pendingQs = ne.source :: q.pendingQs.erase ne.source) :
    Sound (q1.goto c) := by
  obtain ⟨hb, -, hcur⟩ := event_frame event
  obtain ⟨s, hs, huse, -, hsub⟩ := sound.handled ne event
  obtain rfl := Option.some.inj (hsrc.symm.trans hs)
  refine sound.write hsrc sources ?_ ?_ qInUse submitted noDetach ?_ ?_ settled ?_ ?_
    (fun _ => ⟨huse, hsub⟩)
  · exact congrArg Kernel.requests kernel
  · rw [unhandled, unhandled_of_behind hb]
  · intro ne' hne
    rw [event, event' ne' hne]
  · intro i hi
    rw [place i hi]
    exact currentEvent.trans (sound.place ne.index hcur)
  · rcases pending with h | h
    · change q1.pendingQs.Nodup
      rw [h]
      exact sound.pendingNodup
    · change q1.pendingQs.Nodup
      rw [h]
      exact List.nodup_cons.2 ⟨sound.pendingNodup.not_mem_erase, sound.pendingNodup.erase _⟩
  · intro r hr hne
    change r ∈ q1.pendingQs at hr
    rcases pending with h | h
    · rwa [h] at hr
    · rw [h] at hr
      exact List.mem_of_mem_erase ((List.mem_cons.1 hr).resolve_left hne)

private theorem Sound.handlingOn (sound : Sound q) {ne : NebEvdpEvent} {c : Ctl} {q1 : State}
    (event : q.ctl.event = some ne) (hsrc : q.sources ne.source = some src)
    (sources : q1.sources = Function.update q.sources ne.source (some src'))
    (kernel : q1.kernel = q.kernel) (ee : q1.ee = q.ee)
    (currentEvent : q1.currentEvent = q.currentEvent)
    (qInUse : src'.qInUse = src.qInUse) (submitted : src'.submitted = src.submitted)
    (noDetach : src'.noDetach = src.noDetach) (event' : c.event = some ne)
    (pending : q1.pendingQs = q.pendingQs ∨
      q1.pendingQs = ne.source :: q.pendingQs.erase ne.source) :
    Sound (q1.goto c) := by
  obtain ⟨hb, hs, hcur⟩ := event_frame event'
  refine sound.handling event hsrc sources kernel currentEvent qInUse submitted (fun _ => noDetach)
    ?_ ?_ hs ?_ pending
  · rw [unhandled_of_behind (q := q1.goto c) hb]
    change q1.ee.drop (q1.currentEvent + 1) = _
    rw [ee, currentEvent]
  · intro i hi
    exact Option.some.inj (hi.symm.trans hcur)
  · intro ne' hne
    exact Option.some.inj (hne.symm.trans event')

theorem after_callback_event (ne : NebEvdpEvent) (type : SourceType) (stage : Stage)
    (ret : NebEvdpCbRet) : (afterCallback ne type stage ret).event = some ne := by
  cases stage <;> cases ret <;> rfl

/-- The stages of the handle functions. -/
theorem Sound.handle (sound : Sound q) {ne : NebEvdpEvent} {stage : Stage}
    (ctl : q.ctl = .handle ne stage) (hsrc : q.sources ne.source = some src) (ok : Bool) :
    Sound (evdpSourceTimerHandle .aioPoll ne src stage ok q) ∧
      Sound (evdpSourceRoFdHandle .aioPoll ne src stage q) ∧
      Sound (evdpSourceOsFdHandle .aioPoll ne src stage q) := by
  have event : q.ctl.event = some ne := by
    rw [ctl]
    rfl
  obtain ⟨s, hs, huse, -⟩ := sound.handled ne event
  obtain rfl := Option.some.inj (hsrc.symm.trans hs)
  have hon : ∀ c : Ctl, c.event = some ne → Sound (q.goto c) := fun c hc => sound.proceed event hc
  have hpending : Sound ((moveToPending ne.source src q).goto (.finish ne .continue)) :=
    sound.handlingOn event hsrc rfl rfl rfl rfl rfl rfl rfl rfl (.inr rfl)
  have hrequeue : Sound (requeue .aioPoll ne src q) := by
    unfold requeue
    simp only
    rw [if_pos huse]
    exact hpending
  have hcalled : ∀ (s : Source) (stage : Stage), s.qInUse = src.qInUse →
      s.submitted = src.submitted → s.noDetach = src.noDetach →
      Sound ((q.setSource ne.source s).goto (.callback ne stage)) := fun s stage h1 h2 h3 =>
    sound.handlingOn event hsrc rfl rfl rfl rfl h1 h2 h3 rfl (.inl rfl)
  refine ⟨?_, ?_, ?_⟩
  · unfold evdpSourceTimerHandle
    split
    · exact hrequeue
    · refine hon _ ?_
      split <;> rfl
  · unfold evdpSourceRoFdHandle
    split
    · refine hon _ ?_
      split <;> rfl
    · exact hrequeue
    · refine hon _ ?_
      split <;> rfl
  · unfold evdpSourceOsFdHandle
    split
    · split_ifs
      · exact hcalled _ _ rfl rfl rfl
      · exact hon _ rfl
    · split_ifs
      · exact hcalled _ _ rfl rfl rfl
      · exact hon _ rfl
    · split_ifs
      · exact hcalled _ _ rfl rfl rfl
      · exact hon _ rfl
    · split_ifs
      · exact hpending
      · exact hon _ rfl

theorem Sound.finish (sound : Sound q) {ne : NebEvdpEvent} {ret : NebEvdpCbRet}
    (ctl : q.ctl = .finish ne ret) (hsrc : q.sources ne.source = some src) :
    Sound (finishEvent .aioPoll ne src ret q) := by
  have event : q.ctl.event = some ne := by
    rw [ctl]
    rfl
  have hcur : q.currentEvent = ne.index := sound.place _ (by rw [ctl]; rfl)
  obtain ⟨s, hs, -, -, hsub⟩ := sound.handled ne event
  obtain rfl := Option.some.inj (hsrc.symm.trans hs)
  have hnot : ne.source ∉ q.kernel.carried := by
    intro h
    obtain ⟨s, hs, -, hsub'⟩ := sound.live _ h
    rw [← Option.some.inj (hsrc.symm.trans hs), hsub] at hsub'
    cases hsub'
  have hdetach : ∀ toClose, Sound ((doDetachFromQueue .aioPoll ne.source
      { src with noDetach := false } toClose q).goto (.removed ne.index)) := by
    intro toClose
    have hsub' : ({ src with noDetach := false } : Source).submitted = src.submitted := rfl
    refine sound.detach (c := .removed ne.index) hsrc hsub' rfl toClose (fun _ _ => hnot)
      (.inl ⟨by rw [ctl]; rfl, rfl⟩) ?_ ?_ rfl
    · intro ne' hne
      cases hne
    · intro i hi
      rw [hcur]
      exact Option.some.inj hi
  have hset : ∀ c : Ctl, c.event = none → c.current = none → c.settled = true →
      (q.goto c).unhandled = q.ee.drop (q.currentEvent + 1) →
      Sound ((q.setSource ne.source { src with noDetach := false }).goto c) := by
    intro c he hc hs hu
    refine sound.handling event hsrc rfl rfl rfl rfl rfl (fun h => absurd he h) hu ?_ hs ?_
      (.inl rfl)
    · intro i hi
      rw [hc] at hi
      cases hi
    · intro ne' hne
      rw [he] at hne
      cases hne
  have hnext : Sound ((q.setSource ne.source { src with noDetach := false }).goto
      (.events (ne.index + 1))) :=
    hset _ rfl rfl rfl (by rw [hcur]; rfl)
  unfold finishEvent
  cases ret with
  | «continue» => exact hnext
  | remove => exact hdetach false
  | close => exact hdetach true
  | breakExp => exact hset _ rfl rfl rfl rfl
  | breakErr => exact hset _ rfl rfl rfl rfl
  | endForeach => exact hnext

end Step

/-- What one step preserves. -/
theorem Sound.ofStep {q q' : State} {a : Action} (sound : Sound q) (keeps : KeepsTrack q a)
    (h : step .aioPoll q a = some q') : Sound q' := by
  have hcall : ∀ {p : Ptr} {f : Source → State}, q.call p f = some q' →
      q.ctl.userTurn = true ∧ ∃ src, q.sources p = some src ∧ f src = q' := by
    intro p f hc
    unfold State.call at hc
    split at hc
    · obtain ⟨src, hsrc, hq'⟩ := Option.map_eq_some_iff.1 hc
      exact ⟨‹_›, src, hsrc, hq'⟩
    · cases hc
  cases a with
  | newSource p type fd =>
    simp only [step] at h
    split at h
    · rename_i hturn
      cases h
      simp only [Bool.and_eq_true] at hturn
      refine sound.idle hturn.1 ?_ rfl ?_ rfl rfl rfl rfl (.inl rfl)
      · intro s hs
        rw [hs] at hturn
        exact absurd hturn.2 (by simp)
      · intro s hs
        rw [← Option.some.inj hs]
        rfl
    · cases h
  | delSource p =>
    obtain ⟨turn, src, hsrc, rfl⟩ := hcall h
    unfold nebEvdpSourceDel
    split_ifs with huse
    · exact sound
    · refine sound.idle (p := p) (o := none) turn ?_ rfl (fun s hs => by cases hs) rfl rfl rfl rfl
        (.inl rfl)
      intro s hs
      rw [← Option.some.inj (hsrc.symm.trans hs)]
      exact Bool.eq_false_iff.2 huse
  | resetFd p fd =>
    obtain ⟨turn, src, hsrc, rfl⟩ := hcall h
    unfold nebEvdpSourceOsFdReset
    split_ifs with huse
    · exact sound
    · exact sound
    · refine sound.idle turn ?_ rfl ?_ rfl rfl rfl rfl (.inl rfl)
      · intro s hs
        rw [← Option.some.inj (hsrc.symm.trans hs)]
        exact Bool.eq_false_iff.2 huse
      · intro s hs
        rw [← Option.some.inj hs]
        rfl
  | next d p handler sqe taken =>
    simp only [step] at h
    split at h
    · obtain ⟨turn, src, hsrc, rfl⟩ := hcall h
      exact sound.next turn hsrc d handler sqe taken (keeps src hsrc)
    · cases h
  | attach p settime =>
    obtain ⟨turn, src, hsrc, rfl⟩ := hcall h
    exact sound.attach turn hsrc settime
  | detach p toClose =>
    obtain ⟨turn, src, hsrc, rfl⟩ := hcall h
    unfold nebEvdpQueueDetach
    split_ifs with huse hnd
    · exact sound
    · exact sound
    · have huse' : src.qInUse = true := by simpa using huse
      have hnd' : src.noDetach = false := Bool.eq_false_iff.2 hnd
      have hctl : (doDetachFromQueue .aioPoll p src toClose q).ctl = q.ctl := by
        unfold doDetachFromQueue
        simp only
        split <;> rfl
      have hgoto : doDetachFromQueue .aioPoll p src toClose q
          = (doDetachFromQueue .aioPoll p src toClose q).goto q.ctl := by
        rw [← hctl]
        rfl
      simp only
      rw [hgoto]
      refine sound.detach (c := q.ctl) hsrc rfl rfl toClose (keeps src hsrc huse' hnd') ?_ ?_
        sound.place
        (settled_of_turn turn)
      · cases hc : q.ctl <;> first | exact .inl ⟨rfl, rfl⟩ | exact .inr ⟨rfl, rfl⟩ |
          (rw [hc] at turn; cases turn)
      · intro ne hne
        refine ⟨hne, ?_⟩
        rintro rfl
        obtain ⟨s, hs, -, hs', -⟩ := sound.handled ne hne
        rw [← Option.some.inj (hsrc.symm.trans hs), hnd'] at hs'
        cases hs'
  | run =>
    simp only [step] at h
    split at h
    · cases h
      exact sound.run keeps
    · cases h
  | flush sqe taken =>
    simp only [step] at h
    split at h
    · rename_i count hctl
      exact absurd hctl (sound.gathered.aio count)
    · rename_i last s iocbv hctl
      cases h
      exact sound.flush hctl keeps
    · cases h
  | wait done =>
    simp only [step] at h
    split at h
    · exact sound.wait ‹_› h
    · cases h
  | waitFails =>
    simp only [step] at h
    split at h
    · rename_i hctl
      unfold evdpQueueWaitFails at h
      rw [if_neg (by simp)] at h
      cases h
      refine sound.same rfl rfl rfl (fun e he => by cases he) ?_ (fun ne hne => by (cases hne))
        (fun i hi => by (cases hi)) (gathered_of_settled rfl)
      intro e he
      rw [unhandled_of_between (by rw [hctl]; rfl)] at he
      cases he
    · cases h
  | proceed ok =>
    simp only [step] at h
    split at h
    · cases h
      exact sound.handleEvent ‹_› keeps
    · rename_i ne stage hctl
      obtain ⟨s, hs, -⟩ := sound.handled ne (by rw [hctl]; rfl)
      rw [hs] at h
      simp only at h
      obtain ⟨htimer, hro, hos⟩ := sound.handle hctl hs ok
      split at h
      · cases h
        exact htimer
      · cases h
        exact htimer
      · cases h
        exact hro
      · cases h
        exact hos
    · rename_i ne ret hctl
      obtain ⟨s, hs, -⟩ := sound.handled ne (by rw [hctl]; rfl)
      rw [hs] at h
      cases h
      exact sound.finish hctl hs
    · rename_i i hctl
      cases h
      have hcur : q.currentEvent = i := sound.place i (by rw [hctl]; rfl)
      refine sound.goto ?_ (fun ne hne => by (cases hne)) (fun j hj => by (cases hj))
        (gathered_of_settled rfl)
      rw [unhandled_of_behind (q := q) (by rw [hctl]; rfl), hcur]
      rfl
    · cases h
  | cbReturn ret =>
    simp only [step] at h
    split at h
    · rename_i ne stage hctl
      have event : q.ctl.event = some ne := by
        rw [hctl]
        rfl
      obtain ⟨s, hs, -⟩ := sound.handled ne event
      rw [hs] at h
      cases h
      have hkept : ∀ s' : Source,
          s' = (if s.type = .osFd then { s with inCallback := false } else s) →
          s'.qInUse = s.qInUse ∧ s'.submitted = s.submitted ∧ s'.noDetach = s.noDetach := by
        rintro s' rfl
        split_ifs
        · exact ⟨rfl, rfl, rfl⟩
        · exact ⟨rfl, rfl, rfl⟩
      obtain ⟨h1, h2, h3⟩ := hkept _ rfl
      exact sound.handlingOn event hs rfl rfl rfl rfl h1 h2 h3
        (after_callback_event ne s.type stage ret)
        (.inl rfl)
    · cases h

end Nebase.Evdp.Poll
