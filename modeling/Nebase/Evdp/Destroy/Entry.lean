/- The queue that a destruction finds: no source is protected when no callback is under way, and the
   counter of the pending sources does not fall short of them. -/

import Nebase.Evdp.Foreach.Nesting

set_option autoImplicit false
set_option relaxedAutoImplicit false

namespace Nebase.Evdp.Destroy

open Nebase.Foundation Nebase.Evdp.Epoll

/-- `stats.pending` without the sources that a flush has moved. -/
def settled (q : State) : Int := q.statsPending - q.ctl.uncounted

/-- A protected source is the one being handled or one that `held` names, a pending one is attached,
and there are not more pending sources than `stats.pending` tells. -/
structure Tidy (held : Ptr → Prop) (q : State) : Prop where
  guarded : ∀ p src, q.sources p = some src → src.noDetach = true →
    held p ∨ ∃ ne, q.ctl.event = some ne ∧ ne.source = p
  attached : ∀ p src, q.sources p = some src → src.pending = true → src.qInUse = true
  counted : ∀ P : List Ptr, P.Nodup → (∀ p ∈ P, q.Pending p) → 1 + P.length ≤ settled q

section Step

variable {held : Ptr → Prop} {q q' : State} {a : Epoll.Action} {p : Ptr} {o : Option Source}

/-- A change that leaves the sources alone. -/
theorem Tidy.same (tidy : Tidy held q) (sources : q'.sources = q.sources)
    (event : ∀ ne, q.ctl.event = some ne → q'.ctl.event = some ne)
    (counts : settled q ≤ settled q') : Tidy held q' := by
  refine ⟨?_, ?_, ?_⟩
  · intro p src hsrc hno
    rw [sources] at hsrc
    refine (tidy.guarded p src hsrc hno).imp_right ?_
    rintro ⟨ne, hne, hp⟩
    exact ⟨ne, event ne hne, hp⟩
  · rw [sources]
    exact tidy.attached
  · intro P nodup pending
    have := tidy.counted P nodup (by simpa only [State.Pending, sources] using pending)
    omega

theorem settled_le (statsPending : q'.statsPending = q.statsPending)
    (uncounted : q'.ctl.uncounted = q.ctl.uncounted) : settled q ≤ settled q' := by
  unfold settled
  rw [statsPending, uncounted]

/-- A step that neither writes a source nor counts, and goes on with the event. -/
theorem Tidy.still (tidy : Tidy held q) (sources : q'.sources = q.sources)
    (event : q'.ctl.event = q.ctl.event) (statsPending : q'.statsPending = q.statsPending)
    (uncounted : q'.ctl.uncounted = q.ctl.uncounted) : Tidy held q' :=
  tidy.same sources (fun _ h => event.trans h) (settled_le statsPending uncounted)

/-- The same where the control state is known. -/
theorem Tidy.advance (tidy : Tidy held q) {c : Ctl} (ctl : q.ctl = c)
    (sources : q'.sources = q.sources) (event : q'.ctl.event = c.event)
    (statsPending : q'.statsPending = q.statsPending) (uncounted : q'.ctl.uncounted = c.uncounted) :
    Tidy held q' := by
  subst ctl
  exact tidy.still sources event statsPending uncounted

theorem uncounted_of_event {c : Ctl} {ne : NebEvdpEvent} (event : c.event = some ne) :
    c.uncounted = 0 := by
  cases c with
  | flushing count => cases event
  | _ => rfl

/-- The counter after one source is written: the source was pending before if it is now, or it is
counted anew, or it was pending and is not any more. -/
inductive Counts (q q' : State) (p : Ptr) (o : Option Source) : Prop
  | keep (pending : ∀ s, o = some s → s.pending = true → q.Pending p)
      (counts : settled q ≤ settled q')
  | gain (counts : settled q + 1 ≤ settled q')
  | lose (before : q.Pending p) (after : ∀ s, o = some s → s.pending = false)
      (counts : settled q - 1 ≤ settled q')

private theorem counted_update (tidy : Tidy held q)
    (sources : q'.sources = Function.update q.sources p o) (counts : Counts q q' p o)
    {P : List Ptr} (nodup : P.Nodup) (pending : ∀ r ∈ P, q'.Pending r) :
    1 + P.length ≤ settled q' := by
  have other : ∀ r ∈ P, r ≠ p → q.Pending r := by
    intro r hr hne
    have := (Foreach.pending_update sources r).mp (pending r hr)
    rwa [if_neg hne] at this
  have self : p ∈ P → ∃ s, o = some s ∧ s.qInUse = true ∧ s.pending = true := by
    intro hp
    have := (Foreach.pending_update sources p).mp (pending p hp)
    rwa [if_pos rfl] at this
  cases counts with
  | keep before counts =>
    have := tidy.counted P nodup (fun r hr => by
      by_cases hne : r = p
      · subst hne
        obtain ⟨s, hs, -, hpend⟩ := self hr
        exact before s hs hpend
      · exact other r hr hne)
    omega
  | gain counts =>
    have := tidy.counted (P.erase p) (nodup.erase p) (fun r hr => by
      obtain ⟨hne, hr⟩ := nodup.mem_erase_iff.mp hr
      exact other r hr hne)
    have := List.le_length_erase (a := p) (l := P)
    omega
  | lose before after counts =>
    have hp : p ∉ P := by
      intro hp
      obtain ⟨s, hs, -, hpend⟩ := self hp
      rw [after s hs] at hpend
      cases hpend
    have := tidy.counted (p :: P) (List.nodup_cons.mpr ⟨hp, nodup⟩) (by
      intro r hr
      rcases List.mem_cons.mp hr with rfl | hr
      · exact before
      · exact other r hr (fun e => hp (e ▸ hr)))
    rw [List.length_cons] at this
    push_cast at this
    omega

/-- One source is written; only its own event may end. -/
theorem Tidy.update (tidy : Tidy held q) (sources : q'.sources = Function.update q.sources p o)
    (event : ∀ ne, q.ctl.event = some ne → ne.source ≠ p → q'.ctl.event = some ne)
    (guarded : ∀ s, o = some s → s.noDetach = true →
      held p ∨ ∃ ne, q'.ctl.event = some ne ∧ ne.source = p)
    (attached : ∀ s, o = some s → s.pending = true → s.qInUse = true)
    (counts : Counts q q' p o) : Tidy held q' := by
  refine ⟨?_, ?_, fun P => counted_update tidy sources counts⟩
  · intro r src hsrc hno
    rw [sources] at hsrc
    by_cases hr : r = p
    · subst hr
      rw [Function.update_self] at hsrc
      exact guarded src hsrc hno
    · rw [Function.update_of_ne hr] at hsrc
      refine (tidy.guarded r src hsrc hno).imp_right ?_
      rintro ⟨ne, hne, rfl⟩
      exact ⟨ne, event ne hne hr, rfl⟩
  · intro r src hsrc hpend
    rw [sources] at hsrc
    by_cases hr : r = p
    · subst hr
      rw [Function.update_self] at hsrc
      exact attached src hsrc hpend
    · rw [Function.update_of_ne hr] at hsrc
      exact tidy.attached r src hsrc hpend

/-- A source is written that keeps its protection and its list. -/
theorem Tidy.write (tidy : Tidy held q) {src src' : Source} (hsrc : q.sources p = some src)
    (sources : q'.sources = Function.update q.sources p (some src'))
    (event : ∀ ne, q.ctl.event = some ne → q'.ctl.event = some ne)
    (noDetach : src'.noDetach = true → src.noDetach = true)
    (qInUse : src'.qInUse = src.qInUse) (pending : src'.pending = src.pending)
    (counts : settled q ≤ settled q') : Tidy held q' := by
  refine tidy.update sources (fun ne hne _ => event ne hne) ?_ ?_ (.keep ?_ counts)
  · rintro _ ⟨⟩ hno
    refine (tidy.guarded p src hsrc (noDetach hno)).imp_right ?_
    rintro ⟨ne, hne, hp⟩
    exact ⟨ne, event ne hne, hp⟩
  · rintro _ ⟨⟩ hpend
    exact qInUse.trans (tidy.attached p src hsrc (pending.symm.trans hpend))
  · rintro _ ⟨⟩ hpend
    have hpend' := pending.symm.trans hpend
    exact ⟨src, hsrc, tidy.attached p src hsrc hpend', hpend'⟩

theorem detach_no_detach (p : Ptr) (src : Source) (toClose : Bool) (k : Kernel) :
    (evdpSourceDetach p src toClose k).1.noDetach = src.noDetach := by
  have timer : (evdpSourceTimerDetach p src k).1.noDetach = src.noDetach := by
    unfold evdpSourceTimerDetach delIfAdded
    split_ifs <;> rfl
  have roFd : (evdpSourceRoFdDetach p src toClose k).1.noDetach = src.noDetach := by
    unfold evdpSourceRoFdDetach delIfAdded
    split_ifs <;> rfl
  have osFd : (evdpSourceOsFdDetach p src toClose k).1.noDetach = src.noDetach := by
    unfold evdpSourceOsFdDetach doDelOsFd
    split_ifs
    · rfl
    · simp only
      split_ifs <;> rfl
    · rfl
  unfold evdpSourceDetach
  split
  · exact timer
  · exact timer
  · exact roFd
  · exact osFd

/-- `do_detach_from_queue` leaves the protection of its source alone. -/
theorem do_detach_no_detach (p : Ptr) (src : Source) (toClose : Bool) (q : State) :
    ((Epoll.doDetachFromQueue p src toClose q).sources p).map (·.noDetach) = some src.noDetach := by
  have hkernel : (evdpQueueRmPendingEvents p q).kernel = q.kernel := rfl
  rw [← detach_no_detach p src toClose q.kernel]
  unfold Epoll.doDetachFromQueue
  simp only [hkernel]
  by_cases hpend : (evdpSourceDetach p src toClose q.kernel).1.pending = true
  · rw [if_pos hpend]
    simp only [State.setSource, Function.update_self, Option.map_some]
  · rw [if_neg hpend]
    simp only [State.setSource, Function.update_self, Option.map_some]

/-- A detach, of an attached source or not; the event of its source may end. -/
theorem Tidy.detach (tidy : Tidy held q) (src : Source) {src0 : Source} {toClose : Bool}
    (hsrc : q.sources p = some src0) (pending : src.pending = src0.pending)
    (sources : q'.sources = (Epoll.doDetachFromQueue p src toClose q).sources)
    (statsPending : q'.statsPending = (Epoll.doDetachFromQueue p src toClose q).statsPending)
    (uncounted : q'.ctl.uncounted = q.ctl.uncounted)
    (event : ∀ ne, q.ctl.event = some ne → ne.source ≠ p → q'.ctl.event = some ne)
    (guarded : src.noDetach = true → held p ∨ ∃ ne, q'.ctl.event = some ne ∧ ne.source = p) :
    Tidy held q' := by
  have det := Epoll.detached p src toClose q
  obtain ⟨src', hsources, huse, hpend, -⟩ := det.sources
  have hno : src'.noDetach = src.noDetach := by
    have := do_detach_no_detach p src toClose q
    rwa [hsources, Function.update_self, Option.map_some, Option.some.injEq] at this
  refine tidy.update (sources.trans hsources) event ?_ ?_ ?_
  · rintro _ ⟨⟩ h
    exact guarded (hno.symm.trans h)
  · rintro _ ⟨⟩ h
    rw [hpend] at h
    cases h
  · have counts : settled q' = settled q - (if src.pending then 1 else 0) := by
      unfold settled
      rw [statsPending, det.statsPending, uncounted]
      omega
    cases hb : src.pending with
    | true =>
      rw [hb] at pending
      refine .lose ⟨src0, hsrc, tidy.attached p src0 hsrc pending.symm, pending.symm⟩ ?_ ?_
      · rintro _ ⟨⟩
        exact hpend
      · rw [counts, hb]
        simp
    | false =>
      refine .keep ?_ ?_
      · rintro _ ⟨⟩ h
        rw [hpend] at h
        cases h
      · rw [counts, hb]
        simp

/-- `neb_evdp_source_os_fd_next_read` and its twin, in each of their ways. -/
private theorem Tidy.next (tidy : Tidy held q) {d : Dir} {src : Source} {hd : Option Handler}
    {room : Bool} (hsrc : q.sources p = some src) (cases : NextCases d p src hd room q q') :
    Tidy held q' := by
  cases cases with
  | quiet src' kept pending added ctlOp interest =>
    exact tidy.write hsrc rfl (fun _ h => h) (fun h => kept.noDetach.symm.trans h) kept.qInUse
      pending le_rfl
  | toPending src' kept added ctlOp attached idle outside running set =>
    refine tidy.update rfl (fun _ h _ => h) ?_ ?_ (.gain ?_)
    · rintro _ ⟨⟩ hno
      exact tidy.guarded p src hsrc (kept.noDetach.symm.trans hno)
    · rintro _ ⟨⟩ _
      exact kept.qInUse.trans attached
    · simp only [settled, moveToPending, slistPendingInsert, slistRemove]
      omega
  | toRunning src' kept added ctlOp attached idle pending bare =>
    refine tidy.update rfl (fun _ h _ => h) ?_ ?_ (.lose ⟨src, hsrc, attached, pending⟩ ?_ ?_)
    · rintro _ ⟨⟩ hno
      exact tidy.guarded p src hsrc (kept.noDetach.symm.trans hno)
    · rintro _ ⟨⟩ h
      cases h
    · rintro _ ⟨⟩
      rfl
    · simp only [settled, moveToRunning, slistRunningInsert, slistRunningInsertNoStats,
        slistRemove]
      omega
  | ctl attached added set new =>
    have kept : Kept src _ := ((Kept.setHandler src d hd).trans (.setInterest _ d true)).trans
      (.doCtl p _ room q.kernel)
    refine tidy.write hsrc rfl (fun _ h => h) (fun h => kept.noDetach.symm.trans h) kept.qInUse ?_
      le_rfl
    rw [doCtlOsFd_pending]
    exact (setHandler_events src d hd).2.1
  | del attached added unset last bare =>
    have kept : Kept src _ := ((Kept.setHandler src d hd).trans (.setInterest _ d false)).trans
      (.doDel p _ q.kernel)
    refine tidy.write hsrc rfl (fun _ h => h) (fun h => kept.noDetach.symm.trans h) kept.qInUse ?_
      le_rfl
    rw [doDelOsFd_pending]
    exact (setHandler_events src d hd).2.1

/-- Every step of the queue keeps this, as long as it is defined. -/
theorem Tidy.ofStep (tidy : Tidy held q) (h : Epoll.StepCases q a q')
    (head : ∀ n, q.links.next .pendingQs = some n →
      ∃ p src, n = .source p ∧ q.sources p = some src ∧ src.qInUse = true ∧ src.pending = true) :
    q'.ctl = .undefined ∨ Tidy held q' := by
  cases h with
  | opened turn => exact Or.inr (tidy.same rfl (fun _ h => h) le_rfl)
  | closed turn => exact Or.inr (tidy.same rfl (fun _ h => h) le_rfl)
  | created turn free k reg requests isOpen =>
    refine Or.inr (tidy.update rfl (fun _ h _ => h) ?_ ?_ (.keep ?_ le_rfl)) <;>
      · rintro _ ⟨⟩ h
        cases h
  | refused turn => exact Or.inr tidy
  | @freed p src turn hsrc unattached =>
    refine Or.inr (tidy.update (p := p) rfl ?_ (by simp) (by simp) (.keep (by simp) ?_))
    · intro ne hne _
      by_cases htimer : src.type.isTimer = true <;> simpa [htimer, closeFd] using hne
    · by_cases htimer : src.type.isTimer = true <;> simp [htimer, closeFd, settled]
  | @refitted p src fd turn hsrc unattached =>
    refine Or.inr (tidy.update rfl (fun _ h _ => h) ?_ ?_ (.keep ?_ le_rfl))
    · rintro _ ⟨⟩ hno
      exact tidy.guarded p src hsrc hno
    · rintro _ ⟨⟩ h
      cases h
    · rintro _ ⟨⟩ h
      cases h
  | next turn hsrc osFd cases => exact Or.inr (tidy.next hsrc cases)
  | @joinedPending p src settime turn hsrc unattached src' joined osFd =>
    refine Or.inr (tidy.update (p := p) rfl (fun _ h _ => h) ?_ ?_ (.gain ?_))
    · rintro _ ⟨⟩ hno
      exact tidy.guarded p src hsrc (joined.noDetach.symm.trans hno)
    · rintro _ ⟨⟩ _
      exact joined.qInUse
    · simp only [settled, State.joined, slistPendingInsert]
      omega
  | @joinedRunning p src settime turn hsrc unattached src' joined osFd bare =>
    refine Or.inr (tidy.update (p := p) rfl (fun _ h _ => h) ?_ ?_ (.keep ?_ le_rfl))
    · rintro _ ⟨⟩ hno
      exact tidy.guarded p src hsrc (joined.noDetach.symm.trans hno)
    · rintro _ ⟨⟩ h
      cases h
    · rintro _ ⟨⟩ h
      cases h
  | @detached p src toClose turn hsrc attached free =>
    have det := Epoll.detached p src toClose q
    refine Or.inr (tidy.detach src hsrc rfl rfl rfl (by rw [det.ctl])
      (fun _ h _ => by rw [det.ctl]; exact h) ?_)
    intro hno
    rw [free] at hno
    cases hno
  | started ctl =>
    exact Or.inr (tidy.advance ctl rfl rfl rfl rfl)
  | flushEnd ctl empty =>
    refine Or.inr (tidy.same rfl ?_ ?_)
    · rw [ctl]
      exact fun _ h => h
    · simp [settled, ctl, Ctl.uncounted]
  | @flushed count room p src ctl next hsrc ok =>
    obtain ⟨p', src0, heq, hsrc', huse, hpend⟩ := head _ next
    obtain rfl := Node.source.inj heq
    obtain rfl := Option.some.inj (hsrc.symm.trans hsrc')
    refine Or.inr (tidy.update (p := p) rfl ?_ ?_ ?_ (.lose ⟨src, hsrc, huse, hpend⟩ ?_ ?_))
    · rw [ctl]
      intro ne hne
      cases hne
    · rintro _ ⟨⟩ hno
      refine (tidy.guarded p src hsrc hno).imp_right ?_
      rw [ctl]
      rintro ⟨ne, hne, -⟩
      cases hne
    · rintro _ ⟨⟩ h
      cases h
    · rintro _ ⟨⟩
      rfl
    · simp only [settled, State.goto, slistRunningInsertNoStats, slistRemove, ctl, Ctl.uncounted]
      push_cast
      omega
  | flushFailed ctl next hsrc failed =>
    refine Or.inr (tidy.same rfl ?_ ?_)
    · rw [ctl]
      exact fun _ h => h
    · simp only [settled, ctl, Ctl.uncounted]
      omega
  | flushLost ctl next lost => exact Or.inl rfl
  | waited ctl nodup events =>
    exact Or.inr (tidy.advance ctl rfl rfl rfl rfl)
  | waitFailed ctl =>
    exact Or.inr (tidy.advance ctl rfl rfl rfl rfl)
  | batchEnd ctl beyond currentEvent =>
    exact Or.inr (tidy.advance ctl rfl rfl rfl rfl)
  | skipped ctl entry cleared =>
    exact Or.inr (tidy.advance ctl rfl rfl rfl rfl)
  | lost ctl entry data free => exact Or.inl rfl
  | @fetched i ok e d src ctl entry data hsrc =>
    refine Or.inr (tidy.update (p := d.ptr) rfl ?_ ?_ ?_ (.keep ?_ ?_))
    · rw [ctl]
      intro ne hne
      cases hne
    · intro _ _ _
      exact Or.inr ⟨_, rfl, rfl⟩
    · rintro _ ⟨⟩ h
      have hpend : src.pending = true := by
        split_ifs at h <;> exact h
      have huse := tidy.attached d.ptr src hsrc hpend
      split_ifs <;> exact huse
    · rintro _ ⟨⟩ h
      have hpend : src.pending = true := by
        split_ifs at h <;> exact h
      exact ⟨src, hsrc, tidy.attached d.ptr src hsrc hpend, hpend⟩
    · exact settled_le rfl (by rw [ctl]; rfl)
  | vanished event free => exact Or.inl rfl
  | @otherHandled ok ne stage src ctl' ctl hsrc other event =>
    refine Or.inr (tidy.still rfl (by rw [ctl]; exact event) rfl ?_)
    rw [ctl]
    exact uncounted_of_event event
  | osFdSkipped ctl hsrc osFd =>
    exact Or.inr (tidy.advance ctl rfl rfl rfl rfl)
  | osFdCalled ctl hsrc osFd src' entered notLast =>
    refine Or.inr (tidy.write hsrc rfl ?_ (fun h => entered.noDetach.symm.trans h) entered.qInUse
      entered.pending ?_)
    · rw [ctl]
      exact fun _ h => h
    · exact settled_le rfl (by rw [ctl]; rfl)
  | @osFdRequeued ok ne src ctl hsrc osFd rest attached =>
    refine Or.inr (tidy.update (p := ne.source) rfl ?_ ?_ ?_ (.gain ?_))
    · rw [ctl]
      exact fun _ h _ => h
    · intro _ _ _
      exact Or.inr ⟨ne, rfl, rfl⟩
    · rintro _ ⟨⟩ _
      exact attached
    · simp [settled, State.goto, moveToPending, slistPendingInsert, slistRemove, ctl, Ctl.uncounted]
  | osFdLost ctl hsrc unattached => exact Or.inl rfl
  | osFdDone ctl hsrc osFd bare =>
    exact Or.inr (tidy.advance ctl rfl rfl rfl rfl)
  | @returned ret ne stage src ctl hsrc src' entered =>
    have event := after_callback_event ne stage ret
    refine Or.inr (tidy.write hsrc rfl ?_ (fun h => entered.noDetach.symm.trans h) entered.qInUse
      entered.pending ?_)
    · rw [ctl]
      rintro _ ⟨⟩
      exact event
    · refine settled_le rfl ?_
      rw [ctl]
      exact uncounted_of_event event
  | @finishedDetach ok ne ret src ctl hsrc toClose hret =>
    refine Or.inr (tidy.detach { src with noDetach := false } hsrc rfl rfl
      rfl ?_ ?_ (by simp))
    · rw [ctl]
      rfl
    · rw [ctl]
      rintro _ ⟨⟩ hne
      exact absurd rfl hne
  | @finished ok ne ret src ctl' ctl hsrc hctl' =>
    have hc : ctl'.uncounted = 0 := by
      rcases hctl' with ⟨rfl, -⟩ | ⟨rfl, -⟩ <;> rfl
    refine Or.inr (tidy.update (p := ne.source) rfl ?_ ?_ ?_ (.keep ?_ ?_))
    · rw [ctl]
      rintro _ ⟨⟩ hne
      exact absurd rfl hne
    · rintro _ ⟨⟩ hno
      cases hno
    · rintro _ ⟨⟩ hpend
      exact tidy.attached ne.source src hsrc hpend
    · rintro _ ⟨⟩ hpend
      exact ⟨src, hsrc, tidy.attached ne.source src hsrc hpend, hpend⟩
    · refine settled_le rfl ?_
      rw [ctl]
      exact hc
  | resumed ctl =>
    exact Or.inr (tidy.advance ctl rfl rfl rfl rfl)

/-- A source that nobody holds any more must not be protected. -/
theorem Tidy.release {held' : Ptr → Prop} (tidy : Tidy held q)
    (released : ∀ p, held p → held' p ∨ ∀ src, q.sources p = some src → src.noDetach = false) :
    Tidy held' q := by
  refine ⟨?_, tidy.attached, tidy.counted⟩
  intro p src hsrc hno
  rcases tidy.guarded p src hsrc hno with h | h
  · rcases released p h with h' | h'
    · exact Or.inl h'
    · rw [h' src hsrc] at hno
      cases hno
  · exact Or.inr h

end Step

section Foreach

variable {q q' : Foreach.Queue}

/-- The iteration calls back for the source. -/
def HeldBy (calls : List Foreach.Call) (p : Ptr) : Prop :=
  ∃ call ∈ calls, ∃ s, call.point = .called s p

/-- What holds of a queue, iterations included, until its program is lost. -/
def Orderly (q : Foreach.Queue) : Prop :=
  q.base.ctl = .undefined ∨ Tidy (HeldBy q.calls) q.base

/-- The stack loses a call that has called nothing back. -/
private theorem Tidy.over {b : State} {old calls : List Foreach.Call} (top : List Foreach.Call)
    (tidy : Tidy (HeldBy (old ++ calls)) b) (quiet : ∀ c ∈ old, ∀ s i, c.point ≠ .called s i) :
    Tidy (HeldBy (top ++ calls)) b := by
  refine tidy.release ?_
  rintro p ⟨call, hcall, s, hpoint⟩
  rcases List.mem_append.mp hcall with h | h
  · exact absurd hpoint (quiet call h s p)
  · exact Or.inl ⟨call, List.mem_append_right top h, s, hpoint⟩

/-- The callback for `i` returns: `i` loses its protection, and the stack its call. -/
private theorem Tidy.returned {call : Foreach.Call} {calls : List Foreach.Call} {s i : Ptr}
    {src : Source} (top : List Foreach.Call) (tidy : Tidy (HeldBy (call :: calls)) q.base)
    (hpoint : call.point = .called s i) (hsrc : q.base.sources i = some src) :
    Tidy (HeldBy (top ++ calls)) (q.released i src).base := by
  have written : Tidy (HeldBy (call :: calls))
      (q.base.setSource i { src with noDetach := false }) := by
    refine tidy.write hsrc rfl (fun _ h => h) ?_ rfl rfl (settled_le rfl rfl)
    intro h
    cases h
  refine written.release ?_
  rintro p ⟨c, hc, s', hc'⟩
  rcases List.mem_cons.mp hc with rfl | hc
  · rw [hpoint] at hc'
    obtain ⟨-, rfl⟩ := Foreach.Point.called.inj hc'
    refine Or.inr ?_
    intro src' hsrc'
    simp only [State.setSource, Function.update_self, Option.some.injEq] at hsrc'
    rw [← hsrc']
  · exact Or.inl ⟨c, List.mem_append_right top hc, s', hc'⟩

/-- The cursor leaves its list. -/
private theorem Tidy.setEnd {held : Ptr → Prop} (tidy : Tidy held q.base) :
    (Foreach.nebEvdpQueueForeachSetEnd q).base.ctl = .undefined ∨
      Tidy held (Foreach.nebEvdpQueueForeachSetEnd q).base := by
  unfold Foreach.nebEvdpQueueForeachSetEnd
  split_ifs
  · split
    · exact Or.inr (tidy.still rfl rfl rfl rfl)
    · exact Or.inl rfl
  · exact Or.inr tidy

theorem Orderly.ofStep {a : Foreach.Action} (wound : Foreach.Wound q) (orderly : Orderly q)
    (h : Foreach.step q a = some q') : Orderly q' := by
  have hdefined : q.base.ctl ≠ .undefined := by
    intro hctl
    have hturn : q.base.ctl.userTurn = false := by rw [hctl]; rfl
    cases Foreach.step_cases h with
    | base admits hstep => exact Foreach.step_defined hstep hctl
    | _ => simp_all [Foreach.Queue.userTurn]
  have tidy := orderly.resolve_left hdefined
  obtain ⟨P, R, wired, -⟩ := wound
  have popped : ∀ {call : Foreach.Call} {calls : List Foreach.Call} (top : List Foreach.Call),
      q.calls = call :: calls → (∀ s i, call.point ≠ .called s i) →
      Tidy (HeldBy (top ++ calls)) q.base := by
    intro call calls top hcalls hpoint
    rw [hcalls] at tidy
    have stacked : Tidy (HeldBy ([call] ++ calls)) q.base := tidy
    exact stacked.over top (by simpa using hpoint)
  cases Foreach.step_cases h with
  | @base a b admits hstep =>
    have := tidy.ofStep (Epoll.step_cases hstep) (fun n => wired.threaded.head)
    unfold Orderly
    rwa [show (q.moved a b).calls = q.calls from Foreach.noted_calls q a]
  | setUtype turn => exact Or.inr tidy
  | refused turn => exact Or.inr tidy
  | started turn idle hf free => exact Or.inr (tidy.still rfl rfl rfl rfl)
  | @entered size turn running =>
    have stacked : Tidy (HeldBy ([] ++ q.calls)) q.base := tidy
    exact Or.inr (stacked.over [⟨size, 0, .loop⟩] (by simp))
  | ended turn =>
    unfold Orderly
    rw [Foreach.set_end_calls]
    exact tidy.setEnd
  | lost turn => exact Or.inl rfl
  | left turn hcalls hpoint =>
    exact Or.inr (popped [] hcalls (by simp [hpoint]))
  | sought turn hf hcalls hpoint next =>
    exact Or.inr (popped [_] hcalls (by simp [hpoint]))
  | skipped turn hf hcalls hpoint unfit =>
    exact Or.inr (popped [_] hcalls (by simp [hpoint]))
  | @calledBack f s i call calls src turn hf hcalls hpoint hsrc fit =>
    have entered : Tidy (HeldBy ({ call with point := .called s i } :: calls)) q.base :=
      popped [_] hcalls (by simp [hpoint])
    refine Or.inr (entered.update (p := i) rfl (fun _ h _ => h) ?_ ?_ (.keep ?_ ?_))
    · intro _ _ _
      exact Or.inl ⟨_, List.mem_cons_self, s, rfl⟩
    · rintro _ ⟨⟩ h
      exact tidy.attached i src hsrc h
    · rintro _ ⟨⟩ h
      exact ⟨src, hsrc, tidy.attached i src hsrc h, h⟩
    · exact settled_le rfl rfl
  | exhausted turn hf hcalls hpoint =>
    exact (popped [_] hcalls (by simp [hpoint])).setEnd
  | resumed turn hcalls hpoint =>
    exact Or.inr (popped [_] hcalls (by simp [hpoint]))
  | continued turn hcalls hpoint hsrc =>
    rw [hcalls] at tidy
    exact Or.inr (tidy.returned [_] hpoint hsrc)
  | endedByCb turn hcalls hpoint hsrc =>
    rw [hcalls] at tidy
    exact (tidy.returned [_] hpoint hsrc).setEnd
  | invalid turn hcalls hpoint hsrc hret =>
    rw [hcalls] at tidy
    exact Or.inr (tidy.returned [] hpoint hsrc)
  | @removedByCb s i call calls src srcS turn hcalls hpoint hsrc toClose hsrcS =>
    rw [hcalls] at tidy
    have returned := tidy.returned [{ call with point := .removed }] hpoint hsrc
    have det := Epoll.detached s srcS toClose (q.released i src).base
    refine Or.inr (returned.detach srcS hsrcS rfl rfl rfl (by rw [det.ctl]) ?_ ?_)
    · intro ne hne _
      rw [det.ctl]
      exact hne
    · intro hno
      rw [det.ctl]
      exact returned.guarded s srcS hsrcS hno
  | removedLost turn hcalls hpoint hsrc toClose free => exact Or.inl rfl

theorem Orderly.create (batchSize : Nat) : Orderly (Foreach.queueCreate batchSize) := by
  refine Or.inr ⟨?_, ?_, ?_⟩
  · intro p src hsrc
    cases hsrc
  · intro p src hsrc
    cases hsrc
  · intro P nodup pending
    cases P with
    | nil => simp [settled, Foreach.queueCreate, nebEvdpQueueCreate, Ctl.uncounted]
    | cons p P =>
      obtain ⟨src, hsrc, -⟩ := pending p List.mem_cons_self
      cases hsrc

end Foreach

/-- The user may not detach the source. -/
def Guarded (q : State) (p : Ptr) : Prop :=
  ∃ src, q.sources p = some src ∧ src.noDetach = true

/-- The queue in the user's hands, with the lists `P` and `R`: the gate of the first loop is open,
and the user may detach every source but one at most. -/
structure Entry (q : State) (P R : List Ptr) : Prop where
  threaded : Foreach.Threaded q none P R
  turn : q.ctl.userTurn = true
  single : ∀ p r, Guarded q p → Guarded q r → p = r
  pending : 1 + P.length ≤ q.statsPending

/-- A queue that has been reached in any way and is in the user's hands. -/
theorem tidy_of_reached {batchSize : Nat} {as : List Foreach.Action} {q : Foreach.Queue}
    (reached : Machine.run Foreach.step (Foreach.queueCreate batchSize) as = some q)
    (turn : q.base.ctl.userTurn = true) :
    ∃ P R, Foreach.Wired q P R ∧ Tidy (HeldBy q.calls) q.base ∧
      1 + P.length ≤ q.base.statsPending := by
  obtain ⟨⟨P, R, wired, -⟩, orderly⟩ :=
    Machine.invariant_run (I := fun q => Foreach.Wound q ∧ Orderly q)
      (fun _ _ _ ⟨wound, orderly⟩ _ h => ⟨wound.ofStep h, orderly.ofStep wound h⟩)
      ⟨.create batchSize, .create batchSize⟩ (Machine.StepsMeet.of_forall (C := fun _ _ => True)
        (fun _ _ => trivial) _ as) reached
  have tidy : Tidy (HeldBy q.calls) q.base := by
    refine orderly.resolve_left ?_
    intro hctl
    rw [hctl] at turn
    cases turn
  have uncounted : q.base.ctl.uncounted = 0 := by
    cases hctl : q.base.ctl with
    | flushing count =>
      rw [hctl] at turn
      cases turn
    | _ => rfl
  have threaded := wired.threaded
  have := tidy.counted P threaded.nodup.1 (fun p hp => (threaded.pending p).mp hp)
  exact ⟨P, R, wired, tidy, by simpa [settled, uncounted] using this⟩

/-- A queue that has been reached in any way and is not in an iteration. -/
theorem entry_of_reached {batchSize : Nat} {as : List Foreach.Action} {q : Foreach.Queue}
    (reached : Machine.run Foreach.step (Foreach.queueCreate batchSize) as = some q)
    (turn : q.base.ctl.userTurn = true) (calls : q.calls = []) (idle : q.inForeach = false) :
    ∃ P R, Entry q.base P R := by
  obtain ⟨P, R, wired, tidy, pending⟩ := tidy_of_reached reached turn
  have threaded : Foreach.Threaded q.base none P R := by
    have := wired.threaded
    rwa [show q.cursor = none from if_neg (by simp [idle])] at this
  have handled : ∀ p, Guarded q.base p → ∃ ne, q.base.ctl.event = some ne ∧ ne.source = p := by
    rintro p ⟨src, hsrc, hno⟩
    refine (tidy.guarded p src hsrc hno).resolve_left ?_
    rintro ⟨call, hcall, -⟩
    rw [calls] at hcall
    cases hcall
  refine ⟨P, R, threaded, turn, ?_, pending⟩
  intro p r hp hr
  obtain ⟨ne, hne, rfl⟩ := handled p hp
  obtain ⟨ne', hne', rfl⟩ := handled r hr
  rw [Option.some.inj (hne.symm.trans hne')]

end Nebase.Evdp.Destroy
