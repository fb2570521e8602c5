/- The bit that an os_fd source has in a callback: it is set while a callback of the source runs, and
   only then. -/

import Nebase.Evdp.Epoll.Delivery

set_option autoImplicit false
set_option relaxedAutoImplicit false

namespace Nebase.Evdp.Epoll

open Nebase.Foundation

/-- The callback of an os_fd source's handle function that runs, if one does. -/
def calls (c : Ctl) (p : Ptr) : Prop :=
  match c with
  | .callback ne stage => ne.source = p ∧ stage ≠ .last
  | _ => False

/-- An os_fd source has its bit only while a callback of it runs. -/
def Inside (q : State) : Prop :=
  ∀ p src, q.sources p = some src → src.inCallback = true → src.type = .osFd ∧ calls q.ctl p

section Step

variable {q q' : State} {a : Action} {p : Ptr} {src src' : Source}

theorem calls_event {c : Ctl} (h : calls c p) : ∃ ne, c.event = some ne ∧ ne.source = p := by
  cases c with
  | callback ne stage => exact ⟨ne, rfl, h.1⟩
  | _ => exact h.elim

private theorem reset_in_callback {d : Dir} {room : Bool} {s : Source}
    (hs : (evdpSourceOsFdReset d p src room q).2.sources p = some s) :
    s.inCallback = src.inCallback := by
  unfold evdpSourceOsFdReset at hs
  split_ifs at hs
  · simp only [State.setSource, Function.update_self, Option.some.injEq] at hs
    rw [← hs]
  · simp only [State.setSource, Function.update_self, Option.some.injEq] at hs
    rw [← hs, doCtlOsFd_source]
    split_ifs <;> rfl
  · simp only at hs
    split_ifs at hs
    · simp only [moveToPending, slistPendingInsert, Function.update_self, Option.some.injEq] at hs
      rw [← hs]
      rfl
    · simp only [State.setSource, Function.update_self, Option.some.injEq] at hs
      rw [← hs]
      rfl

private theorem unset_in_callback {d : Dir} {s : Source}
    (hs : (evdpSourceOsFdUnset d p src q).2.sources p = some s) :
    s.inCallback = src.inCallback := by
  unfold evdpSourceOsFdUnset at hs
  simp only at hs
  split_ifs at hs
  · simp only [State.setSource, Function.update_self, Option.some.injEq] at hs
    rw [← hs]
    rfl
  · simp only [State.setSource, Function.update_self, Option.some.injEq] at hs
    rw [← hs, doDelOsFd_source]
    split_ifs <;> rfl
  · simp only [State.setSource, Function.update_self, Option.some.injEq] at hs
    rw [← hs]
  · simp only [State.setSource, Function.update_self, Option.some.injEq] at hs
    rw [← hs]
    rfl
  · simp only [moveToRunning, slistRunningInsert, slistRunningInsertNoStats, Function.update_self,
      Option.some.injEq] at hs
    rw [← hs]
    rfl
  · simp only [State.setSource, Function.update_self, Option.some.injEq] at hs
    rw [← hs]
    rfl

/-- The calls on an os_fd source leave its callback bit. -/
private theorem next_in_callback {d : Dir} {hd : Option Handler} {room : Bool} {s : Source}
    (h : step q (.next d p hd room) = some q') (hsrc : q.sources p = some src)
    (hs : q'.sources p = some s) : s.inCallback = src.inCallback := by
  have hcall : q.callNext d p hd room = some q' := by
    cases d <;> exact h
  unfold State.callNext State.call at hcall
  split_ifs at hcall
  rw [hsrc, Option.map_some, Option.some.injEq] at hcall
  have hset := (setHandler_events src d hd).2.2.2.2
  rw [← hcall] at hs
  unfold nebEvdpSourceOsFdNext at hs
  simp only at hs
  split_ifs at hs
  · exact (reset_in_callback hs).trans hset
  · exact (unset_in_callback hs).trans hset
  · simp only [State.setSource, Function.update_self, Option.some.injEq] at hs
    rw [← hs]
    exact hset

/-- A callback that returns clears the bit of an os_fd source. -/
private theorem returned_in_callback {ret : NebEvdpCbRet} {ne : NebEvdpEvent} {stage : Stage}
    {s : Source} (ctl : q.ctl = .callback ne stage) (hsrc : q.sources ne.source = some src)
    (h : step q (.cbReturn ret) = some q') (hs : q'.sources ne.source = some s) :
    s.inCallback = if src.type = .osFd then false else src.inCallback := by
  simp only [Epoll.step, ctl, hsrc, Option.some.injEq] at h
  rw [← h] at hs
  simp only [State.goto, State.setSource, Function.update_self, Option.some.injEq] at hs
  rw [← hs]
  split_ifs <;> rfl

/-- The calls on an os_fd source write that source, whose type they leave. -/
theorem next_source {d : Dir} {hd : Option Handler} {room : Bool}
    (cases : NextCases d p src hd room q q') :
    ∃ src', q'.sources = Function.update q.sources p (some src') ∧ src'.type = src.type := by
  have kept := Kept.setHandler src d hd
  cases cases with
  | quiet src' kept pending added ctlOp interest => exact ⟨_, rfl, kept.type⟩
  | toPending src' kept added ctlOp attached idle outside running set => exact ⟨_, rfl, kept.type⟩
  | toRunning src' kept added ctlOp attached idle pending bare => exact ⟨_, rfl, kept.type⟩
  | ctl attached added set new =>
      refine ⟨_, rfl, ?_⟩
      rw [doCtlOsFd_source]
      split_ifs <;> exact (kept.trans (.setInterest _ d true)).type
  | del attached added unset last bare =>
      refine ⟨_, rfl, ?_⟩
      rw [doDelOsFd_source]
      split_ifs <;> exact (kept.trans (.setInterest _ d false)).type

/-- One source is written; the others have no callback that could end. -/
private theorem Inside.put (inside : Inside q) {o : Option Source}
    (sources : q'.sources = Function.update q.sources p o)
    (event : q'.ctl = q.ctl ∨ ∀ ne, q.ctl.event = some ne → ne.source = p)
    (new : ∀ s, o = some s → s.inCallback = true → s.type = .osFd ∧ calls q'.ctl p) :
    Inside q' := by
  intro x s hs hin
  rw [sources] at hs
  by_cases hx : x = p
  · subst hx
    rw [Function.update_self] at hs
    exact new s hs hin
  · rw [Function.update_of_ne hx] at hs
    obtain ⟨osFd, hcalls⟩ := inside x s hs hin
    refine ⟨osFd, ?_⟩
    rcases event with hctl | hevent
    · rwa [hctl]
    · obtain ⟨ne, hne, hsource⟩ := calls_event hcalls
      exact absurd (hsource.symm.trans (hevent ne hne)) hx

/-- No source is written, and no callback of one runs. -/
private theorem Inside.still (inside : Inside q) (sources : q'.sources = q.sources)
    (called : q'.ctl = q.ctl ∨ ∀ x s, q.sources x = some s → ¬ calls q.ctl x) : Inside q' := by
  intro x s hs hin
  rw [sources] at hs
  obtain ⟨osFd, hcalls⟩ := inside x s hs hin
  rcases called with hctl | hnone
  · exact ⟨osFd, by rwa [hctl]⟩
  · exact absurd hcalls (hnone x s hs)

private theorem not_calls {c : Ctl} (h : q.ctl = c) (uncalled : ∀ x, ¬ calls c x) :
    q'.ctl = q.ctl ∨ ∀ x s, q.sources x = some s → ¬ calls q.ctl x :=
  .inr fun x _ _ => by rw [h]; exact uncalled x

/-- Without a callback of it the source has no bit. -/
theorem Inside.outside (inside : Inside q) (hsrc : q.sources p = some src)
    (uncalled : src.type = .osFd → ¬ calls q.ctl p) : src.inCallback = false := by
  rw [Bool.eq_false_iff]
  intro h
  obtain ⟨osFd, hcalls⟩ := inside p src hsrc h
  exact uncalled osFd hcalls

/-- The source being handled is written, or none is, and its bit is off. -/
private theorem Inside.handle (inside : Inside q) {ne : NebEvdpEvent}
    (event : q.ctl.event = some ne)
    (sources : q'.sources = Function.update q.sources ne.source (some src'))
    (off : src'.inCallback = false) : Inside q' := by
  refine inside.put sources (.inr ?_) ?_
  · intro ne' hne
    obtain rfl := Option.some.inj (event.symm.trans hne)
    rfl
  · rintro _ ⟨⟩ hin
    rw [off] at hin
    cases hin

theorem Inside.ofStep (inside : Inside q) (h : step q a = some q') : Inside q' := by
  cases step_cases h with
  | opened turn => exact inside.still rfl (.inl rfl)
  | closed turn => exact inside.still rfl (.inl rfl)
  | created turn free k reg requests isOpen =>
      refine inside.put rfl (.inl rfl) ?_
      rintro _ ⟨⟩ hin
      cases hin
  | refused turn => exact inside
  | @freed p src turn hsrc unattached =>
      have hctl : ({ (if src.type.isTimer then closeFd src.fd q else q) with
          sources := Function.update q.sources p none } : State).ctl = q.ctl := by
        simp only
        split_ifs <;> rfl
      exact inside.put (p := p) (o := none) rfl (.inl hctl) (by simp)
  | refitted turn hsrc unattached =>
      have hfacts := inside _ _ hsrc
      refine inside.put rfl (.inl rfl) ?_
      rintro _ ⟨⟩ hin
      exact hfacts hin
  | @next d p src hd room q' turn hsrc osFd cases =>
      obtain ⟨src', hsources, kept⟩ := next_source cases
      refine inside.put hsources (.inl (next_rest cases).1) ?_
      rintro _ ⟨⟩ hin
      have hsame := next_in_callback h hsrc (by rw [hsources, Function.update_self])
      rw [(next_rest cases).1, kept]
      exact inside p src hsrc (hsame.symm.trans hin)
  | joinedPending turn hsrc unattached src' joined osFd =>
      refine inside.put rfl (.inl rfl) ?_
      rintro _ ⟨⟩ hin
      obtain ⟨osFd', hcalls⟩ := inside _ _ hsrc (joined.inCallback.symm.trans hin)
      exact ⟨joined.type.trans osFd', hcalls⟩
  | joinedRunning turn hsrc unattached src' joined osFd bare =>
      refine inside.put rfl (.inl rfl) ?_
      rintro _ ⟨⟩ hin
      obtain ⟨osFd', hcalls⟩ := inside _ _ hsrc (joined.inCallback.symm.trans hin)
      exact ⟨joined.type.trans osFd', hcalls⟩
  | @detached p src toClose turn hsrc attached free =>
      have det := Epoll.detached p src toClose q
      obtain ⟨src', hsources, -, -, htype, hin', -⟩ := det.sources
      refine inside.put hsources (.inl det.ctl) ?_
      rintro _ ⟨⟩ hin
      rw [htype, det.ctl]
      exact inside p src hsrc (hin'.symm.trans hin)
  | started ctl => exact inside.still rfl (not_calls ctl (fun _ => id))
  | flushEnd ctl empty => exact inside.still rfl (not_calls ctl (fun _ => id))
  | flushed ctl head hsrc ok =>
      refine inside.put rfl (.inr ?_) ?_
      · intro ne hne
        rw [ctl] at hne
        cases hne
      · rintro _ ⟨⟩ hin
        have hcalls := (inside _ _ hsrc hin).2
        rw [ctl] at hcalls
        exact hcalls.elim
  | flushFailed ctl head hsrc failed => exact inside.still rfl (not_calls ctl (fun _ => id))
  | flushLost ctl head lost => exact inside.still rfl (not_calls ctl (fun _ => id))
  | waited ctl nodup events => exact inside.still rfl (not_calls ctl (fun _ => id))
  | waitFailed ctl => exact inside.still rfl (not_calls ctl (fun _ => id))
  | batchEnd ctl beyond currentEvent => exact inside.still rfl (not_calls ctl (fun _ => id))
  | skipped ctl entry cleared => exact inside.still rfl (not_calls ctl (fun _ => id))
  | lost ctl entry data free => exact inside.still rfl (not_calls ctl (fun _ => id))
  | @fetched i ok e d src ctl entry data hsrc =>
      have hout := inside.outside hsrc (fun _ => by rw [ctl]; exact id)
      refine inside.put (p := d.ptr) rfl (.inr ?_) ?_
      · intro ne hne
        rw [ctl] at hne
        cases hne
      · rintro _ ⟨⟩ hin
        split_ifs at hin
        · rw [hout] at hin
          cases hin
        · rw [hout] at hin
          cases hin
  | @vanished a ne event free =>
      refine inside.still rfl (.inr ?_)
      intro x s hs hcalls
      obtain ⟨ne', hne, rfl⟩ := calls_event hcalls
      obtain rfl := Option.some.inj (event.symm.trans hne)
      rw [free] at hs
      cases hs
  | otherHandled ctl hsrc other event => exact inside.still rfl (not_calls ctl (fun _ => id))
  | osFdSkipped ctl hsrc osFd => exact inside.still rfl (not_calls ctl (fun _ => id))
  | @osFdCalled ok ne stage src ctl hsrc osFd src' entered notLast =>
      refine inside.put rfl (.inr ?_) ?_
      · intro ne' hne
        rw [ctl] at hne
        obtain rfl := Option.some.inj hne
        rfl
      · rintro _ ⟨⟩ -
        exact ⟨entered.type.trans osFd, rfl, notLast⟩
  | osFdRequeued ctl hsrc osFd rest attached =>
      have hout := inside.outside hsrc (fun _ => by rw [ctl]; exact id)
      exact inside.handle (by rw [ctl]; rfl) rfl hout
  | osFdLost ctl hsrc unattached => exact inside.still rfl (not_calls ctl (fun _ => id))
  | osFdDone ctl hsrc osFd bare => exact inside.still rfl (not_calls ctl (fun _ => id))
  | @returned ret ne stage src ctl hsrc src' entered =>
      refine inside.handle (by rw [ctl]; rfl) rfl ?_
      rw [returned_in_callback ctl hsrc h (Function.update_self ..)]
      split_ifs with osFd
      · rfl
      · exact inside.outside hsrc (fun h => absurd h osFd)
  | @finishedDetach ok ne ret src ctl hsrc toClose hret =>
      have hout := inside.outside hsrc (fun _ => by rw [ctl]; exact id)
      have det := Epoll.detached ne.source { src with noDetach := false } toClose q
      obtain ⟨src', hsources, -, -, -, hin', -⟩ := det.sources
      exact inside.handle (by rw [ctl]; rfl) hsources (hin'.trans hout)
  | finished ctl hsrc hctl' =>
      have hout := inside.outside hsrc (fun _ => by rw [ctl]; exact id)
      exact inside.handle (by rw [ctl]; rfl) rfl hout
  | resumed ctl => exact inside.still rfl (not_calls ctl (fun _ => id))

theorem Inside.create (batchSize : Nat) : Inside (nebEvdpQueueCreate batchSize) := by
  intro p src hsrc
  cases hsrc

end Step

end Nebase.Evdp.Epoll
