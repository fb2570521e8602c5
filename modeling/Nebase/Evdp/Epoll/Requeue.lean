/- What becomes of an os_fd source whose event is handled: the handle function puts it into the
   pending list if it still waits for something, and there it rests until the next flush. -/

import Nebase.Evdp.Epoll.Callback
import Nebase.Evdp.Epoll.Origins

set_option autoImplicit false
set_option relaxedAutoImplicit false

namespace Nebase.Evdp.Epoll

open Nebase.Foundation

/-- The source is not registered, and it is in the pending list if it waits for anything. -/
structure Source.Rests (src : Source) : Prop where
  added : src.added = false
  pending : src.ctlEvent.events.any = true → src.pending = true

/-- The event being handled is one of `p`. -/
def Ctl.handling (c : Ctl) (p : Ptr) : Prop := ∃ ne, c.event = some ne ∧ ne.source = p

/-- An os_fd source whose event is handled is not registered, and it rests when its handle function
has gone on to the end. -/
structure HandledSource (c : Ctl) (ne : NebEvdpEvent) (src : Source) : Prop where
  added : src.added = false
  notLast : c ≠ .callback ne .last
  pending : c = .finish ne .continue → src.ctlEvent.events.any = true → src.pending = true

def Requeues (q : State) : Prop :=
  ∀ ne, q.ctl.event = some ne → ∀ src, q.sources ne.source = some src → src.type = .osFd →
    HandledSource q.ctl ne src

section Step

variable {q q' : State} {a : Action} {p : Ptr} {src src' : Source}

/-- A call on an os_fd source that is not registered leaves it so, and outside of its callback a
source that rests goes on to rest. -/
theorem next_rests {d : Dir} {hd : Option Handler} {room : Bool}
    (cases : NextCases d p src hd room q q') (idle : src.added = false) :
    ∃ src', q'.sources = Function.update q.sources p (some src') ∧ src'.type = src.type ∧
      src'.added = false ∧
      (src.qInUse = true → src.inCallback = false → src.Rests → src'.Rests) := by
  cases cases with
  | quiet src' kept pending added ctlOp interest =>
      refine ⟨src', rfl, kept.type, added.trans idle, fun attached outside rests => ?_⟩
      refine ⟨added.trans idle, fun hany => pending.trans ?_⟩
      rcases interest with less | ⟨-, hin | hpend⟩ | unattached
      · refine rests.pending ?_
        rw [any_iff _ .read] at hany ⊢
        exact hany.imp (less _) (less _)
      · rw [outside] at hin
        cases hin
      · exact hpend
      · rw [attached] at unattached
        cases unattached
  | toPending src' kept added ctlOp attached hidle outside running set =>
      exact ⟨_, rfl, kept.type, added.trans idle,
        fun _ _ _ => ⟨added.trans idle, fun _ => rfl⟩⟩
  | toRunning src' kept added ctlOp attached hidle pending bare =>
      refine ⟨_, rfl, kept.type, added.trans idle, fun _ _ _ => ⟨added.trans idle, fun hany => ?_⟩⟩
      rw [show src'.ctlEvent.events.any = true from hany] at bare
      cases bare
  | ctl attached added set new =>
      rw [idle] at added
      cases added
  | del attached added unset last bare =>
      rw [idle] at added
      cases added

/-! The source being handled. -/

private theorem Requeues.of_no_event (event : q.ctl.event = none) : Requeues q := by
  intro ne hne
  rw [event] at hne
  cases hne

private theorem turn_not_finish {ne : NebEvdpEvent} {ret : NebEvdpCbRet}
    (turn : q.ctl.userTurn = true) : q.ctl ≠ .finish ne ret := by
  intro h
  rw [h] at turn
  cases turn

/-- A call writes a source; the one being handled stays unregistered. -/
private theorem Requeues.call (requeues : Requeues q) (turn : q.ctl.userTurn = true)
    {o : Option Source} (sources : q'.sources = Function.update q.sources p o)
    (ctl : q'.ctl = q.ctl)
    (new : ∀ ne, q.ctl.event = some ne → ne.source = p → ∀ s', o = some s' → s'.type = .osFd →
      ∃ s, q.sources p = some s ∧ s.type = .osFd ∧ (s.added = false → s'.added = false)) :
    Requeues q' := by
  intro ne hne s' hs' osFd
  rw [ctl] at hne ⊢
  refine ⟨?_, ?_, fun h => absurd h (turn_not_finish turn)⟩
  · rw [sources] at hs'
    by_cases hp : ne.source = p
    · rw [hp, Function.update_self] at hs'
      obtain ⟨s, hs, osFd', hadded⟩ := new ne hne hp s' hs' osFd
      exact hadded (requeues ne hne s (hp ▸ hs) osFd').added
    · rw [Function.update_of_ne hp] at hs'
      exact (requeues ne hne s' hs' osFd).added
  · rintro hctl
    -- no callback of an os_fd source is at its last stage
    rw [sources] at hs'
    by_cases hp : ne.source = p
    · rw [hp, Function.update_self] at hs'
      obtain ⟨s, hs, osFd', -⟩ := new ne hne hp s' hs' osFd
      exact (requeues ne hne s (hp ▸ hs) osFd').notLast hctl
    · rw [Function.update_of_ne hp] at hs'
      exact (requeues ne hne s' hs' osFd).notLast hctl

/-- A source that is not attached is not the one being handled. -/
private theorem Handled.elsewhere (handled : Handled q) {ne : NebEvdpEvent}
    (event : q.ctl.event = some ne) (unattached : ¬ q.Attached p) : ne.source ≠ p := by
  rintro rfl
  obtain ⟨s, hs, huse, -⟩ := handled ne event
  exact unattached ⟨s, hs, huse⟩

/-- The program goes on with the event, and what it writes is the source being handled. -/
private theorem Requeues.handle {ne : NebEvdpEvent} {c : Ctl} {s' : Source} (ctl : q'.ctl = c)
    (event : c.event = some ne) (source : q'.sources ne.source = some s')
    (new : s'.type = .osFd → HandledSource c ne s') : Requeues q' := by
  intro ne' hne s hs osFd
  rw [ctl] at hne ⊢
  obtain rfl := Option.some.inj (event.symm.trans hne)
  obtain rfl := Option.some.inj (source.symm.trans hs)
  exact new osFd

/-- What a callback returns does not make its handle function go on to the end at once. -/
private theorem after_callback_leaves (ne : NebEvdpEvent) {stage : Stage} (ret : NebEvdpCbRet)
    (notLast : stage ≠ .last) : afterCallback ne stage ret ≠ .callback ne .last ∧
      afterCallback ne stage ret ≠ .finish ne .continue := by
  cases stage with
  | last => exact absurd rfl notLast
  | _ => cases ret <;> simp [afterCallback]

theorem Requeues.ofStep (requeues : Requeues q) (handled : Handled q)
    (h : step q a = some q') : Requeues q' := by
  have idle : ∀ p s, q.sources p = some s → s.qInUse = false → ¬ q.Attached p := by
    rintro p s hs unattached ⟨s', hs', huse⟩
    obtain rfl := Option.some.inj (hs.symm.trans hs')
    rw [unattached] at huse
    cases huse
  cases step_cases h with
  | opened turn => exact requeues
  | closed turn => exact requeues
  | created turn free k reg requests isOpen =>
      refine requeues.call turn rfl rfl (fun ne hne hp => absurd hp ?_)
      refine handled.elsewhere hne ?_
      rintro ⟨s, hs, -⟩
      rw [free] at hs
      cases hs
  | refused turn => exact requeues
  | @freed p src turn hsrc unattached =>
      have hctl : ({ (if src.type.isTimer then closeFd src.fd q else q) with
          sources := Function.update q.sources p none } : State).ctl = q.ctl := by
        simp only
        split_ifs <;> rfl
      exact requeues.call (p := p) (o := none) turn rfl hctl (by simp)
  | refitted turn hsrc unattached =>
      exact requeues.call turn rfl rfl
        (fun ne hne hp => absurd hp (handled.elsewhere hne (idle _ _ hsrc unattached)))
  | @next d p src hd room q' turn hsrc osFd cases =>
      cases hadded : src.added with
      | false =>
          obtain ⟨src', hsources, htype, hadded', -⟩ := next_rests cases hadded
          refine requeues.call turn hsources (next_rest cases).1 ?_
          rintro ne hne hp _ ⟨⟩ -
          exact ⟨src, hsrc, osFd, fun _ => hadded'⟩
      | true =>
          obtain ⟨src', hsources, -⟩ := next_source cases
          refine requeues.call turn hsources (next_rest cases).1 ?_
          rintro ne hne rfl _ ⟨⟩ -
          have hidle := (requeues ne hne src hsrc osFd).added
          rw [hadded] at hidle
          cases hidle
  | joinedPending turn hsrc unattached src' joined osFd =>
      exact requeues.call turn rfl rfl
        (fun ne hne hp => absurd hp (handled.elsewhere hne (idle _ _ hsrc unattached)))
  | joinedRunning turn hsrc unattached src' joined osFd bare =>
      exact requeues.call turn rfl rfl
        (fun ne hne hp => absurd hp (handled.elsewhere hne (idle _ _ hsrc unattached)))
  | @detached p src toClose turn hsrc attached free =>
      have det := Epoll.detached p src toClose q
      obtain ⟨src', hsources, -⟩ := det.sources
      refine requeues.call turn hsources det.ctl ?_
      rintro ne hne rfl s' hs' -
      -- the source being handled cannot be detached
      obtain ⟨s, hs, -, hno⟩ := handled ne hne
      rw [← Option.some.inj (hsrc.symm.trans hs), free] at hno
      cases hno
  | @fetched i ok e d src ctl entry data hsrc =>
      refine .handle (c := .handle ⟨i, d.ptr, e⟩ .read) rfl rfl (Function.update_self ..) ?_
      intro osFd
      have htype : src.type = .osFd := by
        by_contra hne
        rw [if_neg hne] at osFd
        exact hne osFd
      rw [if_pos htype]
      exact ⟨rfl, by simp, by simp⟩
  | otherHandled ctl hsrc other event =>
      exact .handle rfl event hsrc (fun osFd => absurd osFd other)
  | @osFdSkipped ok ne stage stage' src ctl hsrc osFd =>
      have hold := requeues ne (by rw [ctl]; rfl) src hsrc osFd
      exact .handle (c := .handle ne stage') rfl rfl hsrc (fun _ => ⟨hold.added, by simp, by simp⟩)
  | @osFdCalled ok ne stage src ctl hsrc osFd src' entered notLast =>
      have hold := requeues ne (by rw [ctl]; rfl) src hsrc osFd
      exact .handle (c := .callback ne stage) rfl rfl (Function.update_self ..)
        (fun _ => ⟨entered.added.trans hold.added, by simpa using notLast, by simp⟩)
  | @osFdRequeued ok ne src ctl hsrc osFd rest attached =>
      have hold := requeues ne (by rw [ctl]; rfl) src hsrc osFd
      exact .handle (c := .finish ne .continue) rfl rfl (Function.update_self ..)
        (fun _ => ⟨hold.added, by simp, fun _ _ => rfl⟩)
  | @osFdDone ok ne src ctl hsrc osFd bare =>
      have hold := requeues ne (by rw [ctl]; rfl) src hsrc osFd
      refine .handle (c := .finish ne .continue) rfl rfl hsrc
        (fun _ => ⟨hold.added, by simp, fun _ hany => ?_⟩)
      rw [bare] at hany
      cases hany
  | @returned ret ne stage src ctl hsrc src' entered =>
      refine .handle (c := afterCallback ne stage ret) rfl (after_callback_event ne stage ret)
        (Function.update_self ..) ?_
      intro osFd
      have hold := requeues ne (by rw [ctl]; rfl) src hsrc (entered.type.symm.trans osFd)
      have notLast : stage ≠ .last := by
        rintro rfl
        exact hold.notLast ctl
      obtain ⟨hcallback, hfinish⟩ := after_callback_leaves ne ret notLast
      exact ⟨entered.added.trans hold.added, hcallback, fun h => absurd h hfinish⟩
  | finishedDetach ctl hsrc toClose hret => exact .of_no_event rfl
  | finished ctl hsrc hctl' =>
      rcases hctl' with ⟨rfl, -⟩ | ⟨rfl, -⟩
      · exact .of_no_event rfl
      · exact .of_no_event rfl
  | _ => exact .of_no_event rfl

theorem Requeues.create (batchSize : Nat) : Requeues (nebEvdpQueueCreate batchSize) :=
  .of_no_event rfl

/-! The other sources. -/

/-- Outside of the flush, an attached os_fd source that rests goes on to rest, unless its next event
is fetched. -/
theorem Source.Rests.ofStep (rests : src.Rests) (inside : Inside q) (h : step q a = some q')
    (hsrc : q.sources p = some src) (hsrc' : q'.sources p = some src')
    (attached : src.qInUse = true) (attached' : src'.qInUse = true) (waiting : q.ctl.waiting = false)
    (outside : ¬ q.ctl.handling p) : q'.ctl.handling p ∨ src'.Rests := by
  have same : q'.sources p = q.sources p → q'.ctl.handling p ∨ src'.Rests := by
    intro hsame
    rw [hsame, hsrc] at hsrc'
    exact .inr (Option.some.inj hsrc' ▸ rests)
  have other : ∀ {x : Ptr} {o : Option Source}, q'.sources = Function.update q.sources x o →
      p ≠ x → q'.ctl.handling p ∨ src'.Rests := by
    intro x o hsources hx
    exact same (by rw [hsources, Function.update_of_ne hx])
  have flushes : ∀ {c : Ctl}, q.ctl = c → c.waiting = true → q'.ctl.handling p ∨ src'.Rests := by
    rintro c rfl hw
    rw [waiting] at hw
    cases hw
  have handles : ∀ {ne : NebEvdpEvent}, q.ctl.event = some ne → p ≠ ne.source := by
    rintro ne hne rfl
    exact outside ⟨ne, hne, rfl⟩
  have unattached : ∀ {x : Ptr} {s : Source}, q.sources x = some s → s.qInUse = false →
      p ≠ x := by
    rintro x s hs huse rfl
    rw [← Option.some.inj (hsrc.symm.trans hs), attached] at huse
    cases huse
  cases step_cases h with
  | opened turn => exact same rfl
  | closed turn => exact same rfl
  | created turn free k reg requests isOpen =>
      refine other rfl ?_
      rintro rfl
      rw [free] at hsrc
      cases hsrc
  | refused turn => exact same rfl
  | freed turn hsrc0 free => exact other rfl (unattached hsrc0 free)
  | refitted turn hsrc0 free => exact other rfl (unattached hsrc0 free)
  | @next d x src0 hd room q' turn hsrc0 osFd cases =>
      by_cases hx : p = x
      · subst hx
        obtain rfl := Option.some.inj (hsrc.symm.trans hsrc0)
        obtain ⟨s, hsources, -, -, hrests⟩ := next_rests cases rests.added
        rw [hsources, Function.update_self] at hsrc'
        obtain rfl := Option.some.inj hsrc'
        refine .inr (hrests attached ?_ rests)
        refine inside.outside hsrc (fun _ hcalls => outside ?_)
        exact calls_event hcalls
      · obtain ⟨s, hsources, -⟩ := next_source cases
        exact other hsources hx
  | joinedPending turn hsrc0 free s joined osFd => exact other rfl (unattached hsrc0 free)
  | joinedRunning turn hsrc0 free s joined osFd bare => exact other rfl (unattached hsrc0 free)
  | @detached x src0 toClose turn hsrc0 huse free =>
      obtain ⟨s, hsources, hdetached, -⟩ := (Epoll.detached x src0 toClose q).sources
      refine other hsources ?_
      rintro rfl
      rw [hsources, Function.update_self] at hsrc'
      rw [← Option.some.inj hsrc', hdetached] at attached'
      cases attached'
  | flushEnd ctl empty => exact flushes ctl rfl
  | flushed ctl head hsrc0 ok => exact flushes ctl rfl
  | flushFailed ctl head hsrc0 failed => exact flushes ctl rfl
  | flushLost ctl head lost => exact flushes ctl rfl
  | @fetched i ok e d src0 ctl entry data hsrc0 =>
      by_cases hx : p = d.ptr
      · exact .inl ⟨⟨i, d.ptr, e⟩, rfl, hx.symm⟩
      · exact other rfl hx
  | osFdCalled ctl hsrc0 osFd s entered notLast => exact other rfl (handles (by rw [ctl]; rfl))
  | osFdRequeued ctl hsrc0 osFd rest huse => exact other rfl (handles (by rw [ctl]; rfl))
  | returned ctl hsrc0 s entered => exact other rfl (handles (by rw [ctl]; rfl))
  | @finishedDetach ok ne ret src0 ctl hsrc0 toClose hret =>
      obtain ⟨s, hsources, -⟩ :=
        (Epoll.detached ne.source { src0 with noDetach := false } toClose q).sources
      exact other hsources (handles (by rw [ctl]; rfl))
  | finished ctl hsrc0 hctl' => exact other rfl (handles (by rw [ctl]; rfl))
  | _ => exact same rfl

/-- The event being handled stays until its handling ends. -/
theorem event_stays {ne : NebEvdpEvent} (h : step q a = some q') (event : q.ctl.event = some ne)
    (defined : q'.ctl ≠ .undefined) :
    q'.ctl.event = some ne ∨ ∃ ok ret, a = .proceed ok ∧ q.ctl = .finish ne ret := by
  have away : ∀ {c : Ctl}, q.ctl = c → c.event = none →
      q'.ctl.event = some ne ∨ ∃ ok ret, a = .proceed ok ∧ q.ctl = .finish ne ret := by
    rintro c rfl hnone
    rw [hnone] at event
    cases event
  have ends : ∀ {ok ret ne'}, q.ctl = .finish ne' ret → a = .proceed ok →
      q'.ctl.event = some ne ∨ ∃ ok ret, a = .proceed ok ∧ q.ctl = .finish ne ret := by
    intro ok ret ne' ctl ha
    rw [ctl] at event
    obtain rfl := Option.some.inj event
    exact .inr ⟨ok, ret, ha, ctl⟩
  have goes : ∀ {ne' : NebEvdpEvent} {c : Ctl}, q.ctl.event = some ne' → q'.ctl = c →
      c.event = some ne' →
      q'.ctl.event = some ne ∨ ∃ ok ret, a = .proceed ok ∧ q.ctl = .finish ne ret := by
    rintro ne' c hne rfl hc
    obtain rfl := Option.some.inj (event.symm.trans hne)
    exact .inl hc
  cases step_cases h with
  | opened turn => exact .inl event
  | closed turn => exact .inl event
  | created turn free k reg requests isOpen => exact .inl event
  | refused turn => exact .inl event
  | @freed p src turn hsrc unattached =>
      left
      simp only
      split_ifs
      · exact event
      · exact event
  | refitted turn hsrc unattached => exact .inl event
  | next turn hsrc osFd cases =>
      rw [(next_rest cases).1]
      exact .inl event
  | joinedPending turn hsrc unattached src' joined osFd => exact .inl event
  | joinedRunning turn hsrc unattached src' joined osFd bare => exact .inl event
  | @detached p src toClose turn hsrc attached free =>
      rw [(Epoll.detached p src toClose q).ctl]
      exact .inl event
  | started ctl => exact away ctl rfl
  | flushEnd ctl empty => exact away ctl rfl
  | flushed ctl head hsrc ok => exact away ctl rfl
  | flushFailed ctl head hsrc failed => exact away ctl rfl
  | flushLost ctl head lost => exact away ctl rfl
  | waited ctl nodup events => exact away ctl rfl
  | waitFailed ctl => exact away ctl rfl
  | batchEnd ctl beyond currentEvent => exact away ctl rfl
  | skipped ctl entry cleared => exact away ctl rfl
  | lost ctl entry data free => exact away ctl rfl
  | fetched ctl entry data hsrc => exact away ctl rfl
  | vanished hne free => exact absurd rfl defined
  | otherHandled ctl hsrc other hne => exact goes (by rw [ctl]; rfl) rfl hne
  | osFdSkipped ctl hsrc osFd => exact goes (by rw [ctl]; rfl) rfl rfl
  | osFdCalled ctl hsrc osFd src' entered notLast => exact goes (by rw [ctl]; rfl) rfl rfl
  | osFdRequeued ctl hsrc osFd rest attached => exact goes (by rw [ctl]; rfl) rfl rfl
  | osFdLost ctl hsrc unattached => exact absurd rfl defined
  | osFdDone ctl hsrc osFd bare => exact goes (by rw [ctl]; rfl) rfl rfl
  | returned ctl hsrc src' entered =>
      exact goes (by rw [ctl]; rfl) rfl (after_callback_event _ _ _)
  | finishedDetach ctl hsrc toClose hret => exact ends ctl rfl
  | finished ctl hsrc hctl' => exact ends ctl rfl
  | resumed ctl => exact away ctl rfl

end Step

end Nebase.Evdp.Epoll
