/- The protection of the sources on the stack: a bit that the handling of an event and the iteration
   set and clear alike, and how far it holds when they nest. -/

import Nebase.Evdp.Epoll.Accounting
import Nebase.Evdp.Foreach.Removal

set_option autoImplicit false
set_option relaxedAutoImplicit false

namespace Nebase.Evdp.Foreach

open Nebase.Foundation Nebase.Evdp.Epoll

/-- No source has been detached while its handler or a callback for it was on the stack, and the
source whose handler has just returned is still attached. -/
def Intact (q : Queue) : Prop :=
  (∀ d ∈ q.detaches, d.onStack = false) ∧
    ∀ ne ret, q.base.ctl = .finish ne ret → q.base.Attached ne.source

/-- The source that the loop of the iteration reads from the cursor. -/
def Queue.aheadSource (q : Queue) : Option Ptr :=
  match q.ahead with
  | some (.source s) => some s
  | _ => none

/-- The step neither calls back for a source on the stack, nor with one right after the cursor. -/
def AvoidsStack (q : Queue) (a : Action) : Prop :=
  ∀ i ∈ q.calling a, i ∉ q.stack ∧ ∀ s ∈ q.aheadSource, s ∉ q.stack

/-- An event that the step fetches is one of an attached source. -/
def HandlesAttached (q : Queue) : Action → Prop
  | .base a => FetchesAttached q.base a
  | _ => True

instance (q : Queue) (a : Action) : Decidable (AvoidsStack q a) :=
  inferInstanceAs (Decidable (∀ i ∈ q.calling a, i ∉ q.stack ∧ ∀ s ∈ q.aheadSource, s ∉ q.stack))

instance (q : Queue) (a : Action) : Decidable (HandlesAttached q a) :=
  match a with
  | .base a => inferInstanceAs (Decidable (FetchesAttached q.base a))
  | .setUtype _ _ => isTrue trivial
  | .foreachStart _ => isTrue trivial
  | .foreachNext _ => isTrue trivial
  | .foreachSetEnd => isTrue trivial
  | .proceed => isTrue trivial
  | .foreachReturn _ => isTrue trivial

/-- The source is attached and may not be detached by the user. -/
def Guarded (q : State) (p : Ptr) : Prop :=
  ∃ src, q.sources p = some src ∧ src.qInUse = true ∧ src.noDetach = true

theorem Guarded.attached {q : State} {p : Ptr} (guarded : Guarded q p) : q.Attached p := by
  obtain ⟨src, hsrc, huse, -⟩ := guarded
  exact ⟨src, hsrc, huse⟩

section Base

variable {q q' : State} {a : Epoll.Action} {p : Ptr}

theorem Guarded.update (guarded : Guarded q p) {r : Ptr} {o : Option Source}
    (sources : q'.sources = Function.update q.sources r o)
    (keeps : ∀ src, r = p → q.sources r = some src → src.qInUse = true → src.noDetach = true →
      ∃ src', o = some src' ∧ src'.qInUse = true ∧ src'.noDetach = true) : Guarded q' p := by
  obtain ⟨src, hsrc, huse, hno⟩ := guarded
  unfold Guarded
  rw [sources]
  by_cases hr : p = r
  · subst hr
    rw [Function.update_self]
    exact keeps src rfl hsrc huse hno
  · rw [Function.update_of_ne hr]
    exact ⟨src, hsrc, huse, hno⟩

theorem Guarded.kept (guarded : Guarded q p) {r : Ptr} {src src' : Source}
    (hsrc : q.sources r = some src)
    (sources : q'.sources = Function.update q.sources r (some src')) (kept : Kept src src') :
    Guarded q' p := by
  refine guarded.update sources ?_
  intro s _ hs huse hno
  obtain rfl := Option.some.inj (hsrc.symm.trans hs)
  exact ⟨src', rfl, kept.qInUse.trans huse, kept.noDetach.trans hno⟩

/-- A write to a source that is not guarded. -/
theorem Guarded.elsewhere (guarded : Guarded q p) {r : Ptr} {src : Source} {o : Option Source}
    (sources : q'.sources = Function.update q.sources r o) (hsrc : q.sources r = some src)
    (open' : src.qInUse = false ∨ src.noDetach = false) : Guarded q' p := by
  refine guarded.update sources ?_
  intro s _ hs huse hno
  obtain rfl := Option.some.inj (hsrc.symm.trans hs)
  rcases open' with h | h
  · rw [huse] at h
    cases h
  · rw [hno] at h
    cases h

/-- A guarded source stays so, unless its handling ends. -/
theorem Guarded.ofStep (guarded : Guarded q p) (h : Epoll.StepCases q a q')
    (handling : ∀ ne ret, q.ctl = .finish ne ret → ne.source ≠ p) : Guarded q' p := by
  cases h with
  | opened turn => exact guarded
  | closed turn => exact guarded
  | created turn free k reg requests isOpen =>
    refine guarded.update rfl ?_
    intro s _ hs
    rw [free] at hs
    cases hs
  | refused turn => exact guarded
  | @freed r src turn hsrc unattached =>
    by_cases htimer : src.type.isTimer = true
    · simp only [if_pos htimer]
      exact guarded.elsewhere (r := r) rfl hsrc (Or.inl unattached)
    · simp only [if_neg htimer]
      exact guarded.elsewhere (r := r) rfl hsrc (Or.inl unattached)
  | refitted turn hsrc unattached => exact guarded.elsewhere rfl hsrc (Or.inl unattached)
  | @next d r src hd room q1 turn hsrc osFd cases =>
    cases cases with
    | quiet src' kept pending added ctlOp interest => exact guarded.kept hsrc rfl kept
    | toPending src' kept added ctlOp attached idle outside running set =>
      exact guarded.kept hsrc rfl (kept.setPending true)
    | toRunning src' kept added ctlOp attached idle pending bare =>
      exact guarded.kept hsrc rfl (kept.setPending false)
    | ctl attached added set new =>
      exact guarded.kept hsrc rfl (((Kept.setHandler src d hd).trans (.setInterest _ d true)).trans
        (.doCtl r _ room q.kernel))
    | del attached added unset last bare =>
      exact guarded.kept hsrc rfl (((Kept.setHandler src d hd).trans (.setInterest _ d false)).trans
        (.doDel r _ q.kernel))
  | joinedPending turn hsrc unattached src' joined osFd =>
    exact guarded.elsewhere rfl hsrc (Or.inl unattached)
  | joinedRunning turn hsrc unattached src' joined osFd bare =>
    exact guarded.elsewhere rfl hsrc (Or.inl unattached)
  | @detached r src toClose turn hsrc attached free =>
    obtain ⟨src', hsources, -⟩ := (Epoll.detached r src toClose q).sources
    exact guarded.elsewhere hsources hsrc (Or.inr free)
  | flushed ctl head hsrc ok =>
    exact guarded.kept hsrc rfl ⟨rfl, rfl, rfl, rfl, rfl⟩
  | @fetched i ok e d src ctl entry data hsrc =>
    refine guarded.update rfl ?_
    intro s _ hs huse _
    obtain rfl := Option.some.inj (hsrc.symm.trans hs)
    refine ⟨_, rfl, ?_, ?_⟩
    · split_ifs <;> exact huse
    · split_ifs <;> rfl
  | osFdCalled ctl hsrc osFd src' entered notLast => exact guarded.kept hsrc rfl entered.toKept
  | osFdRequeued ctl hsrc osFd rest attached =>
    exact guarded.kept hsrc rfl ((Kept.refl _).setPending true)
  | returned ctl hsrc src' entered => exact guarded.kept hsrc rfl entered.toKept
  | @finishedDetach ok ne ret src ctl hsrc toClose hret =>
    obtain ⟨src', hsources, -⟩ :=
      (Epoll.detached ne.source { src with noDetach := false } toClose q).sources
    exact guarded.update hsources (fun _ e => absurd e (handling ne ret ctl))
  | @finished ok ne ret src ctl' ctl hsrc hctl' =>
    exact guarded.update rfl (fun _ e => absurd e (handling ne ret ctl))
  | _ => exact guarded

/-- An event that is being handled after a step was so before it, or has just been fetched. -/
theorem event_after (h : Epoll.StepCases q a q') (fetches : FetchesAttached q a)
    {ne : NebEvdpEvent} (hne : q'.ctl.event = some ne) :
    q.ctl.event = some ne ∧ (∀ ne' ret, q.ctl ≠ .finish ne' ret) ∨ Guarded q' ne.source := by
  have turned : q.ctl.userTurn = true → q'.ctl = q.ctl →
      q.ctl.event = some ne ∧ (∀ ne' ret, q.ctl ≠ .finish ne' ret) ∨ Guarded q' ne.source := by
    intro turn hctl
    refine Or.inl ⟨hctl ▸ hne, ?_⟩
    intro ne' ret hfinish
    rw [hfinish] at turn
    cases turn
  have went : ∀ {c : Ctl}, q.ctl = c → c.event = some ne → (∀ ne' ret, c ≠ .finish ne' ret) →
      q.ctl.event = some ne ∧ (∀ ne' ret, q.ctl ≠ .finish ne' ret) ∨ Guarded q' ne.source := by
    rintro _ rfl hevent hfinish
    exact Or.inl ⟨hevent, hfinish⟩
  cases h with
  | opened turn => exact turned turn rfl
  | closed turn => exact turned turn rfl
  | created turn free k reg requests isOpen => exact turned turn rfl
  | refused turn => exact turned turn rfl
  | @freed r src turn hsrc unattached =>
    by_cases htimer : src.type.isTimer = true
    · simp only [if_pos htimer] at hne ⊢
      exact Or.inl ⟨hne, fun ne' ret hfinish => by rw [hfinish] at turn; cases turn⟩
    · simp only [if_neg htimer] at hne ⊢
      exact Or.inl ⟨hne, fun ne' ret hfinish => by rw [hfinish] at turn; cases turn⟩
  | refitted turn hsrc unattached => exact turned turn rfl
  | next turn hsrc osFd cases => cases cases <;> exact turned turn rfl
  | joinedPending turn hsrc unattached src' joined osFd => exact turned turn rfl
  | joinedRunning turn hsrc unattached src' joined osFd bare => exact turned turn rfl
  | @detached r src toClose turn hsrc attached free =>
    exact turned turn (Epoll.detached r src toClose q).ctl
  | @fetched i ok e d src ctl entry data hsrc =>
    obtain rfl := Option.some.inj hne
    obtain ⟨s, hs, huse⟩ := fetches d (fetching_eq ctl entry data)
    obtain rfl := Option.some.inj (hsrc.symm.trans hs)
    refine Or.inr ⟨_, Function.update_self .., ?_, ?_⟩
    · split_ifs <;> exact huse
    · split_ifs <;> rfl
  | otherHandled ctl hsrc other event =>
    obtain rfl := Option.some.inj (event.symm.trans hne)
    exact went ctl rfl (by simp)
  | osFdSkipped ctl hsrc osFd => exact went ctl hne (by simp)
  | osFdCalled ctl hsrc osFd src' entered notLast => exact went ctl hne (by simp)
  | osFdRequeued ctl hsrc osFd rest attached => exact went ctl hne (by simp)
  | osFdDone ctl hsrc osFd bare => exact went ctl hne (by simp)
  | returned ctl hsrc src' entered =>
    refine went ctl ?_ (by simp)
    rw [← hne]
    exact (after_callback_event _ _ _).symm
  | finished ctl hsrc hctl' =>
    rcases hctl' with ⟨rfl, -⟩ | ⟨rfl, -⟩ <;> cases hne
  | _ => cases hne

/-- The user's calls do not move the program, as long as the source being handled is there. -/
theorem call_ctl (h : Epoll.StepCases q a q') (call : isCall a = true)
    (known : ∀ ne, q.ctl.event = some ne → q.sources ne.source ≠ none) : q'.ctl = q.ctl := by
  cases h with
  | opened turn => rfl
  | closed turn => rfl
  | created turn free k reg requests isOpen => rfl
  | refused turn => rfl
  | @freed r src turn hsrc unattached =>
    by_cases htimer : src.type.isTimer = true <;> simp [htimer, closeFd]
  | refitted turn hsrc unattached => rfl
  | next turn hsrc osFd cases => cases cases <;> rfl
  | joinedPending turn hsrc unattached src' joined osFd => rfl
  | joinedRunning turn hsrc unattached src' joined osFd bare => rfl
  | @detached r src toClose turn hsrc attached free => exact (Epoll.detached r src toClose q).ctl
  | vanished event free => exact absurd free (known _ event)
  | _ => cases call

theorem step_defined (h : Epoll.step q a = some q') : q.ctl ≠ .undefined := by
  intro hctl
  cases a <;> simp [Epoll.step, State.call, State.callNext, hctl, Ctl.userTurn] at h

end Base

theorem mem_stackOf {ctl : Ctl} {calls : List Call} {p : Ptr} :
    p ∈ stackOf ctl calls ↔
      (∃ call ∈ calls, ∃ s, call.point = .called s p) ∨
        ∃ ne stage, (ctl = .handle ne stage ∨ ctl = .callback ne stage) ∧ ne.source = p := by
  unfold stackOf
  rw [List.mem_append]
  refine or_congr ?_ ?_
  · simp only [List.mem_filterMap]
    constructor
    · rintro ⟨call, hcall, h⟩
      split at h
      · rename_i s i hpoint
        obtain rfl := Option.some.inj h
        exact ⟨call, hcall, s, hpoint⟩
      · cases h
    · rintro ⟨call, hcall, s, hpoint⟩
      exact ⟨call, hcall, by rw [hpoint]⟩
  · cases ctl <;> simp [eq_comm]

/-- A call that has called no callback does not count. -/
theorem stackOf_cons {ctl : Ctl} {call : Call} {calls : List Call}
    (hpoint : ∀ s i, call.point ≠ .called s i) :
    stackOf ctl (call :: calls) = stackOf ctl calls := by
  unfold stackOf
  rw [List.filterMap_cons]
  split
  · rfl
  · rename_i i heq
    split at heq
    · rename_i s i hcalled
      exact absurd hcalled (hpoint s i)
    · cases heq

/-- What the calls on the stack have called, and would detach, is not on the stack below them. -/
def Apart (ctl : Ctl) : List Call → Prop
  | [] => True
  | call :: calls =>
    (∀ s i, call.point = .called s i → i ∉ stackOf ctl calls ∧ s ∉ stackOf ctl calls) ∧
      Apart ctl calls

/-- The sources on the stack are attached and protected. -/
structure Protected (q : Queue) : Prop where
  turn : q.calls ≠ [] → q.base.ctl.userTurn = true
  stack : ∀ p ∈ q.stack, Guarded q.base p
  event : ∀ ne, q.base.ctl.event = some ne → Guarded q.base ne.source
  apart : Apart q.base.ctl q.calls

section Protected

variable {q q' : Queue}

private theorem event_of_turn {ctl : Ctl} {calls : List Call} {ne : NebEvdpEvent}
    (turn : ctl.userTurn = true) (event : ctl.event = some ne) : ne.source ∈ stackOf ctl calls := by
  rw [mem_stackOf]
  cases ctl with
  | callback ne' stage =>
    obtain rfl := Option.some.inj event
    exact Or.inr ⟨ne', stage, Or.inr rfl, rfl⟩
  | user => cases event
  | removed i => cases event
  | _ => cases turn

/-- A new stack over a part of the old one, without a new callback. -/
theorem Protected.over (protect : Protected q) (top old : List Call) {calls : List Call}
    (hcalls : q.calls = old ++ calls) (hcalls' : q'.calls = top ++ calls)
    (htop : ∀ c ∈ top, ∀ s i, c.point ≠ .called s i) (turn : q.base.ctl.userTurn = true)
    (ctl : q'.base.ctl = q.base.ctl)
    (guarded : ∀ p ∈ stackOf q.base.ctl calls, Guarded q.base p → Guarded q'.base p) :
    Protected q' := by
  have hsub : ∀ {p : Ptr}, p ∈ stackOf q.base.ctl calls → p ∈ q.stack := by
    intro p hp
    unfold Queue.stack
    rw [mem_stackOf] at hp ⊢
    rw [hcalls]
    refine hp.imp_left ?_
    rintro ⟨call, hcall, h⟩
    exact ⟨call, List.mem_append_right _ hcall, h⟩
  have happart : ∀ old : List Call, Apart q.base.ctl (old ++ calls) → Apart q.base.ctl calls := by
    intro old
    induction old with
    | nil => exact id
    | cons c cs ih => exact fun h => ih h.2
  have hstack : stackOf q.base.ctl (top ++ calls) = stackOf q.base.ctl calls := by
    clear hcalls'
    induction top with
    | nil => rfl
    | cons c cs ih =>
      rw [List.cons_append, stackOf_cons (htop c List.mem_cons_self)]
      exact ih (fun d hd => htop d (List.mem_cons_of_mem c hd))
  have hguarded : ∀ p ∈ q'.stack, Guarded q'.base p := by
    intro p hp
    unfold Queue.stack at hp
    rw [ctl, hcalls', hstack] at hp
    exact guarded p hp (protect.stack p (hsub hp))
  refine ⟨fun _ => ctl ▸ turn, hguarded, ?_, ?_⟩
  · intro ne hne
    exact hguarded ne.source (event_of_turn (ctl ▸ turn) hne)
  · rw [ctl, hcalls']
    have := happart old (hcalls ▸ protect.apart)
    clear hcalls' hstack
    induction top with
    | nil => exact this
    | cons c cs ih =>
      exact ⟨fun s i h => absurd h (htop c List.mem_cons_self s i),
        ih (fun d hd => htop d (List.mem_cons_of_mem c hd))⟩

/-- A step of the base while no call of the iteration is on the stack. -/
private theorem Protected.loop (protect : Protected q) {a : Epoll.Action} {b : State}
    (hcalls : q.calls = []) (hstep : Epoll.StepCases q.base a b)
    (fetches : FetchesAttached q.base a) : Protected (q.moved a b) := by
  have hevent : ∀ ne, b.ctl.event = some ne → Guarded b ne.source := by
    intro ne hne
    rcases event_after hstep fetches hne with ⟨hbefore, hfinish⟩ | hguarded
    · exact (protect.event ne hbefore).ofStep hstep (fun ne' ret h => absurd h (hfinish ne' ret))
    · exact hguarded
  have hnil : (q.moved a b).calls = [] := (noted_calls q a).trans hcalls
  refine ⟨fun h => absurd hnil h, ?_, hevent, by rw [hnil]; trivial⟩
  intro p hp
  unfold Queue.stack at hp
  rw [hnil, mem_stackOf] at hp
  rcases hp with ⟨call, hcall, -⟩ | ⟨ne, stage, hctl, rfl⟩
  · cases hcall
  · refine hevent ne ?_
    rcases hctl with hctl | hctl
    · exact congrArg Ctl.event hctl
    · exact congrArg Ctl.event hctl

/-- A step of the base under a callback of the iteration. -/
private theorem Protected.call (protect : Protected q) {a : Epoll.Action} {b : State}
    (turn : q.base.ctl.userTurn = true) (call : isCall a = true)
    (hstep : Epoll.StepCases q.base a b) : Protected (q.moved a b) := by
  have hctl : b.ctl = q.base.ctl := by
    refine call_ctl hstep call ?_
    intro ne hne hnone
    obtain ⟨src, hsrc, -⟩ := protect.event ne hne
    rw [hnone] at hsrc
    cases hsrc
  refine protect.over [] [] rfl (noted_calls q a) (by simp) turn hctl ?_
  intro p _ hguarded
  refine hguarded.ofStep hstep ?_
  intro ne ret hfinish
  rw [hfinish] at turn
  cases turn

/-- What a step of the base detaches is not on the stack. -/
private theorem Protected.detaching (protect : Protected q) {a : Epoll.Action}
    (admits : q.admits a = true) {d : Ptr × Source × Bool} (hd : d ∈ q.base.detaching a) :
    d.1 ∉ q.stack := by
  cases a with
  | detach p toClose =>
    intro hmem
    simp only [State.detaching, Option.mem_def, Option.map_eq_some_iff,
      Option.filter_eq_some_iff] at hd
    obtain ⟨src, ⟨hsrc, hfree⟩, rfl⟩ := hd
    obtain ⟨s, hs, huse, hno⟩ := protect.stack p hmem
    obtain rfl := Option.some.inj (hsrc.symm.trans hs)
    simp [hno] at hfree
  | proceed ok =>
    have hnil : q.calls = [] := by simpa [Queue.admits, isCall] using admits
    simp only [State.detaching] at hd
    unfold Queue.stack
    rw [hnil, mem_stackOf]
    rintro (⟨call, hcall, -⟩ | ⟨ne, stage, hctl, -⟩)
    · cases hcall
    · rcases hctl with hctl | hctl <;> rw [hctl] at hd <;> cases hd
  | _ => cases hd

/-- What holds of the queue before its program is lost, and of its detaches in any case. -/
def Sound (q : Queue) : Prop :=
  Wound q ∧ (∀ d ∈ q.detaches, d.onStack = false) ∧
    (q.base.ctl = .undefined ∨ Protected q)

private theorem step_not_undefined {a : Action} (h : step q a = some q') :
    q.base.ctl ≠ .undefined := by
  intro hctl
  have hturn : q.base.ctl.userTurn = false := by rw [hctl]; rfl
  cases step_cases h with
  | base admits hstep => exact step_defined hstep hctl
  | _ => simp_all [Queue.userTurn]

private theorem set_end_base (q : Queue) :
    (nebEvdpQueueForeachSetEnd q).detaches = q.detaches ∧
      (nebEvdpQueueForeachSetEnd q).base.sources = q.base.sources ∧
      ((nebEvdpQueueForeachSetEnd q).base.ctl = q.base.ctl ∨
        (nebEvdpQueueForeachSetEnd q).base.ctl = .undefined) := by
  unfold nebEvdpQueueForeachSetEnd
  split_ifs
  · split
    · exact ⟨rfl, rfl, Or.inl rfl⟩
    · exact ⟨rfl, rfl, Or.inr rfl⟩
  · exact ⟨rfl, rfl, Or.inl rfl⟩

theorem Sound.ofStep {a : Action} (sound : Sound q) (avoids : AvoidsStack q a)
    (handles : HandlesAttached q a) (h : step q a = some q') : Sound q' := by
  obtain ⟨wound, log, state⟩ := sound
  have protect := state.resolve_left (step_not_undefined h)
  refine ⟨wound.ofStep h, ?_⟩
  have userTurn : q.userTurn = true → q.base.ctl.userTurn = true := by
    intro turn
    simp only [Queue.userTurn, Bool.and_eq_true] at turn
    exact turn.1
  have guardedOf : ∀ {b : State} {calls : List Call}, b.sources = q.base.sources →
      ∀ p ∈ stackOf q.base.ctl calls, Guarded q.base p → Guarded b p := by
    rintro b calls hsources p - ⟨src, hsrc, hrest⟩
    exact ⟨src, hsources ▸ hsrc, hrest⟩
  -- the source of a call that has returned is not protected any longer, the others are
  have released : ∀ {s i : Ptr} {call : Call} {calls : List Call} {src : Source},
      q.calls = call :: calls → call.point = .called s i → q.base.sources i = some src →
      ∀ p ∈ stackOf q.base.ctl calls, Guarded q.base p → Guarded (q.released i src).base p := by
    intro s i call calls src hcalls hpoint hsrc p hp hguarded
    have happart := protect.apart
    rw [hcalls] at happart
    refine hguarded.update rfl ?_
    rintro _ rfl
    exact absurd hp (happart.1 s i hpoint).1
  have setEnd : ∀ (q1 : Queue) (top old : List Call) {calls : List Call},
      q.calls = old ++ calls → q.base.ctl.userTurn = true → q1.base.ctl = q.base.ctl →
      q1.detaches = q.detaches →
      (∀ p ∈ stackOf q.base.ctl calls, Guarded q.base p → Guarded q1.base p) →
      (∀ c ∈ top, ∀ s i, c.point ≠ .called s i) →
      (∀ d ∈ (nebEvdpQueueForeachSetEnd q1).detaches, d.onStack = false) ∧
        ((nebEvdpQueueForeachSetEnd q1).base.ctl = .undefined ∨
          Protected { nebEvdpQueueForeachSetEnd q1 with calls := top ++ calls }) := by
    intro q1 top old calls hcalls turn hctl1 hlog hguarded htop
    obtain ⟨hdetaches, hsources, hctl⟩ := set_end_base q1
    refine ⟨by rw [hdetaches, hlog]; exact log, ?_⟩
    rcases hctl with hctl | hctl
    · refine Or.inr (protect.over top old hcalls rfl htop turn (hctl.trans hctl1) ?_)
      intro p hp hg
      obtain ⟨src, hsrc, hrest⟩ := hguarded p hp hg
      exact ⟨src, hsources ▸ hsrc, hrest⟩
    · exact Or.inl hctl
  cases step_cases h with
  | @base a b admits hstep =>
    have hcases := Epoll.step_cases hstep
    refine ⟨?_, Or.inr ?_⟩
    · intro d hd
      rcases List.mem_append.mp hd with hd | hd
      · simp only [Option.mem_toList, Option.map_eq_some_iff] at hd
        obtain ⟨e, he, rfl⟩ := hd
        simpa using protect.detaching admits he
      · refine log d ?_
        have hnoted : (q.noted a).detaches = q.detaches := by
          unfold Queue.noted
          split
          · split_ifs <;> rfl
          · rfl
          · rfl
        exact hnoted ▸ hd
    · rcases admits_calls admits with hnil | ⟨turn, call⟩
      · exact protect.loop hnil hcases handles
      · exact protect.call (userTurn turn) call hcases
  | setUtype turn =>
    exact ⟨log, Or.inr (protect.over [] [] rfl rfl (by simp) (userTurn turn) rfl
      (guardedOf rfl))⟩
  | refused turn => exact ⟨log, Or.inr protect⟩
  | started turn idle hf free =>
    exact ⟨log, Or.inr (protect.over [] [] rfl rfl (by simp) (userTurn turn) rfl
      (guardedOf rfl))⟩
  | @entered size turn running =>
    exact ⟨log, Or.inr (protect.over [_] [] rfl rfl (by simp) (userTurn turn) rfl
      (guardedOf rfl))⟩
  | ended turn =>
    have hcalls : Protected { nebEvdpQueueForeachSetEnd q with calls := q.calls } →
        Protected (nebEvdpQueueForeachSetEnd q) := by
      rw [← set_end_calls q]
      exact id
    obtain ⟨hlog, hstate⟩ := setEnd q [] [] rfl (userTurn turn) rfl rfl (fun _ _ => id) (by simp)
    exact ⟨hlog, hstate.imp_right hcalls⟩
  | lost turn => exact ⟨log, Or.inl rfl⟩
  | left turn hcalls hpoint =>
    exact ⟨log, Or.inr (protect.over [] [_] hcalls rfl (by simp) turn rfl (guardedOf rfl))⟩
  | sought turn hf hcalls hpoint next =>
    exact ⟨log, Or.inr (protect.over [_] [_] hcalls rfl (by simp) turn rfl
      (guardedOf rfl))⟩
  | skipped turn hf hcalls hpoint unfit =>
    exact ⟨log, Or.inr (protect.over [_] [_] hcalls rfl (by simp) turn rfl
      (guardedOf rfl))⟩
  | @calledBack f s i call calls src turn hf hcalls hpoint hsrc fit =>
    refine ⟨log, Or.inr ?_⟩
    obtain ⟨hi, hs⟩ := avoids i (calling_seek turn hf hcalls hpoint (by simp [hsrc]) fit)
    have hahead := (wound.sought hcalls hpoint).1
    have hs' := hs s (by simp [Queue.aheadSource, hahead])
    have hstack : q.stack = stackOf q.base.ctl calls := by
      unfold Queue.stack
      rw [hcalls, stackOf_cons (by rw [hpoint]; simp)]
    have huse : src.qInUse = true := by
      obtain ⟨P, R, wired, searching⟩ := wound
      obtain ⟨A, g, B, C, hc, hR, -, hnode, -⟩ := searching.seek call calls s _ hcalls hpoint
      have hmem : i ∈ R := by
        cases C with
        | nil => cases hnode
        | cons j C =>
          obtain rfl := Node.source.inj (Option.some.inj hnode)
          rw [hR]
          simp
      rcases (wired.threaded.running i).mp hmem with ⟨s1, hs1, huse, -⟩ | hcur
      · obtain rfl := Option.some.inj (hsrc.symm.trans hs1)
        exact huse
      · rw [wired.threaded.free i hcur] at hsrc
        cases hsrc
    have hguarded : ∀ p, p = i ∨ Guarded q.base p → Guarded (doCb f i src q).base p := by
      rintro p (rfl | hguarded)
      · exact ⟨_, Function.update_self .., huse, rfl⟩
      · refine hguarded.update rfl ?_
        rintro s1 rfl hs1 - -
        exact ⟨_, rfl, huse, rfl⟩
    have hmem : ∀ p, p ∈ stackOf q.base.ctl ({ call with point := .called s i } :: calls) →
        p = i ∨ Guarded q.base p := by
      intro p hp
      rw [mem_stackOf] at hp
      rcases hp with ⟨c, hc, s1, hpoint1⟩ | hevent
      · rcases List.mem_cons.mp hc with rfl | hc
        · exact Or.inl (Point.called.inj hpoint1).2.symm
        · exact Or.inr (protect.stack p (hstack ▸ mem_stackOf.mpr (Or.inl ⟨c, hc, s1, hpoint1⟩)))
      · exact Or.inr (protect.stack p (hstack ▸ mem_stackOf.mpr (Or.inr hevent)))
    refine ⟨fun _ => turn, fun p hp => hguarded p (hmem p hp), ?_, ?_⟩
    · intro ne hne
      exact hguarded ne.source (Or.inr (protect.event ne hne))
    · refine ⟨?_, ?_⟩
      · rintro _ _ ⟨⟩
        exact ⟨hstack ▸ hi, hstack ▸ hs'⟩
      · have happart := protect.apart
        rw [hcalls] at happart
        exact happart.2
  | @exhausted f s call calls turn hf hcalls hpoint =>
    exact setEnd q [{ call with count := call.count + 1, point := .loop }] [call] hcalls turn
      rfl rfl (fun _ _ => id) (by simp)
  | resumed turn hcalls hpoint =>
    exact ⟨log, Or.inr (protect.over [_] [_] hcalls rfl (by simp) turn rfl
      (guardedOf rfl))⟩
  | continued turn hcalls hpoint hsrc =>
    exact ⟨log, Or.inr (protect.over [_] [_] hcalls rfl (by simp) turn rfl
      (released hcalls hpoint hsrc))⟩
  | @endedByCb s i call calls src turn hcalls hpoint hsrc =>
    exact setEnd (q.released i src) [{ call with count := call.count + 1, point := .loop }] [call]
      hcalls turn rfl rfl (released hcalls hpoint hsrc) (by simp)
  | invalid turn hcalls hpoint hsrc hret =>
    exact ⟨log, Or.inr (protect.over [] [_] hcalls rfl (by simp) turn rfl
      (released hcalls hpoint hsrc))⟩
  | @removedByCb s i call calls src srcS turn hcalls hpoint hsrc toClose hsrcS =>
    have happart := protect.apart
    rw [hcalls] at happart
    have hs := (happart.1 s i hpoint).2
    refine ⟨?_, Or.inr ?_⟩
    · intro d hd
      rcases List.mem_cons.mp hd with rfl | hd
      · simpa using hs
      · exact log d hd
    · have det := Epoll.detached s srcS toClose (q.released i src).base
      obtain ⟨src', hsources, -⟩ := det.sources
      refine protect.over [_] [_] hcalls rfl (by simp) turn det.ctl ?_
      intro p hp hguarded
      refine (released hcalls hpoint hsrc p hp hguarded).update hsources ?_
      rintro _ rfl
      exact absurd hp hs
  | removedLost turn hcalls hpoint hsrc toClose free => exact ⟨log, Or.inl rfl⟩

end Protected

theorem Sound.create (batchSize : Nat) : Sound (queueCreate batchSize) := by
  refine ⟨.create batchSize, by simp [queueCreate], Or.inr ⟨?_, ?_, ?_, trivial⟩⟩
  · simp [queueCreate]
  · simp [Queue.stack, stackOf, queueCreate, nebEvdpQueueCreate]
  · simp [queueCreate, nebEvdpQueueCreate, Ctl.event]

theorem Sound.intact {q : Queue} (sound : Sound q) : Intact q := by
  obtain ⟨-, log, state⟩ := sound
  refine ⟨log, ?_⟩
  intro ne ret hctl
  rcases state with hundefined | protect
  · rw [hundefined] at hctl
    cases hctl
  · exact (protect.event ne (by rw [hctl]; rfl)).attached

/-- As long as the iteration neither calls back for a source on the stack nor next to one, and no
event of a detached source is handled, nothing on the stack is detached. -/
theorem nebEvdpQueueForeach_keeps_stack (batchSize : Nat) (as : List Action) (q : Queue)
    (avoids : Machine.StepsMeet step AvoidsStack (queueCreate batchSize) as)
    (handles : Machine.StepsMeet step HandlesAttached (queueCreate batchSize) as)
    (reached : Machine.run step (queueCreate batchSize) as = some q) : Intact q :=
  (Machine.invariant_run (I := Sound)
    (fun _ _ _ sound meets h => sound.ofStep meets.1 meets.2 h) (.create batchSize)
    (avoids.and handles) reached).intact

/-- An os_fd source with a read handler, whose event is handled. -/
def reading : List Action :=
  [.base (.openFd 5), .base (.openFd 6), .base (.newSource 1 .osFd 5), .base (.newSource 2 .osFd 6),
    .base (.nextRead 1 (some 0) true), .base (.attach 1 true), .base .run, .base (.flush true),
    .base (.flush true), .base (.wait [(5, ⟨true, false, false⟩)]), .base (.proceed true),
    .base (.proceed true)]

/-- The handler iterates over another source, which is removed, and tries to detach its own. -/
def readingOther : List Action :=
  reading ++ [.base (.attach 2 true), .setUtype 2 8, .foreachStart (some 3), .foreachNext 0,
    .proceed,
    .proceed, .base (.detach 1 false), .foreachReturn .remove, .proceed, .proceed, .proceed,
    .proceed,
    .proceed, .base (.cbReturn .continue), .base (.proceed true), .base (.proceed true),
    .base (.proceed true)]

theorem nebEvdpQueueForeach_keeps_stack_other :
    ∃ q, Machine.run step (queueCreate 10) readingOther = some q ∧
      q.detaches = [⟨2, false, false⟩] ∧ Intact q := by
  obtain ⟨q, hq, hdetaches⟩ : ∃ q, Machine.run step (queueCreate 10) readingOther = some q ∧
      q.detaches = [⟨2, false, false⟩] := Machine.run_reaches (by decide)
  exact ⟨q, hq, hdetaches,
    nebEvdpQueueForeach_keeps_stack 10 readingOther q (by decide) (by decide) hq⟩

/-- The handler iterates over its own source and detaches it afterwards. -/
theorem nebEvdpQueueForeach_keeps_stack_fails :
    ¬ ∀ (batchSize : Nat) (as : List Action) (q : Queue),
      Machine.run step (queueCreate batchSize) as = some q → Intact q := by
  intro claim
  obtain ⟨q, hq, hdetaches⟩ : ∃ q, Machine.run step (queueCreate 10)
      (reading ++ [.setUtype 1 7, .foreachStart (some 3), .foreachNext 0, .proceed, .proceed,
        .foreachReturn .continue, .proceed, .base (.detach 1 false)]) = some q ∧
      q.detaches = [⟨1, false, true⟩] := Machine.run_reaches (by decide)
  have := (claim 10 _ q hq).1 ⟨1, false, true⟩ (by rw [hdetaches]; exact List.mem_cons_self)
  cases this

end Nebase.Evdp.Foreach
