/- Which source an iteration detaches when a callback asks for it: the one it has read from the
   cursor before it has searched for the source to call. -/

import Nebase.Evdp.Foreach.Lists

set_option autoImplicit false
set_option relaxedAutoImplicit false

namespace Nebase.Evdp.Foreach

open Nebase.Foundation Nebase.Evdp.Epoll

/-- The source whose callback the step calls. -/
def Queue.calling (q : Queue) : Action → Option Ptr
  | .proceed =>
    match q.base.ctl.userTurn, q.foreachS, q.calls with
    | true, some _, ⟨_, _, .seek _ (some (.source i))⟩ :: _ =>
      if (q.base.sources i).isSome && q.eligible i then some i else none
    | _, _, _ => none
  | _ => none

/-- The source right after the cursor is one that the iteration calls. -/
def Queue.nextEligible (q : Queue) : Bool :=
  match q.ahead with
  | some (.source s) => q.eligible s
  | _ => true

/-- When the step calls a callback, the source right after the cursor is eligible. -/
def NextEligible (q : Queue) (a : Action) : Prop :=
  (q.calling a).isSome → q.nextEligible = true

instance (q : Queue) (a : Action) : Decidable (NextEligible q a) :=
  inferInstanceAs (Decidable (_ → _))

/-- When the innermost callback returns that its source is to be removed or closed, exactly this
source is detached, if it is still there. -/
def RemovesCalled (q : Queue) : Prop :=
  ∀ call calls s i, q.calls = call :: calls → call.point = .called s i →
    (q.base.sources i).isSome → ∀ (toClose : Bool) (q' : Queue),
    step q (.foreachReturn (if toClose then .close else .remove)) = some q' →
      (∃ onStack, q'.detaches = ⟨i, toClose, onStack⟩ :: q.detaches) ∧
        ∀ p, q'.base.Attached p ↔ q.base.Attached p ∧ p ≠ i

/-- The source that a call on the stack would detach is the one whose callback it has called. -/
def Aligned (q : Queue) : Prop := ∀ call ∈ q.calls, ∀ s i, call.point = .called s i → s = i

theorem calling_seek {q : Queue} {f s i : Ptr} {call : Call} {calls : List Call}
    (turn : q.base.ctl.userTurn = true) (hf : q.foreachS = some f)
    (hcalls : q.calls = call :: calls) (hpoint : call.point = .seek s (some (.source i)))
    (hsrc : (q.base.sources i).isSome = true) (fit : q.eligible i = true) :
    q.calling .proceed = some i := by
  obtain ⟨size, count, point⟩ := call
  obtain rfl : point = .seek s (some (.source i)) := hpoint
  simp [Queue.calling, turn, hf, hcalls, hsrc, fit]

theorem calling_inv {q : Queue} {a : Action} {i : Ptr} (h : q.calling a = some i) :
    a = .proceed ∧ q.base.ctl.userTurn = true ∧ ∃ f s call calls, q.foreachS = some f ∧
      q.calls = call :: calls ∧ call.point = .seek s (some (.source i)) ∧
      (∃ src, q.base.sources i = some src) ∧ q.eligible i = true := by
  cases a <;> simp only [Queue.calling] at h <;> try cases h
  split at h
  · rename_i f size count s j calls turn hf hcalls
    split_ifs at h with hfit
    obtain rfl := Option.some.inj h
    simp only [Bool.and_eq_true, Option.isSome_iff_exists] at hfit
    exact ⟨rfl, turn, f, s, _, _, hf, hcalls, rfl, hfit⟩
  · cases h

/-- The step that calls a callback. -/
theorem step_calling {q : Queue} {f s i : Ptr} {call : Call} {calls : List Call} {src : Source}
    (turn : q.base.ctl.userTurn = true) (hf : q.foreachS = some f)
    (hcalls : q.calls = call :: calls) (hpoint : call.point = .seek s (some (.source i)))
    (hsrc : q.base.sources i = some src) (fit : q.eligible i = true) :
    step q .proceed =
      some { doCb f i src q with calls := { call with point := .called s i } :: calls } := by
  simp only [step, turn, hf, hcalls, foreachProceed, hpoint, evdpQueueForeachNextOne, hsrc, fit,
    if_true]

/-- A search that has come to `i` has read `s` from the cursor, and has stopped there or found it
not eligible. -/
theorem Wound.sought {q : Queue} (wound : Wound q) {s i : Ptr} {call : Call} {calls : List Call}
    (hcalls : q.calls = call :: calls) (hpoint : call.point = .seek s (some (.source i))) :
    q.ahead = some (.source s) ∧ (s = i ∨ q.eligible s = false) := by
  obtain ⟨P, R, wired, searching⟩ := wound
  obtain ⟨A, f, B, C, hc, hR, hs, hnode, hunfit⟩ := searching.seek call calls s _ hcalls hpoint
  refine ⟨by rw [wired.ahead hc hR, hs]; rfl, ?_⟩
  cases B with
  | nil =>
    rw [List.nil_append] at hs
    rw [hs] at hnode
    exact Or.inl (Node.source.inj (Option.some.inj hnode)).symm
  | cons b B =>
    obtain rfl : b = s := Option.some.inj hs
    exact Or.inr (hunfit b List.mem_cons_self)

theorem Aligned.ofStep {q q' : Queue} {a : Action} (wound : Wound q) (aligned : Aligned q)
    (next : NextEligible q a) (h : step q a = some q') : Aligned q' := by
  have same : ∀ {q1 : Queue}, q1.calls = q.calls → Aligned q1 := by
    intro q1 hcalls
    unfold Aligned
    rw [hcalls]
    exact aligned
  have top : ∀ {q1 : Queue} {call new : Call} {calls : List Call}, q.calls = call :: calls →
      q1.calls = new :: calls → (∀ s i, new.point = .called s i → s = i) → Aligned q1 := by
    intro q1 call new calls hcalls hcalls1 hnew c hc
    rw [hcalls1] at hc
    rcases List.mem_cons.mp hc with rfl | hc
    · exact hnew
    · exact aligned c (hcalls ▸ List.mem_cons_of_mem call hc)
  have less : ∀ {q1 : Queue} {call : Call} {calls : List Call}, q.calls = call :: calls →
      q1.calls = calls → Aligned q1 := by
    intro q1 call calls hcalls hcalls1 c hc
    rw [hcalls1] at hc
    exact aligned c (hcalls ▸ List.mem_cons_of_mem call hc)
  cases step_cases h with
  | @base a b admits _ => exact same (noted_calls q a)
  | setUtype turn => exact same rfl
  | refused turn => exact aligned
  | started turn idle hf free => exact same rfl
  | entered turn running =>
    intro c hc
    rcases List.mem_cons.mp hc with rfl | hc
    · simp
    · exact aligned c hc
  | ended turn => exact same (set_end_calls q)
  | lost turn => exact same rfl
  | left turn hcalls hpoint => exact less hcalls rfl
  | sought turn hf hcalls hpoint hnext => exact top hcalls rfl (by simp)
  | skipped turn hf hcalls hpoint unfit => exact top hcalls rfl (by simp)
  | @calledBack f s i call calls src turn hf hcalls hpoint hsrc fit =>
    refine top hcalls rfl ?_
    simp only [Point.called.injEq]
    rintro _ _ ⟨rfl, rfl⟩
    obtain ⟨hahead, heq | hunfit⟩ := wound.sought hcalls hpoint
    · exact heq
    · have hnext := next (by simp [calling_seek turn hf hcalls hpoint (by simp [hsrc]) fit])
      simp only [Queue.nextEligible, hahead] at hnext
      rw [hunfit] at hnext
      cases hnext
  | exhausted turn hf hcalls hpoint => exact top hcalls rfl (by simp)
  | resumed turn hcalls hpoint => exact top hcalls rfl (by simp)
  | continued turn hcalls hpoint hsrc => exact top hcalls rfl (by simp)
  | endedByCb turn hcalls hpoint hsrc => exact top hcalls rfl (by simp)
  | invalid turn hcalls hpoint hsrc hret => exact less hcalls rfl
  | removedByCb turn hcalls hpoint hsrc toClose hsrcS => exact top hcalls rfl (by simp)
  | removedLost turn hcalls hpoint hsrc toClose free => exact same rfl

/-- After `do_detach_from_queue` exactly the given source is no longer attached. -/
theorem detach_attached {q : State} {i : Ptr} (src' : Source) (toClose : Bool) (p : Ptr) :
    (doDetachFromQueue i src' toClose (q.setSource i src')).Attached p ↔
      q.Attached p ∧ p ≠ i := by
  obtain ⟨s, hsources, hs, -⟩ := (detached i src' toClose (q.setSource i src')).sources
  unfold State.Attached
  rw [hsources]
  by_cases hp : p = i
  · subst hp
    simp [hs]
  · simp [hp, State.setSource]

private theorem Aligned.removesCalled {q : Queue} (aligned : Aligned q) : RemovesCalled q := by
  intro call calls s i hcalls hpoint hsome toClose q' h
  obtain rfl := aligned call (by rw [hcalls]; exact List.mem_cons_self) s i hpoint
  obtain ⟨src, hsrc⟩ := Option.isSome_iff_exists.mp hsome
  have turn : q.base.ctl.userTurn = true := by
    by_contra hturn
    simp [step, Bool.eq_false_iff.mpr hturn] at h
  have hreleased : (q.released s src).base.sources s = some { src with noDetach := false } := by
    simp [Queue.released, State.setSource]
  rw [step_return turn hcalls hpoint] at h
  obtain rfl := Option.some.inj h
  have hq' : foreachReturned s s (if toClose = true then .close else .remove) call calls q =
      (q.released s src).detachOf s toClose call calls := by
    cases toClose <;> simp only [foreachReturned, hsrc] <;> rfl
  rw [hq']
  unfold Queue.detachOf
  rw [hreleased]
  exact ⟨⟨_, rfl⟩, fun p => detach_attached _ toClose p⟩

/-- After a step that calls a source other than the one after the cursor, the wrong one would be
removed. -/
private theorem removes_other {q q' : Queue} {a : Action} (wound : Wound q)
    (next : ¬ NextEligible q a) (h : step q a = some q') : ¬ RemovesCalled q' := by
  simp only [NextEligible, Classical.not_imp, Option.isSome_iff_exists] at next
  obtain ⟨⟨i, hcalling⟩, hnext⟩ := next
  obtain ⟨rfl, turn, f, s, call, calls, hf, hcalls, hpoint, ⟨src, hsrc⟩, fit⟩ :=
    calling_inv hcalling
  obtain ⟨hahead, -⟩ := wound.sought hcalls hpoint
  have hne : s ≠ i := by
    rintro rfl
    simp only [Queue.nextEligible, hahead] at hnext
    exact hnext fit
  have hq' := Option.some.inj (h.symm.trans (step_calling turn hf hcalls hpoint hsrc fit))
  have hcalls' : q'.calls = { call with point := .called s i } :: calls := by rw [hq']
  have turn' : q'.base.ctl.userTurn = true := by rw [hq']; exact turn
  have hsome : (q'.base.sources i).isSome = true := by simp [hq', doCb]
  intro removes
  obtain ⟨⟨onStack, hdetaches⟩, -⟩ := removes _ calls s i hcalls' rfl hsome false _
    (step_return turn' hcalls' rfl .remove)
  subst hq'
  cases hsrcS : (doCb f i src q).base.sources s with
  | none =>
    have hs : q.base.sources s = none := by simpa [doCb, hne] using hsrcS
    simp [foreachReturned, doCb, Queue.detachOf, State.setSource, hne, hs, Queue.undefined,
      slistRemove] at hdetaches
  | some srcS =>
    have hs : q.base.sources s = some srcS := by simpa [doCb, hne] using hsrcS
    simp [foreachReturned, doCb, Queue.detachOf, State.setSource, hne, hs,
      slistRemove] at hdetaches

/-- A run removes the sources whose callbacks ask for it, whatever these return, if and only if
each time a callback is called the source right after the cursor is eligible. -/
theorem nebEvdpQueueForeach_removes_called_iff (batchSize : Nat) (as : List Action) (q : Queue)
    (reached : Machine.run step (queueCreate batchSize) as = some q) :
    Machine.AllStates step RemovesCalled (queueCreate batchSize) as ↔
      Machine.StepsMeet step NextEligible (queueCreate batchSize) as :=
  Machine.all_states_iff_steps_meet (I := fun q => Wound q ∧ Aligned q)
    (fun _ inv => inv.2.removesCalled)
    (fun _ _ _ inv next h => ⟨inv.1.ofStep h, inv.2.ofStep inv.1 next h⟩)
    (fun _ _ _ inv next h => removes_other inv.1 next h)
    ⟨.create batchSize, by simp [Aligned, queueCreate]⟩ reached

/-- Two os_fd sources without handlers, attached and so running, the later one first. -/
def twoRunning : List Action :=
  [.base (.openFd 5), .base (.openFd 6), .base (.newSource 1 .osFd 5), .base (.newSource 2 .osFd 6),
    .base (.attach 1 true), .base (.attach 2 true)]

theorem nebEvdpQueueForeach_removes_called_both :
    ∃ q, Machine.run step (queueCreate 10)
      (twoRunning ++ [.setUtype 1 7, .setUtype 2 8, .foreachStart (some 3), .foreachNext 0,
        .proceed,
        .proceed, .foreachReturn .remove, .proceed, .proceed, .proceed]) = some q ∧
      Machine.AllStates step RemovesCalled (queueCreate 10)
        (twoRunning ++ [.setUtype 1 7, .setUtype 2 8, .foreachStart (some 3), .foreachNext 0,
          .proceed, .proceed, .foreachReturn .remove, .proceed, .proceed, .proceed]) := by
  obtain ⟨q, hq, -⟩ : ∃ q, Machine.run step (queueCreate 10)
      (twoRunning ++ [.setUtype 1 7, .setUtype 2 8, .foreachStart (some 3), .foreachNext 0,
        .proceed,
        .proceed, .foreachReturn .remove, .proceed, .proceed, .proceed]) = some q ∧
      q.detaches = [⟨2, false, false⟩] :=
    Machine.run_reaches (by decide)
  exact ⟨q, hq, (nebEvdpQueueForeach_removes_called_iff 10 _ q hq).mpr (by decide)⟩

/-- Only the second source has its utype set, and its callback asks for the removal. -/
theorem nebEvdpQueueForeach_removes_called_fails :
    ¬ ∀ (batchSize : Nat) (as : List Action) (q : Queue),
      Machine.run step (queueCreate batchSize) as = some q → RemovesCalled q := by
  intro claim
  obtain ⟨q, hq, hfacts⟩ : ∃ q, Machine.run step (queueCreate 10)
      (twoRunning ++ [.setUtype 1 7, .foreachStart (some 3), .foreachNext 0, .proceed, .proceed,
        .proceed]) = some q ∧
      (q.calls, (q.base.sources 1).isSome, q.detaches,
        (step q (.foreachReturn .remove)).map (·.detaches)) =
      ([⟨0, 0, .called 2 1⟩], true, [], some [⟨2, false, false⟩]) :=
    Machine.run_reaches (by decide)
  simp only [Prod.mk.injEq] at hfacts
  obtain ⟨hcalls, hsome, hnil, hstep⟩ := hfacts
  obtain ⟨q', hq', hdetaches⟩ := Option.map_eq_some_iff.mp hstep
  obtain ⟨⟨onStack, hlog⟩, -⟩ := claim 10 _ q hq _ [] 2 1 hcalls rfl hsome false q' hq'
  rw [hdetaches, hnil] at hlog
  simp at hlog

end Nebase.Evdp.Foreach
