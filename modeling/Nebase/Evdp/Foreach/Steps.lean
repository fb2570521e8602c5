/- What one step of the queue with its iteration can do, and what the calls on the stack say about
   the iteration. -/

import Nebase.Evdp.Foreach.Model
import Nebase.Foundation.Machine

set_option autoImplicit false
set_option relaxedAutoImplicit false

namespace Nebase.Evdp.Foreach

open Nebase.Foundation Nebase.Evdp.Epoll

/-- The queue after a step of its base. -/
def Queue.moved (q : Queue) (a : Epoll.Action) (base : State) : Queue :=
  { q.noted a with
    base := base
    detaches := ((q.base.detaching a).map (fun d => ⟨d.1, d.2.2, d.1 ∈ q.stack⟩)).toList ++
      q.detaches }

/-- The queue whose source `i` may be detached again. -/
def Queue.released (q : Queue) (i : Ptr) (src : Source) : Queue :=
  { q with base := q.base.setSource i { src with noDetach := false } }

inductive StepCases (q : Queue) : Action → Queue → Prop
  | base {a : Epoll.Action} {b : State} (admits : q.admits a = true)
      (step : Epoll.step q.base a = some b) : StepCases q (.base a) (q.moved a b)
  -- the user's turn
  | setUtype {p : Ptr} {utype : Int} (turn : q.userTurn = true) :
      StepCases q (.setUtype p utype) { q with utype := Function.update q.utype p utype }
  | refused {a : Action} (turn : q.userTurn = true) : StepCases q a q
  | started {calloc : Option Ptr} {f : Ptr} (turn : q.userTurn = true) (idle : q.inForeach = false)
      (hf : q.foreachS.or calloc = some f)
      (free : ∀ g, calloc = some g → q.base.sources g = none) :
      StepCases q (.foreachStart calloc)
        { q with
          base := { q.base with
            links := SentinelList.insertAfter .runningQs (.source f) q.base.links }
          foreachS := some f
          foreachId := q.foreachId + 1
          inForeach := true }
  | entered {size : Int} (turn : q.userTurn = true) (running : q.inForeach = true) :
      StepCases q (.foreachNext size) { q with calls := ⟨size, 0, .loop⟩ :: q.calls }
  | ended (turn : q.userTurn = true) :
      StepCases q .foreachSetEnd (nebEvdpQueueForeachSetEnd q)
  -- the calls on the stack
  | lost {a : Action} (turn : q.base.ctl.userTurn = true) : StepCases q a q.undefined
  | left {call : Call} {calls : List Call} (turn : q.base.ctl.userTurn = true)
      (hcalls : q.calls = call :: calls) (hpoint : call.point = .loop) :
      StepCases q .proceed { q with calls := calls }
  | sought {f s : Ptr} {call : Call} {calls : List Call} (turn : q.base.ctl.userTurn = true)
      (hf : q.foreachS = some f) (hcalls : q.calls = call :: calls) (hpoint : call.point = .loop)
      (next : q.base.links.next (.source f) = some (.source s)) :
      StepCases q .proceed
        { q with calls := { call with point := .seek s (some (.source s)) } :: calls }
  | skipped {f s i : Ptr} {call : Call} {calls : List Call} (turn : q.base.ctl.userTurn = true)
      (hf : q.foreachS = some f) (hcalls : q.calls = call :: calls)
      (hpoint : call.point = .seek s (some (.source i))) (unfit : q.eligible i = false) :
      StepCases q .proceed
        { q with calls :=
            { call with point := .seek s (q.base.links.next (.source i)) } :: calls }
  | calledBack {f s i : Ptr} {call : Call} {calls : List Call} {src : Source}
      (turn : q.base.ctl.userTurn = true) (hf : q.foreachS = some f)
      (hcalls : q.calls = call :: calls) (hpoint : call.point = .seek s (some (.source i)))
      (hsrc : q.base.sources i = some src) (fit : q.eligible i = true) :
      StepCases q .proceed
        { doCb f i src q with calls := { call with point := .called s i } :: calls }
  | exhausted {f s : Ptr} {call : Call} {calls : List Call} (turn : q.base.ctl.userTurn = true)
      (hf : q.foreachS = some f) (hcalls : q.calls = call :: calls)
      (hpoint : call.point = .seek s none) :
      StepCases q .proceed ((nebEvdpQueueForeachSetEnd q).again call calls)
  | resumed {call : Call} {calls : List Call} (turn : q.base.ctl.userTurn = true)
      (hcalls : q.calls = call :: calls) (hpoint : call.point = .removed) :
      StepCases q .proceed (q.again call calls)
  | continued {s i : Ptr} {call : Call} {calls : List Call} {src : Source}
      (turn : q.base.ctl.userTurn = true) (hcalls : q.calls = call :: calls)
      (hpoint : call.point = .called s i) (hsrc : q.base.sources i = some src) :
      StepCases q (.foreachReturn .continue) ((q.released i src).again call calls)
  | endedByCb {s i : Ptr} {call : Call} {calls : List Call} {src : Source}
      (turn : q.base.ctl.userTurn = true) (hcalls : q.calls = call :: calls)
      (hpoint : call.point = .called s i) (hsrc : q.base.sources i = some src) :
      StepCases q (.foreachReturn .endForeach)
        ((nebEvdpQueueForeachSetEnd (q.released i src)).again call calls)
  | invalid {s i : Ptr} {ret : NebEvdpCbRet} {call : Call} {calls : List Call} {src : Source}
      (turn : q.base.ctl.userTurn = true) (hcalls : q.calls = call :: calls)
      (hpoint : call.point = .called s i) (hsrc : q.base.sources i = some src)
      (hret : ret = .breakExp ∨ ret = .breakErr) :
      StepCases q (.foreachReturn ret) { q.released i src with calls := calls }
  | removedByCb {s i : Ptr} {call : Call} {calls : List Call} {src srcS : Source}
      (turn : q.base.ctl.userTurn = true) (hcalls : q.calls = call :: calls)
      (hpoint : call.point = .called s i) (hsrc : q.base.sources i = some src) (toClose : Bool)
      (hsrcS : (q.released i src).base.sources s = some srcS) :
      StepCases q (.foreachReturn (if toClose then .close else .remove))
        { q with
          base := doDetachFromQueue s srcS toClose (q.released i src).base
          calls := { call with point := .removed } :: calls
          detaches := ⟨s, toClose, s ∈ stackOf q.base.ctl calls⟩ :: q.detaches }
  | removedLost {s i : Ptr} {call : Call} {calls : List Call} {src : Source}
      (turn : q.base.ctl.userTurn = true) (hcalls : q.calls = call :: calls)
      (hpoint : call.point = .called s i) (hsrc : q.base.sources i = some src) (toClose : Bool)
      (free : (q.released i src).base.sources s = none) :
      StepCases q (.foreachReturn (if toClose then .close else .remove))
        (q.released i src).undefined

private theorem start_cases {q : Queue} (calloc : Option Ptr) (turn : q.userTurn = true)
    (free : ∀ g, calloc = some g → q.base.sources g = none) :
    StepCases q (.foreachStart calloc) (nebEvdpQueueForeachStart calloc q).2 := by
  unfold nebEvdpQueueForeachStart
  split_ifs with hin
  · exact .refused turn
  · have idle : q.inForeach = false := by simpa using hin
    cases hf : q.foreachS.or calloc with
    | none => exact .refused turn
    | some f => exact .started turn idle hf free

private theorem detach_of_cases {q : Queue} {s i : Ptr} {call : Call} {calls : List Call}
    {src : Source} (turn : q.base.ctl.userTurn = true) (hcalls : q.calls = call :: calls)
    (hpoint : call.point = .called s i) (hsrc : q.base.sources i = some src) (toClose : Bool) :
    StepCases q (.foreachReturn (if toClose then .close else .remove))
      ((q.released i src).detachOf s toClose call calls) := by
  unfold Queue.detachOf
  cases hsrcS : (q.released i src).base.sources s with
  | none => exact .removedLost turn hcalls hpoint hsrc toClose hsrcS
  | some srcS => exact .removedByCb turn hcalls hpoint hsrc toClose hsrcS

private theorem returned_cases {q : Queue} {s i : Ptr} {call : Call} {calls : List Call}
    (turn : q.base.ctl.userTurn = true) (hcalls : q.calls = call :: calls)
    (hpoint : call.point = .called s i) (ret : NebEvdpCbRet) :
    StepCases q (.foreachReturn ret) (foreachReturned s i ret call calls q) := by
  unfold foreachReturned
  cases hsrc : q.base.sources i with
  | none => exact .lost turn
  | some src =>
    cases ret with
    | «continue» => exact .continued turn hcalls hpoint hsrc
    | remove => exact detach_of_cases turn hcalls hpoint hsrc false
    | close => exact detach_of_cases turn hcalls hpoint hsrc true
    | breakExp => exact .invalid turn hcalls hpoint hsrc (Or.inl rfl)
    | breakErr => exact .invalid turn hcalls hpoint hsrc (Or.inr rfl)
    | endForeach => exact .endedByCb turn hcalls hpoint hsrc

private theorem proceed_cases {q q' : Queue} {f : Ptr} {call : Call} {calls : List Call}
    (turn : q.base.ctl.userTurn = true) (hf : q.foreachS = some f)
    (hcalls : q.calls = call :: calls) (h : foreachProceed f call calls q = some q') :
    StepCases q .proceed q' := by
  unfold foreachProceed at h
  cases hpoint : call.point with
  | loop =>
    simp only [hpoint] at h
    split at h
    · obtain rfl := Option.some.inj h
      exact .left turn hcalls hpoint
    · rename_i s next
      split_ifs at h
      · obtain rfl := Option.some.inj h
        exact .sought turn hf hcalls hpoint next
      · obtain rfl := Option.some.inj h
        exact .left turn hcalls hpoint
    · obtain rfl := Option.some.inj h
      exact .lost turn
  | seek s node =>
    simp only [hpoint] at h
    obtain rfl := Option.some.inj h
    unfold evdpQueueForeachNextOne
    split
    · exact .exhausted turn hf hcalls hpoint
    · rename_i i
      split
      · exact .lost turn
      · rename_i src hsrc
        split_ifs with fit
        · exact .calledBack turn hf hcalls hpoint hsrc fit
        · exact .skipped turn hf hcalls hpoint (Bool.eq_false_iff.mpr fit)
    · exact .lost turn
  | called s i => simp [hpoint] at h
  | removed =>
    simp only [hpoint] at h
    obtain rfl := Option.some.inj h
    exact .resumed turn hcalls hpoint

theorem step_cases {q q' : Queue} {a : Action} (h : step q a = some q') : StepCases q a q' := by
  cases a with
  | base a =>
    simp only [step] at h
    split_ifs at h with admits
    obtain ⟨b, hb, rfl⟩ := Option.map_eq_some_iff.mp h
    exact .base admits hb
  | setUtype p utype =>
    simp only [step] at h
    split_ifs at h with turn
    obtain rfl := Option.some.inj h
    simp only [Bool.and_eq_true] at turn
    exact .setUtype turn.1
  | foreachStart calloc =>
    simp only [step] at h
    split_ifs at h with turn
    obtain rfl := Option.some.inj h
    simp only [Bool.and_eq_true] at turn
    refine start_cases calloc turn.1 ?_
    rintro g rfl
    simpa using turn.2
  | foreachNext size =>
    simp only [step] at h
    split_ifs at h with turn
    obtain rfl := Option.some.inj h
    unfold nebEvdpQueueForeachNext
    split_ifs with running
    · exact .entered turn running
    · exact .refused turn
  | foreachSetEnd =>
    simp only [step] at h
    split_ifs at h with turn
    obtain rfl := Option.some.inj h
    exact .ended turn
  | proceed =>
    simp only [step] at h
    split at h
    · rename_i f call calls turn hf hcalls
      exact proceed_cases turn hf hcalls h
    · cases h
  | foreachReturn ret =>
    simp only [step] at h
    split at h
    · rename_i size count s i calls turn hcalls
      obtain rfl := Option.some.inj h
      exact returned_cases turn hcalls rfl ret
    · cases h

/-- The callback of the innermost call returns. -/
theorem step_return {q : Queue} {s i : Ptr} {call : Call} {calls : List Call}
    (turn : q.base.ctl.userTurn = true) (hcalls : q.calls = call :: calls)
    (hpoint : call.point = .called s i) (ret : NebEvdpCbRet) :
    step q (.foreachReturn ret) = some (foreachReturned s i ret call calls q) := by
  obtain ⟨size, count, point⟩ := call
  obtain rfl : point = .called s i := hpoint
  simp only [step, turn, hcalls]

/-- A step of the base leaves the iteration alone, and there is none unless the user's code runs. -/
theorem admits_calls {q : Queue} {a : Epoll.Action} (admits : q.admits a = true) :
    q.calls = [] ∨ q.userTurn = true ∧ isCall a = true := by
  cases a <;> simp_all [Queue.admits, isCall]

end Nebase.Evdp.Foreach
