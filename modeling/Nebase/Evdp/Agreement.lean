/- One os_fd source with both drivers at once: after every flush they have armed the same
   directions. -/

import Nebase.Evdp.Epoll.Single
import Nebase.Evdp.Kevent.Single

set_option autoImplicit false
set_option relaxedAutoImplicit false

namespace Nebase.Evdp.Agreement

open Nebase.Foundation
open Nebase.Evdp.Epoll (Ptr Fd Handler Dir)

inductive Call
  | next (d : Dir) (h : Option Handler)
  | attach
  | detach
  | flush
  deriving DecidableEq

/-- The two queues and what the caller knows: which directions were given a handler last, whether
the source is attached, and whether the last call was a flush. -/
structure Pair where
  epoll : Epoll.State
  kevent : Kevent.State
  gave : Dir → Bool
  attached : Bool
  flushed : Bool

/-- Two new queues, and the source `p` for the open descriptor `fd`. -/
def nebEvdpSourceOsFdCreate (batchSize : Nat) (p : Ptr) (fd : Fd) : Pair where
  epoll := Epoll.nebEvdpQueueCreateSingle batchSize p fd
  kevent := (Kevent.nebEvdpQueueCreate batchSize).setSource p (Kevent.newSource p .osFd fd)
  gave := fun _ => false
  attached := false
  flushed := false

/-- Each queue takes the call. A flush is a run of its loop in which no event comes: one round for
the source if it is pending, and one for the end of the list. -/
def step (p : Ptr) (x : Pair) : Call → Option Pair
  | .next d h =>
    (Epoll.step x.epoll (.next d p h true)).bind fun epoll =>
      (Kevent.step x.kevent (.next d p h true)).map fun kevent =>
        { x with
          epoll := epoll
          kevent := kevent
          gave := Function.update x.gave d h.isSome
          flushed := false }
  | .attach =>
    (Epoll.step x.epoll (.attach p true)).bind fun epoll =>
      (Kevent.step x.kevent (.attach p)).map fun kevent =>
        { x with epoll := epoll, kevent := kevent, attached := true, flushed := false }
  | .detach =>
    (Epoll.step x.epoll (.detach p false)).bind fun epoll =>
      (Kevent.step x.kevent (.detach p false true)).map fun kevent =>
        { x with epoll := epoll, kevent := kevent, attached := false, flushed := false }
  | .flush =>
    (Machine.run Epoll.step x.epoll
        (Epoll.quietRun (if (x.epoll.sources p).any (·.pending) then 2 else 1))).bind fun epoll =>
      (Machine.run Kevent.step x.kevent
          (Kevent.quietRun (if (x.kevent.sources p).any (·.pending) then 2 else 1))).map
        fun kevent => { x with epoll := epoll, kevent := kevent, flushed := true }

/-- After a flush both drivers have armed the directions that have a handler, or none. -/
def Agrees (fd : Fd) (x : Pair) : Prop :=
  x.flushed = true → ∀ d, x.epoll.kernel.arms fd d = x.kevent.kernel.arms fd d ∧
    x.epoll.kernel.arms fd d = (x.attached && x.gave d)

/-- What the drivers need: with epoll, a call on a registered descriptor keeps its registration
right; with kevent, a source that is attached has still to be told what to add, and the entries of
the source fit into the array. -/
def Meets (p : Ptr) (x : Pair) : Call → Prop
  | .next d h => ∀ src ∈ x.epoll.sources p, Epoll.KeepsRegistration src d h
  | .attach =>
    x.attached = false →
      ∀ src ∈ x.kevent.sources p, ∀ d, x.gave d = true → (src.half d).toAdd = true
  | .detach => True
  | .flush =>
    ∀ src ∈ x.kevent.sources p, src.pending = true → src.entries.length ≤ x.kevent.batchSize

instance dirDecidableForall (P : Dir → Prop) [∀ d, Decidable (P d)] : Decidable (∀ d, P d) :=
  decidable_of_iff (P .read ∧ P .write)
    ⟨fun h d => match d with
      | .read => h.1
      | .write => h.2, fun h => ⟨h .read, h .write⟩⟩

instance (fd : Fd) (x : Pair) : Decidable (Agrees fd x) :=
  inferInstanceAs (Decidable (_ → _))

instance (p : Ptr) (x : Pair) : ∀ c, Decidable (Meets p x c)
  | .next _ _ => inferInstanceAs (Decidable (∀ src ∈ x.epoll.sources p, _))
  | .attach => inferInstanceAs (Decidable (_ → ∀ src ∈ x.kevent.sources p, _))
  | .detach => inferInstanceAs (Decidable True)
  | .flush => inferInstanceAs (Decidable (∀ src ∈ x.kevent.sources p, _))

/-- How the two sources stand to what the caller knows: the mask of the epoll source has the
directions that have a handler; the kevent source wants them too when it is attached, and no other
ones when it is not. -/
structure Simulates (p : Ptr) (fd : Fd) (x : Pair) (e : Epoll.Source) (k : Kevent.Source) :
    Prop where
  epoll : Epoll.Single p fd x.epoll e
  kevent : Kevent.Single p fd x.kevent k
  attachedE : e.qInUse = x.attached
  attachedK : k.qInUse = x.attached
  has : ∀ d, e.ctlEvent.events.has d = x.gave d
  wanted : x.attached = true → ∀ d, (k.half d).wanted = x.gave d
  idle : x.attached = false → ∀ d, (k.half d).wanted = true → x.gave d = true
  agrees : Agrees fd x

variable {p : Ptr} {fd : Fd} {x : Pair} {e : Epoll.Source} {k : Kevent.Source}

private theorem update_gave {gave : Dir → Bool} {d : Dir} {b : Bool} {f : Dir → Bool}
    (self : f d = b) (other : f d.other = gave d.other) :
    ∀ c, f c = Function.update gave d b c := by
  intro c
  rcases Epoll.dir_cases d c with rfl | rfl
  · rw [Function.update_self, self]
  · rw [Function.update_of_ne (by cases d <;> simp [Dir.other]), other]

/-- Every call that meets the condition is taken by both queues, and keeps them in step. -/
theorem Simulates.ofStep (sim : Simulates p fd x e k) (c : Call) (meets : Meets p x c) :
    ∃ x', step p x c = some x' ∧ ∃ e' k', Simulates p fd x' e' k' := by
  cases c with
  | next d h =>
    obtain ⟨qe, e', hqe, single, nextE⟩ := sim.epoll.next d h (meets e sim.epoll.source)
    obtain ⟨qk, k', hqk, single', nextK⟩ := sim.kevent.next d h
    have hstep : step p x (.next d h) = some { x with
        epoll := qe
        kevent := qk
        gave := Function.update x.gave d h.isSome
        flushed := false } := by
      simp only [step, hqe, hqk, Option.bind_some, Option.map_some]
    refine ⟨_, hstep, e', k', single, single', nextE.qInUse.trans sim.attachedE,
      nextK.qInUse.trans sim.attachedK, ?_, ?_, ?_,
      fun h => by cases h⟩
    · exact update_gave nextE.has (nextE.other.trans (sim.has d.other))
    · intro attached
      exact update_gave nextK.wanted
        ((congrArg Kevent.Half.wanted nextK.other).trans (sim.wanted attached d.other))
    · intro unattached c hc
      rcases Epoll.dir_cases d c with rfl | rfl
      · simp only [Function.update_self]
        rw [← nextK.wanted]
        exact hc
      · simp only
        rw [Function.update_of_ne (by cases d <;> simp [Dir.other])]
        rw [nextK.other] at hc
        exact sim.idle unattached d.other hc
  | attach =>
    obtain ⟨qe, e', hqe, single, inUse, has⟩ := sim.epoll.attach
    obtain ⟨qk, k', hqk, single', inUse', wanted⟩ := sim.kevent.attach
    have hstep : step p x .attach = some
        { x with epoll := qe, kevent := qk, attached := true, flushed := false } := by
      simp only [step, hqe, hqk, Option.bind_some, Option.map_some]
    refine ⟨_, hstep, e', k', single, single', inUse, inUse', fun d => (has d).trans (sim.has d),
      ?_, fun h => by (cases h),
      fun h => by cases h⟩
    intro _ d
    rw [wanted d]
    cases ha : x.attached with
    | true => exact sim.wanted ha d
    | false =>
      cases hg : x.gave d with
      | true =>
        unfold Kevent.Half.wanted
        rw [meets ha k sim.kevent.source d hg, Bool.or_true]
      | false =>
        refine Bool.eq_false_iff.2 fun hw => ?_
        rw [sim.idle ha d hw] at hg
        cases hg
  | detach =>
    obtain ⟨qe, e', hqe, single, inUse, has⟩ := sim.epoll.detach
    obtain ⟨qk, k', hqk, single', inUse', wanted⟩ := sim.kevent.detach
    have hstep : step p x .detach = some
        { x with epoll := qe, kevent := qk, attached := false, flushed := false } := by
      simp only [step, hqe, hqk, Option.bind_some, Option.map_some]
    refine ⟨_, hstep, e', k', single, single', inUse, inUse', fun d => (has d).trans (sim.has d),
      fun h => by (cases h), ?_,
      fun h => by cases h⟩
    intro _ d hd
    rw [wanted d] at hd
    have hw : (k.half d).wanted = true := by
      unfold Kevent.Half.wanted
      rw [hd, Bool.or_true]
    cases ha : x.attached with
    | true => exact (sim.wanted ha d).symm.trans hw
    | false => exact sim.idle ha d hw
  | flush =>
    obtain ⟨qe, e', hqe, single, inUse, event, armsE⟩ := sim.epoll.flush
    obtain ⟨qk, k', hqk, single', inUse', wanted, armsK⟩ :=
      sim.kevent.flush (meets k sim.kevent.source)
    have hstep : step p x .flush = some { x with epoll := qe, kevent := qk, flushed := true } := by
      simp only [step, sim.epoll.source, sim.kevent.source, Option.any_some, hqe, hqk,
        Option.bind_some, Option.map_some]
    refine ⟨_, hstep, e', k', single, single', inUse.trans sim.attachedE,
      inUse'.trans sim.attachedK, fun d => ?_, fun ha d => (wanted d).trans (sim.wanted ha d),
      ?_, ?_⟩
    · rw [event]
      exact sim.has d
    · intro ha d hd
      exact sim.idle ha d ((wanted d).symm.trans hd)
    · intro _ d
      have hE : qe.kernel.arms fd d = (x.attached && x.gave d) := by
        rw [armsE d, sim.attachedE, sim.has d]
      have hK : qk.kernel.arms fd d = (x.attached && x.gave d) := by
        rw [armsK d, sim.attachedK]
        cases ha : x.attached with
        | false => rfl
        | true => rw [sim.wanted ha d]
      exact ⟨hE.trans hK.symm, hE⟩

/-- The two new queues are in step. -/
theorem Simulates.create (batchSize : Nat) (p : Ptr) (fd : Fd) :
    Simulates p fd (nebEvdpSourceOsFdCreate batchSize p fd) (Epoll.newSource .osFd fd)
      (Kevent.newSource p .osFd fd) where
  epoll := .create batchSize p fd
  kevent := by
    refine ⟨rfl, rfl, Function.update_self .., rfl, rfl, rfl, rfl, rfl, ?_⟩
    intro d
    cases d with
    | read => exact ⟨rfl, fun h => by (cases h), fun _ => rfl, fun h => by cases h⟩
    | write => exact ⟨rfl, fun h => by (cases h), fun _ => rfl, fun h => by cases h⟩
  attachedE := rfl
  attachedK := rfl
  has := fun d => by cases d <;> rfl
  wanted := fun h => by cases h
  idle := fun _ d h => by cases d <;> cases h
  agrees := fun h => by cases h

/-- As long as the calls meet what the drivers need, each of them is taken, and after every flush
the directions armed are the same with both drivers, and are those that have a handler when the
source is attached. -/
theorem nebEvdpSourceOsFd_agrees (batchSize : Nat) (p : Ptr) (fd : Fd) (calls : List Call)
    (meets : Machine.StepsMeet (step p) (Meets p) (nebEvdpSourceOsFdCreate batchSize p fd) calls) :
    (∃ x, Machine.run (step p) (nebEvdpSourceOsFdCreate batchSize p fd) calls = some x) ∧
      Machine.AllStates (step p) (Agrees fd) (nebEvdpSourceOsFdCreate batchSize p fd) calls := by
  have initial : ∃ e k, Simulates p fd (nebEvdpSourceOsFdCreate batchSize p fd) e k :=
    ⟨_, _, .create batchSize p fd⟩
  have taken : ∀ x c, (∃ e k, Simulates p fd x e k) → Meets p x c →
      ∃ x', step p x c = some x' ∧ ∃ e k, Simulates p fd x' e k :=
    fun x c ⟨_, _, sim⟩ meets => sim.ofStep c meets
  constructor
  · obtain ⟨x, hx, -⟩ := Machine.run_enabled taken initial meets
    exact ⟨x, hx⟩
  · refine Machine.AllStates.of_invariant (I := fun x => ∃ e k, Simulates p fd x e k)
      (fun _ ⟨_, _, sim⟩ => sim.agrees) ?_ initial meets
    intro x c x' hx hmeets hstep
    obtain ⟨x'', hstep', sim⟩ := taken x c hx hmeets
    rwa [Option.some.inj (hstep.symm.trans hstep')]

/-- Both directions come and go, and the source is attached again. -/
def comesAndGoes : List Call :=
  [.next .read (some 0), .attach, .flush, .next .read none, .flush, .next .write (some 1), .flush,
    .next .write none, .detach, .next .read (some 0), .next .write (some 1), .attach, .flush]

theorem nebEvdpSourceOsFd_agrees_comes_and_goes :
    (∃ x, Machine.run (step 1) (nebEvdpSourceOsFdCreate 4 1 5) comesAndGoes = some x) ∧
      Machine.AllStates (step 1) (Agrees 5) (nebEvdpSourceOsFdCreate 4 1 5) comesAndGoes :=
  nebEvdpSourceOsFd_agrees 4 1 5 comesAndGoes (by decide)

/-- Every `epoll_ctl` of the run succeeded. -/
def NothingFailed (x : Pair) : Prop := ∀ r ∈ x.epoll.kernel.requests, r.result = .ok

instance (x : Pair) : Decidable (NothingFailed x) :=
  inferInstanceAs (Decidable (∀ r ∈ x.epoll.kernel.requests, r.result = .ok))

/-- Of two registered directions one loses its handler: with epoll it stays armed. -/
def losesOne : List Call :=
  [.next .read (some 0), .next .write (some 1), .attach, .flush, .next .read none, .flush]

/-- A registered source is detached and attached again: with kevent nothing is armed. -/
def attachedAgain : List Call :=
  [.next .read (some 0), .attach, .flush, .detach, .attach, .flush]

theorem nebEvdpSourceOsFd_agrees_fails :
    (Machine.AllStates (step 1) NothingFailed (nebEvdpSourceOsFdCreate 4 1 5) losesOne ∧
      ¬ Machine.AllStates (step 1) (Agrees 5) (nebEvdpSourceOsFdCreate 4 1 5) losesOne) ∧
    Machine.AllStates (step 1) NothingFailed (nebEvdpSourceOsFdCreate 4 1 5) attachedAgain ∧
      ¬ Machine.AllStates (step 1) (Agrees 5) (nebEvdpSourceOsFdCreate 4 1 5) attachedAgain := by
  decide

end Nebase.Evdp.Agreement
