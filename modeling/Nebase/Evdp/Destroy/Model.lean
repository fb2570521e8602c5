/- The destruction of a queue: two loops that empty its lists, and the `on_remove` callbacks that
   they run, which may detach other sources in their turn. -/

import Nebase.Evdp.Foreach.Model

set_option autoImplicit false
set_option relaxedAutoImplicit false

namespace Nebase.Evdp.Destroy

open Nebase.Foundation Nebase.Evdp.Epoll

/-- Where `neb_evdp_queue_destroy` stands: in one of its loops, or past both. -/
inductive Phase
  | pendingLoop
  | runningLoop
  | done
  | undefined
  deriving DecidableEq

/-- A call of an `on_remove`, and whether `q_in_use` of its source was set then. -/
structure Removal where
  source : Ptr
  onRemove : Handler
  qInUse : Bool
  deriving DecidableEq

/-- The queue under `neb_evdp_queue_destroy`. `callbacks` are the sources whose `on_remove` has not
returned, innermost first. The last three fields are ghosts, latest first: the sources that
`do_detach_from_queue` was called for, the calls of `on_remove`, and what the calls of
`neb_evdp_queue_attach` have returned. -/
structure Destroying where
  base : State
  destroying : Bool
  onRemove : Ptr → Option Handler
  phase : Phase
  callbacks : List Ptr
  detached : List Ptr
  removals : List Removal
  attaches : List Int

/-- The gate of the second loop. -/
def runningGate (q : State) : Phase := if q.statsRunning ≠ 0 then .runningLoop else .done

/-- `neb_evdp_queue_destroy` up to its loops. `neb_evdp_source_del` refuses the node of the
iteration, whose `q_in_use` is the queue. -/
def nebEvdpQueueDestroy (onRemove : Ptr → Option Handler) (q : Foreach.Queue) : Destroying where
  base := q.base
  destroying := true
  onRemove := onRemove
  phase := if q.base.statsPending ≠ 0 then .pendingLoop else runningGate q.base
  callbacks := []
  detached := []
  removals := []
  attaches := []

/-- `do_detach_from_queue` up to the first line of the `on_remove`, if there is one. -/
def doDetachFromQueue (p : Ptr) (src : Source) (toClose : Bool) (d : Destroying) : Destroying :=
  let base := Epoll.doDetachFromQueue p src toClose d.base
  { d with
    base := base
    callbacks := (d.onRemove p).toList.map (fun _ => p) ++ d.callbacks
    detached := p :: d.detached
    removals := (d.onRemove p).toList.map (fun h =>
      ⟨p, h, (base.sources p).any (·.qInUse)⟩) ++ d.removals }

/-- `neb_evdp_queue_attach`. -/
def nebEvdpQueueAttach (p : Ptr) (src : Source) (settime : Bool) (d : Destroying) :
    Int × Destroying :=
  if src.qInUse then
    (-1, d)
  else if d.destroying then
    (-1, d)
  else
    let (ret, base) := Epoll.nebEvdpQueueAttach p src settime d.base
    (ret, { d with base := base })

/-- `neb_evdp_queue_detach`. -/
def nebEvdpQueueDetach (p : Ptr) (src : Source) (toClose : Bool) (d : Destroying) :
    Int × Destroying :=
  if !src.qInUse then
    (-1, d)
  else if src.noDetach then
    (-1, d)
  else
    (0, doDetachFromQueue p src toClose d)

/-- One round of the loop over the list of a head, and `rest` where the list is empty. -/
def Destroying.round (d : Destroying) (head : Node) (rest : Phase) : Destroying :=
  match d.base.links.next head with
  | none => { d with phase := rest }
  | some (.source p) =>
    match d.base.sources p with
    | none => { d with phase := .undefined }
    | some src => doDetachFromQueue p src false d
  | some _ => { d with phase := .undefined }

/-- `call` is a call of the user that has nothing to do with attaching and detaching, `proceed` a
step of `neb_evdp_queue_destroy`, and `cbReturn` the return of the innermost `on_remove`. -/
inductive Action
  | call (a : Epoll.Action)
  | attach (p : Ptr) (settime : Bool)
  | detach (p : Ptr) (toClose : Bool)
  | proceed
  | cbReturn
  deriving DecidableEq

/-- The step is not one that an `on_remove` makes. -/
def Action.own : Action → Bool
  | .proceed => true
  | .cbReturn => true
  | _ => false

/-- The calls that change no attached source. -/
def isPlain : Epoll.Action → Bool
  | .openFd _ => true
  | .closeFd _ => true
  | .newSource _ _ _ => true
  | .delSource _ => true
  | .resetFd _ _ => true
  | _ => false

/-- A new source has all fields 0. -/
def Destroying.noted (d : Destroying) : Epoll.Action → Ptr → Option Handler
  | .newSource p _ _ => Function.update d.onRemove p none
  | _ => d.onRemove

/-- A call of the user on a live source, from an `on_remove`. -/
def Destroying.calling (d : Destroying) (p : Ptr) (f : Source → Destroying) : Option Destroying :=
  if d.callbacks.isEmpty then none else (d.base.sources p).map f

def step (d : Destroying) : Action → Option Destroying
  | .call a =>
    if !d.callbacks.isEmpty && isPlain a then
      (Epoll.step d.base a).map (fun base => { d with base := base, onRemove := d.noted a })
    else
      none
  | .attach p settime =>
    d.calling p (fun src =>
      let (ret, d) := nebEvdpQueueAttach p src settime d
      { d with attaches := ret :: d.attaches })
  | .detach p toClose => d.calling p (fun src => (nebEvdpQueueDetach p src toClose d).2)
  | .proceed =>
    match d.callbacks, d.phase with
    | [], .pendingLoop => some (d.round .pendingQs (runningGate d.base))
    | [], .runningLoop => some (d.round .runningQs .done)
    | _, _ => none
  | .cbReturn =>
    match d.callbacks with
    | _ :: callbacks => some { d with callbacks := callbacks }
    | [] => none

end Nebase.Evdp.Destroy
