/- The iteration over the running sources: a cursor that is a node of the running list itself, and
   calls of the iteration that nest in the callbacks of the loop and in each other. -/

import Nebase.Evdp.Epoll.Steps

set_option autoImplicit false
set_option relaxedAutoImplicit false

namespace Nebase.Evdp.Foreach

open Nebase.Foundation Nebase.Evdp.Epoll

/-- Where a call of `neb_evdp_queue_foreach_next` stands: at the head of its loop, in the search for
the next source, in the callback of the source `i`, or in the `on_remove` of a source that it has
detached. `s` is the source that the loop has read from the cursor before the search. -/
inductive Point
  | loop
  | seek (s : Ptr) (node : Option Node)
  | called (s i : Ptr)
  | removed
  deriving DecidableEq

def Point.userTurn : Point → Bool
  | .called _ _ => true
  | .removed => true
  | _ => false

/-- A call of `neb_evdp_queue_foreach_next` that has not returned. -/
structure Call where
  size : Int
  count : Int
  point : Point
  deriving DecidableEq

/-- One run of `do_detach_from_queue`; `onStack` says that the handler of the source or a callback
for it had not returned. -/
structure Detach where
  source : Ptr
  toClose : Bool
  onStack : Bool
  deriving DecidableEq

/-- The queue with the fields of the iteration, in it and in its sources. `calls` has the innermost
call first. `detaches` is a ghost, latest first. -/
structure Queue where
  base : State
  utype : Ptr → Int
  sourceForeachId : Ptr → UInt32
  foreachId : UInt32
  inForeach : Bool
  foreachS : Option Ptr
  calls : List Call
  detaches : List Detach

def queueCreate (batchSize : Nat) : Queue where
  base := nebEvdpQueueCreate batchSize
  utype := fun _ => 0
  sourceForeachId := fun _ => 0
  foreachId := 0
  inForeach := false
  foreachS := none
  calls := []
  detaches := []

def Queue.undefined (q : Queue) : Queue := { q with base := q.base.goto .undefined }

/-- The user's code runs: in the loop's callbacks, or in those of an iteration called from there. -/
def Queue.userTurn (q : Queue) : Bool :=
  q.base.ctl.userTurn && q.calls.head?.all (·.point.userTurn)

/-- The sources whose handler or callback has not returned, as far as the loop and the given calls
of the iteration are concerned. -/
def stackOf (ctl : Ctl) (calls : List Call) : List Ptr :=
  calls.filterMap (fun call => match call.point with
    | .called _ i => some i
    | _ => none) ++
  match ctl with
  | .handle ne _ => [ne.source]
  | .callback ne _ => [ne.source]
  | _ => []

def Queue.stack (q : Queue) : List Ptr := stackOf q.base.ctl q.calls

/-- The source is one that the iteration calls. -/
def Queue.eligible (q : Queue) (p : Ptr) : Bool :=
  q.sourceForeachId p ≠ q.foreachId && q.utype p ≠ 0

/-- `q->foreach_s->next`. -/
def Queue.ahead (q : Queue) : Option Node :=
  q.foreachS.bind (fun f => q.base.links.next (.source f))

/-- `neb_evdp_queue_foreach_start`; `calloc` is the node that it allocates if there is none. -/
def nebEvdpQueueForeachStart (calloc : Option Ptr) (q : Queue) : Int × Queue :=
  if q.inForeach then
    (-1, q)
  else
    match q.foreachS.or calloc with
    | none => (-1, q)
    | some f =>
      (q.base.statsRunning,
        { q with
          base := { q.base with
            links := SentinelList.insertAfter .runningQs (.source f) q.base.links }
          foreachS := some f
          foreachId := q.foreachId + 1
          inForeach := true })

def nebEvdpQueueForeachSetEnd (q : Queue) : Queue :=
  if q.inForeach then
    match q.foreachS with
    | some f => { q with base := slistRemove f q.base, inForeach := false }
    | none => q.undefined
  else
    q

def nebEvdpQueueForeachHasEnded (q : Queue) : Bool :=
  if q.inForeach then q.ahead.isNone else true

/-- `neb_evdp_queue_foreach_next` up to its loop; a size of 0 is `evdp_queue_foreach_next_all`. -/
def nebEvdpQueueForeachNext (batchSize : Int) (q : Queue) : Queue :=
  if q.inForeach then { q with calls := ⟨batchSize, 0, .loop⟩ :: q.calls } else q

/-- The lines from `do_cb` to the callback. -/
def doCb (f i : Ptr) (src : Source) (q : Queue) : Queue :=
  { q with
    base := { slistRemove f q.base with
      links := SentinelList.insertAfter (.source i) (.source f) (slistRemove f q.base).links
      sources := Function.update q.base.sources i (some { src with noDetach := true }) }
    sourceForeachId := Function.update q.sourceForeachId i q.foreachId }

/-- The end of `EVDP_QUEUE_FOREACH_NEXT_ONE`. -/
def Queue.again (q : Queue) (call : Call) (calls : List Call) : Queue :=
  { q with calls := { call with count := call.count + 1, point := .loop } :: calls }

/-- One round of the search of `evdp_queue_foreach_next_one`, up to the callback. -/
def evdpQueueForeachNextOne (f s : Ptr) (node : Option Node) (call : Call) (calls : List Call)
    (q : Queue) : Queue :=
  match node with
  | none => (nebEvdpQueueForeachSetEnd q).again call calls
  | some (.source i) =>
    match q.base.sources i with
    | none => q.undefined
    | some src =>
      if q.eligible i then
        { doCb f i src q with calls := { call with point := .called s i } :: calls }
      else
        { q with calls :=
            { call with point := .seek s (q.base.links.next (.source i)) } :: calls }
  | some _ => q.undefined

/-- `evdp_queue_foreach_next_all` and `evdp_queue_foreach_next_batched`, from one point on. -/
def foreachProceed (f : Ptr) (call : Call) (calls : List Call) (q : Queue) : Option Queue :=
  match call.point with
  | .loop =>
    match q.base.links.next (.source f) with
    | none => some { q with calls := calls }
    | some (.source s) =>
      if call.size = 0 ∨ call.count < call.size then
        some { q with calls := { call with point := .seek s (some (.source s)) } :: calls }
      else
        some { q with calls := calls }
    | some _ => some q.undefined
  | .seek s node => some (evdpQueueForeachNextOne f s node call calls q)
  | .called _ _ => none
  | .removed => some (q.again call calls)

/-- `do_detach_from_queue` on the source that the loop has read. -/
def Queue.detachOf (q : Queue) (s : Ptr) (toClose : Bool) (call : Call) (calls : List Call) :
    Queue :=
  match q.base.sources s with
  | none => q.undefined
  | some src =>
    { q with
      base := doDetachFromQueue s src toClose q.base
      calls := { call with point := .removed } :: calls
      detaches := ⟨s, toClose, s ∈ stackOf q.base.ctl calls⟩ :: q.detaches }

/-- The callback for `i` returns: the end of `evdp_queue_foreach_next_one` and the switch of
`EVDP_QUEUE_FOREACH_NEXT_ONE`. -/
def foreachReturned (s i : Ptr) (ret : NebEvdpCbRet) (call : Call) (calls : List Call)
    (q : Queue) : Queue :=
  match q.base.sources i with
  | none => q.undefined
  | some src =>
    let q := { q with base := q.base.setSource i { src with noDetach := false } }
    match ret with
    | .continue => q.again call calls
    | .remove => q.detachOf s false call calls
    | .close => q.detachOf s true call calls
    | .endForeach => (nebEvdpQueueForeachSetEnd q).again call calls
    | .breakExp => { q with calls := calls }
    | .breakErr => { q with calls := calls }

/-- `base` is a step of the queue that has nothing to do with the iteration; `proceed` is one of
`neb_evdp_queue_foreach_next`. -/
inductive Action
  | base (a : Epoll.Action)
  | setUtype (p : Ptr) (utype : Int)
  | foreachStart (calloc : Option Ptr)
  | foreachNext (batchSize : Int)
  | foreachSetEnd
  | proceed
  | foreachReturn (ret : NebEvdpCbRet)
  deriving DecidableEq

/-- A call of the user. -/
def isCall : Epoll.Action → Bool
  | .run => false
  | .flush _ => false
  | .wait _ => false
  | .waitFails => false
  | .proceed _ => false
  | .cbReturn _ => false
  | _ => true

/-- The node of the iteration is not free, and the loop stands still while an iteration runs. -/
def Queue.admits (q : Queue) (a : Epoll.Action) : Bool :=
  match a with
  | .newSource p _ _ => q.userTurn && q.foreachS ≠ some p
  | a => if isCall a then q.userTurn else q.calls.isEmpty

/-- The writes to the fields of the iteration: `neb_evdp_queue_attach` lets the source skip the
iteration under way, and a new source has all fields 0. -/
def Queue.noted (q : Queue) : Epoll.Action → Queue
  | .attach p _ =>
    if (q.base.sources p).any (!·.qInUse) then
      { q with sourceForeachId := Function.update q.sourceForeachId p q.foreachId }
    else
      q
  | .newSource p _ _ =>
    { q with
      sourceForeachId := Function.update q.sourceForeachId p 0
      utype := Function.update q.utype p 0 }
  | _ => q

def step (q : Queue) : Action → Option Queue
  | .base a =>
    if q.admits a then
      (Epoll.step q.base a).map (fun base =>
        { q.noted a with
          base := base
          detaches := ((q.base.detaching a).map (fun d =>
            ⟨d.1, d.2.2, d.1 ∈ q.stack⟩)).toList ++ q.detaches })
    else
      none
  | .setUtype p utype =>
    if q.userTurn && (q.base.sources p).isSome then
      some { q with utype := Function.update q.utype p utype }
    else
      none
  | .foreachStart calloc =>
    if q.userTurn && calloc.all (fun f => (q.base.sources f).isNone) then
      some (nebEvdpQueueForeachStart calloc q).2
    else
      none
  | .foreachNext batchSize =>
    if q.userTurn then some (nebEvdpQueueForeachNext batchSize q) else none
  | .foreachSetEnd => if q.userTurn then some (nebEvdpQueueForeachSetEnd q) else none
  | .proceed =>
    match q.base.ctl.userTurn, q.foreachS, q.calls with
    | true, some f, call :: calls => foreachProceed f call calls q
    | _, _, _ => none
  | .foreachReturn ret =>
    match q.base.ctl.userTurn, q.calls with
    | true, ⟨size, count, .called s i⟩ :: calls =>
      some (foreachReturned s i ret ⟨size, count, .called s i⟩ calls q)
    | _, _ => none

end Nebase.Evdp.Foreach
