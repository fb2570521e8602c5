/- The evdp timer on the red-black tree it is built on: the order of the deadlines is in the links
   of the nodes. -/

import Nebase.Evdp.Timer.Model
import Nebase.Compat.Rbtree.Model

set_option autoImplicit false
set_option relaxedAutoImplicit false

namespace Nebase.Evdp.Timer.OnTree

open Nebase.Time
open Nebase.Compat.Rbtree (RbTree RbTreeOps rbTreeInit)

/-- A timer with the links of its tree. The list of nodes in `timer` is only their memory, the
latest first. -/
structure TreeTimer where
  timer : NebEvdpTimer
  rbtree : RbTree

def nodeOf (nodes : List EvdpTimerRbtreeNode) (a : TnodeAddr) : EvdpTimerRbtreeNode :=
  (nodes.find? (fun n => n.addr = a)).getD ⟨a, ⟨0, 0⟩, [], false⟩

def evdpTimerRbtreeCmpKey (e : EvdpTimerRbtreeNode) (ts : Timespec) : Int :=
  if e.ts.tvSec = ts.tvSec then
    if e.ts.tvNsec < ts.tvNsec then -1 else if e.ts.tvNsec = ts.tvNsec then 0 else 1
  else
    if e.ts.tvSec < ts.tvSec then -1 else if e.ts.tvSec = ts.tvSec then 0 else 1

def evdpTimerRbtreeOps (nodes : List EvdpTimerRbtreeNode) : RbTreeOps Timespec where
  compareNodes := fun a b => evdpTimerRbtreeCmpNode (nodeOf nodes a) (nodeOf nodes b)
  compareKey := fun a ts => evdpTimerRbtreeCmpKey (nodeOf nodes a) ts

def nebEvdpTimerCreate (tcacheSize lcacheSize : Nat) : TreeTimer :=
  ⟨Timer.nebEvdpTimerCreate tcacheSize lcacheSize, rbTreeInit (fun _ => none)⟩

/-- A node that is not cached is freed. -/
def evdpTimerRbtreeNodeDel (n : EvdpTimerRbtreeNode) (t : TreeTimer) : TreeTimer where
  timer := Timer.evdpTimerRbtreeNodeDel n t.timer
  rbtree :=
    if t.timer.tcache.nodes.length < t.timer.tcache.size then
      t.rbtree
    else
      { t.rbtree with nodes := Function.update t.rbtree.nodes n.addr none }

def evdpTimerRbtreeNodeCheckDel (fuel : Nat) (a : TnodeAddr) (t : TreeTimer) :
    Option TreeTimer := do
  let n ← t.timer.tnode a
  if n.noAutoDel then
    some t
  else if n.cblist = [] then do
    let rbtree ← Compat.Rbtree.rbTreeRemoveNode fuel t.rbtree a
    let timer := { t.timer with rbtree := rbTreeRemoveNode a t.timer.rbtree }
    some (evdpTimerRbtreeNodeDel n ⟨timer, rbtree⟩)
  else
    some t

/-- The outer `none` is undefined behaviour, the inner one a failed allocation. The links of a new
node are zero. -/
def evdpTimerInsertTnode (fuel : Nat) (absTs : Timespec) (calloc : Option TnodeAddr)
    (t : TreeTimer) : Option (Option (TnodeAddr × Bool × TreeTimer)) :=
  match evdpTimerRbtreeNodeNew absTs calloc t.timer with
  | none => some none
  | some (tn, timer) => do
    let rbtree := t.rbtree.store tn.addr ⟨.null, .null, .null, .left, .black⟩
    let (rbtree, tmp) ← Compat.Rbtree.rbTreeInsertNode (evdpTimerRbtreeOps (tn :: timer.rbtree))
      fuel rbtree tn.addr
    if tmp ≠ tn.addr then
      some (some (tmp, true, evdpTimerRbtreeNodeDel tn ⟨timer, rbtree⟩))
    else
      some (some (tmp, false, ⟨{ timer with rbtree := tn :: timer.rbtree }, rbtree⟩))

def nebEvdpTimerNewPoint (fuel : Nat) (absTs : Timespec) (cb udata : Nat)
    (tnode : Option TnodeAddr) (lnode : Option PointAddr) (t : TreeTimer) :
    Option (Option PointAddr × TreeTimer) := do
  match ← evdpTimerInsertTnode fuel absTs tnode t with
  | none => some (none, t)
  | some (tn, _, t) =>
    match evdpTimerCblistNodeNew cb udata lnode t.timer with
    | none => some (none, t)
    | some (ln, timer) => do
      let timer ← cblistInsertHead tn ln (timer.setPoint ln ⟨cb, udata, false, some tn⟩)
      some (some ln, ⟨timer, t.rbtree⟩)

def nebEvdpTimerDelPoint (fuel : Nat) (p : PointAddr) (t : TreeTimer) : Option TreeTimer := do
  let ln ← t.timer.points p
  if ln.running then
    some ⟨t.timer.setPoint p { ln with refTnode := none }, t.rbtree⟩
  else
    let timer ← listRemove p t.timer
    let timer := evdpTimerCblistNodeFree p timer
    match ln.refTnode with
    | none => some ⟨timer, t.rbtree⟩
    | some tn => evdpTimerRbtreeNodeCheckDel fuel tn ⟨timer, t.rbtree⟩

def nebEvdpTimerPointReset (fuel : Nat) (p : PointAddr) (absTs : Timespec)
    (tnode : Option TnodeAddr) (t : TreeTimer) : Option (Int × TreeTimer) := do
  match ← evdpTimerInsertTnode fuel absTs tnode t with
  | none => some (-1, t)
  | some (tn, existed, t) => do
    let ln ← t.timer.points p
    if existed ∧ ln.refTnode = some tn then
      some (0, t)
    else if ln.running then
      some (0, ⟨t.timer.setPoint p { ln with refTnode := some tn }, t.rbtree⟩)
    else
      let timer ← listRemove p t.timer
      let t ← match ln.refTnode with
        | none => some ⟨timer, t.rbtree⟩
        | some oldTn => evdpTimerRbtreeNodeCheckDel fuel oldTn ⟨timer, t.rbtree⟩
      let timer ← cblistInsertHead tn p (t.timer.setPoint p { ln with refTnode := some tn })
      some (0, ⟨timer, t.rbtree⟩)

structure State where
  timer : TreeTimer
  ctl : Ctl

def start (tcacheSize lcacheSize : Nat) : State :=
  ⟨nebEvdpTimerCreate tcacheSize lcacheSize, .idle⟩

/-- The state after an operation of the timer, with `none` for undefined behaviour. -/
def State.after (s : State) (ctl : Ctl) : Option TreeTimer → State
  | none => ⟨s.timer, .undefined⟩
  | some t => ⟨t, ctl⟩

/-- A node the tree has given, or `NULL`. -/
def tnodePtr : Compat.Rbtree.Ptr → Option TnodeAddr
  | .node a => some a
  | _ => none

def proceedStep (fuel : Nat) (s : State) : Option State :=
  match s.ctl with
  | .scan _ _ none => some ⟨s.timer, .idle⟩
  | .scan absTs count (some tn) =>
    match s.timer.timer.tnode tn with
    | none => some ⟨s.timer, .undefined⟩
    | some n =>
      if pastLimit n absTs then
        some ⟨s.timer, .idle⟩
      else
        some ⟨⟨s.timer.timer.updateTnode tn (fun n => { n with noAutoDel := true }),
          s.timer.rbtree⟩, .drain absTs count tn⟩
  | .drain absTs count tn =>
    match s.timer.timer.tnode tn with
    | none => some ⟨s.timer, .undefined⟩
    | some n =>
      match n.cblist with
      | ln :: _ =>
        some (s.after (.callback absTs count tn ln) do
          let t ← listRemove ln s.timer.timer
          let c ← t.points ln
          some ⟨t.setPoint ln { c with running := true }, s.timer.rbtree⟩)
      | [] =>
        match Compat.Rbtree.rbTreeIterate fuel s.timer.rbtree (.node tn) .right,
            Compat.Rbtree.rbTreeRemoveNode fuel s.timer.rbtree tn with
        | some nxt, some rbtree =>
          let t := s.timer.timer.updateTnode tn (fun n => { n with noAutoDel := false })
          let timer := { t with rbtree := rbTreeRemoveNode tn t.rbtree }
          some ⟨evdpTimerRbtreeNodeDel n ⟨timer, rbtree⟩, .scan absTs count (tnodePtr nxt)⟩
        | _, _ => some ⟨s.timer, .undefined⟩
  | _ => none

/-- What `evdp_timer_run_until` does once a callback has returned does not touch the tree. -/
def afterCallback (tn : TnodeAddr) (ln : PointAddr) (tret : NebEvdpTimeoutRet) (t : TreeTimer) :
    Option TreeTimer :=
  (Timer.afterCallback tn ln tret t.timer).map (fun timer => ⟨timer, t.rbtree⟩)

def State.userTurn (s : State) : Bool :=
  match s.ctl with
  | .idle => true
  | .callback .. => true
  | _ => false

def step (fuel : Nat) (s : State) : Action → Option State
  | .newPoint absTs cb udata tnode lnode =>
    if s.userTurn ∧ s.timer.timer.tnodeFresh tnode ∧ s.timer.timer.lnodeFresh lnode then
      some (s.after s.ctl
        ((nebEvdpTimerNewPoint fuel absTs cb udata tnode lnode s.timer).map (·.2)))
    else
      none
  | .delPoint p =>
    if s.userTurn ∧ (s.timer.timer.points p).isSome then
      some (s.after s.ctl (nebEvdpTimerDelPoint fuel p s.timer))
    else
      none
  | .pointReset p absTs tnode =>
    if s.userTurn ∧ s.timer.timer.tnodeFresh tnode ∧ (s.timer.timer.points p).isSome then
      some (s.after s.ctl ((nebEvdpTimerPointReset fuel p absTs tnode s.timer).map (·.2)))
    else
      none
  | .runUntil absTs =>
    match s.ctl with
    | .idle =>
      match Compat.Rbtree.rbTreeIterate fuel s.timer.rbtree .null .left with
      | some first => some ⟨s.timer, .scan absTs 0 (tnodePtr first)⟩
      | none => some ⟨s.timer, .undefined⟩
    | _ => none
  | .proceed => proceedStep fuel s
  | .cbReturn tret =>
    match s.ctl with
    | .callback absTs count tn ln =>
      some (s.after (.drain absTs (count + 1) tn) (afterCallback tn ln tret s.timer))
    | _ => none

/-! What is seen of a run. -/

/-- What a call returns, or the callback that is invoked. -/
inductive Shown
  | newPoint (r : Option PointAddr)
  | pointReset (r : Int)
  | runUntil (count : Nat)
  | callback (ln : PointAddr) (onTimeout udata : Nat)
  deriving DecidableEq

/-- `evdp_timer_run_until` returns from `ctl`, or invokes a callback there. -/
def proceedShows (points : PointAddr → Option EvdpTimerCblistNode) (ctl ctl' : Ctl) : List Shown :=
  match ctl, ctl' with
  | .scan _ count _, .idle => [.runUntil count]
  | .drain .., .callback _ _ _ ln =>
    (points ln).toList.map (fun c => .callback ln c.onTimeout c.udata)
  | _, _ => []

/-- What a step of the timer on the list shows. -/
def listShows (s : Timer.State) : Action → List Shown
  | .newPoint absTs cb udata tnode lnode =>
    ((Timer.nebEvdpTimerNewPoint absTs cb udata tnode lnode s.timer).map
      (fun r => .newPoint r.1)).toList
  | .pointReset p absTs tnode =>
    ((Timer.nebEvdpTimerPointReset p absTs tnode s.timer).map (fun r => .pointReset r.1)).toList
  | .proceed =>
    (Timer.proceedStep s).elim [] (fun s' => proceedShows s.timer.points s.ctl s'.ctl)
  | _ => []

/-- What a step of the timer on the tree shows. -/
def shows (fuel : Nat) (s : State) : Action → List Shown
  | .newPoint absTs cb udata tnode lnode =>
    ((nebEvdpTimerNewPoint fuel absTs cb udata tnode lnode s.timer).map
      (fun r => .newPoint r.1)).toList
  | .pointReset p absTs tnode =>
    ((nebEvdpTimerPointReset fuel p absTs tnode s.timer).map (fun r => .pointReset r.1)).toList
  | .proceed =>
    (proceedStep fuel s).elim [] (fun s' => proceedShows s.timer.timer.points s.ctl s'.ctl)
  | _ => []

end Nebase.Evdp.Timer.OnTree
