/- The evdp timer: points, the tree of deadlines, and run_until with its callbacks. -/

import Nebase.Foundation.Machine
import Nebase.Time.Timespec

set_option autoImplicit false
set_option relaxedAutoImplicit false

namespace Nebase.Evdp.Timer

open Nebase.Time

abbrev TnodeAddr := Nat

/-- A `neb_evdp_timer_point`: the address of a `struct evdp_timer_cblist_node`. -/
abbrev PointAddr := Nat

structure EvdpTimerCblistNode where
  onTimeout : Nat
  udata : Nat
  running : Bool
  refTnode : Option TnodeAddr
  deriving DecidableEq

structure EvdpTimerRbtreeNode where
  addr : TnodeAddr
  ts : Timespec
  cblist : List PointAddr
  noAutoDel : Bool
  deriving DecidableEq

/-- `nodes` is the used part of the array, last entry first, so its length is `count`. -/
structure NodeCache where
  nodes : List Nat
  size : Nat

/-- A ghost: what `calloc` has returned and what `free` was given, latest first. -/
structure Ledger where
  calloced : List Nat
  freed : List Nat

def Ledger.calloc (l : Ledger) (n : Nat) : Ledger := { l with calloced := n :: l.calloced }

def Ledger.free (l : Ledger) (n : Nat) : Ledger := { l with freed := n :: l.freed }

/-- `rbtree` lists the nodes of the tree in its order. `points` is the memory of the allocated
`evdp_timer_cblist_node`s: a point that is freed or sits in `lcache` has no entry. The ledgers are
those of the two kinds of nodes. -/
structure NebEvdpTimer where
  rbtree : List EvdpTimerRbtreeNode
  tcache : NodeCache
  lcache : NodeCache
  keeplist : List PointAddr
  points : PointAddr → Option EvdpTimerCblistNode
  tledger : Ledger
  lledger : Ledger

def nebEvdpTimerCreate (tcacheSize lcacheSize : Nat) : NebEvdpTimer where
  rbtree := []
  tcache := ⟨[], tcacheSize⟩
  lcache := ⟨[], lcacheSize⟩
  keeplist := []
  points := fun _ => none
  tledger := ⟨[], []⟩
  lledger := ⟨[], []⟩

/-! `rb_tree_insert_node`, `RB_TREE_NEXT` and the other tree operations, on the ordered list. -/

def evdpTimerRbtreeCmpNode (e p : EvdpTimerRbtreeNode) : Int :=
  if e.ts.tvSec = p.ts.tvSec then
    if e.ts.tvNsec < p.ts.tvNsec then -1 else if e.ts.tvNsec = p.ts.tvNsec then 0 else 1
  else
    if e.ts.tvSec < p.ts.tvSec then -1 else if e.ts.tvSec = p.ts.tvSec then 0 else 1

/-- The tree after the insertion and the node returned: the new one, or the one already there. -/
def rbTreeInsertNode (n : EvdpTimerRbtreeNode) :
    List EvdpTimerRbtreeNode → List EvdpTimerRbtreeNode × TnodeAddr
  | [] => ([n], n.addr)
  | m :: ms =>
    if evdpTimerRbtreeCmpNode n m < 0 then
      (n :: m :: ms, n.addr)
    else if evdpTimerRbtreeCmpNode n m = 0 then
      (m :: ms, m.addr)
    else
      (m :: (rbTreeInsertNode n ms).1, (rbTreeInsertNode n ms).2)

def rbTreeRemoveNode (a : TnodeAddr) (tree : List EvdpTimerRbtreeNode) :
    List EvdpTimerRbtreeNode :=
  tree.filter (fun n => n.addr ≠ a)

def rbTreeMin (tree : List EvdpTimerRbtreeNode) : Option TnodeAddr :=
  tree.head?.map (·.addr)

def rbTreeNext (a : TnodeAddr) : List EvdpTimerRbtreeNode → Option TnodeAddr
  | [] => none
  | n :: ns => if n.addr = a then rbTreeMin ns else rbTreeNext a ns

/-- The node a `struct evdp_timer_rbtree_node *` designates; `none` once it has left the tree. -/
def NebEvdpTimer.tnode (t : NebEvdpTimer) (a : TnodeAddr) : Option EvdpTimerRbtreeNode :=
  t.rbtree.find? (fun n => n.addr = a)

def NebEvdpTimer.updateTnode (t : NebEvdpTimer) (a : TnodeAddr)
    (f : EvdpTimerRbtreeNode → EvdpTimerRbtreeNode) : NebEvdpTimer :=
  { t with rbtree := t.rbtree.map (fun n => if n.addr = a then f n else n) }

def NebEvdpTimer.setPoint (t : NebEvdpTimer) (p : PointAddr) (c : EvdpTimerCblistNode) :
    NebEvdpTimer :=
  { t with points := Function.update t.points p (some c) }

def NebEvdpTimer.linked (t : NebEvdpTimer) (p : PointAddr) : Bool :=
  p ∈ t.keeplist || t.rbtree.any (fun n => p ∈ n.cblist)

/-- `LIST_REMOVE(ln, list)`; on an element that is on no list it is undefined. -/
def listRemove (p : PointAddr) (t : NebEvdpTimer) : Option NebEvdpTimer :=
  if t.linked p then
    some { t with
      keeplist := t.keeplist.erase p
      rbtree := t.rbtree.map (fun n => { n with cblist := n.cblist.erase p }) }
  else
    none

/-- `LIST_INSERT_HEAD(&tn->cblist, ln, list)`. -/
def cblistInsertHead (a : TnodeAddr) (p : PointAddr) (t : NebEvdpTimer) : Option NebEvdpTimer :=
  if (t.tnode a).isSome then
    some (t.updateTnode a (fun n => { n with cblist := p :: n.cblist }))
  else
    none

def evdpTimerCblistNodeNew (cb udata : Nat) (calloc : Option PointAddr) (t : NebEvdpTimer) :
    Option (PointAddr × NebEvdpTimer) :=
  match t.lcache.nodes with
  | n :: nodes =>
    some (n, { t with lcache := { t.lcache with nodes := nodes } }.setPoint n
      ⟨cb, udata, false, none⟩)
  | [] =>
    calloc.map (fun n =>
      (n, { t with lledger := t.lledger.calloc n }.setPoint n ⟨cb, udata, false, none⟩))

def evdpTimerCblistNodeFree (p : PointAddr) (t : NebEvdpTimer) : NebEvdpTimer :=
  { t with
    points := Function.update t.points p none
    lcache :=
      if t.lcache.nodes.length < t.lcache.size then
        { t.lcache with nodes := p :: t.lcache.nodes }
      else
        t.lcache
    lledger := if t.lcache.nodes.length < t.lcache.size then t.lledger else t.lledger.free p }

def evdpTimerRbtreeNodeNew (absTs : Timespec) (calloc : Option TnodeAddr) (t : NebEvdpTimer) :
    Option (EvdpTimerRbtreeNode × NebEvdpTimer) :=
  match t.tcache.nodes with
  | n :: nodes =>
    some (⟨n, absTs, [], false⟩, { t with tcache := { t.tcache with nodes := nodes } })
  | [] => calloc.map (fun n => (⟨n, absTs, [], false⟩, { t with tledger := t.tledger.calloc n }))

def evdpTimerRbtreeNodeDel (n : EvdpTimerRbtreeNode) (t : NebEvdpTimer) : NebEvdpTimer :=
  let t := n.cblist.foldl (fun t p => evdpTimerCblistNodeFree p t) t
  if t.tcache.nodes.length < t.tcache.size then
    { t with tcache := { t.tcache with nodes := n.addr :: t.tcache.nodes } }
  else
    { t with tledger := t.tledger.free n.addr }

def evdpTimerRbtreeNodeCheckDel (a : TnodeAddr) (t : NebEvdpTimer) : Option NebEvdpTimer := do
  let n ← t.tnode a
  if n.noAutoDel then
    some t
  else if n.cblist = [] then
    some (evdpTimerRbtreeNodeDel n { t with rbtree := rbTreeRemoveNode a t.rbtree })
  else
    some t

/-- The common opening of `neb_evdp_timer_new_point` and `neb_evdp_timer_point_reset`: a new node
for `absTs` is inserted, or given back when the tree has one. The flag says that it existed. -/
def evdpTimerInsertTnode (absTs : Timespec) (calloc : Option TnodeAddr) (t : NebEvdpTimer) :
    Option (TnodeAddr × Bool × NebEvdpTimer) := do
  let (tn, t) ← evdpTimerRbtreeNodeNew absTs calloc t
  let (rbtree, tmp) := rbTreeInsertNode tn t.rbtree
  let t := { t with rbtree := rbtree }
  if tmp ≠ tn.addr then
    some (tmp, true, evdpTimerRbtreeNodeDel tn t)
  else
    some (tmp, false, t)

/-- The outer `none` is undefined behaviour, the inner one the returned `NULL`. `tnode` and `lnode`
are what `calloc` returns where it is called. -/
def nebEvdpTimerNewPoint (absTs : Timespec) (cb udata : Nat) (tnode : Option TnodeAddr)
    (lnode : Option PointAddr) (t : NebEvdpTimer) : Option (Option PointAddr × NebEvdpTimer) :=
  match evdpTimerInsertTnode absTs tnode t with
  | none => some (none, t)
  | some (tn, _, t) =>
    match evdpTimerCblistNodeNew cb udata lnode t with
    | none => some (none, t)
    | some (ln, t) => do
      let t ← cblistInsertHead tn ln (t.setPoint ln ⟨cb, udata, false, some tn⟩)
      some (some ln, t)

def nebEvdpTimerDelPoint (p : PointAddr) (t : NebEvdpTimer) : Option NebEvdpTimer := do
  let ln ← t.points p
  if ln.running then
    some (t.setPoint p { ln with refTnode := none })
  else
    let t ← listRemove p t
    let t := evdpTimerCblistNodeFree p t
    match ln.refTnode with
    | none => some t
    | some tn => evdpTimerRbtreeNodeCheckDel tn t

/-- The returned integer is 0, or -1 when no node could be allocated. -/
def nebEvdpTimerPointReset (p : PointAddr) (absTs : Timespec) (tnode : Option TnodeAddr)
    (t : NebEvdpTimer) : Option (Int × NebEvdpTimer) :=
  match evdpTimerInsertTnode absTs tnode t with
  | none => some (-1, t)
  | some (tn, existed, t) => do
    let ln ← t.points p
    if existed ∧ ln.refTnode = some tn then
      some (0, t)
    else if ln.running then
      some (0, t.setPoint p { ln with refTnode := some tn })
    else
      let t ← listRemove p t
      let t ← match ln.refTnode with
        | none => some t
        | some oldTn => evdpTimerRbtreeNodeCheckDel oldTn t
      let t ← cblistInsertHead tn p (t.setPoint p { ln with refTnode := some tn })
      some (0, t)

inductive NebEvdpTimeoutRet
  | keep
  | free
  deriving DecidableEq

/-- Where `evdp_timer_run_until` stands. Outside `callback` it runs on its own; in `callback` the
program calls the timer until `on_timeout` of `ln` returns. -/
inductive Ctl
  | idle
  | scan (absTs : Timespec) (count : Nat) (tn : Option TnodeAddr)
  | drain (absTs : Timespec) (count : Nat) (tn : TnodeAddr)
  | callback (absTs : Timespec) (count : Nat) (tn : TnodeAddr) (ln : PointAddr)
  | undefined

structure State where
  timer : NebEvdpTimer
  ctl : Ctl

inductive Action
  | newPoint (absTs : Timespec) (cb udata : Nat) (tnode : Option TnodeAddr)
      (lnode : Option PointAddr)
  | delPoint (p : PointAddr)
  | pointReset (p : PointAddr) (absTs : Timespec) (tnode : Option TnodeAddr)
  | runUntil (absTs : Timespec)
  | proceed
  | cbReturn (tret : NebEvdpTimeoutRet)

def start (tcacheSize lcacheSize : Nat) : State :=
  ⟨nebEvdpTimerCreate tcacheSize lcacheSize, .idle⟩

/-- The state after an operation of the timer, with `none` for undefined behaviour. -/
def State.after (s : State) (ctl : Ctl) : Option NebEvdpTimer → State
  | none => ⟨s.timer, .undefined⟩
  | some t => ⟨t, ctl⟩

/-- The test `neb_timespeccmp(&tn->ts, abs_ts, >)` of the outer loop. -/
def pastLimit (n : EvdpTimerRbtreeNode) (absTs : Timespec) : Bool :=
  nebTimespeccmp (fun a b => decide (a > b)) n.ts absTs

/-- One step of `evdp_timer_run_until` between two callbacks: the test of the outer loop, or the
test of the inner loop with what follows it. -/
def proceedStep (s : State) : Option State :=
  match s.ctl with
  | .scan _ _ none => some ⟨s.timer, .idle⟩
  | .scan absTs count (some tn) =>
    match s.timer.tnode tn with
    | none => some ⟨s.timer, .undefined⟩
    | some n =>
      if pastLimit n absTs then
        some ⟨s.timer, .idle⟩
      else
        some ⟨s.timer.updateTnode tn (fun n => { n with noAutoDel := true }),
          .drain absTs count tn⟩
  | .drain absTs count tn =>
    match s.timer.tnode tn with
    | none => some ⟨s.timer, .undefined⟩
    | some n =>
      match n.cblist with
      | ln :: _ =>
        some (s.after (.callback absTs count tn ln) do
          let t ← listRemove ln s.timer
          let c ← t.points ln
          some (t.setPoint ln { c with running := true }))
      | [] =>
        let t := s.timer.updateTnode tn (fun n => { n with noAutoDel := false })
        let nxt := rbTreeNext tn t.rbtree
        some ⟨evdpTimerRbtreeNodeDel n { t with rbtree := rbTreeRemoveNode tn t.rbtree },
          .scan absTs count nxt⟩
  | _ => none

/-- What `evdp_timer_run_until` does with `ln` once its callback has returned. -/
def afterCallback (tn : TnodeAddr) (ln : PointAddr) (tret : NebEvdpTimeoutRet)
    (t : NebEvdpTimer) : Option NebEvdpTimer := do
  let c ← t.points ln
  let c := { c with running := false }
  match c.refTnode with
  | none => some (evdpTimerCblistNodeFree ln (t.setPoint ln c))
  | some ref =>
    match tret with
    | .free => some (evdpTimerCblistNodeFree ln (t.setPoint ln { c with refTnode := none }))
    | .keep =>
      if ref = tn then
        let t := t.setPoint ln { c with refTnode := none }
        some { t with keeplist := ln :: t.keeplist }
      else
        cblistInsertHead ref ln (t.setPoint ln c)

/-- The program may call the timer: outside `run_until`, or inside a callback. -/
def State.userTurn (s : State) : Bool :=
  match s.ctl with
  | .idle => true
  | .callback .. => true
  | _ => false

/-- `calloc` never returns the address of a block in use. -/
def NebEvdpTimer.tnodeFresh (t : NebEvdpTimer) (tnode : Option TnodeAddr) : Bool :=
  t.tcache.nodes ≠ [] || tnode.all (fun a => (t.tnode a).isNone)

def NebEvdpTimer.lnodeFresh (t : NebEvdpTimer) (lnode : Option PointAddr) : Bool :=
  t.lcache.nodes ≠ [] || lnode.all (fun a => (t.points a).isNone)

/-- `none`: the action is not possible here. Points are passed by the program that are allocated. -/
def step (s : State) : Action → Option State
  | .newPoint absTs cb udata tnode lnode =>
    if s.userTurn ∧ s.timer.tnodeFresh tnode ∧ s.timer.lnodeFresh lnode then
      some (s.after s.ctl
        ((nebEvdpTimerNewPoint absTs cb udata tnode lnode s.timer).map (·.2)))
    else
      none
  | .delPoint p =>
    if s.userTurn ∧ (s.timer.points p).isSome then
      some (s.after s.ctl (nebEvdpTimerDelPoint p s.timer))
    else
      none
  | .pointReset p absTs tnode =>
    if s.userTurn ∧ s.timer.tnodeFresh tnode ∧ (s.timer.points p).isSome then
      some (s.after s.ctl ((nebEvdpTimerPointReset p absTs tnode s.timer).map (·.2)))
    else
      none
  | .runUntil absTs =>
    match s.ctl with
    | .idle => some ⟨s.timer, .scan absTs 0 (rbTreeMin s.timer.rbtree)⟩
    | _ => none
  | .proceed => proceedStep s
  | .cbReturn tret =>
    match s.ctl with
    | .callback absTs count tn ln =>
      some (s.after (.drain absTs (count + 1) tn) (afterCallback tn ln tret s.timer))
    | _ => none

end Nebase.Evdp.Timer
