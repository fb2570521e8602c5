/- The registry of threads: a tree of the registered ones, and the destructor that takes a thread
   out when it ends. -/

import Nebase.Compat.Rbtree.Foreach
import Nebase.Foundation.Machine

set_option autoImplicit false
set_option relaxedAutoImplicit false

namespace Nebase.Thread.Registry

open Nebase.Compat.Rbtree
open Nebase.Foundation.RedBlack (Dir)

/-- At most 64 bits wide; as a `void *` it is `NULL` where it is 0. -/
abbrev PthreadT := BitVec 64

/-- Where a thread is: about its own business, or in `neb_thread_register` behind
`pthread_setspecific`. -/
inductive Ctl
  | running
  | registering
  deriving DecidableEq

/-- The static variables, with the memory of the nodes and their `ptid`s. `specific` is the value of
`thread_exit_key` in each thread, and `threads` are the threads that have not ended. -/
structure State where
  threadRbtLockOk : Bool
  threadRbtOk : Bool
  threadExitKeyOk : Bool
  threadReadySem : Bool
  threadRbt : RbTree
  ptid : NodeAddr → Int
  specific : PthreadT → BitVec 64
  threads : PthreadT → Option Ctl

/-- The process before `neb_thread_init`. -/
def State.initial : State where
  threadRbtLockOk := false
  threadRbtOk := false
  threadExitKeyOk := false
  threadReadySem := false
  threadRbt := rbTreeInit (fun _ => none)
  ptid := fun _ => 0
  specific := fun _ => 0
  threads := fun _ => none

def threadRbtCmpNode (ptid : NodeAddr → Int) (node1 node2 : NodeAddr) : Int :=
  if ptid node1 < ptid node2 then -1 else if ptid node1 = ptid node2 then 0 else 1

def threadRbtCmpKey (ptid : NodeAddr → Int) (node : NodeAddr) (key : Int) : Int :=
  if ptid node < key then -1 else if ptid node = key then 0 else 1

def threadRbtOps (ptid : NodeAddr → Int) : RbTreeOps Int where
  compareNodes := threadRbtCmpNode ptid
  compareKey := threadRbtCmpKey ptid

/-- `calloc` is what it returns; the memory is zero. -/
def threadRbtNodeNew (ptid : Int) (calloc : Option NodeAddr) (s : State) :
    Option (NodeAddr × State) :=
  calloc.map (fun n =>
    (n, { s with
      threadRbt := s.threadRbt.store n ⟨.null, .null, .null, .left, .black⟩
      ptid := Function.update s.ptid n ptid }))

def threadRbtNodeDel (n : NodeAddr) (s : State) : Option State :=
  (s.threadRbt.free n).map (fun rbt => { s with threadRbt := rbt })

/-- What is between lock and unlock is one step. -/
def threadRbtAdd (fuel : Nat) (ptid : PthreadT) (calloc : Option NodeAddr) (s : State) :
    Option (Int × State) :=
  match threadRbtNodeNew ptid.toInt calloc s with
  | none => some (-1, s)
  | some (node, s) => do
    let (rbt, tmp) ← rbTreeInsertNode (threadRbtOps s.ptid) fuel s.threadRbt node
    let s := { s with threadRbt := rbt }
    if tmp ≠ node then do
      let s ← threadRbtNodeDel node s
      some (-1, s)
    else
      some (0, s)

/-- The destructor of `thread_exit_key`, run by the thread `self`. -/
def threadRbtDel (fuel : Nat) (self : PthreadT) (data : BitVec 64) (s : State) : Option State := do
  let key := if data ≠ 0 then data.toInt else self.toInt
  let node ← rbTreeFindNode (threadRbtOps s.ptid) fuel s.threadRbt key
  match node with
  | .node a => do
    let rbt ← rbTreeRemoveNode fuel s.threadRbt a
    threadRbtNodeDel a { s with threadRbt := rbt }
  -- `rb_tree_remove_node` reads the links of the null pointer
  | _ => none

def threadRbtExist (fuel : Nat) (ptid : PthreadT) (s : State) : Option Bool := do
  let node ← rbTreeFindNode (threadRbtOps s.ptid) fuel s.threadRbt ptid.toInt
  some (node ≠ .null)

/-- `RB_TREE_FOREACH_SAFE` has `thread_rbt_node_del` in its body; the number of turns bounds it. -/
def threadRbtClear (fuel : Nat) : Nat → State → Ptr → Option State
  | 0, _, _ => none
  | _ + 1, s, .null => some s
  | _ + 1, _, .slot => none
  | turns + 1, s, .node node => do
    let next ← rbTreeIterate fuel s.threadRbt (.node node) .right
    let rbt ← rbTreeRemoveNode fuel s.threadRbt node
    let s ← threadRbtNodeDel node { s with threadRbt := rbt }
    threadRbtClear fuel turns s next

/-- A deleted key has no destructor any more. -/
def nebThreadDeinit (fuel : Nat) (s : State) : Option State := do
  let s := { s with threadReadySem := false, threadExitKeyOk := false }
  let s ← (if s.threadRbtOk then do
      let node ← rbTreeIterate fuel s.threadRbt .null .left
      let s ← threadRbtClear fuel fuel s node
      some { s with threadRbtOk := false }
    else
      some s)
  some { s with threadRbtLockOk := false }

/-- The arguments say whether `pthread_spin_init`, `pthread_key_create` and `neb_sem_notify_create`
succeed. The value of a new key is `NULL` in every thread. -/
def nebThreadInit (fuel : Nat) (spin key sem : Bool) (s : State) : Option (Int × State) :=
  if spin = false then
    some (-1, s)
  else
    let s := { s with
      threadRbtLockOk := true
      threadRbt := rbTreeInit s.threadRbt.nodes
      threadRbtOk := true }
    if key = false then do
      let s ← nebThreadDeinit fuel s
      some (-1, s)
    else
      let s := { s with threadExitKeyOk := true, specific := fun _ => 0 }
      if sem = false then do
        let s ← nebThreadDeinit fuel s
        some (-1, s)
      else
        some (0, { s with threadReadySem := true })

/-- `neb_thread_register` up to its call of `thread_rbt_add`, which only a thread that goes on
makes. -/
def nebThreadRegister (self : PthreadT) (setspecific : Bool) (s : State) : Int × State :=
  if setspecific then
    (0, { s with
      specific := Function.update s.specific self self
      threads := Function.update s.threads self (some .registering) })
  else
    (-1, s)

/-- The end of a thread: a value that is not `NULL` is reset, and the destructor is run on it. -/
def pthreadExit (fuel : Nat) (self : PthreadT) (s : State) : Option State := do
  let data := s.specific self
  let s := { s with
    specific := Function.update s.specific self 0
    threads := Function.update s.threads self none }
  if s.threadExitKeyOk ∧ data ≠ 0 then threadRbtDel fuel self data s else some s

inductive Action
  | init (spin key sem : Bool)
  | deinit
  /-- `pthread_create` has made this thread. -/
  | create (ptid : PthreadT)
  | register (self : PthreadT) (setspecific : Bool)
  /-- The rest of `neb_thread_register`. -/
  | rbtAdd (self : PthreadT) (calloc : Option NodeAddr)
  | isRunning (ptid : PthreadT)
  | exit (self : PthreadT)

/-- What a step returns, if it returns something. -/
inductive Ret
  | int (ret : Int)
  | bool (ret : Bool)
  | void
  deriving DecidableEq

def serve (fuel : Nat) (s : State) : Action → Option (Ret × State)
  | .init spin key sem => do
    let (ret, s) ← nebThreadInit fuel spin key sem s
    some (.int ret, s)
  | .deinit => do
    let s ← nebThreadDeinit fuel s
    some (.void, s)
  | .create ptid =>
    some (.void, { s with threads := Function.update s.threads ptid (some .running) })
  | .register self setspecific =>
    let (ret, s) := nebThreadRegister self setspecific s
    some (if ret = 0 then .void else .int ret, s)
  | .rbtAdd self calloc => do
    let (ret, s) ← threadRbtAdd fuel self calloc s
    some (.int ret, { s with threads := Function.update s.threads self (some .running) })
  | .isRunning ptid => do
    let b ← threadRbtExist fuel ptid s
    some (.bool b, s)
  | .exit self => do
    let s ← pthreadExit fuel self s
    some (.void, s)

def step (fuel : Nat) (s : State) (a : Action) : Option State := (serve fuel s a).map Prod.snd

def observe (fuel : Nat) (s : State) (a : Action) : List (Action × Ret) :=
  ((serve fuel s a).map (fun r => (a, r.1))).toList

end Nebase.Thread.Registry
