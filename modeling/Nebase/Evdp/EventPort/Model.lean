/- The flush of the event_port driver: each pending source is associated with the port and moved to
   the running list. -/

import Nebase.Evdp.Poll.Model

set_option autoImplicit false
set_option relaxedAutoImplicit false

namespace Nebase.Evdp.EventPort

open Nebase.Evdp.Epoll (Ptr Fd SourceType)
open Nebase.Evdp.Poll (Interest)

/-- A source with what the flush reads of its configuration and its context. -/
structure Source where
  type : SourceType
  qInUse : Bool
  pending : Bool
  fd : Fd
  events : Interest
  associated : Bool
  deriving DecidableEq

/-- What the port is associated with a descriptor for. -/
abbrev Port := Fd → Option (Interest × Ptr)

/-- Where the program stands: `flushing` is the flush that has moved `count` sources, `ready` is
behind it, and `user` is where `neb_evdp_queue_run` has returned to. -/
inductive Ctl
  | user
  | flushing (count : Nat)
  | ready
  | undefined
  deriving DecidableEq

structure State where
  sources : Ptr → Option Source
  pendingQs : List Ptr
  runningQs : List Ptr
  statsPending : Int
  statsRunning : Int
  port : Port
  ctl : Ctl

def State.goto (q : State) (ctl : Ctl) : State := { q with ctl := ctl }

/-- `EVDP_SLIST_REMOVE`. -/
def slistRemove (p : Ptr) (q : State) : State :=
  { q with pendingQs := q.pendingQs.erase p, runningQs := q.runningQs.erase p }

/-- `EVDP_SLIST_RUNNING_INSERT_NO_STATS`. -/
def slistRunningInsertNoStats (p : Ptr) (src : Source) (q : State) : State :=
  { q with
    runningQs := p :: q.runningQs
    sources := Function.update q.sources p (some { src with pending := false }) }

/-- `port_associate`; `ok` says that it succeeds. -/
def portAssociate (fd : Fd) (events : Interest) (p : Ptr) (ok : Bool) (port : Port) : Int × Port :=
  if ok then (0, Function.update port fd (some (events, p))) else (-1, port)

def doAssociateRoFd (p : Ptr) (src : Source) (ok : Bool) (port : Port) : Int × Source × Port :=
  let (ret, port) := portAssociate src.fd ⟨true, false⟩ p ok port
  if ret = -1 then (-1, src, port) else (0, { src with associated := true }, port)

def doAssociateOsFd (p : Ptr) (src : Source) (ok : Bool) (port : Port) : Int × Source × Port :=
  let (ret, port) := portAssociate src.fd src.events p ok port
  if ret = -1 then (-1, src, port) else (0, { src with associated := true }, port)

/-- The request that the flush makes for a source; there is none for a timer. -/
def associate (p : Ptr) (src : Source) (ok : Bool) (port : Port) : Int × Source × Port :=
  match src.type with
  | .roFd => doAssociateRoFd p src ok port
  | .osFd => doAssociateOsFd p src ok port
  | _ => (-1, src, port)

/-- One round of the loop of `evdp_queue_flush_pending_sources`, and its end. -/
def flushEventPort (count : Nat) (ok : Bool) (q : State) : State :=
  match q.pendingQs.head? with
  | some p =>
    match q.sources p with
    | none => q.goto .undefined
    | some src =>
      let (ret, src, port) := associate p src ok q.port
      let q := { q with port := port, sources := Function.update q.sources p (some src) }
      if ret ≠ 0 then
        q.goto .user
      else
        (slistRunningInsertNoStats p src (slistRemove p q)).goto (.flushing (count + 1))
  | none =>
    if count ≠ 0 then
      { q with
        statsPending := q.statsPending - count
        statsRunning := q.statsRunning + count
        ctl := .ready }
    else
      q.goto .ready

/-- `run` is `neb_evdp_queue_run` up to the flush. -/
inductive Action
  | run
  | flush (ok : Bool)
  deriving DecidableEq

def step (q : State) : Action → Option State
  | .run => if q.ctl = .user then some (q.goto (.flushing 0)) else none
  | .flush ok =>
    match q.ctl with
    | .flushing count => some (flushEventPort count ok q)
    | _ => none

end Nebase.Evdp.EventPort
