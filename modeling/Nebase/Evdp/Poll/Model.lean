/- The event queue with its io_uring and aio_poll drivers: a source that is to be watched costs the
   kernel a poll request, and its `submitted` flag is to say whether there is one. -/

import Nebase.Evdp.Epoll.Model

set_option autoImplicit false
set_option relaxedAutoImplicit false

namespace Nebase.Evdp.Poll

open Nebase.Evdp.Epoll (Ptr Fd Handler SourceType Dir NebEvdpCbRet Stage)

/-- The two drivers share most of their code. -/
inductive Driver
  | ioUring
  | aioPoll
  deriving DecidableEq

/-- `POLLIN` and `POLLOUT` of `ctl_event` and of `aio_buf`. -/
structure Interest where
  pollin : Bool
  pollout : Bool
  deriving DecidableEq

def Interest.has (m : Interest) : Dir → Bool
  | .read => m.pollin
  | .write => m.pollout

def Interest.put (m : Interest) (d : Dir) (b : Bool) : Interest :=
  match d with
  | .read => { m with pollin := b }
  | .write => { m with pollout := b }

/-- `& (POLLIN | POLLOUT)`. -/
def Interest.any (m : Interest) : Bool := m.pollin || m.pollout

/-- The bits of a result that the drivers look at. -/
structure Reported where
  pollin : Bool
  pollhup : Bool
  pollout : Bool
  deriving DecidableEq

/-- A source with its configuration and its context. `multishot` belongs to io_uring. -/
structure Source where
  type : SourceType
  qInUse : Bool
  pending : Bool
  noDetach : Bool
  fd : Fd
  doRead : Option Handler
  doWrite : Option Handler
  ctlEvent : Interest
  submitted : Bool
  multishot : Bool
  inCallback : Bool
  inAction : Bool
  deriving DecidableEq

def Source.setHandler (src : Source) (d : Dir) (h : Option Handler) : Source :=
  match d with
  | .read => { src with doRead := h }
  | .write => { src with doWrite := h }

/-- `ctl_event |= d` or `ctl_event &= ~d`. -/
def Source.setInterest (src : Source) (d : Dir) (b : Bool) : Source :=
  { src with ctlEvent := src.ctlEvent.put d b }

/-! The kernel. -/

/-- A poll request; `source` is its `user_data` or `aio_data`. A request that is cancelled is not
forgotten: it completes at a later wait like the others. -/
structure Request where
  source : Ptr
  fd : Fd
  events : Interest
  multishot : Bool
  cancelled : Bool
  deriving DecidableEq

/-- The request for a source. -/
def Source.request (src : Source) (p : Ptr) (multishot : Bool) : Request :=
  ⟨p, src.fd, src.ctlEvent, multishot, false⟩

/-- The request carries the source, and it is not cancelled. -/
def Request.carries (r : Request) (p : Ptr) : Bool := r.source = p && !r.cancelled

/-- The first request that carries the source is cancelled. -/
def cancelRequest (p : Ptr) : List Request → List Request
  | [] => []
  | r :: rs =>
    if r.carries p then { r with cancelled := true } :: rs else r :: cancelRequest p rs

inductive Sqe
  | pollAdd (r : Request)
  | pollRemove (p : Ptr)
  deriving DecidableEq

def Sqe.apply (requests : List Request) : Sqe → List Request
  | .pollAdd r => requests ++ [r]
  | .pollRemove p => cancelRequest p requests

/-- What `ee` and `cqe` point at. `cancelled` is a ghost: the completion is that of a request that
was cancelled. -/
structure Completion where
  data : Option Ptr
  res : Reported
  cancelled : Bool
  deriving DecidableEq

/-- `sq` are the entries of io_uring that were prepared and that the kernel has not taken, and
`requests` are the poll requests that it has taken and not completed. -/
structure Kernel where
  sq : List Sqe
  requests : List Request

/-- `io_uring_submit`: it fails, or the kernel takes some of the entries. -/
def Kernel.ioUringSubmit (k : Kernel) : Option Nat → Bool × Kernel
  | none => (false, k)
  | some n => (true, ⟨k.sq.drop n, (k.sq.take n).foldl Sqe.apply k.requests⟩)

/-- `io_submit`: it fails, or the kernel takes some of the requests. -/
def Kernel.ioSubmit (k : Kernel) (rs : List Request) : Option Nat → Bool × Kernel
  | none => (false, k)
  | some n => (true, { k with requests := k.requests ++ rs.take n })

/-- A cancellation takes effect at once. The call of aio tells whether there was a request, and
leaves it to the ring to deliver its completion (`EINPROGRESS`). -/
def Kernel.cancel (drv : Driver) (p : Ptr) (k : Kernel) : Bool × Kernel :=
  match drv with
  | .ioUring => (true, ⟨[], (k.sq ++ [Sqe.pollRemove p]).foldl Sqe.apply k.requests⟩)
  | .aioPoll =>
    (k.requests.any (·.carries p), { k with requests := cancelRequest p k.requests })

def Request.reports (r : Request) (e : Reported) : Bool :=
  (!e.pollin || r.events.pollin) && (!e.pollout || r.events.pollout)

/-- Requests complete, each given by its place in the list; a multishot request may stay. -/
def Kernel.complete (k : Kernel) : List (Nat × Reported × Bool) → Option (Kernel × List Completion)
  | [] => some (k, [])
  | (i, res, more) :: rest =>
    match k.requests[i]? with
    | none => none
    | some r =>
      if r.reports res then
        let k := if r.multishot && more then k else { k with requests := k.requests.eraseIdx i }
        (k.complete rest).map fun (k, cs) => (k, ⟨some r.source, res, r.cancelled⟩ :: cs)
      else
        none

/-! The queue. -/

/-- `struct neb_evdp_event`, with the index it was fetched at. -/
structure NebEvdpEvent where
  index : Nat
  source : Ptr
  event : Completion
  deriving DecidableEq

/-- Where the program stands: `flushing` is the flush of io_uring, that has prepared `count`
entries, and `gathering` is that of aio, at the source `s` after `last`. `stopped` is the user's
code after a callback has broken a run. The rest is as with epoll. -/
inductive Ctl
  | user
  | stopped
  | flushing (count : Nat)
  | gathering (last s : Option Ptr) (iocbv : List Ptr)
  | ready
  | events (i : Nat)
  | handle (ne : NebEvdpEvent) (stage : Stage)
  | callback (ne : NebEvdpEvent) (stage : Stage)
  | finish (ne : NebEvdpEvent) (ret : NebEvdpCbRet)
  | removed (i : Nat)
  | undefined
  deriving DecidableEq

def Ctl.userTurn : Ctl → Bool
  | .user => true
  | .stopped => true
  | .callback _ _ => true
  | .removed _ => true
  | _ => false

/-- `ee` is the first `nevents` entries of the batch, and `ring` the completions of io_uring behind
them. -/
structure State where
  sources : Ptr → Option Source
  pendingQs : List Ptr
  runningQs : List Ptr
  statsPending : Int
  statsRunning : Int
  batchSize : Nat
  ee : List Completion
  ring : List Completion
  currentEvent : Nat
  kernel : Kernel
  ctl : Ctl

/-- `neb_evdp_queue_create`. -/
def nebEvdpQueueCreate (batchSize : Nat) : State where
  sources := fun _ => none
  pendingQs := []
  runningQs := []
  statsPending := 1
  statsRunning := 1
  batchSize := batchSize
  ee := []
  ring := []
  currentEvent := 0
  kernel := ⟨[], []⟩
  ctl := .user

def State.setSource (q : State) (p : Ptr) (src : Source) : State :=
  { q with sources := Function.update q.sources p (some src) }

def State.goto (q : State) (ctl : Ctl) : State := { q with ctl := ctl }

/-- `EVDP_SLIST_REMOVE`. -/
def slistRemove (p : Ptr) (q : State) : State :=
  { q with pendingQs := q.pendingQs.erase p, runningQs := q.runningQs.erase p }

/-- `EVDP_SLIST_PENDING_INSERT`. -/
def slistPendingInsert (p : Ptr) (src : Source) (q : State) : State :=
  { q with
    pendingQs := p :: q.pendingQs
    sources := Function.update q.sources p (some { src with pending := true })
    statsPending := q.statsPending + 1 }

/-- `EVDP_SLIST_RUNNING_INSERT_NO_STATS`. -/
def slistRunningInsertNoStats (p : Ptr) (src : Source) (q : State) : State :=
  { q with
    runningQs := p :: q.runningQs
    sources := Function.update q.sources p (some { src with pending := false }) }

/-- `EVDP_SLIST_RUNNING_INSERT`. -/
def slistRunningInsert (p : Ptr) (src : Source) (q : State) : State :=
  { slistRunningInsertNoStats p src q with statsRunning := q.statsRunning + 1 }

/-- The three lines that put a source which is believed to be running into the pending list. -/
def moveToPending (p : Ptr) (src : Source) (q : State) : State :=
  slistPendingInsert p src { slistRemove p q with statsRunning := q.statsRunning - 1 }

/-- The three lines that put a pending source back into the running list. -/
def moveToRunning (p : Ptr) (src : Source) (q : State) : State :=
  slistRunningInsert p src { slistRemove p q with statsPending := q.statsPending - 1 }

/-! The os_fd sources. -/

def evdpSourceOsFdAttach (p : Ptr) (src : Source) (q : State) : Int × State :=
  if src.ctlEvent.any then
    (0, slistPendingInsert p src q)
  else
    (0, slistRunningInsert p src q)

/-- `sqe` says that the submission ring has room, and `taken` what the kernel answers. -/
def doSubmitOsFd (drv : Driver) (p : Ptr) (src : Source) (sqe : Bool) (taken : Option Nat)
    (k : Kernel) : Int × Source × Kernel :=
  let (ok, k) := match drv with
    | .ioUring =>
      if sqe then
        ({ k with sq := k.sq ++ [Sqe.pollAdd (src.request p false)] } : Kernel).ioUringSubmit taken
      else
        (false, k)
    | .aioPoll => k.ioSubmit [src.request p false] taken
  if ok then (0, { src with submitted := true }, k) else (-1, src, k)

def doCancelOsFd (drv : Driver) (p : Ptr) (src : Source) (k : Kernel) : Int × Source × Kernel :=
  let (found, k) := k.cancel drv p
  (if found then 0 else -1, { src with submitted := false }, k)

def evdpSourceOsFdDetach (drv : Driver) (p : Ptr) (src : Source) (toClose : Bool) (k : Kernel) :
    Source × Kernel :=
  if toClose then
    ({ src with submitted := false }, k)
  else if src.submitted then
    (doCancelOsFd drv p src k).2
  else
    (src, k)

/-- `evdp_source_os_fd_init_read` and `evdp_source_os_fd_init_write`. -/
def evdpSourceOsFdInit (d : Dir) (src : Source) (h : Option Handler) : Source :=
  src.setInterest d h.isSome

/-- `evdp_source_os_fd_reset_read` and `evdp_source_os_fd_reset_write`. -/
def evdpSourceOsFdReset (drv : Driver) (d : Dir) (p : Ptr) (src : Source) (sqe : Bool)
    (taken : Option Nat) (q : State) : Int × State :=
  if src.submitted then
    if src.ctlEvent.has d then
      (0, q.setSource p src)
    else
      let (r, src, k) := doSubmitOsFd drv p (src.setInterest d true) sqe taken q.kernel
      (r, { q with kernel := k }.setSource p src)
  else
    let src := src.setInterest d true
    if !src.inCallback && !src.pending then
      (0, moveToPending p src q)
    else
      (0, q.setSource p src)

/-- `evdp_source_os_fd_unset_read` and `evdp_source_os_fd_unset_write`. -/
def evdpSourceOsFdUnset (drv : Driver) (d : Dir) (p : Ptr) (src : Source) (q : State) :
    Int × State :=
  if src.submitted then
    if src.ctlEvent.has d then
      let src := src.setInterest d false
      if src.ctlEvent.has d.other then
        (0, q.setSource p src)
      else
        let (r, src, k) := doCancelOsFd drv p src q.kernel
        (r, { q with kernel := k }.setSource p src)
    else
      (0, q.setSource p src)
  else
    let src := src.setInterest d false
    if src.pending then
      if src.ctlEvent.has d.other then
        (0, q.setSource p src)
      else
        (0, moveToRunning p src q)
    else
      (0, q.setSource p src)

/-- `neb_evdp_source_os_fd_next_read` and `neb_evdp_source_os_fd_next_write`. -/
def nebEvdpSourceOsFdNext (drv : Driver) (d : Dir) (p : Ptr) (src : Source) (h : Option Handler)
    (sqe : Bool) (taken : Option Nat) (q : State) : Int × State :=
  let src := src.setHandler d h
  if src.qInUse then
    if h.isSome then evdpSourceOsFdReset drv d p src sqe taken q
    else evdpSourceOsFdUnset drv d p src q
  else
    (0, q.setSource p (evdpSourceOsFdInit d src h))

/-- `evdp_reset_source_os_fd_context`. -/
def evdpResetSourceOsFdContext (src : Source) : Source :=
  { src with submitted := false, pending := false, ctlEvent := ⟨false, false⟩ }

def nebEvdpSourceOsFdReset (p : Ptr) (src : Source) (fd : Fd) (q : State) : Int × State :=
  if src.qInUse then
    (-1, q)
  else if src.type ≠ .osFd then
    (-1, q)
  else
    (0, q.setSource p (evdpResetSourceOsFdContext { src with fd := fd }))

/-! The ro_fd and the timer sources. -/

def evdpSourceRoFdAttach (p : Ptr) (src : Source) (q : State) : Int × State :=
  (0, slistPendingInsert p { src with ctlEvent := ⟨true, false⟩ } q)

/-- `evdp_source_itimer_attach` and `evdp_source_abstimer_attach`; `settime` says that
`timerfd_settime` succeeds. -/
def evdpSourceTimerAttach (p : Ptr) (src : Source) (settime : Bool) (q : State) : Int × State :=
  if src.inAction then
    evdpSourceRoFdAttach p src q
  else if settime then
    evdpSourceRoFdAttach p { src with inAction := true } q
  else
    (-1, q)

/-- The cancellation for ro_fd and timer sources, whose result is only logged. -/
def cancelIfSubmitted (drv : Driver) (p : Ptr) (src : Source) (k : Kernel) : Source × Kernel :=
  if src.submitted then ({ src with submitted := false }, (k.cancel drv p).2) else (src, k)

def evdpSourceRoFdDetach (drv : Driver) (p : Ptr) (src : Source) (toClose : Bool) (k : Kernel) :
    Source × Kernel :=
  if toClose then ({ src with submitted := false }, k) else cancelIfSubmitted drv p src k

/-- `evdp_source_itimer_detach` and `evdp_source_abstimer_detach`. -/
def evdpSourceTimerDetach (drv : Driver) (p : Ptr) (src : Source) (k : Kernel) : Source × Kernel :=
  cancelIfSubmitted drv p { src with inAction := false } k

/-! Attaching and detaching. -/

/-- `neb_evdp_queue_attach`, on a queue that is not being destroyed. -/
def nebEvdpQueueAttach (p : Ptr) (src : Source) (settime : Bool) (q : State) : Int × State :=
  if src.qInUse then
    (-1, q)
  else
    match src.type with
    | .itimer => evdpSourceTimerAttach p { src with qInUse := true } settime q
    | .abstimer => evdpSourceTimerAttach p { src with qInUse := true } settime q
    | .roFd => evdpSourceRoFdAttach p { src with qInUse := true } q
    | .osFd => evdpSourceOsFdAttach p { src with qInUse := true } q

def Completion.clear (p : Ptr) (e : Completion) : Completion :=
  if e.data = some p then { e with data := none } else e

/-- `evdp_queue_rm_pending_events`. -/
def evdpQueueRmPendingEvents (p : Ptr) (q : State) : State :=
  { q with ee := q.ee.take q.currentEvent ++ (q.ee.drop q.currentEvent).map (·.clear p) }

/-- The detach function for the type of the source. -/
def evdpSourceDetach (drv : Driver) (p : Ptr) (src : Source) (toClose : Bool) (k : Kernel) :
    Source × Kernel :=
  match src.type with
  | .itimer => evdpSourceTimerDetach drv p src k
  | .abstimer => evdpSourceTimerDetach drv p src k
  | .roFd => evdpSourceRoFdDetach drv p src toClose k
  | .osFd => evdpSourceOsFdDetach drv p src toClose k

/-- `do_detach_from_queue` up to its `on_remove`. -/
def doDetachFromQueue (drv : Driver) (p : Ptr) (src : Source) (toClose : Bool) (q : State) :
    State :=
  let q := evdpQueueRmPendingEvents p q
  let (src, k) := evdpSourceDetach drv p src toClose q.kernel
  let q := slistRemove p { q with kernel := k }
  if src.pending then
    { q with statsPending := q.statsPending - 1 }.setSource p
      { src with pending := false, qInUse := false }
  else
    { q with statsRunning := q.statsRunning - 1 }.setSource p { src with qInUse := false }

/-- `neb_evdp_queue_detach`; its `on_remove` is the user's turn again. -/
def nebEvdpQueueDetach (drv : Driver) (p : Ptr) (src : Source) (toClose : Bool) (q : State) :
    Int × State :=
  if !src.qInUse then
    (-1, q)
  else if src.noDetach then
    (-1, q)
  else
    (0, doDetachFromQueue drv p src toClose q)

def nebEvdpSourceDel (p : Ptr) (src : Source) (q : State) : Int × State :=
  if src.qInUse then
    (-1, q)
  else
    (0, { q with sources := Function.update q.sources p none })

/-- A new source; only io_uring has multishot requests. -/
def newSource (drv : Driver) (type : SourceType) (fd : Fd) : Source where
  type := type
  qInUse := false
  pending := false
  noDetach := false
  fd := fd
  doRead := none
  doWrite := none
  ctlEvent := ⟨false, false⟩
  submitted := false
  multishot := drv = .ioUring && type ≠ .osFd
  inCallback := false
  inAction := false

/-! The flush. -/

/-- One round of the loop of `evdp_queue_flush_pending_sources` of io_uring, and its end. -/
def flushIoUring (count : Nat) (sqe : Bool) (taken : Option Nat) (q : State) : State :=
  match q.pendingQs.head? with
  | some p =>
    match q.sources p with
    | none => q.goto .undefined
    | some src =>
      if sqe then
        (slistRunningInsertNoStats p src (slistRemove p { q with
          kernel := { q.kernel with
            sq := q.kernel.sq ++ [.pollAdd (src.request p src.multishot)] } })).goto
          (.flushing (count + 1))
      else
        q.goto .user
  | none =>
    if count = 0 then
      q.goto .ready
    else
      let (ok, k) := q.kernel.ioUringSubmit taken
      if ok then
        { q with
          kernel := k
          statsPending := q.statsPending - count
          statsRunning := q.statsRunning + count
          ctl := .ready }
      else
        { q with kernel := k, ctl := .user }

/-- What `do_batch_flush` does for each of the submitted sources. -/
def moveSubmitted : List Ptr → State → Option State
  | [], q => some q
  | p :: ps, q =>
    match q.sources p with
    | none => none
    | some src =>
      moveSubmitted ps
        (slistRunningInsertNoStats p { src with submitted := true } (slistRemove p q))

/-- `do_batch_flush`, of the sources in `iocbv`. -/
def doBatchFlush (iocbv : List Ptr) (taken : Option Nat) (q : State) : Bool × State :=
  let (ok, k) := q.kernel.ioSubmit
    (iocbv.filterMap (fun p => (q.sources p).map (fun src => src.request p false))) taken
  if ok then
    match moveSubmitted iocbv { q with
        kernel := k
        statsPending := q.statsPending - iocbv.length
        statsRunning := q.statsRunning + iocbv.length } with
    | some q => (true, q)
    | none => (false, q.goto .undefined)
  else
    (false, q.goto .user)

/-- `s->next`. -/
def State.nextPending (q : State) (p : Ptr) : Option Ptr :=
  (q.pendingQs.dropWhile (· ≠ p)).tail.head?

/-- The end of `evdp_queue_flush_pending_sources` of aio. -/
def flushAioEnd (iocbv : List Ptr) (taken : Option Nat) (q : State) : State :=
  if iocbv.isEmpty then
    q.goto .ready
  else
    let (ok, q) := doBatchFlush iocbv taken q
    if ok then q.goto .ready else q

/-- One round of the loop of `evdp_queue_flush_pending_sources` of aio, and its end. -/
def flushAio (last s : Option Ptr) (iocbv : List Ptr) (taken : Option Nat) (q : State) : State :=
  match s with
  | none => flushAioEnd iocbv taken q
  | some p =>
    if last = some p then
      flushAioEnd iocbv taken q
    else
      match q.sources p with
      | none => q.goto .undefined
      | some _ =>
        let iocbv := iocbv ++ [p]
        if q.batchSize ≤ iocbv.length then
          let (ok, q) := doBatchFlush iocbv taken q
          if ok then q.goto (.gathering (some p) q.pendingQs.head? []) else q
        else
          q.goto (.gathering (some p) (q.nextPending p) iocbv)

/-! The events. -/

/-- `evdp_queue_wait_events`. io_uring looks at the ring again, from the first completion that was
not seen on; what it does not fetch stays there. -/
def evdpQueueWaitEvents (drv : Driver) (done : List (Nat × Reported × Bool)) (q : State) :
    Option State :=
  match q.kernel.complete done with
  | none => none
  | some (k, completions) =>
    match drv with
    | .ioUring =>
      let ring := q.ee.drop (q.currentEvent + 1) ++ q.ring ++ completions
      some { q with
        kernel := k
        ee := ring.take q.batchSize
        ring := ring.drop q.batchSize
        ctl := .events 0 }
    | .aioPoll =>
      if completions.length ≤ q.batchSize then
        some { q with kernel := k, ee := completions, ctl := .events 0 }
      else
        none

/-- A wait that fails; io_uring gets there only when its ring is empty. -/
def evdpQueueWaitFails (drv : Driver) (q : State) : Option State :=
  if drv = .ioUring ∧ q.ee.drop (q.currentEvent + 1) ++ q.ring ≠ [] then
    none
  else
    some { q with ee := [], ctl := .user }

/-- The loop over the events, up to the handle function of a source; all of them clear the flag
first. -/
def handleEvent (i : Nat) (q : State) : State :=
  match q.ee[i]? with
  | none =>
    if q.ee.isEmpty then q.goto .user else { q with ee := [], currentEvent := 0, ctl := .user }
  | some e =>
    let q := { q with currentEvent := i }
    match e.data with
    | none => q.goto (.events (i + 1))
    | some p =>
      match q.sources p with
      | none => q.goto .undefined
      | some src =>
        (q.setSource p { src with noDetach := true, submitted := false }).goto
          (.handle ⟨i, p, e⟩ .read)

/-- What aio does with a ro_fd or a timer source whose callbacks all let it continue. -/
def requeue (drv : Driver) (ne : NebEvdpEvent) (src : Source) (q : State) : State :=
  match drv with
  | .ioUring => q.goto (.finish ne .continue)
  | .aioPoll =>
    if src.qInUse then (moveToPending ne.source src q).goto (.finish ne .continue)
    else q.goto .undefined

/-- `evdp_source_itimer_handle` and `evdp_source_abstimer_handle`; `ok` says that the `read` of the
timer succeeds. -/
def evdpSourceTimerHandle (drv : Driver) (ne : NebEvdpEvent) (src : Source) (stage : Stage)
    (ok : Bool) (q : State) : State :=
  match stage with
  | .last => requeue drv ne src q
  | _ => q.goto (if ok then .callback ne .read else .finish ne .breakErr)

/-- `evdp_source_ro_fd_handle` from a stage on to its next callback or stage. -/
def evdpSourceRoFdHandle (drv : Driver) (ne : NebEvdpEvent) (src : Source) (stage : Stage)
    (q : State) : State :=
  match stage with
  | .read => q.goto (if ne.event.res.pollin then .callback ne .read else .handle ne .hup)
  | .last => requeue drv ne src q
  | _ => q.goto (if ne.event.res.pollhup then .callback ne .hup else .handle ne .last)

/-- `evdp_source_os_fd_handle` from a stage on to its next callback or stage; io_uring takes into
account that the source may be pending. -/
def evdpSourceOsFdHandle (drv : Driver) (ne : NebEvdpEvent) (src : Source) (stage : Stage)
    (q : State) : State :=
  match stage with
  | .read =>
    if ne.event.res.pollin && src.doRead.isSome then
      (q.setSource ne.source { src.setInterest .read false with inCallback := true }).goto
        (.callback ne .read)
    else
      q.goto (.handle ne .hup)
  | .hup =>
    if ne.event.res.pollhup then
      (q.setSource ne.source { src with inCallback := true }).goto (.callback ne .hup)
    else
      q.goto (.handle ne .write)
  | .write =>
    if ne.event.res.pollout && src.doWrite.isSome then
      (q.setSource ne.source { src.setInterest .write false with inCallback := true }).goto
        (.callback ne .write)
    else
      q.goto (.handle ne .last)
  | .last =>
    if src.ctlEvent.any then
      if src.qInUse then
        (match drv, src.pending with
          | .ioUring, true => slistPendingInsert ne.source src (slistRemove ne.source q)
          | _, _ => moveToPending ne.source src q).goto (.finish ne .continue)
      else
        q.goto .undefined
    else
      q.goto (.finish ne .continue)

/-- What the handle functions do with the result of a callback. -/
def afterCallback (ne : NebEvdpEvent) (type : SourceType) (stage : Stage) (ret : NebEvdpCbRet) :
    Ctl :=
  match stage with
  | .read =>
    if ret = .continue then .handle ne (if type.isTimer then .last else .hup) else .finish ne ret
  | .hup =>
    match ret with
    | .breakErr => .finish ne .breakErr
    | .breakExp => .finish ne .breakExp
    | .close => .finish ne .close
    | _ => .finish ne .remove
  | .write => if ret = .continue then .handle ne .last else .finish ne ret
  | .last => .finish ne ret

/-- The end of `handle_event`. -/
def finishEvent (drv : Driver) (ne : NebEvdpEvent) (src : Source) (ret : NebEvdpCbRet)
    (q : State) : State :=
  let src := { src with noDetach := false }
  match ret with
  | .remove => (doDetachFromQueue drv ne.source src false q).goto (.removed ne.index)
  | .close => (doDetachFromQueue drv ne.source src true q).goto (.removed ne.index)
  | .breakExp => (q.setSource ne.source src).goto .stopped
  | .breakErr => (q.setSource ne.source src).goto .stopped
  | _ => (q.setSource ne.source src).goto (.events (ne.index + 1))

inductive Action
  | newSource (p : Ptr) (type : SourceType) (fd : Fd)
  | delSource (p : Ptr)
  | resetFd (p : Ptr) (fd : Fd)
  | next (d : Dir) (p : Ptr) (h : Option Handler) (sqe : Bool) (taken : Option Nat)
  | attach (p : Ptr) (settime : Bool)
  | detach (p : Ptr) (toClose : Bool)
  | run
  | flush (sqe : Bool) (taken : Option Nat)
  | wait (done : List (Nat × Reported × Bool))
  | waitFails
  | proceed (ok : Bool)
  | cbReturn (ret : NebEvdpCbRet)
  deriving DecidableEq

/-- A call of the user on a live source. -/
def State.call (q : State) (p : Ptr) (f : Source → State) : Option State :=
  if q.ctl.userTurn then (q.sources p).map f else none

def step (drv : Driver) (q : State) : Action → Option State
  | .newSource p type fd =>
    if q.ctl.userTurn && (q.sources p).isNone then
      some (q.setSource p (newSource drv type fd))
    else
      none
  | .delSource p => q.call p (fun src => (nebEvdpSourceDel p src q).2)
  | .resetFd p fd => q.call p (fun src => (nebEvdpSourceOsFdReset p src fd q).2)
  | .next d p h sqe taken =>
    if (q.sources p).any (fun src => src.type = .osFd) then
      q.call p (fun src => (nebEvdpSourceOsFdNext drv d p src h sqe taken q).2)
    else
      none
  | .attach p settime => q.call p (fun src => (nebEvdpQueueAttach p src settime q).2)
  | .detach p toClose => q.call p (fun src => (nebEvdpQueueDetach drv p src toClose q).2)
  | .run =>
    if q.ctl = .user ∨ q.ctl = .stopped then
      some (q.goto (match drv with
        | .ioUring => .flushing 0
        | .aioPoll => .gathering none q.pendingQs.head? []))
    else
      none
  | .flush sqe taken =>
    match q.ctl with
    | .flushing count => some (flushIoUring count sqe taken q)
    | .gathering last s iocbv => some (flushAio last s iocbv taken q)
    | _ => none
  | .wait done =>
    match q.ctl with
    | .ready => evdpQueueWaitEvents drv done q
    | _ => none
  | .waitFails =>
    match q.ctl with
    | .ready => evdpQueueWaitFails drv q
    | _ => none
  | .proceed ok =>
    match q.ctl with
    | .events i => some (handleEvent i q)
    | .handle ne stage =>
      match q.sources ne.source with
      | none => some (q.goto .undefined)
      | some src =>
        match src.type with
        | .itimer => some (evdpSourceTimerHandle drv ne src stage ok q)
        | .abstimer => some (evdpSourceTimerHandle drv ne src stage ok q)
        | .roFd => some (evdpSourceRoFdHandle drv ne src stage q)
        | .osFd => some (evdpSourceOsFdHandle drv ne src stage q)
    | .finish ne ret =>
      match q.sources ne.source with
      | none => some (q.goto .undefined)
      | some src => some (finishEvent drv ne src ret q)
    | .removed i => some (q.goto (.events (i + 1)))
    | _ => none
  | .cbReturn ret =>
    match q.ctl with
    | .callback ne stage =>
      match q.sources ne.source with
      | none => some (q.goto .undefined)
      | some src =>
        some ((q.setSource ne.source
          (if src.type = .osFd then { src with inCallback := false } else src)).goto
            (afterCallback ne src.type stage ret))
    | _ => none

end Nebase.Evdp.Poll
