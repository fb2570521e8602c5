/- The event queue with its epoll driver: the sources and their two lists, the kernel's
   registrations, and the loop with the callbacks it runs. -/

import Nebase.Foundation.SentinelList

set_option autoImplicit false
set_option relaxedAutoImplicit false

namespace Nebase.Evdp.Epoll

open Nebase.Foundation

/-- The address of a `struct neb_evdp_source`. -/
abbrev Ptr := Nat

abbrev Fd := Nat

/-- A callback of the user. -/
abbrev Handler := Nat

inductive SourceType
  | itimer
  | abstimer
  | roFd
  | osFd
  deriving DecidableEq

def SourceType.isTimer : SourceType → Bool
  | .itimer => true
  | .abstimer => true
  | .roFd => false
  | .osFd => false

/-- The two directions of an os_fd source: `EPOLLIN` with its read handler, `EPOLLOUT` with its
write handler. -/
inductive Dir
  | read
  | write
  deriving DecidableEq

def Dir.other : Dir → Dir
  | .read => .write
  | .write => .read

/-- The bits the driver sets in `events`. -/
structure Interest where
  epollin : Bool
  epollout : Bool
  epolloneshot : Bool
  deriving DecidableEq

def Interest.has (m : Interest) : Dir → Bool
  | .read => m.epollin
  | .write => m.epollout

def Interest.put (m : Interest) (d : Dir) (b : Bool) : Interest :=
  match d with
  | .read => { m with epollin := b }
  | .write => { m with epollout := b }

/-- `events & (EPOLLIN | EPOLLOUT)`. -/
def Interest.any (m : Interest) : Bool := m.epollin || m.epollout

/-- What `data.ptr` holds. `attachment` is a ghost: it tells the attachments of sources apart, also
when the address is used again. -/
structure Data where
  ptr : Ptr
  attachment : Nat
  deriving DecidableEq

/-- The `struct epoll_event` given to `epoll_ctl`. -/
structure CtlEvent where
  events : Interest
  data : Option Data
  deriving DecidableEq

/-- The bits of a delivered event that the driver looks at. -/
structure Reported where
  epollin : Bool
  epollout : Bool
  epollhup : Bool
  deriving DecidableEq

/-- An entry of `ee`. -/
structure EpollEvent where
  events : Reported
  data : Option Data
  deriving DecidableEq

/-- The values of `ctl_op`; `calloc` leaves it unset. -/
inductive CtlOp
  | unset
  | add
  | mod
  | del
  deriving DecidableEq

inductive Errno
  | ok
  | eexist
  | enoent
  | ebadf
  | enomem
  | einval
  deriving DecidableEq

/-- A source with its configuration and its context. `fd` is the descriptor of the configuration, or
the timer of a timer source. The handlers are those of an os_fd source; `do_hup`, `do_wakeup` and
the read handler of a ro_fd source are never `NULL`. -/
structure Source where
  type : SourceType
  qInUse : Bool
  pending : Bool
  noDetach : Bool
  fd : Fd
  doRead : Option Handler
  doWrite : Option Handler
  ctlEvent : CtlEvent
  ctlOp : CtlOp
  added : Bool
  inCallback : Bool
  inAction : Bool
  deriving DecidableEq

def Source.handler (src : Source) : Dir → Option Handler
  | .read => src.doRead
  | .write => src.doWrite

def Source.setHandler (src : Source) (d : Dir) (h : Option Handler) : Source :=
  match d with
  | .read => { src with doRead := h }
  | .write => { src with doWrite := h }

/-- `ctl_event.events |= d` or `ctl_event.events &= ~d`. -/
def Source.setInterest (src : Source) (d : Dir) (b : Bool) : Source :=
  { src with ctlEvent := { src.ctlEvent with events := src.ctlEvent.events.put d b } }

/-! The kernel. -/

structure Registration where
  event : CtlEvent
  armed : Bool

/-- One `epoll_ctl`, whether its descriptor was registered then, and its result. -/
structure Request where
  source : Ptr
  type : SourceType
  op : CtlOp
  registered : Bool
  result : Errno

/-- `requests` is a ghost, latest first. -/
structure Kernel where
  isOpen : Fd → Bool
  reg : Fd → Option Registration
  requests : List Request

/-- `room` says that the kernel finds the memory it needs. -/
def Kernel.answer (k : Kernel) (op : CtlOp) (fd : Fd) (room : Bool) : Errno :=
  if k.isOpen fd then
    match op, (k.reg fd).isSome with
    | .unset, _ => .einval
    | .add, true => .eexist
    | .add, false => if room then .ok else .enomem
    | .mod, true => if room then .ok else .enomem
    | .mod, false => .enoent
    | .del, true => .ok
    | .del, false => .enoent
  else
    .ebadf

def Kernel.epollCtl (k : Kernel) (op : CtlOp) (p : Ptr) (src : Source) (room : Bool) :
    Errno × Kernel :=
  let result := k.answer op src.fd room
  (result,
    { k with
      reg := if result = .ok then
          Function.update k.reg src.fd (if op = .del then none else some ⟨src.ctlEvent, true⟩)
        else k.reg
      requests := ⟨p, src.type, op, (k.reg src.fd).isSome, result⟩ :: k.requests })

/-- A descriptor that is closed leaves the epoll instance. -/
def Kernel.close (k : Kernel) (fd : Fd) : Kernel :=
  { k with isOpen := Function.update k.isOpen fd false, reg := Function.update k.reg fd none }

/-- What an armed registration may report, and what it is afterwards. -/
def Registration.deliver (r : Registration) (e : Reported) : Option Registration :=
  if r.armed && (!e.epollin || r.event.events.epollin) &&
      (!e.epollout || r.event.events.epollout) then
    some { r with armed := !r.event.events.epolloneshot }
  else
    none

def Kernel.epollWait (k : Kernel) : List (Fd × Reported) → Option (Kernel × List EpollEvent)
  | [] => some (k, [])
  | (fd, e) :: rest =>
    match k.reg fd with
    | none => none
    | some r =>
      match r.deliver e with
      | none => none
      | some r' =>
        match ({ k with reg := Function.update k.reg fd (some r') } : Kernel).epollWait rest with
        | none => none
        | some (k', ee) => some (k', ⟨e, r.event.data⟩ :: ee)

/-! The queue. -/

/-- The two list heads, which are sources of the queue's own, and the sources of the user. -/
inductive Node
  | pendingQs
  | runningQs
  | source (p : Ptr)
  deriving DecidableEq

inductive NebEvdpCbRet
  | continue
  | remove
  | close
  | breakExp
  | breakErr
  | endForeach
  deriving DecidableEq

/-- `struct neb_evdp_event`, with the index it was fetched at. -/
structure NebEvdpEvent where
  index : Nat
  source : Ptr
  event : EpollEvent
  deriving DecidableEq

/-- Where a handle function of the driver stands, or which callback it has called. `last` is what
comes after the others: the end of an os_fd source's function, and the wakeup of a timer. -/
inductive Stage
  | read
  | hup
  | write
  | last
  deriving DecidableEq

/-- Where the program stands. `user` is the user's code outside the loop, in an event or batch
handler or in a timer point's handler; `callback` is a callback of the source being handled, and
`removed` the `on_remove` of a source that the loop has detached. -/
inductive Ctl
  | user
  | flushing (count : Nat)
  | ready
  | events (i : Nat)
  | handle (ne : NebEvdpEvent) (stage : Stage)
  | callback (ne : NebEvdpEvent) (stage : Stage)
  | finish (ne : NebEvdpEvent) (ret : NebEvdpCbRet)
  | removed (i : Nat)
  | undefined
  deriving DecidableEq

def Ctl.userTurn : Ctl → Bool
  | .user => true
  | .callback _ _ => true
  | .removed _ => true
  | _ => false

/-- `ee` is the first `nevents` entries of the array. The last three fields are ghosts: the
descriptors that a detach has left to the user to close, the attached sources whose descriptor was
closed, and the number of attachments so far. -/
structure State where
  sources : Ptr → Option Source
  links : SentinelList.Links Node
  statsPending : Int
  statsRunning : Int
  batchSize : Nat
  ee : List EpollEvent
  currentEvent : Nat
  kernel : Kernel
  ctl : Ctl
  closing : List Fd
  stale : Ptr → Bool
  attachments : Nat

/-- `neb_evdp_queue_create`. -/
def nebEvdpQueueCreate (batchSize : Nat) : State where
  sources := fun _ => none
  links := ⟨fun _ => none, fun _ => none⟩
  statsPending := 1
  statsRunning := 1
  batchSize := batchSize
  ee := []
  currentEvent := 0
  kernel := ⟨fun _ => false, fun _ => none, []⟩
  ctl := .user
  closing := []
  stale := fun _ => false
  attachments := 0

def State.setSource (q : State) (p : Ptr) (src : Source) : State :=
  { q with sources := Function.update q.sources p (some src) }

def State.goto (q : State) (ctl : Ctl) : State := { q with ctl := ctl }

/-- `EVDP_SLIST_REMOVE`. -/
def slistRemove (p : Ptr) (q : State) : State :=
  { q with links := SentinelList.remove (.source p) q.links }

/-- `EVDP_SLIST_PENDING_INSERT`. -/
def slistPendingInsert (p : Ptr) (src : Source) (q : State) : State :=
  { q with
    links := SentinelList.insertAfter .pendingQs (.source p) q.links
    sources := Function.update q.sources p (some { src with pending := true })
    statsPending := q.statsPending + 1 }

/-- `EVDP_SLIST_RUNNING_INSERT_NO_STATS`. -/
def slistRunningInsertNoStats (p : Ptr) (src : Source) (q : State) : State :=
  { q with
    links := SentinelList.insertAfter .runningQs (.source p) q.links
    sources := Function.update q.sources p (some { src with pending := false }) }

/-- `EVDP_SLIST_RUNNING_INSERT`. -/
def slistRunningInsert (p : Ptr) (src : Source) (q : State) : State :=
  { slistRunningInsertNoStats p src q with statsRunning := q.statsRunning + 1 }

/-- The three lines that put a source which is believed to be running into the pending list. -/
def moveToPending (p : Ptr) (src : Source) (q : State) : State :=
  slistPendingInsert p src
    { slistRemove p q with statsRunning := q.statsRunning - 1 }

/-- The three lines that put a pending source back into the running list. -/
def moveToRunning (p : Ptr) (src : Source) (q : State) : State :=
  slistRunningInsert p src
    { slistRemove p q with statsPending := q.statsPending - 1 }

/-! The os_fd sources. -/

def doCtlOsFd (p : Ptr) (src : Source) (room : Bool) (k : Kernel) : Int × Source × Kernel :=
  let (e, k) := k.epollCtl src.ctlOp p src room
  if e = .ok then (0, { src with added := true }, k) else (-1, src, k)

def doDelOsFd (p : Ptr) (src : Source) (k : Kernel) : Int × Source × Kernel :=
  let (e, k) := k.epollCtl .del p src true
  if e = .ok then
    (0, { src with added := false, ctlOp := .add }, k)
  else
    (-1, if e = .enoent then { src with added := false } else src, k)

def evdpSourceOsFdAttach (p : Ptr) (src : Source) (q : State) : Int × State :=
  let src := { src with
    ctlOp := .add
    ctlEvent := ⟨{ src.ctlEvent.events with epolloneshot := true },
      some ⟨p, q.attachments⟩⟩ }
  if src.ctlEvent.events.any then
    (0, slistPendingInsert p src q)
  else
    (0, slistRunningInsert p src q)

def evdpSourceOsFdDetach (p : Ptr) (src : Source) (toClose : Bool) (k : Kernel) :
    Source × Kernel :=
  if toClose then
    ({ src with added := false }, k)
  else if src.added then
    (doDelOsFd p src k).2
  else
    (src, k)

/-- `evdp_source_os_fd_init_read` and `evdp_source_os_fd_init_write`. -/
def evdpSourceOsFdInit (d : Dir) (src : Source) (h : Option Handler) : Source :=
  src.setInterest d h.isSome

/-- `evdp_source_os_fd_reset_read` and `evdp_source_os_fd_reset_write`. -/
def evdpSourceOsFdReset (d : Dir) (p : Ptr) (src : Source) (room : Bool) (q : State) :
    Int × State :=
  if src.added then
    if src.ctlEvent.events.has d then
      (0, q.setSource p src)
    else
      let (r, src, k) := doCtlOsFd p (src.setInterest d true) room q.kernel
      (r, { q with kernel := k }.setSource p src)
  else
    let src := src.setInterest d true
    if !src.inCallback && !src.pending then
      (0, moveToPending p src q)
    else
      (0, q.setSource p src)

/-- `evdp_source_os_fd_unset_read` and `evdp_source_os_fd_unset_write`. -/
def evdpSourceOsFdUnset (d : Dir) (p : Ptr) (src : Source) (q : State) : Int × State :=
  if src.added then
    if src.ctlEvent.events.has d then
      let src := src.setInterest d false
      if src.ctlEvent.events.has d.other then
        (0, q.setSource p src)
      else
        let (r, src, k) := doDelOsFd p src q.kernel
        (r, { q with kernel := k }.setSource p src)
    else
      (0, q.setSource p src)
  else
    let src := src.setInterest d false
    if src.pending then
      if src.ctlEvent.events.has d.other then
        (0, q.setSource p src)
      else
        (0, moveToRunning p src q)
    else
      (0, q.setSource p src)

/-- `neb_evdp_source_os_fd_next_read` and `neb_evdp_source_os_fd_next_write`. -/
def nebEvdpSourceOsFdNext (d : Dir) (p : Ptr) (src : Source) (h : Option Handler) (room : Bool)
    (q : State) : Int × State :=
  let src := src.setHandler d h
  if src.qInUse then
    if h.isSome then evdpSourceOsFdReset d p src room q else evdpSourceOsFdUnset d p src q
  else
    (0, q.setSource p (evdpSourceOsFdInit d src h))

/-- `evdp_reset_source_os_fd_context`. -/
def evdpResetSourceOsFdContext (src : Source) : Source :=
  { src with
    added := false
    pending := false
    ctlEvent := { src.ctlEvent with events := ⟨false, false, false⟩ } }

def nebEvdpSourceOsFdReset (p : Ptr) (src : Source) (fd : Fd) (q : State) : Int × State :=
  if src.qInUse then
    (-1, q)
  else if src.type ≠ .osFd then
    (-1, q)
  else
    (0, q.setSource p (evdpResetSourceOsFdContext { src with fd := fd }))

/-! The ro_fd and the timer sources. -/

/-- What the attach functions of ro_fd and timer sources do last. -/
def evdpSourceRoFdAttach (p : Ptr) (src : Source) (q : State) : Int × State :=
  (0, slistPendingInsert p
    { src with ctlOp := .add, ctlEvent := ⟨⟨true, false, false⟩, some ⟨p, q.attachments⟩⟩ } q)

/-- `evdp_source_itimer_attach` and `evdp_source_abstimer_attach`; `settime` says that
`timerfd_settime` succeeds. -/
def evdpSourceTimerAttach (p : Ptr) (src : Source) (settime : Bool) (q : State) : Int × State :=
  if src.inAction then
    evdpSourceRoFdAttach p src q
  else if settime then
    evdpSourceRoFdAttach p { src with inAction := true } q
  else
    (-1, q)

/-- The un-registration of ro_fd and timer sources. -/
def delIfAdded (p : Ptr) (src : Source) (k : Kernel) : Source × Kernel :=
  if src.added then
    ({ src with added := false }, (k.epollCtl .del p src true).2)
  else
    (src, k)

def evdpSourceRoFdDetach (p : Ptr) (src : Source) (toClose : Bool) (k : Kernel) :
    Source × Kernel :=
  if toClose then ({ src with added := false }, k) else delIfAdded p src k

/-- `evdp_source_itimer_detach` and `evdp_source_abstimer_detach`; a failing `timerfd_settime` is
only logged. -/
def evdpSourceTimerDetach (p : Ptr) (src : Source) (k : Kernel) : Source × Kernel :=
  delIfAdded p { src with inAction := false } k

/-! Attaching and detaching. -/

/-- `neb_evdp_queue_attach`, on a queue that is not being destroyed. -/
def nebEvdpQueueAttach (p : Ptr) (src : Source) (settime : Bool) (q : State) : Int × State :=
  if src.qInUse then
    (-1, q)
  else
    let (ret, q') := match src.type with
      | .itimer => evdpSourceTimerAttach p { src with qInUse := true } settime q
      | .abstimer => evdpSourceTimerAttach p { src with qInUse := true } settime q
      | .roFd => evdpSourceRoFdAttach p { src with qInUse := true } q
      | .osFd => evdpSourceOsFdAttach p { src with qInUse := true } q
    if ret = 0 then
      (0, { q' with
        stale := Function.update q.stale p false
        attachments := q.attachments + 1 })
    else
      (-1, q)

def EpollEvent.clear (p : Ptr) (e : EpollEvent) : EpollEvent :=
  if e.data.map (·.ptr) = some p then { e with data := none } else e

/-- `evdp_queue_rm_pending_events`. -/
def evdpQueueRmPendingEvents (p : Ptr) (q : State) : State :=
  { q with ee := q.ee.take q.currentEvent ++ (q.ee.drop q.currentEvent).map (·.clear p) }

/-- The registration of the descriptor was made for `p`. -/
def Kernel.registeredFor (k : Kernel) (fd : Fd) (p : Ptr) : Bool :=
  (k.reg fd).any (fun r => r.event.data.map (·.ptr) = some p)

/-- The detach function for the type of the source. -/
def evdpSourceDetach (p : Ptr) (src : Source) (toClose : Bool) (k : Kernel) : Source × Kernel :=
  match src.type with
  | .itimer => evdpSourceTimerDetach p src k
  | .abstimer => evdpSourceTimerDetach p src k
  | .roFd => evdpSourceRoFdDetach p src toClose k
  | .osFd => evdpSourceOsFdDetach p src toClose k

/-- `do_detach_from_queue` up to its `on_remove`. -/
def doDetachFromQueue (p : Ptr) (src : Source) (toClose : Bool) (q : State) : State :=
  let q := evdpQueueRmPendingEvents p q
  let (src, k) := evdpSourceDetach p src toClose q.kernel
  let q := slistRemove p { q with
    kernel := k
    closing := if toClose && k.registeredFor src.fd p then src.fd :: q.closing else q.closing }
  if src.pending then
    { q with statsPending := q.statsPending - 1 }.setSource p
      { src with pending := false, qInUse := false }
  else
    { q with statsRunning := q.statsRunning - 1 }.setSource p { src with qInUse := false }

/-- `neb_evdp_queue_detach`; its `on_remove` is the user's turn again. -/
def nebEvdpQueueDetach (p : Ptr) (src : Source) (toClose : Bool) (q : State) : Int × State :=
  if !src.qInUse then
    (-1, q)
  else if src.noDetach then
    (-1, q)
  else
    (0, doDetachFromQueue p src toClose q)

/-- `close`, with what it means for the sources that are attached with the descriptor. -/
def closeFd (fd : Fd) (q : State) : State :=
  { q with
    kernel := q.kernel.close fd
    closing := q.closing.filter (· ≠ fd)
    stale := fun p => q.stale p || (q.sources p).any (fun src => src.qInUse && src.fd = fd) }

def nebEvdpSourceDel (p : Ptr) (src : Source) (q : State) : Int × State :=
  if src.qInUse then
    (-1, q)
  else
    let q := if src.type.isTimer then closeFd src.fd q else q
    (0, { q with sources := Function.update q.sources p none })

/-- A new source, all of whose fields are 0 but the type and the descriptor. -/
def newSource (type : SourceType) (fd : Fd) : Source where
  type := type
  qInUse := false
  pending := false
  noDetach := false
  fd := fd
  doRead := none
  doWrite := none
  ctlEvent := ⟨⟨false, false, false⟩, none⟩
  ctlOp := .unset
  added := false
  inCallback := false
  inAction := false

/-! The loop. -/

/-- One round of the loop of `evdp_queue_flush_pending_sources`, and its end. -/
def evdpQueueFlushPendingSources (count : Nat) (room : Bool) (q : State) : State :=
  match q.links.next .pendingQs with
  | none =>
    { q with
      statsPending := q.statsPending - count
      statsRunning := q.statsRunning + count
      ctl := .ready }
  | some (.source p) =>
    match q.sources p with
    | none => q.goto .undefined
    | some src =>
      let (e, k) := q.kernel.epollCtl src.ctlOp p src room
      if e = .ok then
        (slistRunningInsertNoStats p { src with added := true }
          (slistRemove p { q with kernel := k })).goto (.flushing (count + 1))
      else
        { q with kernel := k, ctl := .user }
  | some _ => q.goto .undefined

/-- The loop over the events, up to the handle function of a source. -/
def handleEvent (i : Nat) (q : State) : State :=
  match q.ee[i]? with
  | none =>
    if q.ee.isEmpty then q.goto .user else { q with ee := [], currentEvent := 0, ctl := .user }
  | some e =>
    let q := { q with currentEvent := i }
    match e.data with
    | none => q.goto (.events (i + 1))
    | some d =>
      match q.sources d.ptr with
      | none => q.goto .undefined
      | some src =>
        let src := { src with noDetach := true }
        -- the first lines of `evdp_source_os_fd_handle`
        let src := if src.type = .osFd then { src with added := false, ctlOp := .mod } else src
        (q.setSource d.ptr src).goto (.handle ⟨i, d.ptr, e⟩ .read)

/-- `ok` says that the `read` of the timer succeeds. -/
def evdpSourceItimerHandle (ne : NebEvdpEvent) (ok : Bool) (q : State) : State :=
  q.goto (if ok then .callback ne .last else .finish ne .breakErr)

/-- The function looks for `do_wakeup` where a `struct evdp_conf_itimer` has it, which is behind the
end of the `struct evdp_conf_abstimer` it is given. There it finds no handler but the zeros with
which `calloc` fills the block, so that nothing is called. -/
def evdpSourceAbstimerHandle (ne : NebEvdpEvent) (ok : Bool) (q : State) : State :=
  q.goto (.finish ne (if ok then .continue else .breakErr))

/-- `evdp_source_ro_fd_handle` from a stage on to its next callback or stage. -/
def evdpSourceRoFdHandle (ne : NebEvdpEvent) (stage : Stage) (q : State) : State :=
  match stage with
  | .read =>
    q.goto (if ne.event.events.epollin then .callback ne .read else .handle ne .hup)
  | _ =>
    q.goto (if ne.event.events.epollhup then .callback ne .hup else .finish ne .continue)

/-- `evdp_source_os_fd_handle` from a stage on to its next callback or stage. -/
def evdpSourceOsFdHandle (ne : NebEvdpEvent) (src : Source) (stage : Stage) (q : State) : State :=
  match stage with
  | .read =>
    if ne.event.events.epollin && src.doRead.isSome then
      (q.setSource ne.source { src.setInterest .read false with inCallback := true }).goto
        (.callback ne .read)
    else
      q.goto (.handle ne .hup)
  | .hup =>
    if ne.event.events.epollhup then
      (q.setSource ne.source { src with inCallback := true }).goto (.callback ne .hup)
    else
      q.goto (.handle ne .write)
  | .write =>
    if ne.event.events.epollout && src.doWrite.isSome then
      (q.setSource ne.source { src.setInterest .write false with inCallback := true }).goto
        (.callback ne .write)
    else
      q.goto (.handle ne .last)
  | .last =>
    if src.ctlEvent.events.any then
      if src.qInUse then
        (moveToPending ne.source src q).goto (.finish ne .continue)
      else
        q.goto .undefined
    else
      q.goto (.finish ne .continue)

/-- What the handle functions do with the result of a callback. -/
def afterCallback (ne : NebEvdpEvent) (stage : Stage) (ret : NebEvdpCbRet) : Ctl :=
  match stage with
  | .read => if ret = .continue then .handle ne .hup else .finish ne ret
  | .hup =>
    match ret with
    | .breakErr => .finish ne .breakErr
    | .breakExp => .finish ne .breakExp
    | .close => .finish ne .close
    | _ => .finish ne .remove
  | .write => if ret = .continue then .handle ne .last else .finish ne ret
  | .last => .finish ne ret

/-- The end of `handle_event`. -/
def finishEvent (ne : NebEvdpEvent) (src : Source) (ret : NebEvdpCbRet) (q : State) : State :=
  let src := { src with noDetach := false }
  match ret with
  | .remove => (doDetachFromQueue ne.source src false q).goto (.removed ne.index)
  | .close => (doDetachFromQueue ne.source src true q).goto (.removed ne.index)
  | .breakExp => (q.setSource ne.source src).goto .user
  | .breakErr => (q.setSource ne.source src).goto .user
  | _ => (q.setSource ne.source src).goto (.events (ne.index + 1))

inductive Action
  | openFd (fd : Fd)
  | closeFd (fd : Fd)
  | newSource (p : Ptr) (type : SourceType) (fd : Fd)
  | delSource (p : Ptr)
  | resetFd (p : Ptr) (fd : Fd)
  | nextRead (p : Ptr) (h : Option Handler) (room : Bool)
  | nextWrite (p : Ptr) (h : Option Handler) (room : Bool)
  | attach (p : Ptr) (settime : Bool)
  | detach (p : Ptr) (toClose : Bool)
  | run
  | flush (room : Bool)
  | wait (evs : List (Fd × Reported))
  | waitFails
  | proceed (ok : Bool)
  | cbReturn (ret : NebEvdpCbRet)
  deriving DecidableEq

/-- A call of the user on a live source. -/
def State.call (q : State) (p : Ptr) (f : Source → State) : Option State :=
  if q.ctl.userTurn then (q.sources p).map f else none

def Action.next : Dir → Ptr → Option Handler → Bool → Action
  | .read => .nextRead
  | .write => .nextWrite

/-- The call on an os_fd source. -/
def State.callNext (q : State) (d : Dir) (p : Ptr) (h : Option Handler) (room : Bool) :
    Option State :=
  if (q.sources p).any (fun src => src.type = .osFd) then
    q.call p (fun src => (nebEvdpSourceOsFdNext d p src h room q).2)
  else
    none

def step (q : State) : Action → Option State
  | .openFd fd =>
    if q.ctl.userTurn && !q.kernel.isOpen fd then
      some { q with kernel := { q.kernel with isOpen := Function.update q.kernel.isOpen fd true } }
    else
      none
  | .closeFd fd => if q.ctl.userTurn then some (closeFd fd q) else none
  | .newSource p type fd =>
    if q.ctl.userTurn && (q.sources p).isNone && !(type.isTimer && q.kernel.isOpen fd) then
      let q := if type.isTimer then
          { q with kernel := { q.kernel with isOpen := Function.update q.kernel.isOpen fd true } }
        else q
      some (q.setSource p (newSource type fd))
    else
      none
  | .delSource p => q.call p (fun src => (nebEvdpSourceDel p src q).2)
  | .resetFd p fd => q.call p (fun src => (nebEvdpSourceOsFdReset p src fd q).2)
  | .nextRead p h room => q.callNext .read p h room
  | .nextWrite p h room => q.callNext .write p h room
  | .attach p settime => q.call p (fun src => (nebEvdpQueueAttach p src settime q).2)
  | .detach p toClose => q.call p (fun src => (nebEvdpQueueDetach p src toClose q).2)
  | .run =>
    match q.ctl with
    | .user => some (q.goto (.flushing 0))
    | _ => none
  | .flush room =>
    match q.ctl with
    | .flushing count => some (evdpQueueFlushPendingSources count room q)
    | _ => none
  | .wait evs =>
    match q.ctl with
    | .ready =>
      if evs.length ≤ q.batchSize && (evs.map Prod.fst).Nodup then
        (q.kernel.epollWait evs).map (fun (k, ee) =>
          { q with kernel := k, ee := ee, ctl := .events 0 })
      else
        none
    | _ => none
  | .waitFails =>
    match q.ctl with
    | .ready => some { q with ee := [], ctl := .user }
    | _ => none
  | .proceed ok =>
    match q.ctl with
    | .events i => some (handleEvent i q)
    | .handle ne stage =>
      match q.sources ne.source with
      | none => some (q.goto .undefined)
      | some src =>
        match src.type with
        | .itimer => some (evdpSourceItimerHandle ne ok q)
        | .abstimer => some (evdpSourceAbstimerHandle ne ok q)
        | .roFd => some (evdpSourceRoFdHandle ne stage q)
        | .osFd => some (evdpSourceOsFdHandle ne src stage q)
    | .finish ne ret =>
      match q.sources ne.source with
      | none => some (q.goto .undefined)
      | some src => some (finishEvent ne src ret q)
    | .removed i => some (q.goto (.events (i + 1)))
    | _ => none
  | .cbReturn ret =>
    match q.ctl with
    | .callback ne stage =>
      match q.sources ne.source with
      | none => some (q.goto .undefined)
      | some src =>
        some ((q.setSource ne.source
          (if src.type = .osFd then { src with inCallback := false } else src)).goto
            (afterCallback ne stage ret))
    | _ => none

end Nebase.Evdp.Epoll
