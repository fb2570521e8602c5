/- The event queue with its kevent driver: one array takes the changes of a flush and the events of
   a wait, and a source asks for each direction with an event of its own. -/

import Nebase.Evdp.Epoll.Model

set_option autoImplicit false
set_option relaxedAutoImplicit false

namespace Nebase.Evdp.Kevent

open Nebase.Evdp.Epoll (Ptr Handler SourceType Dir NebEvdpCbRet Stage)

inductive Filter
  | read
  | write
  | timer
  deriving DecidableEq

/-- `EVFILT_READ` and `EVFILT_WRITE`. -/
def Filter.ofDir : Dir → Filter
  | .read => .read
  | .write => .write

/-- The bits of `flags` that are set or looked at; a deletion is `EV_DISABLE | EV_DELETE`. -/
structure Flags where
  evAdd : Bool
  evOneshot : Bool
  evDelete : Bool
  evEof : Bool
  evError : Bool
  deriving DecidableEq

/-- `EV_ADD | EV_ENABLE`, with `EV_ONESHOT` or without it. -/
def Flags.add (oneshot : Bool) : Flags := ⟨true, oneshot, false, false, false⟩

/-- `EV_DISABLE | EV_DELETE`. -/
def Flags.delete : Flags := ⟨false, false, true, false, false⟩

/-- A `struct kevent`. -/
structure KEvent where
  ident : Nat
  filter : Filter
  flags : Flags
  udata : Option Ptr
  deriving DecidableEq

/-- The `rd` and `wr` members of an os_fd context. -/
structure Half where
  added : Bool
  toAdd : Bool
  ctlEvent : KEvent
  deriving DecidableEq

/-- A source with its configuration and its context. `ident` is the descriptor or the timer's
identifier; `ctlEvent` and `attached` belong to timer and ro_fd sources, `rd`, `wr` and
`statsUpdated` to os_fd sources. -/
structure Source where
  type : SourceType
  qInUse : Bool
  pending : Bool
  noDetach : Bool
  ident : Nat
  doRead : Option Handler
  doWrite : Option Handler
  rd : Half
  wr : Half
  statsUpdated : Bool
  ctlEvent : KEvent
  attached : Bool
  deriving DecidableEq

def Source.handler (src : Source) : Dir → Option Handler
  | .read => src.doRead
  | .write => src.doWrite

def Source.setHandler (src : Source) (d : Dir) (h : Option Handler) : Source :=
  match d with
  | .read => { src with doRead := h }
  | .write => { src with doWrite := h }

def Source.half (src : Source) : Dir → Half
  | .read => src.rd
  | .write => src.wr

def Source.setHalf (src : Source) (d : Dir) (h : Half) : Source :=
  match d with
  | .read => { src with rd := h }
  | .write => { src with wr := h }

/-! The kernel. -/

structure Knote where
  udata : Option Ptr
  oneshot : Bool
  deriving DecidableEq

/-- The knotes of a kqueue, by identifier and filter. -/
abbrev Kernel := Nat × Filter → Option Knote

/-- One change; `room` says that the kernel finds the memory it needs. A change that neither adds
nor deletes is one for a knote that is there. -/
def Kernel.change (k : Kernel) (e : KEvent) (room : Bool) : Option Kernel :=
  if e.flags.evDelete then
    if (k (e.ident, e.filter)).isSome then some (Function.update k (e.ident, e.filter) none)
    else none
  else if (k (e.ident, e.filter)).isSome || (e.flags.evAdd && room) then
    some (Function.update k (e.ident, e.filter) (some ⟨e.udata, e.flags.evOneshot⟩))
  else
    none

/-- A `kevent` call without an event list: it ends with the first change that fails. -/
def Kernel.changes (k : Kernel) (room : Bool) : List KEvent → Bool × Kernel
  | [] => (true, k)
  | e :: es =>
    match k.change e room with
    | some k' => Kernel.changes k' room es
    | none => (false, k)

/-- The changes of a `kevent` call with an event list: one that fails is reported there. -/
def Kernel.submit (k : Kernel) (room : Bool) : List KEvent → Kernel × List KEvent
  | [] => (k, [])
  | e :: es =>
    match k.change e room with
    | some k' => Kernel.submit k' room es
    | none =>
      let (k', errors) := Kernel.submit k room es
      (k', { e with flags := { e.flags with evError := true } } :: errors)

/-- The events a wait reports, and the kernel after them: a oneshot knote is gone. -/
def Kernel.deliver (k : Kernel) : List (Nat × Filter × Bool) → Option (Kernel × List KEvent)
  | [] => some (k, [])
  | (ident, filter, eof) :: rest =>
    match k (ident, filter) with
    | none => none
    | some n =>
      match Kernel.deliver (if n.oneshot then Function.update k (ident, filter) none else k)
          rest with
      | none => none
      | some (k', events) =>
        some (k', ⟨ident, filter, ⟨false, n.oneshot, false, eof, false⟩, n.udata⟩ :: events)

/-! The queue. -/

/-- `struct neb_evdp_event`, with the index it was fetched at. -/
structure NebEvdpEvent where
  index : Nat
  source : Ptr
  event : KEvent
  deriving DecidableEq

/-- Where the program stands. `user` is the user's code outside the loop and `callback` a callback
of the source being handled; `removed` is the `on_remove` of a source that the loop has detached. A
flush is at the source `s`, the one before was `last`, and `count` entries are written. -/
inductive Ctl
  | user
  | flushing (last s : Option Ptr) (count : Nat)
  | ready
  | events (i : Nat)
  | callback (ne : NebEvdpEvent) (stage : Stage)
  | finish (ne : NebEvdpEvent) (ret : NebEvdpCbRet)
  | removed (i : Nat)
  | undefined
  deriving DecidableEq

def Ctl.userTurn : Ctl → Bool
  | .user => true
  | .callback _ _ => true
  | .removed _ => true
  | _ => false

/-- `ee` is the array as far as it was written. `written` is a ghost: the entries that the flush of
this round has written and not submitted itself. -/
structure State where
  sources : Ptr → Option Source
  pendingQs : List Ptr
  runningQs : List Ptr
  statsPending : Int
  statsRunning : Int
  batchSize : Nat
  ee : List KEvent
  nevents : Int
  currentEvent : Nat
  kernel : Kernel
  ctl : Ctl
  written : List KEvent

/-- `neb_evdp_queue_create`. -/
def nebEvdpQueueCreate (batchSize : Nat) : State where
  sources := fun _ => none
  pendingQs := []
  runningQs := []
  statsPending := 1
  statsRunning := 1
  batchSize := batchSize
  ee := []
  nevents := 0
  currentEvent := 0
  kernel := fun _ => none
  ctl := .user
  written := []

def State.setSource (q : State) (p : Ptr) (src : Source) : State :=
  { q with sources := Function.update q.sources p (some src) }

def State.goto (q : State) (ctl : Ctl) : State := { q with ctl := ctl }

/-- `EVDP_SLIST_REMOVE`. -/
def slistRemove (p : Ptr) (q : State) : State :=
  { q with pendingQs := q.pendingQs.erase p, runningQs := q.runningQs.erase p }

/-- `EVDP_SLIST_PENDING_INSERT`. -/
def slistPendingInsert (p : Ptr) (src : Source) (q : State) : State :=
  { q with
    pendingQs := p :: q.pendingQs
    sources := Function.update q.sources p (some { src with pending := true })
    statsPending := q.statsPending + 1 }

/-- `EVDP_SLIST_RUNNING_INSERT_NO_STATS`. -/
def slistRunningInsertNoStats (p : Ptr) (src : Source) (q : State) : State :=
  { q with
    runningQs := p :: q.runningQs
    sources := Function.update q.sources p (some { src with pending := false }) }

/-- `EVDP_SLIST_RUNNING_INSERT`. -/
def slistRunningInsert (p : Ptr) (src : Source) (q : State) : State :=
  { slistRunningInsertNoStats p src q with statsRunning := q.statsRunning + 1 }

/-- The three lines that put a source which is believed to be running into the pending list. -/
def moveToPending (p : Ptr) (src : Source) (q : State) : State :=
  slistPendingInsert p src { slistRemove p q with statsRunning := q.statsRunning - 1 }

/-- The three lines that put a pending source back into the running list. -/
def moveToRunning (p : Ptr) (src : Source) (q : State) : State :=
  slistRunningInsert p src { slistRemove p q with statsPending := q.statsPending - 1 }

/-! The os_fd sources. -/

def evdpSourceOsFdAttach (p : Ptr) (src : Source) (q : State) : Int × State :=
  let src := { src with
    rd := { src.rd with ctlEvent := ⟨src.ident, .read, .add true, some p⟩ }
    wr := { src.wr with ctlEvent := ⟨src.ident, .write, .add true, some p⟩ } }
  if src.rd.toAdd || src.wr.toAdd then
    (0, slistPendingInsert p { src with statsUpdated := false } q)
  else
    (0, slistRunningInsert p src q)

/-- `do_del_os_fd_rd` and `do_del_os_fd_wr`; `ok` says that the change does not fail otherwise than
with `ENOENT`. -/
def doDelOsFd (d : Dir) (src : Source) (ok : Bool) (k : Kernel) : Int × Source × Kernel :=
  let h := { src.half d with ctlEvent := { (src.half d).ctlEvent with flags := .delete } }
  if ok then
    (0, src.setHalf d { h with added := false }, (k.change h.ctlEvent true).getD k)
  else
    (-1, src.setHalf d h, k)

def evdpSourceOsFdDetach (src : Source) (toClose ok : Bool) (k : Kernel) : Source × Kernel :=
  if toClose then
    ({ src with rd := { src.rd with added := false }, wr := { src.wr with added := false } }, k)
  else
    let (src, k) := if src.rd.added then (doDelOsFd .read src ok k).2 else (src, k)
    if src.wr.added then (doDelOsFd .write src ok k).2 else (src, k)

/-- `evdp_source_os_fd_init_read` and `evdp_source_os_fd_init_write`. -/
def evdpSourceOsFdInit (d : Dir) (src : Source) (h : Option Handler) : Source :=
  src.setHalf d { src.half d with toAdd := h.isSome }

/-- `evdp_source_os_fd_reset_read` and `evdp_source_os_fd_reset_write`. -/
def evdpSourceOsFdReset (d : Dir) (p : Ptr) (src : Source) (q : State) : Int × State :=
  if (src.half d).added then
    (0, q.setSource p src)
  else
    let src := src.setHalf d { src.half d with
      toAdd := true
      ctlEvent := { (src.half d).ctlEvent with flags := .add true } }
    if src.pending then
      (0, q.setSource p src)
    else
      (0, moveToPending p src q)

/-- `evdp_source_os_fd_unset_read` and `evdp_source_os_fd_unset_write`. -/
def evdpSourceOsFdUnset (d : Dir) (p : Ptr) (src : Source) (ok : Bool) (q : State) : Int × State :=
  if (src.half d).added then
    let (r, src, k) := doDelOsFd d src ok q.kernel
    (r, { q with kernel := k }.setSource p src)
  else
    let src := src.setHalf d { src.half d with toAdd := false }
    if src.pending then
      if (src.half d.other).toAdd then
        (0, q.setSource p src)
      else
        (0, moveToRunning p src q)
    else
      (0, q.setSource p src)

/-- `neb_evdp_source_os_fd_next_read` and `neb_evdp_source_os_fd_next_write`. -/
def nebEvdpSourceOsFdNext (d : Dir) (p : Ptr) (src : Source) (h : Option Handler) (ok : Bool)
    (q : State) : Int × State :=
  let src := src.setHandler d h
  if src.qInUse then
    if h.isSome then evdpSourceOsFdReset d p src q else evdpSourceOsFdUnset d p src ok q
  else
    (0, q.setSource p (evdpSourceOsFdInit d src h))

/-- `evdp_reset_source_os_fd_context`. -/
def evdpResetSourceOsFdContext (src : Source) : Source :=
  { src with
    pending := false
    rd := { src.rd with added := false, toAdd := false }
    wr := { src.wr with added := false, toAdd := false } }

def nebEvdpSourceOsFdReset (p : Ptr) (src : Source) (fd : Nat) (q : State) : Int × State :=
  if src.qInUse then
    (-1, q)
  else if src.type ≠ .osFd then
    (-1, q)
  else
    (0, q.setSource p (evdpResetSourceOsFdContext { src with ident := fd }))

/-! The ro_fd and the timer sources. -/

def evdpSourceRoFdAttach (p : Ptr) (src : Source) (q : State) : Int × State :=
  (0, slistPendingInsert p
    { src with ctlEvent := ⟨src.ident, .read, .add false, some p⟩ } q)

/-- `evdp_source_itimer_attach` and `evdp_source_abstimer_attach`. -/
def evdpSourceTimerAttach (p : Ptr) (src : Source) (q : State) : Int × State :=
  (0, slistPendingInsert p { src with attached := true } q)

def evdpSourceRoFdDetach (src : Source) (toClose ok : Bool) (k : Kernel) : Source × Kernel :=
  if toClose || src.pending then
    (src, k)
  else
    let src := { src with ctlEvent := { src.ctlEvent with flags := .delete } }
    (src, if ok then (k.change src.ctlEvent true).getD k else k)

/-- `evdp_source_itimer_detach` and `evdp_source_abstimer_detach`. -/
def evdpSourceTimerDetach (src : Source) (ok : Bool) (k : Kernel) : Source × Kernel :=
  ({ src with attached := false },
    if src.attached && !src.pending && ok then
      (k.change ⟨src.ident, .timer, .delete, none⟩ true).getD k
    else k)

/-- `evdp_source_abstimer_regulate` after its `neb_daytime_abs_nearest`; `ok` says that a `kevent`
call succeeds. -/
def evdpSourceAbstimerRegulate (p : Ptr) (src : Source) (ok : Bool) (q : State) : Int × State :=
  let src := { src with ctlEvent := ⟨src.ident, .timer, .add true, some p⟩ }
  if src.attached && !src.pending then
    match if ok then q.kernel.change src.ctlEvent true else none with
    | some k => (0, { q with kernel := k }.setSource p src)
    | none => (-1, q.setSource p src)
  else
    (0, q.setSource p src)

/-! Attaching and detaching. -/

/-- `neb_evdp_queue_attach`, on a queue that is not being destroyed. -/
def nebEvdpQueueAttach (p : Ptr) (src : Source) (q : State) : Int × State :=
  if src.qInUse then
    (-1, q)
  else
    match src.type with
    | .itimer => evdpSourceTimerAttach p { src with qInUse := true } q
    | .abstimer => evdpSourceTimerAttach p { src with qInUse := true } q
    | .roFd => evdpSourceRoFdAttach p { src with qInUse := true } q
    | .osFd => evdpSourceOsFdAttach p { src with qInUse := true } q

def KEvent.clear (p : Ptr) (e : KEvent) : KEvent :=
  if e.udata = some p then { e with udata := none } else e

/-- `evdp_queue_rm_pending_events`. -/
def evdpQueueRmPendingEvents (p : Ptr) (q : State) : State :=
  { q with
    ee := q.ee.take q.currentEvent
      ++ ((q.ee.take q.nevents.toNat).drop q.currentEvent).map (·.clear p)
      ++ q.ee.drop (max q.currentEvent q.nevents.toNat) }

/-- The detach function for the type of the source. -/
def evdpSourceDetach (src : Source) (toClose ok : Bool) (k : Kernel) : Source × Kernel :=
  match src.type with
  | .itimer => evdpSourceTimerDetach src ok k
  | .abstimer => evdpSourceTimerDetach src ok k
  | .roFd => evdpSourceRoFdDetach src toClose ok k
  | .osFd => evdpSourceOsFdDetach src toClose ok k

/-- `do_detach_from_queue` up to its `on_remove`. -/
def doDetachFromQueue (p : Ptr) (src : Source) (toClose ok : Bool) (q : State) : State :=
  let q := evdpQueueRmPendingEvents p q
  let (src, k) := evdpSourceDetach src toClose ok q.kernel
  let q := slistRemove p { q with kernel := k }
  if src.pending then
    { q with statsPending := q.statsPending - 1 }.setSource p
      { src with pending := false, qInUse := false }
  else
    { q with statsRunning := q.statsRunning - 1 }.setSource p { src with qInUse := false }

/-- `neb_evdp_queue_detach`; its `on_remove` is the user's turn again. -/
def nebEvdpQueueDetach (p : Ptr) (src : Source) (toClose ok : Bool) (q : State) : Int × State :=
  if !src.qInUse then
    (-1, q)
  else if src.noDetach then
    (-1, q)
  else
    (0, doDetachFromQueue p src toClose ok q)

def nebEvdpSourceDel (p : Ptr) (src : Source) (q : State) : Int × State :=
  if src.qInUse then
    (-1, q)
  else
    (0, { q with sources := Function.update q.sources p none })

/-- What `calloc` leaves in a `struct kevent` that is not set yet. -/
def unsetEvent : KEvent := ⟨0, .read, ⟨false, false, false, false, false⟩, none⟩

/-- A new source; timers have their event from the start. -/
def newSource (p : Ptr) (type : SourceType) (ident : Nat) : Source where
  type := type
  qInUse := false
  pending := false
  noDetach := false
  ident := ident
  doRead := none
  doWrite := none
  rd := ⟨false, false, unsetEvent⟩
  wr := ⟨false, false, unsetEvent⟩
  statsUpdated := false
  ctlEvent :=
    match type with
    | .itimer => ⟨ident, .timer, .add false, some p⟩
    | .abstimer => ⟨ident, .timer, .add true, some p⟩
    | _ => unsetEvent
  attached := false

/-! The loop. -/

/-- The `switch` over the filter of a submitted entry. -/
def Source.submitted (src : Source) : Filter → Source
  | .read => { src with rd := { src.rd with added := true, toAdd := false } }
  | .write => { src with wr := { src.wr with added := true, toAdd := false } }
  | .timer => src

/-- What the driver does for one submitted entry, after a batch and before a wait. -/
def moveSubmitted (e : KEvent) (q : State) : Option State :=
  match e.udata with
  | none => none
  | some p =>
    match q.sources p with
    | none => none
    | some src =>
      if src.type = .osFd then
        if src.statsUpdated then
          some ({ q with
            statsPending := q.statsPending + 1
            statsRunning := q.statsRunning - 1 }.setSource p (src.submitted e.filter))
        else
          some (slistRunningInsertNoStats p { src.submitted e.filter with statsUpdated := true }
            (slistRemove p q))
      else
        some (slistRunningInsertNoStats p src (slistRemove p q))

def moveAllSubmitted : List KEvent → State → Option State
  | [], q => some q
  | e :: es, q => (moveSubmitted e q).bind (moveAllSubmitted es)

/-- `do_batch_flush`, of the first `nr` entries. -/
def doBatchFlush (nr : Nat) (room : Bool) (q : State) : Bool × State :=
  let (ok, k) := q.kernel.changes room (q.ee.take nr)
  if ok then
    match moveAllSubmitted (q.ee.take nr) { q with
        kernel := k
        written := []
        statsPending := q.statsPending - nr
        statsRunning := q.statsRunning + nr } with
    | some q' => (true, q')
    | none => (false, q.goto .undefined)
  else
    (false, { q with kernel := k, ctl := .user })

/-- The entries that a flush writes for a source. -/
def Source.entries (src : Source) : List KEvent :=
  if src.type = .osFd then
    (if src.rd.toAdd then [src.rd.ctlEvent] else []) ++
      (if src.wr.toAdd then [src.wr.ctlEvent] else [])
  else
    [src.ctlEvent]

/-- `s->next`. -/
def State.nextPending (q : State) (p : Ptr) : Option Ptr :=
  (q.pendingQs.dropWhile (· ≠ p)).tail.head?

/-- One round of the loop of `evdp_queue_flush_pending_sources`, and its end. An entry written past
the end of the array is undefined. -/
def evdpQueueFlushPendingSources (last s : Option Ptr) (count : Nat) (room : Bool) (q : State) :
    State :=
  match s with
  | none => { q with nevents := if count = 0 then q.nevents else count, ctl := .ready }
  | some p =>
    if last = some p then
      { q with nevents := if count = 0 then q.nevents else count, ctl := .ready }
    else
      match q.sources p with
      | none => q.goto .undefined
      | some src =>
        if q.batchSize < count + src.entries.length then
          q.goto .undefined
        else
          let q := { q with
            ee := q.ee.take count ++ src.entries ++ q.ee.drop (count + src.entries.length)
            written := q.written ++ src.entries }
          let q := if src.type = .osFd then q.setSource p { src with statsUpdated := false } else q
          let count := count + src.entries.length
          if q.batchSize ≤ count then
            let (ok, q) := doBatchFlush count room q
            if ok then q.goto (.flushing (some p) q.pendingQs.head? 0) else q
          else
            q.goto (.flushing (some p) (q.nextPending p) count)

/-- `evdp_queue_wait_events` up to its `kevent` call. -/
def beforeWait (q : State) : Option State :=
  moveAllSubmitted (q.ee.take q.nevents.toNat) { q with
    statsPending := q.statsPending - q.nevents
    statsRunning := q.statsRunning + q.nevents }

/-- The `kevent` call of `evdp_queue_wait_events`: the first `nevents` entries are the changes, and
the events are reported over them unless a change fails. -/
def evdpQueueWaitEvents (room : Bool) (evs : List (Nat × Filter × Bool)) (q : State) :
    Option State :=
  let (k, errors) := q.kernel.submit room (q.ee.take q.nevents.toNat)
  match if errors.isEmpty then k.deliver evs else some (k, []) with
  | none => none
  | some (k, events) =>
    let reported := errors ++ events
    if reported.length ≤ q.batchSize then
      some { q with
        kernel := k
        ee := reported ++ q.ee.drop reported.length
        nevents := reported.length
        written := []
        ctl := .events 0 }
    else
      none

/-- The loop over the events, up to the first callback of a source. -/
def handleEvent (i : Nat) (q : State) : State :=
  if q.nevents ≤ i then
    if q.nevents = 0 then q.goto .user
    else { q with nevents := 0, currentEvent := 0, ctl := .user }
  else
    let q := { q with currentEvent := i }
    match q.ee[i]? with
    | none => q.goto .undefined
    | some e =>
      if e.flags.evError then
        q.goto .user
      else
        match e.udata with
        | none => q.goto (.events (i + 1))
        | some p =>
          match q.sources p with
          | none => q.goto .undefined
          | some src =>
            let src := { src with noDetach := true }
            let ne := ⟨i, p, e⟩
            match src.type with
            | .itimer => (q.setSource p src).goto (.callback ne .last)
            | .abstimer =>
              (q.setSource p { src with attached := false }).goto (.callback ne .last)
            | .roFd =>
              (q.setSource p src).goto
                (if e.filter = .read then .callback ne .read
                else if e.flags.evEof then .callback ne .hup
                else .finish ne .continue)
            | .osFd =>
              match e.filter with
              | .read =>
                (q.setSource p { src with rd := { src.rd with added := false } }).goto
                  (if src.doRead.isSome then .callback ne .read else .undefined)
              | .write =>
                (q.setSource p { src with wr := { src.wr with added := false } }).goto
                  (if e.flags.evEof then .callback ne .hup
                  else if src.doWrite.isSome then .callback ne .write
                  else .undefined)
              | .timer => (q.setSource p src).goto (.finish ne .breakErr)

/-- What the handle functions do with the result of a callback; `ok` says that the abstimer finds
its next time. -/
def afterCallback (ne : NebEvdpEvent) (stage : Stage) (src : Source) (ret : NebEvdpCbRet)
    (ok : Bool)
    (q : State) : State :=
  match stage with
  | .read =>
    q.goto (if ret = .continue && ne.event.flags.evEof then .callback ne .hup else .finish ne ret)
  | .hup =>
    match ret with
    | .breakErr => q.goto (.finish ne .breakErr)
    | .breakExp => q.goto (.finish ne .breakExp)
    | .close => q.goto (.finish ne .close)
    | _ => q.goto (.finish ne .remove)
  | .write => q.goto (.finish ne ret)
  | .last =>
    if src.type = .abstimer ∧ ret = .continue then
      if ok then
        (moveToPending ne.source { src with
          ctlEvent := ⟨src.ident, .timer, .add true, some ne.source⟩
          attached := true } q).goto (.finish ne .continue)
      else
        q.goto (.finish ne .breakErr)
    else
      q.goto (.finish ne ret)

/-- The end of `handle_event`. -/
def finishEvent (ne : NebEvdpEvent) (src : Source) (ret : NebEvdpCbRet) (ok : Bool) (q : State) :
    State :=
  let src := { src with noDetach := false }
  match ret with
  | .remove => (doDetachFromQueue ne.source src false ok q).goto (.removed ne.index)
  | .close => (doDetachFromQueue ne.source src true ok q).goto (.removed ne.index)
  | .breakExp => (q.setSource ne.source src).goto .user
  | .breakErr => (q.setSource ne.source src).goto .user
  | _ => (q.setSource ne.source src).goto (.events (ne.index + 1))

inductive Action
  | closeFd (fd : Nat)
  | newSource (p : Ptr) (type : SourceType) (ident : Nat)
  | delSource (p : Ptr)
  | resetFd (p : Ptr) (fd : Nat)
  | next (d : Dir) (p : Ptr) (h : Option Handler) (ok : Bool)
  | regulate (p : Ptr) (ok : Bool)
  | attach (p : Ptr)
  | detach (p : Ptr) (toClose ok : Bool)
  | run
  | flush (room : Bool)
  | wait (room : Bool) (evs : List (Nat × Filter × Bool))
  | waitFails
  | proceed (ok : Bool)
  | cbReturn (ret : NebEvdpCbRet) (ok : Bool)
  deriving DecidableEq

/-- A call of the user on a live source. -/
def State.call (q : State) (p : Ptr) (f : Source → State) : Option State :=
  if q.ctl.userTurn then (q.sources p).map f else none

def step (q : State) : Action → Option State
  | .closeFd fd =>
    if q.ctl.userTurn then
      some { q with
        kernel := Function.update (Function.update q.kernel (fd, .read) none) (fd, .write) none }
    else
      none
  | .newSource p type ident =>
    if q.ctl.userTurn && (q.sources p).isNone then
      some (q.setSource p (newSource p type ident))
    else
      none
  | .delSource p => q.call p (fun src => (nebEvdpSourceDel p src q).2)
  | .resetFd p fd => q.call p (fun src => (nebEvdpSourceOsFdReset p src fd q).2)
  | .next d p h ok =>
    if (q.sources p).any (fun src => src.type = .osFd) then
      q.call p (fun src => (nebEvdpSourceOsFdNext d p src h ok q).2)
    else
      none
  | .regulate p ok =>
    if (q.sources p).any (fun src => src.type = .abstimer) then
      q.call p (fun src => (evdpSourceAbstimerRegulate p src ok q).2)
    else
      none
  | .attach p => q.call p (fun src => (nebEvdpQueueAttach p src q).2)
  | .detach p toClose ok => q.call p (fun src => (nebEvdpQueueDetach p src toClose ok q).2)
  | .run =>
    match q.ctl with
    | .user => some { q with written := [], ctl := .flushing none q.pendingQs.head? 0 }
    | _ => none
  | .flush room =>
    match q.ctl with
    | .flushing last s count => some (evdpQueueFlushPendingSources last s count room q)
    | _ => none
  | .wait room evs =>
    match q.ctl with
    | .ready =>
      match beforeWait q with
      | none => some (q.goto .undefined)
      | some q => evdpQueueWaitEvents room evs q
    | _ => none
  | .waitFails =>
    match q.ctl with
    | .ready =>
      match beforeWait q with
      | none => some (q.goto .undefined)
      | some q => some { q with nevents := -1, written := [], ctl := .user }
    | _ => none
  | .proceed ok =>
    match q.ctl with
    | .events i => some (handleEvent i q)
    | .finish ne ret =>
      match q.sources ne.source with
      | none => some (q.goto .undefined)
      | some src => some (finishEvent ne src ret ok q)
    | .removed i => some (q.goto (.events (i + 1)))
    | _ => none
  | .cbReturn ret ok =>
    match q.ctl with
    | .callback ne stage =>
      match q.sources ne.source with
      | none => some (q.goto .undefined)
      | some src => some (afterCallback ne stage src ret ok q)
    | _ => none

end Nebase.Evdp.Kevent
