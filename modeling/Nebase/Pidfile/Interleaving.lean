/- Any number of processes that run the pidfile functions on one path, one system call at a time:
   when the pid that a blocked process reports is that of a process that held the lock. -/

import Nebase.Pidfile.Model
import Nebase.Foundation.Machine

set_option autoImplicit false
set_option relaxedAutoImplicit false

namespace Nebase.Pidfile

open Nebase.Foundation
open Nebase.Foundation.Decimal

/-- `neb_pidfile_open`, `neb_pidfile_write` and `neb_pidlock`. -/
inductive Func
  | open
  | write
  | pidlock
  deriving DecidableEq

/-- Where a process is. -/
inductive Ctl
  | idle
  /-- has opened the file and comes to `fcntl` -/
  | opened (f : Func) (d : Fd)
  /-- has the lock and comes to `ftruncate` -/
  | locked (f : Func) (d : Fd)
  /-- comes to the `write` of `set_pid` -/
  | truncated (f : Func) (d : Fd)
  /-- has found a lock and comes to the `read` of `get_pid` -/
  | blocked (f : Func) (d : Fd)
  /-- comes to `close`, with this value in `*locker` -/
  | closing (f : Func) (d : Fd) (locker : Int)
  /-- back from the call, with the descriptor and `*locker`; `neb_pidfile_write` returns the
  `locker` -/
  | returned (f : Func) (fd : Option Fd) (locker : Int)
  /-- has written past the end of `pidbuf` -/
  | undefined
  deriving DecidableEq

/-- `taker`, `published` and `held` are ghosts: the process that took the lock last, whether it has
written its whole pid at the start of the file since, and which processes held the lock at some
moment since the last call of a process began. -/
structure State where
  kernel : Kernel
  ctl : Pid → Ctl
  taker : Option Pid
  published : Bool
  held : Pid → List Pid

inductive Act
  /-- `neb_pidfile_open` or `neb_pidlock` begins, and `open` returns this. -/
  | openFile (f : Func) (d : Option Fd)
  /-- `F_GETLK` of `neb_pidfile_open`, `F_SETLK` of `neb_pidlock`. -/
  | fcntl (ok : Bool)
  /-- `neb_pidfile_write` begins, with `F_SETLK`. -/
  | writeFile (d : Fd) (ok : Bool)
  | ftruncate (ok : Bool)
  /-- `none` when `write` fails, or the number of bytes there is room for. -/
  | write (room : Option Nat)
  | read (ok : Bool)
  | close
  /-- `neb_pidfile_close`. -/
  | pidfileClose (d : Fd)
  | fork (child : Pid)
  | exit

/-- A process makes its next system call. -/
structure Action where
  pid : Pid
  act : Act

/-- Nobody runs, and the file is what earlier processes left. -/
def State.left (file : List UInt8) : State where
  kernel := Kernel.left file
  ctl := fun _ => .idle
  taker := none
  published := false
  held := fun _ => []

def State.goto (q : State) (p : Pid) (k : Kernel) (c : Ctl) : State :=
  { q with kernel := k, ctl := Function.update q.ctl p c }

/-- A call of `p` begins, and what the last one returned is gone. -/
def State.start (q : State) (p : Pid) : State :=
  { q with
    ctl := Function.update q.ctl p .idle
    held := Function.update q.held p q.kernel.locker.toList }

/-- `p` gets the lock. -/
def State.take (q : State) (p : Pid) (f : Func) (d : Fd) : State :=
  { q with
    kernel := q.kernel.lock p
    ctl := Function.update q.ctl p (.locked f d)
    taker := some p
    published := false
    held := fun r => p :: q.held r }

/-- The function returns this pid; `neb_pidfile_open` and `neb_pidlock` close the file before. -/
def leave (f : Func) (d : Fd) (locker : Int) : Ctl :=
  match f with
  | .write => .returned .write none locker
  | f => .closing f d locker

/-- The function fails for another reason than a lock. -/
def failed (f : Func) (d : Fd) : Ctl :=
  match f with
  | .write => .returned .write none (-1)
  | f => .closing f d 0

/-- The function has the lock and has written the pid. -/
def succeeded (f : Func) (d : Fd) : Ctl :=
  match f with
  | .write => .returned .write none 0
  | f => .returned f (some d) 0

/-- `F_SETLK`. -/
def setlk (q : State) (p : Pid) (f : Func) (d : Fd) (ok : Bool) : State :=
  if !ok then
    q.goto p q.kernel (failed f d)
  else if q.kernel.blocks p then
    q.goto p q.kernel (.blocked f d)
  else
    q.take p f d

/-- `F_GETLK`. -/
def getlk (q : State) (p : Pid) (d : Fd) (ok : Bool) : State :=
  if !ok then
    q.goto p q.kernel (failed .open d)
  else if q.kernel.blocks p then
    q.goto p q.kernel (.blocked .open d)
  else
    q.goto p q.kernel (.returned .open (some d) 0)

/-- The `write` of `set_pid`. -/
def writePid (q : State) (p : Pid) (f : Func) (d : Fd) (room : Option Nat) : State :=
  match room with
  | none => q.goto p q.kernel (failed f d)
  | some room =>
    let nw := min room (decimal p.val).length
    if nw = (decimal p.val).length then
      { q.goto p (q.kernel.write d (decimal p.val)) (succeeded f d) with
        published := q.kernel.tell d = 0 }
    else
      q.goto p (q.kernel.write d ((decimal p.val).take nw)) (failed f d)

/-- The `read` of `get_pid`, and what it makes of the bytes. -/
def readPid (q : State) (p : Pid) (f : Func) (d : Fd) (ok : Bool) : State :=
  if ok then
    match pidOf (q.kernel.read d PIDFILE_PIDBUF_SIZE).1 with
    | none => q.goto p (q.kernel.read d PIDFILE_PIDBUF_SIZE).2 .undefined
    | some v => q.goto p (q.kernel.read d PIDFILE_PIDBUF_SIZE).2 (leave f d v)
  else
    q.goto p q.kernel (leave f d (-1))

/-- The process is not in one of the functions. -/
def Ctl.outside : Ctl → Bool
  | .idle | .returned _ _ _ => true
  | _ => false

/-- All descriptors of the process are closed, and it is gone. -/
def exit (q : State) (p : Pid) : State :=
  q.goto p
    { q.kernel with
      locker := if q.kernel.locker = some p then none else q.kernel.locker
      opened := Function.update q.kernel.opened p [] }
    .idle

/-- The child has the descriptors of its parent, and none of its locks. -/
def fork (q : State) (p child : Pid) : State :=
  { q with
    kernel := { q.kernel with
      opened := Function.update q.kernel.opened child (q.kernel.opened p) } }

/-- One system call of the process `p`. -/
def sysCall (q : State) (p : Pid) : Act → Option State
  | .openFile f d =>
    if (q.ctl p).outside = true ∧ f ≠ .write then
      match d with
      | none => some ((q.start p).goto p q.kernel (.returned f none 0))
      | some d =>
        if q.kernel.offset d = none then
          some ((q.start p).goto p (q.kernel.openFd p d) (.opened f d))
        else
          none
    else
      none
  | .fcntl ok =>
    match q.ctl p with
    | .opened .open d => some (getlk q p d ok)
    | .opened f d => some (setlk q p f d ok)
    | _ => none
  | .writeFile d ok =>
    if (q.ctl p).outside = true ∧ d ∈ q.kernel.opened p then
      some (setlk (q.start p) p .write d ok)
    else
      none
  | .ftruncate ok =>
    match q.ctl p with
    | .locked f d =>
      if ok then some (q.goto p q.kernel.ftruncate (.truncated f d))
      else some (q.goto p q.kernel (failed f d))
    | _ => none
  | .write room =>
    match q.ctl p with
    | .truncated f d => some (writePid q p f d room)
    | _ => none
  | .read ok =>
    match q.ctl p with
    | .blocked f d => some (readPid q p f d ok)
    | _ => none
  | .close =>
    match q.ctl p with
    | .closing f d locker => some (q.goto p (q.kernel.close p d) (.returned f none locker))
    | _ => none
  | .pidfileClose d =>
    if (q.ctl p).outside = true ∧ d ∈ q.kernel.opened p then
      some (q.goto p (q.kernel.close p d) .idle)
    else
      none
  | .fork child =>
    if (q.ctl p).outside = true ∧ q.ctl child = .idle ∧ q.kernel.opened child = [] ∧
        q.kernel.locker ≠ some child then
      some (fork q p child)
    else
      none
  | .exit => some (exit q p)

def step (q : State) (a : Action) : Option State := sysCall q a.pid a.act

/-! What is reported. -/

/-- The value of `*locker`, once it is settled. -/
def Ctl.locker : Ctl → Option Int
  | .closing _ _ v => some v
  | .returned _ _ v => some v
  | _ => none

/-- The process takes the lock and writes its pid. -/
def Ctl.writing : Ctl → Bool
  | .locked _ _ | .truncated _ _ => true
  | _ => false

/-- Whatever positive pid a process has been told is that of a process that held the lock since the
call began. -/
def Real (q : State) : Prop :=
  ∀ p v, (q.ctl p).locker = some v → 0 < v → ∃ h ∈ q.held p, (h.val : Int) = v

/-- When a blocked process reads, its descriptor stands at the start of the file and the process
that took the lock last has written its pid there, or there is nothing left to read. -/
def ReadsPublished (q : State) (a : Action) : Prop :=
  match a.act, q.ctl a.pid with
  | .read true, .blocked _ d =>
    (q.kernel.tell d = 0 ∧ q.published = true) ∨ q.kernel.file.length ≤ q.kernel.tell d
  | _, _ => True

instance (q : State) (a : Action) : Decidable (ReadsPublished q a) := by
  unfold ReadsPublished
  split <;> infer_instance

structure Inv (q : State) : Prop where
  taker : ∀ h, q.kernel.locker = some h → q.taker = some h
  held : ∀ h p, q.kernel.locker = some h → h ∈ q.held p
  writing : ∀ p, (q.ctl p).writing = true → q.kernel.locker = some p ∧ q.published = false
  empty : ∀ p f d, q.ctl p = .truncated f d → q.kernel.file = []
  published : q.published = true → ∃ t, q.taker = some t ∧ q.kernel.file = decimal t.val
  blocked : ∀ p f d, q.ctl p = .blocked f d → ∃ t, q.taker = some t ∧ t ∈ q.held p
  real : Real q

theorem Inv.left (file : List UInt8) : Inv (State.left file) where
  taker := fun _ h => by cases h
  held := fun _ _ h => by cases h
  writing := fun _ h => by cases h
  empty := fun _ _ _ h => by cases h
  published := fun h => by cases h
  blocked := fun _ _ _ h => by cases h
  real := fun _ _ h => by cases h

variable {q q' : State} {p : Pid}

/-- A process moves on, and the file stays as it is; the process may lose its lock. -/
private theorem Inv.goto (inv : Inv q) {k : Kernel} {c : Ctl} (file : k.file = q.kernel.file)
    (locker : k.locker = q.kernel.locker ∨ q.kernel.locker = some p ∧ k.locker = none)
    (writing : c.writing = false)
    (blocked : ∀ f d, c = .blocked f d → ∃ h, q.kernel.locker = some h)
    (real : ∀ v, c.locker = some v → 0 < v → ∃ h ∈ q.held p, (h.val : Int) = v) :
    Inv (q.goto p k c) := by
  have hlocker : ∀ h, k.locker = some h → q.kernel.locker = some h := by
    intro h hh
    rcases locker with heq | ⟨-, hnone⟩
    · rw [heq] at hh
      exact hh
    · rw [hnone] at hh
      cases hh
  have hctl : ∀ r, r ≠ p → (q.goto p k c).ctl r = q.ctl r := fun r hr => Function.update_of_ne hr ..
  have hself : (q.goto p k c).ctl p = c := Function.update_self ..
  constructor
  · exact fun h hh => inv.taker h (hlocker h hh)
  · exact fun h r hh => inv.held h r (hlocker h hh)
  · intro r hr
    by_cases h : r = p
    · rw [h, hself, writing] at hr
      cases hr
    · rw [hctl r h] at hr
      obtain ⟨hlock, hpub⟩ := inv.writing r hr
      refine ⟨?_, hpub⟩
      rcases locker with heq | ⟨hp, -⟩
      · exact heq.trans hlock
      · -- the lock that is lost is not that of another process
        rw [hp] at hlock
        exact absurd (Option.some.inj hlock).symm h
  · intro r f d hr
    by_cases h : r = p
    · rw [h, hself] at hr
      rw [hr] at writing
      cases writing
    · rw [hctl r h] at hr
      exact file.trans (inv.empty r f d hr)
  · intro hpub
    obtain ⟨t, ht, hfile⟩ := inv.published hpub
    exact ⟨t, ht, file.trans hfile⟩
  · intro r f d hr
    by_cases h : r = p
    · rw [h, hself] at hr
      obtain ⟨t, ht⟩ := blocked f d hr
      exact ⟨t, inv.taker t ht, h ▸ inv.held t p ht⟩
    · rw [hctl r h] at hr
      exact inv.blocked r f d hr
  · intro r v hr hpos
    by_cases h : r = p
    · rw [h, hself] at hr
      rw [h]
      exact real v hr hpos
    · rw [hctl r h] at hr
      exact inv.real r v hr hpos

private theorem unlocked (k : Kernel) (p : Pid) :
    (if k.locker = some p then none else k.locker) = k.locker ∨
      k.locker = some p ∧ (if k.locker = some p then none else k.locker) = none := by
  by_cases h : k.locker = some p
  · exact .inr ⟨h, if_pos h⟩
  · exact .inl (if_neg h)

/-- A process moves on to a place where it reports nothing. -/
private theorem Inv.gotoSilent (inv : Inv q) {k : Kernel} {c : Ctl} (file : k.file = q.kernel.file)
    (locker : k.locker = q.kernel.locker ∨ q.kernel.locker = some p ∧ k.locker = none)
    (writing : c.writing = false) (blocked : ∀ f d, c ≠ .blocked f d)
    (silent : ∀ v, c.locker = some v → v ≤ 0) : Inv (q.goto p k c) := by
  refine inv.goto file locker writing ?_ ?_
  · intro f d h
    exact absurd h (blocked f d)
  · intro v hv hpos
    have hle := silent v hv
    omega

private theorem Inv.start (inv : Inv q) (p : Pid) : Inv (q.start p) := by
  have hidle := inv.gotoSilent (p := p) (k := q.kernel) (c := .idle) rfl (.inl rfl) rfl
    (fun _ _ h => by cases h) (fun _ h => by cases h)
  have hother : ∀ r, r ≠ p → (q.start p).held r = q.held r :=
    fun r hr => Function.update_of_ne hr ..
  have hself : (q.start p).ctl p = .idle := Function.update_self ..
  constructor
  · exact inv.taker
  · intro h r hh
    by_cases hr : r = p
    · rw [hr]
      show h ∈ Function.update q.held p _ p
      rw [Function.update_self, show q.kernel.locker = some h from hh]
      exact List.mem_singleton.2 rfl
    · rw [hother r hr]
      exact inv.held h r hh
  · exact hidle.writing
  · exact hidle.empty
  · exact inv.published
  · intro r f d hr
    by_cases h : r = p
    · rw [h, hself] at hr
      cases hr
    · rw [hother r h]
      exact hidle.blocked r f d hr
  · intro r v hr hpos
    by_cases h : r = p
    · rw [h, hself] at hr
      cases hr
    · rw [hother r h]
      exact hidle.real r v hr hpos

private theorem Inv.take (inv : Inv q) (free : q.kernel.blocks p = false) (f : Func) (d : Fd) :
    Inv (q.take p f d) := by
  have hctl : ∀ r, r ≠ p → (q.take p f d).ctl r = q.ctl r := fun r hr => Function.update_of_ne hr ..
  have hself : (q.take p f d).ctl p = .locked f d := Function.update_self ..
  constructor
  · exact fun h hh => hh
  · intro h r hh
    obtain rfl : p = h := Option.some.inj hh
    exact List.mem_cons_self
  · intro r hr
    by_cases h : r = p
    · rw [h]
      exact ⟨rfl, rfl⟩
    · -- no other process can be writing, since the lock was free
      rw [hctl r h] at hr
      obtain ⟨hlock, -⟩ := inv.writing r hr
      have hblocks : q.kernel.blocks p = true := Kernel.blocks_iff.2 ⟨r, hlock, h⟩
      rw [free] at hblocks
      cases hblocks
  · intro r g e hr
    by_cases h : r = p
    · rw [h, hself] at hr
      cases hr
    · rw [hctl r h] at hr
      exact inv.empty r g e hr
  · intro hpub
    cases hpub
  · intro r g e hr
    exact ⟨p, rfl, List.mem_cons_self⟩
  · intro r v hr hpos
    by_cases h : r = p
    · rw [h, hself] at hr
      cases hr
    · rw [hctl r h] at hr
      obtain ⟨t, ht, hv⟩ := inv.real r v hr hpos
      exact ⟨t, List.mem_cons_of_mem p ht, hv⟩

/-- A function that has failed, or is done, reports no pid. -/
private theorem end_silent (f : Func) (d : Fd) {c : Ctl}
    (ends : c = failed f d ∨ c = succeeded f d) :
    c.writing = false ∧ (∀ g e, c ≠ .blocked g e) ∧ ∀ v, c.locker = some v → v ≤ 0 := by
  rcases ends with rfl | rfl
  all_goals
    cases f with
    | _ =>
      refine ⟨rfl, ?_, ?_⟩
      · intro g e h
        cases h
      · intro v hv
        obtain rfl := Option.some.inj hv
        decide

private theorem leave_spec (f : Func) (d : Fd) (v : Int) :
    (leave f d v).writing = false ∧ (∀ g e, leave f d v ≠ .blocked g e) ∧
      (leave f d v).locker = some v := by
  cases f with
  | _ =>
    refine ⟨rfl, ?_, rfl⟩
    intro g e h
    cases h

private theorem Inv.failed (inv : Inv q) (f : Func) (d : Fd) :
    Inv (q.goto p q.kernel (failed f d)) := by
  obtain ⟨hwriting, hblocked, hsilent⟩ := end_silent f d (.inl rfl)
  exact inv.gotoSilent rfl (.inl rfl) hwriting hblocked hsilent

private theorem Inv.blocks (inv : Inv q) (blocks : q.kernel.blocks p = true) (f : Func) (d : Fd) :
    Inv (q.goto p q.kernel (.blocked f d)) := by
  obtain ⟨h, hh, -⟩ := Kernel.blocks_iff.1 blocks
  refine inv.goto rfl (.inl rfl) rfl ?_ ?_
  · exact fun _ _ _ => ⟨h, hh⟩
  · intro v hv
    cases hv

private theorem Inv.setlk (inv : Inv q) (f : Func) (d : Fd) (ok : Bool) :
    Inv (setlk q p f d ok) := by
  unfold Pidfile.setlk
  split
  · exact inv.failed f d
  split
  · exact inv.blocks ‹_› f d
  · exact inv.take (by simpa using ‹¬ q.kernel.blocks p = true›) f d

private theorem Inv.getlk (inv : Inv q) (d : Fd) (ok : Bool) : Inv (getlk q p d ok) := by
  unfold Pidfile.getlk
  split
  · exact inv.failed .open d
  split
  · exact inv.blocks ‹_› .open d
  · refine inv.gotoSilent rfl (.inl rfl) rfl (fun _ _ h => by cases h) ?_
    rintro v ⟨⟩
    decide

/-- Only the process that holds the lock changes the file, and it has not published its pid. -/
private theorem Inv.rewrite (inv : Inv q) (writing : (q.ctl p).writing = true) {k : Kernel}
    {c : Ctl}
    (locker : k.locker = q.kernel.locker) (silent : ∀ v, c.locker = some v → v ≤ 0)
    (blocked : ∀ f d, c ≠ .blocked f d) (empty : ∀ f d, c = .truncated f d → k.file = [])
    {published : Bool} (done : c.writing = true → published = false)
    (pid : published = true → k.file = decimal p.val) :
    Inv { q.goto p k c with published := published } := by
  obtain ⟨hlock, -⟩ := inv.writing p writing
  have hctl : ∀ r, r ≠ p → (q.goto p k c).ctl r = q.ctl r := fun r hr => Function.update_of_ne hr ..
  have hself : (q.goto p k c).ctl p = c := Function.update_self ..
  have halone : ∀ r, r ≠ p → (q.ctl r).writing ≠ true := by
    intro r hr hw
    have hr' := (inv.writing r hw).1
    rw [hlock] at hr'
    exact hr (Option.some.inj hr').symm
  constructor
  · exact fun h hh => inv.taker h (locker ▸ hh)
  · exact fun h r hh => inv.held h r (locker ▸ hh)
  · intro r hr
    by_cases h : r = p
    · rw [h] at hr ⊢
      have hc : c.writing = true := hself ▸ hr
      exact ⟨locker.trans hlock, done hc⟩
    · exact absurd (hctl r h ▸ hr) (halone r h)
  · intro r f d hr
    by_cases h : r = p
    · rw [h] at hr
      exact empty f d (hself.symm.trans hr)
    · have hr' : q.ctl r = .truncated f d := (hctl r h).symm.trans hr
      exact absurd (by rw [hr']; rfl) (halone r h)
  · intro hpub
    exact ⟨p, inv.taker p hlock, pid hpub⟩
  · intro r f d hr
    by_cases h : r = p
    · rw [h] at hr
      exact absurd (hself.symm.trans hr) (blocked f d)
    · exact inv.blocked r f d ((hctl r h).symm.trans hr)
  · intro r v hr hpos
    by_cases h : r = p
    · rw [h] at hr
      have hle := silent v (hself ▸ hr)
      omega
    · exact inv.real r v (hctl r h ▸ hr) hpos

private theorem Inv.writePid (inv : Inv q) {f : Func} {d : Fd} (ctl : q.ctl p = .truncated f d)
    (room : Option Nat) : Inv (writePid q p f d room) := by
  have hwriting : (q.ctl p).writing = true := by
    rw [ctl]
    rfl
  unfold Pidfile.writePid
  cases room with
  | none => exact inv.failed f d
  | some room =>
    dsimp only
    split
    · obtain ⟨hdone, hblocked, hsilent⟩ := end_silent f d (.inr rfl)
      refine inv.rewrite (k := q.kernel.write d (decimal p.val)) hwriting rfl hsilent hblocked ?_ ?_
        ?_
      · intro g e h
        rw [h] at hdone
        cases hdone
      · intro hw
        rw [hdone] at hw
        cases hw
      · intro hstart
        have hempty := inv.empty p f d ctl
        show q.kernel.file.take _ ++ _ ++ _ ++ q.kernel.file.drop _ = _
        rw [of_decide_eq_true hstart, hempty]
        simp
    · obtain ⟨hdone, hblocked, hsilent⟩ := end_silent f d (.inl rfl)
      obtain ⟨-, hpub⟩ := inv.writing p hwriting
      refine inv.rewrite
        (k := q.kernel.write d ((decimal p.val).take (min room (decimal p.val).length))) hwriting
        rfl hsilent hblocked ?_ (fun _ => hpub) ?_
      · intro g e h
        rw [h] at hdone
        cases hdone
      · intro h
        rw [hpub] at h
        cases h

/-- What a blocked process reads of a published pid is this pid; the process that wrote it took the
lock after the reader had found it taken, or held it then. -/
private theorem Inv.readPid (inv : Inv q) {f : Func} {d : Fd} (ctl : q.ctl p = .blocked f d)
    {ok : Bool} (reads : ReadsPublished q ⟨p, .read ok⟩) : Inv (readPid q p f d ok) := by
  unfold Pidfile.readPid
  split
  · rename_i hok
    have hleave : ∀ v : Int, (0 < v → ∃ h ∈ q.held p, (h.val : Int) = v) →
        Inv (q.goto p (q.kernel.read d PIDFILE_PIDBUF_SIZE).2 (leave f d v)) := by
      intro v hv
      obtain ⟨hwriting, hblocked, hlocker⟩ := leave_spec f d v
      refine inv.goto rfl (.inl rfl) hwriting ?_ ?_
      · intro g e h
        exact absurd h (hblocked g e)
      · intro u hu hpos
        rw [hlocker] at hu
        obtain rfl := Option.some.inj hu
        exact hv hpos
    simp only [ReadsPublished, ctl, hok] at reads
    have hread : (q.kernel.read d PIDFILE_PIDBUF_SIZE).1 =
        (q.kernel.file.drop (q.kernel.tell d)).take PIDFILE_PIDBUF_SIZE := rfl
    rcases reads with ⟨htell, hpub⟩ | hend
    · obtain ⟨t, ht, hfile⟩ := inv.published hpub
      obtain ⟨s, hs, hheld⟩ := inv.blocked p f d ctl
      obtain rfl : t = s := Option.some.inj (ht.symm.trans hs)
      have hlen := decimal_length_lt t
      rw [hread, htell, List.drop_zero, hfile, List.take_of_length_le hlen.le, pidOf_decimal]
      exact hleave t.val (fun _ => ⟨t, hheld, rfl⟩)
    · rw [hread, List.drop_eq_nil_of_le hend, List.take_nil]
      exact hleave (-1) (fun h => by omega)
  · obtain ⟨hwriting, hblocked, hlocker⟩ := leave_spec f d (-1)
    refine inv.gotoSilent rfl (.inl rfl) hwriting hblocked ?_
    intro v hv
    rw [hlocker] at hv
    obtain rfl := Option.some.inj hv
    decide

theorem Inv.ofStep {a : Action} (inv : Inv q) (reads : ReadsPublished q a)
    (h : step q a = some q') : Inv q' := by
  obtain ⟨p, act⟩ := a
  unfold step at h
  cases act with
  | openFile f d =>
    simp only [sysCall] at h
    split at h
    · cases d with
      | none =>
        obtain rfl := Option.some.inj h
        refine (inv.start p).gotoSilent rfl (.inl rfl) rfl (fun _ _ h => by cases h) ?_
        rintro v ⟨⟩
        decide
      | some d =>
        dsimp only at h
        split at h
        · obtain rfl := Option.some.inj h
          exact (inv.start p).gotoSilent rfl (.inl rfl) rfl (fun _ _ h => by cases h)
            (fun _ h => by cases h)
        · cases h
    · cases h
  | fcntl ok =>
    simp only [sysCall] at h
    split at h
    · obtain rfl := Option.some.inj h
      exact inv.getlk _ ok
    · obtain rfl := Option.some.inj h
      exact inv.setlk _ _ ok
    · cases h
  | writeFile d ok =>
    simp only [sysCall] at h
    split at h
    · obtain rfl := Option.some.inj h
      exact (inv.start p).setlk .write d ok
    · cases h
  | ftruncate ok =>
    simp only [sysCall] at h
    split at h
    · rename_i f d ctl
      have hwriting : (q.ctl p).writing = true := by
        rw [ctl]
        rfl
      obtain ⟨-, hpub⟩ := inv.writing p hwriting
      split at h
      · obtain rfl := Option.some.inj h
        refine inv.rewrite (k := q.kernel.ftruncate) (c := .truncated f d) hwriting rfl
          (fun _ h => by cases h) (fun _ _ h => by cases h) (fun _ _ _ => rfl) (fun _ => hpub) ?_
        intro h
        rw [hpub] at h
        cases h
      · obtain rfl := Option.some.inj h
        exact inv.failed f d
    · cases h
  | write room =>
    simp only [sysCall] at h
    split at h
    · obtain rfl := Option.some.inj h
      exact inv.writePid ‹_› room
    · cases h
  | read ok =>
    simp only [sysCall] at h
    split at h
    · obtain rfl := Option.some.inj h
      exact inv.readPid ‹_› reads
    · cases h
  | close =>
    simp only [sysCall] at h
    split at h
    · rename_i f d v ctl
      obtain rfl := Option.some.inj h
      refine inv.goto rfl (unlocked q.kernel p) rfl (fun _ _ h => by cases h) ?_
      rintro u ⟨⟩ hpos
      exact inv.real p v (by rw [ctl]; rfl) hpos
    · cases h
  | pidfileClose d =>
    simp only [sysCall] at h
    split at h
    · obtain rfl := Option.some.inj h
      exact inv.gotoSilent rfl (unlocked q.kernel p) rfl (fun _ _ h => by cases h)
        (fun _ h => by cases h)
    · cases h
  | fork child =>
    simp only [sysCall] at h
    split at h
    · obtain rfl := Option.some.inj h
      exact ⟨inv.taker, inv.held, inv.writing, inv.empty, inv.published, inv.blocked, inv.real⟩
    · cases h
  | exit =>
    obtain rfl := Option.some.inj h
    exact inv.gotoSilent rfl (unlocked q.kernel p) rfl (fun _ _ h => by cases h)
      (fun _ h => by cases h)

/-- In every interleaving in which blocked processes read published pids, every pid that is reported
is that of a process that held the lock during the call. -/
theorem nebPidfile_locker_real (file : List UInt8) (as : List Action) (q : State)
    (reads : Machine.StepsMeet step ReadsPublished (State.left file) as)
    (reached : Machine.run step (State.left file) as = some q) : Real q :=
  (Machine.invariant_run (fun _ _ _ inv reads h => Inv.ofStep inv reads h) (Inv.left file) reads
    reached).real

private def daemon : Pid := ⟨12, by decide, by decide⟩

private def second : Pid := ⟨9, by decide, by decide⟩

/-- A daemon writes its pid over that of an earlier one, and a second process is told it. -/
theorem nebPidfile_locker_real_daemon :
    ∃ q, Machine.run step (State.left (decimal 9999)) [⟨daemon, .openFile .open (some 0)⟩,
        ⟨daemon, .fcntl true⟩, ⟨daemon, .writeFile 0 true⟩, ⟨second, .openFile .pidlock (some 1)⟩,
        ⟨daemon, .ftruncate true⟩, ⟨second, .fcntl true⟩, ⟨daemon, .write (some 32)⟩,
        ⟨second, .read true⟩, ⟨second, .close⟩] = some q ∧
      Real q ∧ q.ctl second = .returned .pidlock none 12 := by
  obtain ⟨q, hq, hctl⟩ : ∃ q, Machine.run step (State.left (decimal 9999))
      [⟨daemon, .openFile .open (some 0)⟩, ⟨daemon, .fcntl true⟩, ⟨daemon, .writeFile 0 true⟩,
        ⟨second, .openFile .pidlock (some 1)⟩, ⟨daemon, .ftruncate true⟩, ⟨second, .fcntl true⟩,
        ⟨daemon, .write (some 32)⟩, ⟨second, .read true⟩, ⟨second, .close⟩] = some q ∧
      q.ctl second = .returned .pidlock none 12 :=
    Machine.run_reaches (by decide)
  exact ⟨q, hq, nebPidfile_locker_real (decimal 9999) _ q (by decide) hq, hctl⟩

/-- The lock is taken and the pid of an earlier process still stands in the file. -/
theorem nebPidfile_locker_real_fails :
    ¬ ∀ file as q, Machine.run step (State.left file) as = some q → Real q := by
  intro claim
  obtain ⟨q, hq, hpair⟩ : ∃ q, Machine.run step (State.left (decimal 9999))
      [⟨daemon, .openFile .open (some 0)⟩, ⟨daemon, .fcntl true⟩, ⟨daemon, .writeFile 0 true⟩,
        ⟨second, .openFile .open (some 1)⟩, ⟨second, .fcntl true⟩, ⟨second, .read true⟩,
        ⟨second, .close⟩] = some q ∧
      (q.ctl second, q.held second) = (.returned .open none 9999, [daemon]) :=
    Machine.run_reaches (by decide)
  obtain ⟨hctl, hheld⟩ := Prod.mk.inj hpair
  obtain ⟨h, hmem, hval⟩ := claim _ _ q hq second 9999 (by rw [hctl]; rfl) (by decide)
  rw [hheld, List.mem_singleton] at hmem
  rw [hmem] at hval
  exact absurd hval (by decide)

/-! The system calls of one process, with no other process in between, do what its function does. -/

/-- Where the process is when `get_pid` has returned this, or `neb_pidfile_write` has. -/
def Ctl.after (f : Func) (d : Fd) : Option Int → Ctl
  | some v => leave f d v
  | none => .undefined

@[simp] private theorem goto_ctl (q : State) (p : Pid) (k : Kernel) (c : Ctl) :
    (q.goto p k c).ctl p = c := Function.update_self ..

private theorem read_alone {f : Func} {d : Fd} (ctl : q.ctl p = .blocked f d) (ok : Bool) :
    step q ⟨p, .read ok⟩ = some (readPid q p f d ok) ∧
      (readPid q p f d ok).kernel = (getPid ok d q.kernel).2 ∧
      (readPid q p f d ok).ctl p = .after f d (getPid ok d q.kernel).1 := by
  refine ⟨by simp [step, sysCall, ctl], ?_⟩
  unfold readPid getPid
  cases ok with
  | false => exact ⟨rfl, goto_ctl ..⟩
  | true =>
    simp only [if_true]
    cases pidOf (q.kernel.read d PIDFILE_PIDBUF_SIZE).1 with
    | none => exact ⟨rfl, goto_ctl ..⟩
    | some v => exact ⟨rfl, goto_ctl ..⟩

/-- `set_pid`, one system call after the other. -/
private theorem set_alone {f : Func} {d : Fd} (ctl : q.ctl p = .locked f d) (o : Outcome) :
    ∃ (acts : List Act) (q' : State), Machine.run step q (acts.map (Action.mk p)) = some q' ∧
      q'.kernel = (setPid o p d q.kernel).2 ∧
      q'.ctl p = if (setPid o p d q.kernel).1 ≠ 0 then failed f d else succeeded f d := by
  unfold setPid
  cases htrunc : o.ftruncate with
  | false =>
    refine ⟨[.ftruncate false], q.goto p q.kernel (failed f d), ?_, rfl, goto_ctl ..⟩
    simp [Machine.run_cons, step, sysCall, ctl]
  | true =>
    refine ⟨[.ftruncate true, .write o.write],
      writePid (q.goto p q.kernel.ftruncate (.truncated f d)) p f d o.write, ?_, ?_⟩
    · simp [Machine.run_cons, step, sysCall, ctl]
    · unfold writePid
      cases o.write with
      | none => exact ⟨rfl, goto_ctl ..⟩
      | some room =>
        simp only [if_true]
        split
        · rename_i hall
          rw [hall, List.take_length]
          exact ⟨rfl, Function.update_self ..⟩
        · exact ⟨rfl, goto_ctl ..⟩

/-- `neb_pidfile_write` is its system calls. -/
theorem run_nebPidfileWrite (o : Outcome) {d : Fd} (outside : (q.ctl p).outside = true)
    (opened : d ∈ q.kernel.opened p) :
    ∃ (acts : List Act) (q' : State), Machine.run step q (acts.map (Action.mk p)) = some q' ∧
      q'.kernel = (nebPidfileWrite o p d q.kernel).2 ∧
      q'.ctl p = .after .write d (nebPidfileWrite o p d q.kernel).1 := by
  have hstart : step q ⟨p, .writeFile d o.lock⟩ = some (setlk (q.start p) p .write d o.lock) := by
    simp [step, sysCall, outside, opened]
  have hkernel : (q.start p).kernel = q.kernel := rfl
  unfold nebPidfileWrite
  unfold setlk at hstart
  rw [hkernel] at hstart
  by_cases hlock : o.lock = true
  · simp only [hlock, Bool.not_true, Bool.false_eq_true, if_false] at hstart ⊢
    by_cases hblocks : q.kernel.blocks p = true
    · rw [if_pos hblocks] at hstart ⊢
      obtain ⟨hread, hk, hctl⟩ := read_alone (f := .write) (d := d)
        (goto_ctl (q.start p) p q.kernel (.blocked .write d)) o.read
      refine ⟨[.writeFile d true, .read o.read], _, ?_, hk, hctl⟩
      simp only [List.map_cons, List.map_nil, Machine.run_cons, hstart, hread, Option.bind_some]
      rfl
    · rw [if_neg hblocks] at hstart ⊢
      have hlocked : ((q.start p).take p .write d).ctl p = .locked .write d :=
        Function.update_self ..
      obtain ⟨acts, q', hrun, hk, hctl⟩ := set_alone hlocked o
      refine ⟨.writeFile d true :: acts, q', ?_, hk, ?_⟩
      · simp only [List.map_cons, Machine.run_cons, hstart, Option.bind_some]
        exact hrun
      · rw [hctl]
        show (if (setPid o p d (q.kernel.lock p)).1 ≠ 0 then _ else _) = _
        split
        · rfl
        · rfl
  · simp only [Bool.not_eq_true] at hlock
    simp only [hlock, Bool.not_false, if_true] at hstart ⊢
    refine ⟨[.writeFile d false], (q.start p).goto p q.kernel (failed .write d), ?_, rfl,
      goto_ctl ..⟩
    simp only [List.map_cons, List.map_nil, Machine.run_cons, hstart, Option.bind_some]
    rfl

end Nebase.Pidfile
