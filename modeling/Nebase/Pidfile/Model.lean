/- The pidfile functions on one file: its bytes, its record lock, and the offsets of the
   descriptors through which it is read and written. -/

import Nebase.Foundation.Decimal
import Mathlib.Logic.Function.Basic

set_option autoImplicit false
set_option relaxedAutoImplicit false

namespace Nebase.Pidfile

open Nebase.Foundation.Decimal

/-- What `getpid` returns. -/
structure Pid where
  val : Nat
  pos : 0 < val
  int : val ≤ 2147483647
  deriving DecidableEq

/-- An open file description; the processes that fork shares it with have one offset. -/
abbrev Fd := Nat

def PIDFILE_PIDBUF_SIZE : Nat := 32

/-- `locker` holds the write lock on the whole file. `offset` is `none` where nothing was opened
yet, and `opened` lists what each process has open. -/
structure Kernel where
  file : List UInt8
  locker : Option Pid
  offset : Fd → Option Nat
  opened : Pid → List Fd

/-- A file that is left there, with any content, and that nobody has open. -/
def Kernel.left (file : List UInt8) : Kernel := ⟨file, none, fun _ => none, fun _ => []⟩

/-! The system calls, where they succeed. -/

def Kernel.openFd (k : Kernel) (p : Pid) (d : Fd) : Kernel :=
  { k with
    offset := Function.update k.offset d (some 0)
    opened := Function.update k.opened p (d :: k.opened p) }

/-- Closing any descriptor of the file takes the locks of the process away. -/
def Kernel.close (k : Kernel) (p : Pid) (d : Fd) : Kernel :=
  { k with
    locker := if k.locker = some p then none else k.locker
    opened := Function.update k.opened p ((k.opened p).erase d) }

/-- Another process holds a lock that stands against a write lock of `p`. -/
def Kernel.blocks (k : Kernel) (p : Pid) : Bool := k.locker ≠ none && k.locker ≠ some p

/-- `F_SETLK` with `F_WRLCK`, when nothing blocks it. -/
def Kernel.lock (k : Kernel) (p : Pid) : Kernel := { k with locker := some p }

/-- `ftruncate(fd, 0)`; the offset stays where it is. -/
def Kernel.ftruncate (k : Kernel) : Kernel := { k with file := [] }

def Kernel.tell (k : Kernel) (d : Fd) : Nat := (k.offset d).getD 0

/-- `write` at the offset; a gap before it is filled with zeros. -/
def Kernel.write (k : Kernel) (d : Fd) (bytes : List UInt8) : Kernel :=
  { k with
    file := k.file.take (k.tell d) ++ List.replicate (k.tell d - k.file.length) 0 ++ bytes ++
      k.file.drop (k.tell d + bytes.length)
    offset := Function.update k.offset d (some (k.tell d + bytes.length)) }

def Kernel.read (k : Kernel) (d : Fd) (size : Nat) : List UInt8 × Kernel :=
  let bytes := (k.file.drop (k.tell d)).take size
  (bytes, { k with offset := Function.update k.offset d (some (k.tell d + bytes.length)) })

/-! The functions of pidfile.c, each running without another process in between. -/

/-- How the system calls of one call turn out; `write` is the number of bytes there is room for,
and `lock` says that `fcntl` does not fail for another reason than a lock. -/
structure Outcome where
  lock : Bool
  ftruncate : Bool
  write : Option Nat
  read : Bool

/-- Nothing fails, and there is room for every pid. -/
def Outcome.fine : Outcome := ⟨true, true, some PIDFILE_PIDBUF_SIZE, true⟩

def setPid (o : Outcome) (p : Pid) (d : Fd) (k : Kernel) : Int × Kernel :=
  if o.ftruncate then
    let k := k.ftruncate
    match o.write with
    | none => (-1, k)
    | some room =>
      let nw := min room (decimal p.val).length
      (if nw = (decimal p.val).length then 0 else -1, k.write d ((decimal p.val).take nw))
  else
    (-1, k)

/-- What `get_pid` makes of the bytes it read; `none` when it writes past the end of `pidbuf`. -/
def pidOf (pidbuf : List UInt8) : Option Int :=
  if pidbuf.length = PIDFILE_PIDBUF_SIZE then
    if pidbuf.getLast? = some 0 then none else some (-1)
  else if atoi pidbuf = 0 then
    some (-1)
  else
    some (atoi pidbuf)

def getPid (read : Bool) (d : Fd) (k : Kernel) : Option Int × Kernel :=
  if read then
    (pidOf (k.read d PIDFILE_PIDBUF_SIZE).1, (k.read d PIDFILE_PIDBUF_SIZE).2)
  else
    (some (-1), k)

/-- The value returned, `none` for -1, and `*locker`, `none` where it is not defined. -/
structure Answer where
  fd : Option Fd
  locker : Option Int
  deriving DecidableEq

/-- `d` is what `open` returns. -/
def nebPidfileOpen (o : Outcome) (p : Pid) (d : Option Fd) (k : Kernel) : Answer × Kernel :=
  match d with
  | none => (⟨none, some 0⟩, k)
  | some d =>
    let k := k.openFd p d
    if !o.lock then
      (⟨none, some 0⟩, k.close p d)
    else if k.blocks p then
      (⟨none, (getPid o.read d k).1⟩, (getPid o.read d k).2.close p d)
    else
      (⟨some d, some 0⟩, k)

/-- The value returned is `none` where it is not defined. -/
def nebPidfileWrite (o : Outcome) (p : Pid) (d : Fd) (k : Kernel) : Option Int × Kernel :=
  if !o.lock then
    (some (-1), k)
  else if k.blocks p then
    getPid o.read d k
  else
    let k := k.lock p
    (if (setPid o p d k).1 ≠ 0 then some (-1) else some 0, (setPid o p d k).2)

def nebPidfileClose (p : Pid) (d : Fd) (k : Kernel) : Kernel := k.close p d

def nebPidlock (o : Outcome) (p : Pid) (d : Option Fd) (k : Kernel) : Answer × Kernel :=
  match d with
  | none => (⟨none, some 0⟩, k)
  | some d =>
    let k := k.openFd p d
    if !o.lock then
      (⟨none, some 0⟩, k.close p d)
    else if k.blocks p then
      (⟨none, (getPid o.read d k).1⟩, (getPid o.read d k).2.close p d)
    else
      let k := k.lock p
      if (setPid o p d k).1 ≠ 0 then
        (⟨none, some 0⟩, (setPid o p d k).2.close p d)
      else
        (⟨some d, some 0⟩, (setPid o p d k).2)

/-! Simple facts of the system calls. -/

@[simp] theorem Kernel.tell_of_offset {k : Kernel} {d : Fd} {n : Nat} (h : k.offset d = some n) :
    k.tell d = n := by
  unfold Kernel.tell
  rw [h]
  rfl

@[simp] theorem Kernel.tell_openFd (k : Kernel) (p : Pid) (d : Fd) : (k.openFd p d).tell d = 0 := by
  apply Kernel.tell_of_offset
  exact Function.update_self ..

theorem Kernel.blocks_iff {k : Kernel} {p : Pid} :
    k.blocks p = true ↔ ∃ h, k.locker = some h ∧ h ≠ p := by
  unfold Kernel.blocks
  cases k.locker with
  | none => simp
  | some h => simp

/-- On an empty file the bytes stand behind the gap. -/
theorem Kernel.write_ftruncate_file (k : Kernel) (d : Fd) (bytes : List UInt8) :
    (k.ftruncate.write d bytes).file = List.replicate (k.tell d) 0 ++ bytes := by
  show List.take _ [] ++ List.replicate (k.tell d - 0) 0 ++ bytes ++ List.drop _ [] = _
  simp

theorem decimal_length_lt (p : Pid) : (decimal p.val).length < PIDFILE_PIDBUF_SIZE := by
  have hlt : p.val < 10 ^ 10 := by
    have hint := p.int
    omega
  have hle := decimal_length_le p.pos hlt
  unfold PIDFILE_PIDBUF_SIZE
  omega

/-- The digits of a pid, or what is left of them, are read as a number. -/
theorem pidOf_drop (h : Pid) (n : Nat) :
    pidOf ((decimal h.val).drop n) =
      if leadingNumber 0 ((decimal h.val).drop n) = 0 then some (-1)
      else some (leadingNumber 0 ((decimal h.val).drop n) : Int) := by
  have hlen : ((decimal h.val).drop n).length ≠ PIDFILE_PIDBUF_SIZE := by
    have hlt := decimal_length_lt h
    rw [List.length_drop]
    omega
  have hle : leadingNumber 0 ((decimal h.val).drop n) ≤ h.val := by
    cases n with
    | zero => rw [List.drop_zero, leadingNumber_decimal]
    | succ n => exact (leadingNumber_drop_lt h.pos (Nat.succ_pos n)).le
  have hint := h.int
  have hatoi := atoi_digits (s := (decimal h.val).drop n)
    (fun b hb => isDigit_of_mem_decimal (List.mem_of_mem_drop hb)) (by omega)
  unfold pidOf
  rw [if_neg hlen, hatoi]
  simp only [Nat.cast_eq_zero]

theorem pidOf_decimal (h : Pid) : pidOf (decimal h.val) = some (h.val : Int) := by
  have hdrop := pidOf_drop h 0
  have hpos := h.pos
  rw [List.drop_zero, leadingNumber_decimal] at hdrop
  rw [hdrop, if_neg (by omega)]

end Nebase.Pidfile
