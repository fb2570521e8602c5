/- The copy through a buffer, one system call a step, and its use with an explicit offset. -/

import Nebase.Foundation.Machine
import Mathlib.Data.List.Basic

set_option autoImplicit false
set_option relaxedAutoImplicit false

namespace Nebase.File.Copy

def NEB_FILE_COPY_BUFFER_SIZE : Nat := 262144

/-- The largest `off_t`. -/
def OFF_MAX : Nat := 9223372036854775807

/-- The conversion of a `size_t` to a `ssize_t`. -/
def ssize (n : UInt64) : Int := (n.toNat : Int).bmod 18446744073709551616

/-- Where `neb_file_buffered_copy` is. -/
inductive Ctl
  | reading
  /-- `nr` bytes of the buffer are left, from `offset` on -/
  | writing (nr offset : Nat)
  | returned (ret : Int)
  deriving DecidableEq

/-- `content` and `pos` are the bytes of `in_fd` and its file offset, `out` is what was written to
`out_fd`. -/
structure Transfer where
  content : List UInt8
  pos : Nat
  out : List UInt8
  buf : List UInt8
  left : UInt64
  ctl : Ctl

/-- What a system call returns; `none` is -1. -/
inductive Answer
  | read (nr : Option Nat)
  | write (nw : Option Nat)

/-- The head of the outer loop. -/
def Transfer.loop (count : UInt64) (s : Transfer) : Transfer :=
  { s with ctl := if s.left > 0 then .reading else .returned (ssize count) }

/-- `MIN(left, NEB_FILE_COPY_BUFFER_SIZE)`. -/
def Transfer.tr (s : Transfer) : Nat := min s.left.toNat NEB_FILE_COPY_BUFFER_SIZE

/-- `read` returns at most the bytes asked for and at most those left in the file, up to the largest
file offset, and stores them at the start of the buffer. -/
def Transfer.read (count : UInt64) (nr : Option Nat) (s : Transfer) : Option Transfer :=
  match nr with
  | none => some { s with ctl := .returned (ssize (count - s.left)) }
  | some 0 => some { s with ctl := .returned (ssize (count - s.left)) }
  | some (n + 1) =>
    if n + 1 ≤ s.tr ∧ s.pos + (n + 1) ≤ min s.content.length OFF_MAX then
      some { s with
        pos := s.pos + (n + 1)
        buf := (s.content.drop s.pos).take (n + 1) ++ s.buf.drop (n + 1)
        left := s.left - UInt64.ofNat (n + 1)
        ctl := .writing (n + 1) 0 }
    else
      none

/-- `write` of `nr` bytes from `offset` on. -/
def Transfer.write (count : UInt64) (nr offset : Nat) (nw : Option Nat) (s : Transfer) :
    Option Transfer :=
  match nw with
  | none => some { s with ctl := .returned (-1) }
  | some 0 => some { s with ctl := .returned (-1) }
  | some (n + 1) =>
    if n + 1 ≤ nr then
      let s := { s with out := s.out ++ (s.buf.drop offset).take (n + 1) }
      if nr - (n + 1) > 0 then
        some { s with ctl := .writing (nr - (n + 1)) (offset + (n + 1)) }
      else
        some (s.loop count)
    else
      none

/-- `none` where the answer is not one of the system call that is made. -/
def step (count : UInt64) (s : Transfer) : Answer → Option Transfer
  | .read nr =>
    match s.ctl with
    | .reading => s.read count nr
    | _ => none
  | .write nw =>
    match s.ctl with
    | .writing nr offset => s.write count nr offset nw
    | _ => none

/-- `neb_file_buffered_copy` is called. -/
def nebFileBufferedCopy (count : UInt64) (content : List UInt8) (pos : Nat)
    (out buf : List UInt8) : Transfer :=
  Transfer.loop count ⟨content, pos, out, buf, count, .reading⟩

/-- The part of the buffer that the next system call may access: its start and its length. -/
def Transfer.access (s : Transfer) : Nat × Nat :=
  match s.ctl with
  | .reading => (0, s.tr)
  | .writing nr offset => (offset, nr)
  | .returned _ => (0, 0)

/-! An explicit offset. -/

inductive Errno
  | ENOSYS
  | EINVAL
  | other
  deriving DecidableEq

/-- Where `neb_file_sys_copy` is. -/
inductive Phase
  | sendfile
  /-- `lseek(in_fd, 0, SEEK_CUR)` -/
  | seekCur
  /-- `lseek(in_fd, *offset, SEEK_SET)` -/
  | seekSet
  | copying
  /-- `lseek(in_fd, old_offset, SEEK_SET)`, after the copy has returned `nc` -/
  | restoring (nc : Int)
  | returned (ret : Int)
  deriving DecidableEq

/-- `offset` is `*offset`. -/
structure SysCopy where
  phase : Phase
  offset : Int
  oldOffset : Int
  file : Transfer

/-- What a system call returns: `sendfile` a number of bytes or its `errno`, `lseek` whether it
succeeds. -/
inductive SysAnswer
  | sendfile (r : Except Errno Nat)
  | lseek (ok : Bool)
  | io (answer : Answer)

/-- `sendfile` moves bytes at `*offset` and leaves the file offset alone. -/
def SysCopy.sendfile (count : UInt64) (r : Except Errno Nat) (s : SysCopy) : Option SysCopy :=
  match r with
  | .error .other => some { s with phase := .returned (-1) }
  | .error _ => some { s with phase := .seekCur }
  | .ok n =>
    if n ≤ count.toNat ∧ n ≤ (s.file.content.drop s.offset.toNat).length ∧ 0 ≤ s.offset then
      let sent := (s.file.content.drop s.offset.toNat).take n
      some { s with
        phase := .returned n
        offset := s.offset + n
        file := { s.file with out := s.file.out ++ sent } }
    else
      none

/-- The steps after the copy, once it has returned. -/
def SysCopy.copied (s : SysCopy) : SysCopy :=
  match s.file.ctl with
  | .returned nc =>
    { s with phase := .restoring nc, offset := if nc > 0 then s.offset + nc else s.offset }
  | _ => s

/-- A position that is not negative can be set; restoring one always succeeds. -/
def sysStep (count : UInt64) (s : SysCopy) : SysAnswer → Option SysCopy
  | .sendfile r =>
    match s.phase with
    | .sendfile => s.sendfile count r
    | _ => none
  | .lseek ok =>
    match s.phase with
    | .seekCur =>
      some { s with phase := .seekSet, oldOffset := if ok then s.file.pos else -1 }
    | .seekSet =>
      if ok then
        if 0 ≤ s.offset then
          let file := nebFileBufferedCopy count s.file.content s.offset.toNat s.file.out s.file.buf
          some { s with phase := .copying, file := file }.copied
        else
          none
      else
        some { s with phase := .returned (-1) }
    | .restoring nc =>
      if ok = decide (0 ≤ s.oldOffset) then
        if ok then
          let file := { s.file with pos := s.oldOffset.toNat }
          some { s with phase := .returned nc, file := file }
        else
          some { s with phase := .returned (-1) }
      else
        none
    | _ => none
  | .io answer =>
    match s.phase with
    | .copying => (step count s.file answer).map (fun file => { s with file := file }.copied)
    | _ => none

/-- `neb_file_sys_copy` is called with a pointer to `offset`. -/
def nebFileSysCopy (offset : Int) (content : List UInt8) (pos : Nat) (out buf : List UInt8) :
    SysCopy :=
  ⟨.sendfile, offset, 0, ⟨content, pos, out, buf, 0, .reading⟩⟩

end Nebase.File.Copy
