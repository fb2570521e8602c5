/- Statistics of a process and of the swap devices, read from procfs. -/

import Mathlib.Data.Finset.Basic
import Mathlib.Data.Fintype.EquivFin
import Nebase.Foundation.Decimal

set_option autoImplicit false
set_option relaxedAutoImplicit false

namespace Nebase.Stats

open Nebase.Foundation.Decimal

/-- The open descriptors and streams of the process. -/
structure OpenFiles where
  descriptors : Finset Nat
  streams : Finset Nat
  deriving DecidableEq

/-- The lowest number that is not in use. -/
def lowest (used : Finset Nat) : Nat := Nat.find (Infinite.exists_notMem_finset used)

def OpenFiles.openFd (p : OpenFiles) : Nat × OpenFiles :=
  let fd := lowest p.descriptors
  (fd, { p with descriptors := insert fd p.descriptors })

def OpenFiles.close (fd : Nat) (p : OpenFiles) : OpenFiles :=
  { p with descriptors := p.descriptors.erase fd }

def OpenFiles.fopen (p : OpenFiles) : OpenFiles :=
  { p.openFd.2 with streams := insert (lowest p.streams) p.streams }

/-- A byte of `buf` that does not exist, or a string that does not. -/
inductive Fault
  | index (i : Int)
  | nullString
  deriving DecidableEq

/-- The string that starts here. -/
def cstr (bytes : List UInt8) : List UInt8 := bytes.takeWhile (· ≠ 0)

/-- What follows the last `c`. -/
def strrchr (s : List UInt8) (c : UInt8) : Option (List UInt8) :=
  if c ∈ s then some (s.reverse.takeWhile (· ≠ c)).reverse else none

/-- What `strtok_r` returns until there is nothing left. -/
def strtok (delim : List UInt8) (s : List UInt8) : List (List UInt8) :=
  (s.splitOnP (· ∈ delim)).filter (· ≠ [])

def NEB_PROC_F_START : UInt32 := 0x01
def NEB_PROC_F_VM : UInt32 := 0x02
def NEB_PROC_F_CPU : UInt32 := 0x04

/-- `struct neb_stats_proc`; times are seconds and nanoseconds, or seconds and microseconds. -/
structure NebStatsProc where
  pid : Int
  tsStart : Int × Int
  tvUtime : Nat × Nat
  tvStime : Nat × Nat
  vmSize : Nat
  vmRssize : Nat

/-- `neb_sysconf_clock_ticks` and `neb_sysconf_pagesize`. -/
structure Sysconf where
  clockTicks : Nat
  pagesize : Int

/-- Without clock ticks this is 0, where C divides by 0. -/
def nebClktck2timeval (conf : Sysconf) (c : Nat) : Nat × Nat :=
  (c / conf.clockTicks, c % conf.clockTicks * 1000000 % 2 ^ 64 / conf.clockTicks)

/-- `sizeof(buf)`. -/
def sizeofBuf : Nat := 2048

/-- What a successful `read` puts into `buf`. -/
structure Bytes where
  bytes : List UInt8
  bound : bytes.length ≤ sizeofBuf

/-- How the system calls of one call turn out: whether the directory and the file are opened, the
modification time of `exe`, and what is read. -/
structure ProcOutcome where
  dir : Bool
  fstatat : Option (Int × Int)
  stat : Bool
  read : Option Bytes

/-- `get_starttime`. -/
def getStarttime (o : ProcOutcome) (s : NebStatsProc) (p : OpenFiles) :
    Int × NebStatsProc × OpenFiles :=
  if !o.dir then
    (-1, s, p)
  else
    let (dirfd, p) := p.openFd
    match o.fstatat with
    | none => (-1, s, p.close dirfd)
    | some mtim => (0, { s with tsStart := mtim }, p.close dirfd)

/-- One turn of the loop over the columns. The signed product of the pages and the page size wraps
here; in C a product that overflows is undefined. -/
def column (conf : Sysconf) (flags : UInt32) (col : Nat) (str : List UInt8) (s : NebStatsProc) :
    NebStatsProc :=
  if col = 14 ∧ flags &&& NEB_PROC_F_CPU ≠ 0 then
    { s with tvUtime := nebClktck2timeval conf (strtoul str) }
  else if col = 15 ∧ flags &&& NEB_PROC_F_CPU ≠ 0 then
    { s with tvStime := nebClktck2timeval conf (strtoul str) }
  else if col = 23 ∧ flags &&& NEB_PROC_F_VM ≠ 0 then
    { s with vmSize := strtoul str }
  else if col = 24 ∧ flags &&& NEB_PROC_F_VM ≠ 0 then
    { s with vmRssize := (strtol str * conf.pagesize % 2 ^ 64).toNat }
  else
    s

/-- The loop, behind column `col`. -/
def columns (conf : Sysconf) (flags : UInt32) :
    Nat → List (List UInt8) → NebStatsProc → NebStatsProc
  | _, [], s => s
  | col, str :: strs, s => columns conf flags (col + 1) strs (column conf flags (col + 1) str s)

/-- `get_stat`. -/
def getStat (conf : Sysconf) (o : ProcOutcome) (flags : UInt32) (s : NebStatsProc) (p : OpenFiles) :
    Except Fault (Int × NebStatsProc × OpenFiles) :=
  if !o.stat then
    .ok (-1, s, p)
  else
    let (fd, p) := p.openFd
    match o.read with
    | none =>
      -- `nr` is -1 when it becomes the index of the terminator
      .error (.index (-1))
    | some buf =>
      if buf.bytes.length = sizeofBuf then
        .ok (-1, s, p.close fd)
      else
        match strrchr (cstr buf.bytes) 41 with
        | none => .ok (-1, s, p.close fd)
        | some rest =>
          if rest.head? ≠ some 32 then
            .ok (-1, s, p.close fd)
          else
            .ok (0, columns conf flags 2 (strtok [32] rest.tail) s, p)

def nebStatsProcFill (conf : Sysconf) (o : ProcOutcome) (pid : Int) (s : NebStatsProc)
    (flags : UInt32) (p : OpenFiles) : Except Fault (Int × NebStatsProc × OpenFiles) :=
  let s := { s with pid := pid }
  let (ret, s, p) := if flags &&& NEB_PROC_F_START ≠ 0 then getStarttime o s p else (0, s, p)
  if ret ≠ 0 then
    .ok (-1, s, p)
  else if flags &&& (NEB_PROC_F_CPU ||| NEB_PROC_F_VM) ≠ 0 then
    getStat conf o flags s p
  else
    .ok (0, s, p)

/-- `struct swap_stat_node`. -/
structure SwapStatNode where
  filename : List UInt8
  totalSize : Nat
  usedSize : Nat

/-- Whether `malloc` and `fopen` succeed, the lines that `getline` returns before its -1, and for
which of them `obstack_alloc` and `obstack_copy0` succeed. -/
structure SwapOutcome where
  malloc : Bool
  fopen : Bool
  lines : List (List UInt8)
  alloc : Nat → Bool

/-- The fields of a line of a device. -/
def swapFields (line : List UInt8) : List (List UInt8) := strtok [32, 9] (cstr line)

/-- One turn of the loop over the lines. -/
def swapLine (alloc : Bool) (line : List UInt8) : Except Fault (Option SwapStatNode) :=
  if line.head? ≠ some 47 then
    .ok none
  else
    match swapFields line with
    | filename :: _ :: fields =>
      if !alloc then
        .ok none
      else
        match fields with
        | size :: used :: _ =>
          .ok (some ⟨filename, strtoul size * 2 ^ 10 % 2 ^ 64, strtoul used * 2 ^ 10 % 2 ^ 64⟩)
        | _ => .error .nullString
    | _ => .ok none

def swapLines (alloc : Nat → Bool) : Nat → List (List UInt8) → Except Fault (List SwapStatNode)
  | _, [] => .ok []
  | i, line :: lines =>
    match swapLine (alloc i) line with
    | .error e => .error e
    | .ok n =>
      match swapLines alloc (i + 1) lines with
      | .error e => .error e
      | .ok ns => .ok (n.toList ++ ns)

/-- The nodes of the list, `none` for a null pointer. -/
def nebStatsSwapLoad (o : SwapOutcome) (p : OpenFiles) :
    Except Fault (Option (List SwapStatNode) × OpenFiles) :=
  if !o.malloc then
    .ok (none, p)
  else if !o.fopen then
    .ok (none, p)
  else
    match swapLines o.alloc 0 o.lines with
    | .error e => .error e
    | .ok nodes => .ok (some nodes, p.fopen)

end Nebase.Stats
