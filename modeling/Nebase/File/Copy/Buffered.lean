/- What the copy through a buffer has read and written, whatever the system calls return. -/

import Nebase.File.Copy.Model
import Mathlib.Data.List.TakeDrop

set_option autoImplicit false
set_option relaxedAutoImplicit false

namespace Nebase.File.Copy

open Nebase.Foundation

/-- The bytes that an answer brings. -/
def Answer.bytesRead : Answer → Nat
  | .read nr => nr.getD 0
  | .write _ => 0

/-- The answer ends the copy with an error. -/
def Answer.failsWrite : Answer → Bool
  | .read _ => false
  | .write nw => nw.getD 0 = 0

def readTotal : List Answer → Nat
  | [] => 0
  | answer :: answers => answer.bytesRead + readTotal answers

def writeFails (answers : List Answer) : Bool := answers.any Answer.failsWrite

theorem ssize_of_nonneg {n : UInt64} (h : 0 ≤ ssize n) : ssize n = n.toNat := by
  have hlt := n.toNat_lt
  unfold ssize at h ⊢
  rw [Int.bmod_def] at h ⊢
  split_ifs at h ⊢ <;> omega

theorem ssize_of_lt {n : UInt64} (h : n.toNat < 9223372036854775808) : ssize n = n.toNat :=
  Int.bmod_eq_of_le (by omega) (by omega)

/-- The place in the code after `total` bytes were read; `failed` says whether a write has failed.
A byte that was read is either written already, in order, or still in the buffer. -/
def CtlOk (content : List UInt8) (pos : Nat) (out : List UInt8) (total : Nat) (failed : Bool)
    (s : Transfer) : Prop :=
  match s.ctl with
  | .reading => failed = false ∧ 0 < s.left.toNat ∧ s.out = out ++ (content.drop pos).take total
  | .writing nr offset =>
    failed = false ∧ 0 < nr ∧ nr ≤ total ∧ offset + nr ≤ NEB_FILE_COPY_BUFFER_SIZE ∧
      s.out = out ++ (content.drop pos).take (total - nr) ∧
      (s.buf.drop offset).take nr = ((content.drop pos).drop (total - nr)).take nr
  | .returned ret =>
    if failed then
      ret = -1 ∧ ∃ m ≤ total, s.out = out ++ (content.drop pos).take m
    else
      ret = ssize (UInt64.ofNat total) ∧ s.out = out ++ (content.drop pos).take total

structure Books (count : UInt64) (content : List UInt8) (pos : Nat) (out : List UInt8) (total : Nat)
    (failed : Bool) (s : Transfer) : Prop where
  same : s.content = content
  read : s.pos = pos + total
  inside : total = 0 ∨ pos + total ≤ min content.length OFF_MAX
  left : s.left.toNat + total = count.toNat
  buf : s.buf.length = NEB_FILE_COPY_BUFFER_SIZE
  ctl : CtlOk content pos out total failed s

section Books

variable {count : UInt64} {content out : List UInt8} {pos total : Nat} {failed : Bool}
variable {s s' : Transfer}

private theorem loop_ctl_ok (left : s.left.toNat + total = count.toNat)
    (written : s.out = out ++ (content.drop pos).take total) :
    CtlOk content pos out total false (s.loop count) := by
  unfold CtlOk Transfer.loop
  by_cases h : s.left > 0
  · have hpos : 0 < s.left.toNat := UInt64.lt_iff_toNat_lt.mp h
    simp only [if_pos h]
    exact ⟨trivial, hpos, written⟩
  · have hzero : s.left.toNat = 0 := by
      have hle := UInt64.le_iff_toNat_le.mp (UInt64.not_lt.mp h)
      exact Nat.le_zero.mp hle
    have hcount : UInt64.ofNat total = count := by
      rw [show total = count.toNat by omega]
      exact UInt64.ofNat_toNat
    simp only [if_neg h, Bool.false_eq_true, if_false]
    exact ⟨by rw [hcount], written⟩

theorem Books.start (buf : List UInt8) (size : buf.length = NEB_FILE_COPY_BUFFER_SIZE) :
    Books count content pos out 0 false (nebFileBufferedCopy count content pos out buf) where
  same := rfl
  read := rfl
  inside := .inl rfl
  left := rfl
  buf := size
  ctl := loop_ctl_ok rfl (by simp)

private theorem Books.ofRead (books : Books count content pos out total failed s)
    (reading : s.ctl = .reading) {nr : Option Nat} (h : s.read count nr = some s') :
    failed = false ∧ Books count content pos out (total + nr.getD 0) false s' := by
  have ctl := books.ctl
  simp only [CtlOk, reading] at ctl
  obtain ⟨rfl, hpos, written⟩ := ctl
  refine ⟨rfl, ?_⟩
  have hcount := count.toNat_lt
  have hleft := books.left
  -- the error and the end of the file
  have hreturn : Books count content pos out total false
      { s with ctl := .returned (ssize (count - s.left)) } := by
    have hle : s.left ≤ count := UInt64.le_iff_toNat_le.mpr (by omega)
    have htotal : UInt64.ofNat total = count - s.left := by
      apply UInt64.toNat_inj.mp
      rw [UInt64.toNat_sub_of_le _ _ hle, UInt64.toNat_ofNat']
      omega
    exact ⟨books.same, books.read, books.inside, books.left, books.buf,
      by simp only [CtlOk, Bool.false_eq_true, if_false, htotal]; exact ⟨trivial, written⟩⟩
  unfold Transfer.read at h
  match nr with
  | none =>
    obtain rfl := Option.some.inj h
    exact hreturn
  | some 0 =>
    obtain rfl := Option.some.inj h
    exact hreturn
  | some (n + 1) =>
    simp only at h
    split_ifs at h with hn
    obtain rfl := Option.some.inj h
    obtain ⟨htr, hfile⟩ := hn
    rw [books.same, books.read] at hfile
    have hsmall : n + 1 ≤ s.left.toNat ∧ n + 1 ≤ NEB_FILE_COPY_BUFFER_SIZE := by
      unfold Transfer.tr at htr
      omega
    have hsub : (s.left - UInt64.ofNat (n + 1)).toNat = s.left.toNat - (n + 1) := by
      have hof : (UInt64.ofNat (n + 1)).toNat = n + 1 := by
        rw [UInt64.toNat_ofNat']
        omega
      rw [UInt64.toNat_sub_of_le _ _ (UInt64.le_iff_toNat_le.mpr (by omega)), hof]
    have htake : ((s.content.drop s.pos).take (n + 1)).length = n + 1 := by
      rw [List.length_take, List.length_drop, books.same, books.read]
      omega
    refine ⟨books.same, ?_, .inr ?_, ?_, ?_, ?_⟩
    · simp only [books.read, Option.getD_some]
      omega
    · simp only [Option.getD_some]
      omega
    · simp only [hsub, Option.getD_some]
      omega
    · simp only [List.length_append, htake, List.length_drop, books.buf]
      omega
    · simp only [CtlOk, Option.getD_some, Nat.add_sub_cancel]
      refine ⟨trivial, by omega, by omega, by omega, written, ?_⟩
      rw [List.drop_zero, List.take_left' htake, List.drop_drop, books.same, books.read]

/-- A part of the bytes held in the buffer moves to the end of the bytes written. -/
private theorem chunk_written {source buf written : List UInt8} {sent nr offset k : Nat}
    (hk : k ≤ nr) (hwritten : written = out ++ source.take sent)
    (held : (buf.drop offset).take nr = (source.drop sent).take nr) :
    written ++ (buf.drop offset).take k = out ++ source.take (sent + k) ∧
      (buf.drop (offset + k)).take (nr - k) = (source.drop (sent + k)).take (nr - k) := by
  constructor
  · have hcut := congrArg (List.take k) held
    rw [List.take_take, List.take_take, Nat.min_eq_left hk] at hcut
    rw [hcut, hwritten, List.append_assoc, List.take_add]
  · rw [← List.drop_drop, ← List.drop_drop, ← List.drop_take, ← List.drop_take, held]

private theorem Books.ofWrite (books : Books count content pos out total failed s) {nr offset : Nat}
    (writing : s.ctl = .writing nr offset) {nw : Option Nat}
    (h : s.write count nr offset nw = some s') :
    failed = false ∧ Books count content pos out total (nw.getD 0 = 0) s' := by
  have ctl := books.ctl
  simp only [CtlOk, writing] at ctl
  obtain ⟨rfl, hpos, hle, hbound, written, held⟩ := ctl
  refine ⟨rfl, ?_⟩
  have herror : Books count content pos out total true { s with ctl := .returned (-1) } :=
    ⟨books.same, books.read, books.inside, books.left, books.buf, by
      simp only [CtlOk, if_true]
      exact ⟨trivial, total - nr, by omega, written⟩⟩
  unfold Transfer.write at h
  match nw with
  | none =>
    obtain rfl := Option.some.inj h
    exact herror
  | some 0 =>
    obtain rfl := Option.some.inj h
    exact herror
  | some (n + 1) =>
    simp only at h
    split_ifs at h with hn hmore
    · obtain ⟨hout, hrest⟩ := chunk_written hn written held
      have hsum : total - (nr - (n + 1)) = total - nr + (n + 1) := by omega
      obtain rfl := Option.some.inj h
      refine ⟨books.same, books.read, books.inside, books.left, books.buf, ?_⟩
      simp only [CtlOk, hsum]
      exact ⟨rfl, hmore, by omega, by omega, hout, hrest⟩
    · obtain ⟨hout, -⟩ := chunk_written hn written held
      have hsum : total - nr + (n + 1) = total := by omega
      rw [hsum] at hout
      obtain rfl := Option.some.inj h
      exact ⟨books.same, books.read, books.inside, books.left, books.buf,
        loop_ctl_ok books.left hout⟩

/-- One system call. -/
theorem Books.ofStep (books : Books count content pos out total failed s) {answer : Answer}
    (h : step count s answer = some s') : failed = false ∧
      Books count content pos out (total + answer.bytesRead) answer.failsWrite s' := by
  cases answer with
  | read nr =>
    unfold step at h
    cases hctl : s.ctl with
    | reading =>
      rw [hctl] at h
      exact books.ofRead hctl h
    | writing nr offset => simp [hctl] at h
    | returned ret => simp [hctl] at h
  | write nw =>
    unfold step at h
    cases hctl : s.ctl with
    | writing nr offset =>
      rw [hctl] at h
      exact books.ofWrite hctl h
    | reading => simp [hctl] at h
    | returned ret => simp [hctl] at h

theorem Books.ofRun (books : Books count content pos out total failed s) {answers : List Answer}
    (h : Machine.run (step count) s answers = some s') :
    Books count content pos out (total + readTotal answers) (failed || writeFails answers) s' := by
  induction answers generalizing s total failed with
  | nil =>
    obtain rfl : s = s' := by simpa using h
    simpa [readTotal, writeFails] using books
  | cons answer answers ih =>
    obtain ⟨t, ht, hrest⟩ := Machine.run_cons_eq_some.mp h
    obtain ⟨rfl, books'⟩ := books.ofStep ht
    have hrun := ih books' hrest
    rwa [Nat.add_assoc] at hrun

theorem Books.access_in_buffer (books : Books count content pos out total failed s) :
    s.access.1 + s.access.2 ≤ NEB_FILE_COPY_BUFFER_SIZE := by
  have ctl := books.ctl
  unfold Transfer.access
  cases hctl : s.ctl with
  | reading =>
    simp only [Transfer.tr]
    omega
  | writing nr offset =>
    simp only [CtlOk, hctl] at ctl
    exact ctl.2.2.2.1
  | returned ret => simp

end Books

/-- What is left to do: bytes to read and to write, bytes to write, the return. -/
private def remaining (s : Transfer) : Nat :=
  2 * (s.content.length - s.pos) +
    match s.ctl with
    | .reading => 1
    | .writing nr _ => nr + 1
    | .returned _ => 0

private theorem remaining_loop (count : UInt64) (s : Transfer) :
    remaining (s.loop count) ≤ 2 * (s.content.length - s.pos) + 1 := by
  unfold remaining Transfer.loop
  by_cases h : s.left > 0
  · simp only [if_pos h]
    exact Nat.le_refl _
  · simp only [if_neg h]
    omega

private theorem remaining_step {count : UInt64} {s s' : Transfer} {answer : Answer}
    (h : step count s answer = some s') : remaining s' < remaining s := by
  cases answer with
  | read nr =>
    unfold step at h
    cases hctl : s.ctl with
    | writing nr offset => simp [hctl] at h
    | returned ret => simp [hctl] at h
    | reading =>
      simp only [hctl] at h
      unfold Transfer.read at h
      match nr with
      | none =>
        obtain rfl := Option.some.inj h
        simp [remaining, hctl]
      | some 0 =>
        obtain rfl := Option.some.inj h
        simp [remaining, hctl]
      | some (n + 1) =>
        simp only at h
        split_ifs at h with hn
        obtain rfl := Option.some.inj h
        simp only [remaining, hctl]
        omega
  | write nw =>
    unfold step at h
    cases hctl : s.ctl with
    | reading => simp [hctl] at h
    | returned ret => simp [hctl] at h
    | writing nr offset =>
      simp only [hctl] at h
      unfold Transfer.write at h
      match nw with
      | none =>
        obtain rfl := Option.some.inj h
        simp [remaining, hctl]
      | some 0 =>
        obtain rfl := Option.some.inj h
        simp [remaining, hctl]
      | some (n + 1) =>
        simp only at h
        split_ifs at h with hn hmore
        · obtain rfl := Option.some.inj h
          simp only [remaining, hctl]
          omega
        · obtain rfl := Option.some.inj h
          have hloop := remaining_loop count
            { s with out := s.out ++ (s.buf.drop offset).take (n + 1) }
          simp only [remaining, hctl] at hloop ⊢
          omega

private theorem remaining_run {count : UInt64} {s s' : Transfer} {answers : List Answer}
    (h : Machine.run (step count) s answers = some s') : answers.length ≤ remaining s := by
  have hpays : ∀ n t a u, remaining t = n → step count t a = some u →
      ∃ m, remaining u = m ∧ m + (if (fun _ : Answer => true) a then 1 else 0) ≤ n := by
    intro n t a u ht hu
    have hlt := remaining_step hu
    exact ⟨_, rfl, by simp only [if_true]; omega⟩
  obtain ⟨m, -, hbound⟩ := Machine.bounded_run (fun _ => true) hpays rfl h
  rw [List.countP_true] at hbound
  omega

/-- After any system calls, the copy that has returned `n` bytes has written the `n` bytes at the
file offset it started from and has moved the file offset past them. -/
theorem nebFileBufferedCopy_faithful (count : UInt64) (content : List UInt8) (pos : Nat)
    (out buf : List UInt8) (size : buf.length = NEB_FILE_COPY_BUFFER_SIZE)
    (answers : List Answer) (s : Transfer)
    (reached : Machine.run (step count) (nebFileBufferedCopy count content pos out buf) answers =
      some s) :
    s.access.1 + s.access.2 ≤ s.buf.length ∧
      answers.length ≤ 2 * (content.length - pos) + 1 ∧
      ∀ n : Nat, s.ctl = .returned n →
        s.out = out ++ (content.drop pos).take n ∧ ((content.drop pos).take n).length = n ∧
        s.pos = pos + n ∧ n ≤ count.toNat := by
  have books : Books count content pos out (0 + readTotal answers) (false || writeFails answers) s :=
    (Books.start buf size).ofRun reached
  rw [Nat.zero_add, Bool.false_or] at books
  refine ⟨books.buf ▸ books.access_in_buffer, ?_, ?_⟩
  · exact Nat.le_trans (remaining_run reached) (remaining_loop count _)
  intro n hn
  have ctl := books.ctl
  have hleft := books.left
  simp only [CtlOk, hn] at ctl
  split_ifs at ctl with hfailed
  · exact ctl.1.elim
  obtain ⟨hret, written⟩ := ctl
  have hcount := count.toNat_lt
  have htotal : (UInt64.ofNat (readTotal answers)).toNat = readTotal answers := by
    rw [UInt64.toNat_ofNat']
    omega
  have hnonneg := ssize_of_nonneg (n := UInt64.ofNat (readTotal answers)) (by omega)
  rw [htotal] at hnonneg
  obtain rfl : n = readTotal answers := by omega
  refine ⟨written, ?_, books.read, by omega⟩
  rw [List.length_take, List.length_drop]
  have hinside := books.inside
  omega

/-- Five of seven bytes, in two reads and three writes. -/
theorem nebFileBufferedCopy_faithful_short : ∃ s : Transfer,
    Machine.run (step 5) (nebFileBufferedCopy 5 [1, 2, 3, 4, 5, 6, 7] 1 []
        (List.replicate NEB_FILE_COPY_BUFFER_SIZE 0))
      [.read (some 3), .write (some 1), .write (some 2), .read (some 2), .write (some 2)] =
        some s ∧ s.ctl = .returned 5 ∧ s.out = [2, 3, 4, 5, 6] ∧ s.pos = 6 := by
  obtain ⟨s, hrun, hctl⟩ := Machine.run_reaches (f := Transfer.ctl) (b := .returned 5) (show
    (Machine.run (step 5) (nebFileBufferedCopy 5 [1, 2, 3, 4, 5, 6, 7] 1 []
        (List.replicate NEB_FILE_COPY_BUFFER_SIZE 0))
      [.read (some 3), .write (some 1), .write (some 2), .read (some 2), .write (some 2)]).map
        Transfer.ctl = some (.returned 5) by decide)
  obtain ⟨-, -, hreturned⟩ := nebFileBufferedCopy_faithful 5 [1, 2, 3, 4, 5, 6, 7] 1 []
    (List.replicate NEB_FILE_COPY_BUFFER_SIZE 0) List.length_replicate
    [.read (some 3), .write (some 1), .write (some 2), .read (some 2), .write (some 2)] s hrun
  obtain ⟨hout, -, hpos, -⟩ := hreturned 5 hctl
  exact ⟨s, hrun, hctl, hout, hpos⟩

end Nebase.File.Copy
