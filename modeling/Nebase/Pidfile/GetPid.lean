/- What get_pid makes of a pidfile with any content. -/

import Nebase.Pidfile.Model

set_option autoImplicit false
set_option relaxedAutoImplicit false

namespace Nebase.Pidfile

open Nebase.Foundation.Decimal

/-- The content of the file from the offset of the descriptor on. -/
def Kernel.ahead (k : Kernel) (d : Fd) : List UInt8 := k.file.drop (k.tell d)

/-- The indexes of `pidbuf` that `get_pid` uses when `read` has stored these bytes: theirs, the last
of them where the buffer is full, and that of the terminator, up to which `atoi` reads. -/
def pidbufIndexes (bytes : List UInt8) : List Nat :=
  List.range bytes.length ++
    if bytes.length = PIDFILE_PIDBUF_SIZE then
      (bytes.length - 1) :: if bytes.getLast? = some 0 then [bytes.length] else []
    else
      [bytes.length]

/-- A string starts with a decimal integer different from 0: blanks and a sign may stand before its
digits. -/
def StartsNumber (s : List UInt8) : Prop := strtol s ≠ 0

/-- `get_pid` stays inside `pidbuf`, returns a pid that stands in the file, and -1 for what is not a
number. -/
structure ReadsPid (d : Fd) (k : Kernel) : Prop where
  inside : ∀ i ∈ pidbufIndexes (k.read d PIDFILE_PIDBUF_SIZE).1, i < PIDFILE_PIDBUF_SIZE
  stored : ∀ p : Pid, k.ahead d = decimal p.val → (getPid true d k).1 = some (p.val : Int)
  refused : ¬ StartsNumber (k.ahead d) → (getPid true d k).1 = some (-1)

section Read

variable {d : Fd} {k : Kernel}

/-- A file that does not fill the buffer is read to its end. -/
private theorem read_short (h : (k.read d PIDFILE_PIDBUF_SIZE).1.length ≠ PIDFILE_PIDBUF_SIZE) :
    (k.read d PIDFILE_PIDBUF_SIZE).1 = k.ahead d := by
  change ((k.ahead d).take PIDFILE_PIDBUF_SIZE).length ≠ PIDFILE_PIDBUF_SIZE at h
  change (k.ahead d).take PIDFILE_PIDBUF_SIZE = k.ahead d
  rw [List.length_take] at h
  exact List.take_of_length_le (by omega)

/-- The buffer is full and ends in a zero when there is one at its last place in the file. -/
private theorem read_full_iff :
    ((k.read d PIDFILE_PIDBUF_SIZE).1.length = PIDFILE_PIDBUF_SIZE ∧
        (k.read d PIDFILE_PIDBUF_SIZE).1.getLast? = some 0) ↔
      (k.ahead d)[31]? = some 0 := by
  change (((k.ahead d).take 32).length = 32 ∧ ((k.ahead d).take 32).getLast? = some 0) ↔ _
  rw [List.getLast?_eq_getElem?, List.length_take]
  constructor
  · rintro ⟨hfull, hlast⟩
    rw [hfull, List.getElem?_take_of_lt (by decide)] at hlast
    exact hlast
  · intro h
    have hlen : 31 < (k.ahead d).length := (List.getElem?_eq_some_iff.mp h).1
    have hmin : min 32 (k.ahead d).length = 32 := by omega
    rw [hmin, List.getElem?_take_of_lt (by decide)]
    exact ⟨rfl, h⟩

end Read

/-- `get_pid` is safe and exact unless the file has a zero at the last place of the buffer. -/
theorem getPid_reads_iff (d : Fd) (k : Kernel) : ReadsPid d k ↔ (k.ahead d)[31]? ≠ some 0 := by
  let bytes := (k.read d PIDFILE_PIDBUF_SIZE).1
  have hfull : (bytes.length = PIDFILE_PIDBUF_SIZE ∧ bytes.getLast? = some 0) ↔
      (k.ahead d)[31]? = some 0 := read_full_iff
  have hle : bytes.length ≤ PIDFILE_PIDBUF_SIZE := List.length_take_le _ _
  have hpid : (getPid true d k).1 = pidOf bytes := rfl
  constructor
  · intro reads hzero
    obtain ⟨hlen, hlast⟩ := hfull.mpr hzero
    -- the terminator is written behind the buffer
    have hmem : PIDFILE_PIDBUF_SIZE ∈ pidbufIndexes bytes := by
      unfold pidbufIndexes
      rw [if_pos hlen, if_pos hlast, hlen]
      simp
    exact absurd (reads.inside _ hmem) (by decide)
  · intro hnot
    have hlast : bytes.length = PIDFILE_PIDBUF_SIZE → bytes.getLast? ≠ some 0 :=
      fun hlen hzero => hnot (hfull.mp ⟨hlen, hzero⟩)
    refine ⟨fun i hi => ?_, fun p hp => ?_, fun hnumber => ?_⟩
    · change i ∈ pidbufIndexes bytes at hi
      unfold pidbufIndexes at hi
      by_cases hlen : bytes.length = PIDFILE_PIDBUF_SIZE
      · rw [if_pos hlen, if_neg (hlast hlen)] at hi
        simp only [List.mem_append, List.mem_range, List.mem_singleton] at hi
        have hpos : 0 < PIDFILE_PIDBUF_SIZE := by decide
        omega
      · rw [if_neg hlen] at hi
        simp only [List.mem_append, List.mem_range, List.mem_singleton] at hi
        omega
    · have hshort := decimal_length_lt p
      have hbytes : bytes = decimal p.val := by
        rw [← hp]
        apply read_short
        change ((k.ahead d).take PIDFILE_PIDBUF_SIZE).length ≠ PIDFILE_PIDBUF_SIZE
        rw [hp, List.length_take]
        omega
      rw [hpid, hbytes]
      exact pidOf_decimal p
    · rw [hpid]
      unfold pidOf
      by_cases hlen : bytes.length = PIDFILE_PIDBUF_SIZE
      · rw [if_pos hlen, if_neg (hlast hlen)]
      · -- the whole file has been read, and `atoi` finds no number in it
        have hatoi : atoi bytes = 0 := by
          have hbytes : bytes = k.ahead d := read_short hlen
          rw [hbytes, atoi, not_not.mp hnumber]
          rfl
        rw [if_neg hlen, if_pos hatoi]

/-- A file that has been left there with these bytes, read from its start. -/
private def opened (file : List UInt8) : Kernel :=
  (Kernel.left file).openFd ⟨1, by decide, by decide⟩ 0

/-- Thirty-two bytes, the last of which is a zero, make `get_pid` write behind its buffer. -/
theorem getPid_overruns :
    PIDFILE_PIDBUF_SIZE ∈ pidbufIndexes
        ((opened (List.replicate 31 49 ++ [0])).read 0 PIDFILE_PIDBUF_SIZE).1 ∧
      ¬ ReadsPid 0 (opened (List.replicate 31 49 ++ [0])) := by
  have hmem : PIDFILE_PIDBUF_SIZE ∈ pidbufIndexes
      ((opened (List.replicate 31 49 ++ [0])).read 0 PIDFILE_PIDBUF_SIZE).1 := by decide
  exact ⟨hmem, fun reads => absurd (reads.inside _ hmem) (by decide)⟩

end Nebase.Pidfile
