/- The copy with an explicit offset keeps its contract unless the file offset cannot be read. -/

import Nebase.File.Copy.Buffered

set_option autoImplicit false
set_option relaxedAutoImplicit false

namespace Nebase.File.Copy

open Nebase.Foundation

/-- What the header promises of a copy at `*offset` that has returned `ret`: the file offset is
restored, `*offset` moved past the bytes copied, and these are the ones at `*offset`. -/
structure Contract (offset : Int) (content : List UInt8) (pos : Nat) (out : List UInt8) (ret : Int)
    (s : SysCopy) : Prop where
  restored : s.file.pos = pos
  advanced : s.offset = if 0 < ret then offset + ret else offset
  written : ∃ m : Nat, s.file.out = out ++ (content.drop offset.toNat).take m ∧ (0 ≤ ret → ret = m)

/-- The answers of `read` and `write`. -/
def ioAnswers (answers : List SysAnswer) : List Answer :=
  answers.filterMap (fun answer => match answer with
    | .io a => some a
    | _ => none)

/-- `sendfile` is not available, so the copy goes through the buffer. -/
def Buffered (answers : List SysAnswer) : Prop :=
  ∃ e rest, answers = .sendfile (.error e) :: rest ∧ e ≠ Errno.other

/-- The first `lseek` reads the file offset; or the second one fails as well; or nothing was copied
and the file offset has come back to where it was by the reads alone. -/
def Restores (offset : Int) (pos : Nat) (answers : List SysAnswer) : Prop :=
  answers[1]? = some (.lseek true) ∨ answers[2]? = some (.lseek false) ∨
    (writeFails (ioAnswers answers) = true ∨ readTotal (ioAnswers answers) = 0) ∧
      offset + readTotal (ioAnswers answers) = pos

/-! The phases. -/

/-- The copy has begun, and `c` is where it is. -/
private def SysCopy.during (s : SysCopy) (c : Transfer) : SysCopy :=
  ({ s with phase := .copying, file := c } : SysCopy).copied

private theorem during_returned {s : SysCopy} {c : Transfer} {nc : Int}
    (h : c.ctl = .returned nc) : s.during c = { s with
      phase := .restoring nc
      offset := if nc > 0 then s.offset + nc else s.offset
      file := c } := by
  simp only [SysCopy.during, SysCopy.copied, h]

private theorem during_running {s : SysCopy} {c : Transfer} (h : ∀ nc, c.ctl ≠ .returned nc) :
    s.during c = { s with phase := .copying, file := c } := by
  unfold SysCopy.during SysCopy.copied
  cases hctl : c.ctl with
  | returned nc => exact absurd hctl (h nc)
  | reading => rfl
  | writing nr offset => rfl

section Phases

variable {count : UInt64} {s s' : SysCopy} {answer : SysAnswer} {ret : Int}

private theorem no_step_returned (h : s.phase = .returned ret) :
    sysStep count s answer = none := by
  cases answer <;> simp [sysStep, h]

private theorem step_restoring (nc : Int) (h : s.phase = .restoring nc)
    (hstep : sysStep count s answer = some s') :
    answer = .lseek (decide (0 ≤ s.oldOffset)) ∧ s'.phase =
      .returned (if 0 ≤ s.oldOffset then nc else -1) ∧ s'.offset = s.offset ∧
      s'.file = if 0 ≤ s.oldOffset then { s.file with pos := s.oldOffset.toNat } else s.file := by
  cases answer with
  | sendfile r => simp [sysStep, h] at hstep
  | io a => simp [sysStep, h] at hstep
  | lseek ok =>
    simp only [sysStep, h] at hstep
    split_ifs at hstep with hok htrue
    · obtain rfl := Option.some.inj hstep
      have hold : 0 ≤ s.oldOffset := by simpa [htrue] using hok
      exact ⟨by rw [hok], by simp [hold], rfl, by simp [hold]⟩
    · obtain rfl := Option.some.inj hstep
      have hold : ¬ 0 ≤ s.oldOffset := by simpa [htrue] using hok
      exact ⟨by rw [hok], by simp [hold], rfl, by simp [hold]⟩

/-- A run from inside the copy to the return of `neb_file_sys_copy` is a run of the copy to its own
return, and one more `lseek`. -/
private theorem run_during {c : Transfer} {rest : List SysAnswer}
    (reached : Machine.run (sysStep count) (s.during c) rest = some s')
    (returned : s'.phase = .returned ret) :
    ∃ ios c' nc, ioAnswers rest = ios ∧ Machine.run (step count) c ios = some c' ∧
      c'.ctl = .returned nc ∧ ret = (if 0 ≤ s.oldOffset then nc else -1) ∧
      s'.offset = (if nc > 0 then s.offset + nc else s.offset) ∧
      s'.file = if 0 ≤ s.oldOffset then { c' with pos := s.oldOffset.toNat } else c' := by
  induction rest generalizing c with
  | nil =>
    obtain rfl : s.during c = s' := by simpa using reached
    by_cases h : ∃ nc, c.ctl = .returned nc
    · obtain ⟨nc, hnc⟩ := h
      rw [during_returned hnc] at returned
      cases returned
    · rw [during_running (fun nc hnc => h ⟨nc, hnc⟩)] at returned
      cases returned
  | cons answer rest ih =>
    obtain ⟨t, ht, hrest⟩ := Machine.run_cons_eq_some.mp reached
    by_cases h : ∃ nc, c.ctl = .returned nc
    · obtain ⟨nc, hnc⟩ := h
      rw [during_returned hnc] at ht
      obtain ⟨rfl, hphase, hoffset, hfile⟩ := step_restoring nc rfl ht
      -- the call has returned
      cases rest with
      | cons answer' rest' =>
        obtain ⟨u, hu, -⟩ := Machine.run_cons_eq_some.mp hrest
        rw [no_step_returned hphase] at hu
        cases hu
      | nil =>
        obtain rfl : t = s' := by simpa using hrest
        rw [hphase] at returned
        obtain rfl := Phase.returned.inj returned
        exact ⟨[], c, nc, rfl, rfl, hnc, rfl, hoffset, hfile⟩
    · rw [during_running (fun nc hnc => h ⟨nc, hnc⟩)] at ht
      cases answer with
      | sendfile r => simp [sysStep] at ht
      | lseek ok => simp [sysStep] at ht
      | io a =>
        obtain ⟨c1, hc1, rfl⟩ := Option.map_eq_some_iff.mp ht
        obtain ⟨ios, c', nc, hios, hrun, hfinal⟩ := ih hrest
        refine ⟨a :: ios, c', nc, ?_, Machine.run_cons_eq_some.mpr ⟨c1, hc1, hrun⟩, hfinal⟩
        rw [← hios]
        rfl

/-- A copy through the buffer: either the second `lseek` has failed, or it has set the file offset
and the copy has begun. -/
private theorem run_buffered {offset : Int} {content out buf : List UInt8} {pos : Nat}
    {answers : List SysAnswer} (buffered : Buffered answers)
    (reached : Machine.run (sysStep count) (nebFileSysCopy offset content pos out buf) answers =
      some s') (returned : s'.phase = .returned ret) :
    ∃ (ok : Bool) (s : SysCopy), answers[1]? = some (.lseek ok) ∧ s.offset = offset ∧
      s.oldOffset = (if ok then (pos : Int) else -1) ∧
      (answers[2]? = some (.lseek false) ∧ ret = -1 ∧ s'.offset = offset ∧ s'.file.pos = pos ∧
          s'.file.out = out ∨
        answers[2]? = some (.lseek true) ∧ 0 ≤ offset ∧ ∃ rest, ioAnswers answers = ioAnswers rest ∧
          Machine.run (sysStep count)
            (s.during (nebFileBufferedCopy count content offset.toNat out buf)) rest = some s') := by
  obtain ⟨e, rest, rfl, he⟩ := buffered
  let start := nebFileSysCopy offset content pos out buf
  obtain ⟨t, ht, hrest⟩ := Machine.run_cons_eq_some.mp reached
  obtain rfl : { start with phase := .seekCur } = t := by
    cases e with
    | ENOSYS => exact Option.some.inj ht
    | EINVAL => exact Option.some.inj ht
    | other => exact absurd rfl he
  -- `lseek(in_fd, 0, SEEK_CUR)`
  cases rest with
  | nil =>
    obtain rfl := Option.some.inj hrest
    cases returned
  | cons cur rest =>
  obtain ⟨t, ht, hrest⟩ := Machine.run_cons_eq_some.mp hrest
  cases cur with
  | sendfile r => cases ht
  | io a => cases ht
  | lseek ok =>
  obtain rfl := Option.some.inj ht
  -- `lseek(in_fd, *offset, SEEK_SET)`
  cases rest with
  | nil =>
    obtain rfl := Option.some.inj hrest
    cases returned
  | cons set rest =>
  obtain ⟨t, ht, hrest⟩ := Machine.run_cons_eq_some.mp hrest
  cases set with
  | sendfile r => cases ht
  | io a => cases ht
  | lseek ok2 =>
  refine ⟨ok, { start with phase := .seekSet, oldOffset := if ok then pos else -1 }, rfl, rfl, rfl,
    ?_⟩
  cases ok2 with
  | false =>
    obtain rfl := Option.some.inj ht
    cases rest with
    | cons answer rest =>
      obtain ⟨u, hu, -⟩ := Machine.run_cons_eq_some.mp hrest
      cases answer <;> cases hu
    | nil =>
      obtain rfl := Option.some.inj hrest
      obtain rfl := Phase.returned.inj returned
      exact .inl ⟨rfl, rfl, rfl, rfl, rfl⟩
  | true =>
    change (if 0 ≤ offset then some _ else none) = some t at ht
    by_cases hoffset : 0 ≤ offset
    · rw [if_pos hoffset] at ht
      obtain rfl := Option.some.inj ht
      exact .inr ⟨rfl, hoffset, rest, rfl, hrest⟩
    · rw [if_neg hoffset] at ht
      cases ht

end Phases

/-- What a copy that has returned `nc` has read and written. -/
private theorem copy_returned {count : UInt64} {content out buf : List UInt8} {start : Nat}
    (size : buf.length = NEB_FILE_COPY_BUFFER_SIZE) {ios : List Answer} {c : Transfer} {nc : Int}
    (reached : Machine.run (step count) (nebFileBufferedCopy count content start out buf) ios =
      some c)
    (returned : c.ctl = .returned nc) :
    c.pos = start + readTotal ios ∧
      (nc = if writeFails ios then -1 else (readTotal ios : Int)) ∧
      ∃ m : Nat, c.out = out ++ (content.drop start).take m ∧ (0 ≤ nc → nc = m) := by
  have books : Books count content start out (0 + readTotal ios) (false || writeFails ios) c :=
    (Books.start buf size).ofRun reached
  rw [Nat.zero_add, Bool.false_or] at books
  have ctl := books.ctl
  have hleft := books.left
  have hcount := count.toNat_lt
  simp only [CtlOk, returned] at ctl
  refine ⟨books.read, ?_⟩
  split_ifs at ctl with hfailed
  · obtain ⟨rfl, m, -, written⟩ := ctl
    exact ⟨by rw [if_pos hfailed], m, written, fun h => absurd h (by decide)⟩
  · obtain ⟨hnc, written⟩ := ctl
    have hof : (UInt64.ofNat (readTotal ios)).toNat = readTotal ios := by
      rw [UInt64.toNat_ofNat']
      omega
    have hsmall : readTotal ios < 9223372036854775808 := by
      have hinside := books.inside
      unfold OFF_MAX at hinside
      omega
    rw [ssize_of_lt (by rw [hof]; exact hsmall), hof] at hnc
    exact ⟨by rw [if_neg hfailed, hnc], readTotal ios, written, fun _ => hnc⟩

/-- A copy at `*offset` through the buffer keeps its contract exactly when the file offset is known
or does not have to be restored. -/
theorem nebFileSysCopy_contract_iff (count : UInt64) (offset : Int) (content : List UInt8)
    (pos : Nat) (out buf : List UInt8) (size : buf.length = NEB_FILE_COPY_BUFFER_SIZE)
    (answers : List SysAnswer) (buffered : Buffered answers) (s : SysCopy)
    (reached : Machine.run (sysStep count) (nebFileSysCopy offset content pos out buf) answers =
      some s) (ret : Int) (returned : s.phase = .returned ret) :
    Contract offset content pos out ret s ↔ Restores offset pos answers := by
  obtain ⟨ok, s0, hcur, hoffset0, hold, hset⟩ := run_buffered buffered reached returned
  rcases hset with ⟨hset, rfl, hoffset, hpos, hout⟩ | ⟨hset, hnonneg, rest, hios, hrest⟩
  · refine iff_of_true ⟨hpos, ?_, 0, by simp [hout], fun h => absurd h (by decide)⟩
      (.inr (.inl hset))
    rw [hoffset, if_neg (by decide)]
  obtain ⟨ios, c, nc, hrestios, hrun, hnc, hret, hoffset, hfile⟩ := run_during hrest returned
  rw [hrestios] at hios
  rw [hoffset0] at hoffset
  obtain ⟨hpos, hvalue, m, hout, hm⟩ := copy_returned size hrun hnc
  cases ok with
  | true =>
    have hknown : s0.oldOffset = pos := hold
    rw [hknown, if_pos (Int.natCast_nonneg pos)] at hret hfile
    subst hret
    refine iff_of_true ⟨by rw [hfile, Int.toNat_natCast], hoffset, m, ?_, hm⟩ (.inl hcur)
    rw [hfile]
    exact hout
  | false =>
    have hunknown : s0.oldOffset = -1 := hold
    rw [hunknown, if_neg (by decide)] at hret hfile
    subst hret
    have hrestores : Restores offset pos answers ↔
        (writeFails ios = true ∨ readTotal ios = 0) ∧ offset + readTotal ios = pos := by
      unfold Restores
      rw [hcur, hset, hios]
      simp
    rw [hrestores]
    constructor
    · intro contract
      have hback := contract.restored
      have hkept := contract.advanced
      rw [hfile, hpos] at hback
      rw [hoffset, if_neg (show ¬ (0 : Int) < -1 by decide)] at hkept
      refine ⟨?_, by omega⟩
      by_contra hneither
      obtain ⟨hok, hread⟩ := not_or.mp hneither
      rw [if_neg hok] at hvalue
      rw [if_pos (by omega)] at hkept
      omega
    · rintro ⟨hnone, hback⟩
      refine ⟨by rw [hfile, hpos]; omega, ?_, m, by rw [hfile]; exact hout,
        fun h => absurd h (by decide)⟩
      have hle : ¬ nc > 0 := by
        split_ifs at hvalue with hfails
        · omega
        · have hzero := hnone.resolve_left hfails
          omega
      rw [hoffset, if_neg hle, if_neg (by decide)]

/-- Four bytes at 2 of a file whose offset is 1. -/
private def fourAtTwo : SysCopy :=
  nebFileSysCopy 2 [1, 2, 3, 4, 5, 6, 7, 8] 1 [] (List.replicate NEB_FILE_COPY_BUFFER_SIZE 0)

/-- `known` says whether the first `lseek` succeeds. -/
private def fourCopied (known : Bool) : List SysAnswer :=
  [.sendfile (.error .EINVAL), .lseek known, .lseek true, .io (.read (some 4)),
    .io (.write (some 4)), .lseek known]

private def outcome (s : SysCopy) : Phase × Int × Nat := (s.phase, s.offset, s.file.pos)

theorem nebFileSysCopy_contract_iff_known :
    Buffered (fourCopied true) ∧ ∃ s, Machine.run (sysStep 4) fourAtTwo (fourCopied true) = some s ∧
      s.phase = .returned 4 ∧ Contract 2 [1, 2, 3, 4, 5, 6, 7, 8] 1 [] 4 s := by
  have hbuffered : Buffered (fourCopied true) := ⟨.EINVAL, _, rfl, by decide⟩
  obtain ⟨s, hrun, hs⟩ := Machine.run_reaches (f := outcome) (b := (.returned 4, 6, 1)) (show
    (Machine.run (sysStep 4) fourAtTwo (fourCopied true)).map outcome =
      some (.returned 4, 6, 1) by decide)
  have hphase : s.phase = .returned 4 := congrArg Prod.fst hs
  exact ⟨hbuffered, s, hrun, hphase, (nebFileSysCopy_contract_iff 4 2 [1, 2, 3, 4, 5, 6, 7, 8] 1 []
    (List.replicate NEB_FILE_COPY_BUFFER_SIZE 0) List.length_replicate (fourCopied true) hbuffered s
    hrun 4 hphase).mpr (.inl rfl)⟩

/-- The first `lseek` fails: -1 is returned, but `*offset` and the file offset are past the bytes
copied. -/
theorem nebFileSysCopy_loses_offset :
    Buffered (fourCopied false) ∧ ∃ s,
      Machine.run (sysStep 4) fourAtTwo (fourCopied false) = some s ∧ s.phase = .returned (-1) ∧
        s.offset = 6 ∧ s.file.pos = 6 ∧ ¬ Contract 2 [1, 2, 3, 4, 5, 6, 7, 8] 1 [] (-1) s := by
  obtain ⟨s, hrun, hs⟩ := Machine.run_reaches (f := outcome) (b := (.returned (-1), 6, 6)) (show
    (Machine.run (sysStep 4) fourAtTwo (fourCopied false)).map outcome =
      some (.returned (-1), 6, 6) by decide)
  obtain ⟨hphase, hrest⟩ := Prod.mk.inj hs
  obtain ⟨hoffset, hpos⟩ := Prod.mk.inj hrest
  refine ⟨⟨.EINVAL, _, rfl, by decide⟩, s, hrun, hphase, hoffset, hpos, fun contract => ?_⟩
  have hback := contract.restored
  omega

end Nebase.File.Copy
