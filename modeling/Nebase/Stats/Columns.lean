/- The name of a process shifts no column of its statistics. -/

import Nebase.Stats.Tokens
import Mathlib.Data.List.GetD

set_option autoImplicit false
set_option relaxedAutoImplicit false

namespace Nebase.Stats

open Nebase.Foundation.Decimal

/-- `pid (comm) f3 f4 ... fn`. -/
def statLine (pid comm : List UInt8) (fields : List (List UInt8)) : List UInt8 :=
  pid ++ [32, 40] ++ comm ++ [41, 32] ++ [32].intercalate fields

/-- The field of column `col`, the first of `fields` being that of column 3. -/
def statField (fields : List (List UInt8)) (col : Nat) : List UInt8 := fields.getD (col - 3) []

/-- The members that `flags` asks for, from columns 14, 15, 23 and 24. -/
def filled (conf : Sysconf) (flags : UInt32) (fields : List (List UInt8)) (s : NebStatsProc) :
    NebStatsProc :=
  let cpu : Bool := flags &&& NEB_PROC_F_CPU ≠ 0
  let vm : Bool := flags &&& NEB_PROC_F_VM ≠ 0
  { s with
    tvUtime := if cpu then nebClktck2timeval conf (strtoul (statField fields 14)) else s.tvUtime
    tvStime := if cpu then nebClktck2timeval conf (strtoul (statField fields 15)) else s.tvStime
    vmSize := if vm then strtoul (statField fields 23) else s.vmSize
    vmRssize :=
      if vm then (strtol (statField fields 24) * conf.pagesize % 2 ^ 64).toNat else s.vmRssize }

section Columns

variable (conf : Sysconf) (flags : UInt32)

theorem columns_append (strs strs' : List (List UInt8)) (col : Nat) (s : NebStatsProc) :
    columns conf flags col (strs ++ strs') s =
      columns conf flags (col + strs.length) strs' (columns conf flags col strs s) := by
  induction strs generalizing col s with
  | nil => rfl
  | cons str strs ih =>
    rw [List.cons_append, columns, ih, List.length_cons, columns]
    congr 1
    omega

theorem column_other {col : Nat} (h : col ≠ 14 ∧ col ≠ 15 ∧ col ≠ 23 ∧ col ≠ 24)
    (str : List UInt8) (s : NebStatsProc) : column conf flags col str s = s := by
  simp [column, h]

/-- Columns without one of the four change nothing. -/
theorem columns_other {strs : List (List UInt8)} {col : Nat}
    (h : ∀ k, col < k → k ≤ col + strs.length → k ≠ 14 ∧ k ≠ 15 ∧ k ≠ 23 ∧ k ≠ 24)
    (s : NebStatsProc) : columns conf flags col strs s = s := by
  induction strs generalizing col with
  | nil => rfl
  | cons str strs ih =>
    rw [List.length_cons] at h
    rw [columns, column_other conf flags (h (col + 1) (by omega) (by omega))]
    exact ih (fun k hk hle => h k (by omega) (by omega))

/-- Behind column 2: columns 3 to 13, 14 and 15, 16 to 22, 23 and 24, and the rest. -/
theorem columns_split {front middle : List (List UInt8)} (hfront : front.length = 11)
    (hmiddle : middle.length = 7) (utime stime vsize rss : List UInt8)
    (rest : List (List UInt8)) (s : NebStatsProc) :
    columns conf flags 2 (front ++ utime :: stime :: (middle ++ vsize :: rss :: rest)) s =
      column conf flags 24 rss (column conf flags 23 vsize
        (column conf flags 15 stime (column conf flags 14 utime s))) := by
  have h3 : columns conf flags 2 front s = s :=
    columns_other conf flags (by rw [hfront]; omega) s
  have h16 : ∀ s, columns conf flags 15 middle s = s :=
    columns_other conf flags (by rw [hmiddle]; omega)
  have h25 : ∀ s, columns conf flags 24 rest s = s := columns_other conf flags (by omega)
  rw [columns_append, h3, hfront, columns, columns, columns_append, h16, hmiddle, columns, columns,
    h25]

end Columns

private theorem split_pair (fields : List (List UInt8)) {k : Nat} (h : k + 1 < fields.length) :
    fields = fields.take k ++
      fields.getD k [] :: fields.getD (k + 1) [] :: fields.drop (k + 2) := by
  rw [List.getD_eq_getElem _ _ (by omega), List.getD_eq_getElem _ _ h,
    List.getElem_cons_drop, List.getElem_cons_drop, List.take_append_drop]

private theorem stat_fields_split {fields : List (List UInt8)} (hn : 24 ≤ fields.length + 2) :
    ∃ front middle rest, front.length = 11 ∧ middle.length = 7 ∧
      fields = front ++ statField fields 14 :: statField fields 15 ::
        (middle ++ statField fields 23 :: statField fields 24 :: rest) := by
  have hcpu : fields = fields.take 11 ++ statField fields 14 :: statField fields 15 ::
      fields.drop 13 := split_pair fields (by omega)
  have hvm := split_pair (fields.drop 13) (k := 7) (by rw [List.length_drop]; omega)
  have hat : ∀ k, (fields.drop 13).getD k [] = fields.getD (13 + k) [] := by
    intro k
    rw [List.getD_eq_getElem?_getD, List.getD_eq_getElem?_getD, List.getElem?_drop]
  rw [hat, hat] at hvm
  refine ⟨fields.take 11, (fields.drop 13).take 7, (fields.drop 13).drop 9, ?_, ?_, ?_⟩
  · rw [List.length_take]
    omega
  · rw [List.length_take, List.length_drop]
    omega
  · exact hcpu.trans (congrArg (fun rest => fields.take 11 ++ statField fields 14 ::
      statField fields 15 :: rest) hvm)

/-- The loop on the fields from column 3 on. -/
theorem columns_filled (conf : Sysconf) (flags : UInt32) {fields : List (List UInt8)}
    (hn : 24 ≤ fields.length + 2) (s : NebStatsProc) :
    columns conf flags 2 fields s = filled conf flags fields s := by
  obtain ⟨front, middle, rest, hfront, hmiddle, hsplit⟩ := stat_fields_split hn
  calc columns conf flags 2 fields s
      = columns conf flags 2 (front ++ statField fields 14 :: statField fields 15 ::
          (middle ++ statField fields 23 :: statField fields 24 :: rest)) s :=
        congrArg (fun strs => columns conf flags 2 strs s) hsplit
    _ = column conf flags 24 (statField fields 24) (column conf flags 23 (statField fields 23)
          (column conf flags 15 (statField fields 15)
            (column conf flags 14 (statField fields 14) s))) :=
        columns_split conf flags hfront hmiddle _ _ _ _ _ s
    _ = filled conf flags fields s := by
        by_cases hcpu : flags &&& NEB_PROC_F_CPU = 0 <;>
          by_cases hvm : flags &&& NEB_PROC_F_VM = 0 <;>
            simp [column, filled, hcpu, hvm]

/-- The string is found behind the last parenthesis, whatever the name is. -/
theorem strrchr_statLine {pid comm : List UInt8} {fields : List (List UInt8)}
    (hfields : ∀ f ∈ fields, 41 ∉ f) :
    strrchr (statLine pid comm fields) 41 = some (32 :: [32].intercalate fields) := by
  have hlast : (41 : UInt8) ∉ 32 :: [32].intercalate fields := by
    rw [List.mem_cons, not_or]
    exact ⟨by decide, not_mem_intercalate (by decide) hfields⟩
  have hsplit : statLine pid comm fields =
      (pid ++ [32, 40] ++ comm) ++ 41 :: 32 :: [32].intercalate fields := by
    simp [statLine]
  rw [hsplit, strrchr_append hlast]

/-- Whatever the name of the process is, `get_stat` fills the members that are asked for from their
columns, and nothing else. -/
theorem getStat_fills (conf : Sysconf) (o : ProcOutcome) (flags : UInt32) (s : NebStatsProc)
    (p : OpenFiles) (buf : Bytes) (pid comm : List UInt8) (fields : List (List UInt8))
    (hopen : o.stat = true) (hread : o.read = some buf) (hlen : buf.bytes.length < sizeofBuf)
    (hcontent : cstr buf.bytes = statLine pid comm fields)
    (hfields : ∀ f ∈ fields, f ≠ [] ∧ 32 ∉ f ∧ 41 ∉ f) (hn : 24 ≤ fields.length + 2) :
    ∃ p', getStat conf o flags s p = .ok (0, filled conf flags fields s, p') := by
  have hfound : strrchr (cstr buf.bytes) 41 = some (32 :: [32].intercalate fields) := by
    rw [hcontent]
    exact strrchr_statLine (fun f hf => (hfields f hf).2.2)
  have htokens : strtok [32] ([32].intercalate fields) = fields := by
    refine strtok_intercalate (by decide) (fun f hf => ⟨(hfields f hf).1, ?_⟩)
    intro b hb hblank
    rw [List.mem_singleton] at hblank
    exact (hfields f hf).2.1 (hblank ▸ hb)
  refine ⟨p.openFd.2, ?_⟩
  unfold getStat
  simp [hopen, hread, hlen.ne, hfound, htokens, columns_filled conf flags hn s]

/-- Columns 3 to 24, each with a 7. -/
private def sevens : List (List UInt8) := List.replicate 22 [55]

/-- All calls succeed, and `buf` is read. -/
private def outcomeOf (buf : Bytes) : ProcOutcome := ⟨true, some (0, 0), true, some buf⟩

private def blankProc : NebStatsProc := ⟨1, (0, 0), (0, 0), (0, 0), 0, 0⟩

/-- The name `) 1 (`, which looks like the end of a name and a column. -/
private def hostileLine : Bytes :=
  ⟨statLine [49] [41, 32, 49, 32, 40] sevens, by decide⟩

theorem getStat_fills_hostile : ∃ p', getStat ⟨100, 4096⟩ (outcomeOf hostileLine) NEB_PROC_F_CPU
    blankProc ⟨∅, ∅⟩ = .ok (0, filled ⟨100, 4096⟩ NEB_PROC_F_CPU sevens blankProc, p') :=
  getStat_fills _ _ _ _ _ hostileLine [49] [41, 32, 49, 32, 40] sevens rfl rfl (by decide)
    (by decide) (by decide) (by decide)

/-- The name of one byte 0, which ends the string. -/
private def nulLine : Bytes := ⟨statLine [49] [0] sevens, by decide⟩

/-- With a byte 0 in the name no parenthesis is found, and nothing is filled. -/
theorem getStat_nul_name : nulLine.bytes = statLine [49] [0] sevens ∧
    nulLine.bytes.length < sizeofBuf ∧ (∀ f ∈ sevens, f ≠ [] ∧ 32 ∉ f ∧ 41 ∉ f) ∧
    24 ≤ sevens.length + 2 ∧
    ¬ ∃ p', getStat ⟨100, 4096⟩ (outcomeOf nulLine) NEB_PROC_F_CPU blankProc ⟨∅, ∅⟩ =
      .ok (0, filled ⟨100, 4096⟩ NEB_PROC_F_CPU sevens blankProc, p') := by
  refine ⟨rfl, by decide, by decide, by decide, ?_⟩
  rintro ⟨p', h⟩
  have hnone : strrchr (cstr nulLine.bytes) 41 = none := by decide
  have hlen : nulLine.bytes.length ≠ sizeofBuf := by decide
  simp [getStat, outcomeOf, hnone, hlen] at h

end Nebase.Stats
