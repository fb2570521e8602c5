/- The format of a log message with its %m directives replaced by the error text. -/

import Mathlib.Data.List.Basic

set_option autoImplicit false
set_option relaxedAutoImplicit false

namespace Nebase.Syslog

def FMT_SIZE : Nat := 1024 + 1

/-- `*t++ = c`, where `out` is what stands before `t`; `none` behind the end of `fmt_cpy`. -/
def put (c : UInt8) (out : List UInt8) : Option (List UInt8) :=
  if out.length < FMT_SIZE then some (out ++ [c]) else none

/-- `snprintf(t, fmt_left, "%s", ebuf)` and the steps after it: the text before `t`, and `fmt_left`.
The terminator is written too. -/
def putErr (ebuf out : List UInt8) (fmtLeft : Nat) : Option (List UInt8 × Nat) :=
  let prlen := if ebuf.length ≥ fmtLeft then fmtLeft - 1 else ebuf.length
  if out.length + prlen < FMT_SIZE then some (out ++ ebuf.take prlen, fmtLeft - prlen) else none

/-- The loop of `get_normalized_fmt` and the terminator behind it; a string is given by the bytes
before its end. -/
def normalizeLoop (ebuf : List UInt8) : List UInt8 → List UInt8 → Nat → Option (List UInt8)
  | [], out, _ => put 0 out
  | [ch], out, fmtLeft => if fmtLeft > 1 then (put ch out).bind (put 0) else put 0 out
  | ch :: next :: fmt, out, fmtLeft =>
    if fmtLeft > 1 then
      if ch = 37 ∧ next = 109 then
        (putErr ebuf out fmtLeft).bind (fun (out, fmtLeft) => normalizeLoop ebuf fmt out fmtLeft)
      else if ch = 37 ∧ next = 37 ∧ fmtLeft > 2 then
        ((put 37 out).bind (put 37)).bind (fun out => normalizeLoop ebuf fmt out (fmtLeft - 2))
      else
        (put ch out).bind (fun out => normalizeLoop ebuf (next :: fmt) out (fmtLeft - 1))
    else
      put 0 out

/-- What `fmt_cpy` holds up to its terminator. `err` is the text that the `strerror_r` of XSI writes,
cut to `ebuf`; the one of GNU may leave `ebuf` unwritten. -/
def getNormalizedFmt (err fmt : List UInt8) : Option (List UInt8) :=
  normalizeLoop (err.take (FMT_SIZE - 1)) fmt [] FMT_SIZE

/-! What it is for. -/

/-- Every `%m` is replaced by the error text, and everything else stays, `%%` with what follows. -/
def expand (err : List UInt8) : List UInt8 → List UInt8
  | [] => []
  | [ch] => [ch]
  | ch :: next :: fmt =>
    if ch = 37 ∧ next = 109 then
      err ++ expand err fmt
    else if ch = 37 ∧ next = 37 then
      37 :: 37 :: expand err fmt
    else
      ch :: expand err (next :: fmt)

private theorem put_of_left {out : List UInt8} {left : Nat} (room : out.length + left = FMT_SIZE)
    (pos : 0 < left) (c : UInt8) : put c out = some (out ++ [c]) := if_pos (by omega)

/-- An error text, in the room that is left. -/
private theorem put_err_spec (err : List UInt8) {out : List UInt8} {left : Nat}
    (room : out.length + left = FMT_SIZE) (pos : 0 < left) :
    ∃ left', putErr (err.take (FMT_SIZE - 1)) out left =
        some (out ++ err.take (left - 1), left') ∧ 0 < left' ∧
      (out ++ err.take (left - 1)).length + left' = FMT_SIZE ∧
      left' - 1 = left - 1 - err.length := by
  have hsize : FMT_SIZE = 1025 := rfl
  have htake : (err.take (FMT_SIZE - 1)).length = min (FMT_SIZE - 1) err.length := List.length_take
  unfold putErr
  by_cases hlong : (err.take (FMT_SIZE - 1)).length ≥ left
  · have hcut : (err.take (FMT_SIZE - 1)).take (left - 1) = err.take (left - 1) := by
      rw [List.take_take]
      congr 1
      omega
    simp only [if_pos hlong, hcut]
    refine ⟨left - (left - 1), by rw [if_pos (by omega)], by omega, ?_, by omega⟩
    rw [List.length_append, List.length_take]
    omega
  · have hfits : err.take (FMT_SIZE - 1) = err.take (left - 1) := by
      by_cases hshort : err.length ≤ FMT_SIZE - 1
      · rw [List.take_of_length_le hshort, List.take_of_length_le (by omega)]
      · congr 1
        omega
    simp only [if_neg hlong, List.take_length]
    refine ⟨left - (err.take (FMT_SIZE - 1)).length, by rw [if_pos (by omega), hfits], by omega, ?_,
      by omega⟩
    rw [List.length_append, ← hfits]
    omega

/-- Where there is room for the terminator alone, the loop ends. -/
private theorem normalize_loop_full {ebuf out : List UInt8} {left : Nat} (fmt rest : List UInt8)
    (room : out.length + left = FMT_SIZE) (pos : 0 < left) (full : ¬ left > 1) :
    normalizeLoop ebuf fmt out left = some (out ++ rest.take (left - 1) ++ [0]) := by
  obtain rfl : left = 1 := by omega
  have hend : normalizeLoop ebuf fmt out 1 = put 0 out := by
    unfold normalizeLoop
    split
    · rfl
    · exact if_neg full
    · exact if_neg full
  rw [hend, put_of_left room pos, List.take_zero, List.append_nil]

/-- The loop writes the expansion, as much of it as there is room for. -/
private theorem normalize_loop_spec {err fmt out : List UInt8} {left : Nat}
    (room : out.length + left = FMT_SIZE) (pos : 0 < left) :
    normalizeLoop (err.take (FMT_SIZE - 1)) fmt out left =
      some (out ++ (expand err fmt).take (left - 1) ++ [0]) := by
  fun_induction expand err fmt generalizing out left with
  | case1 =>
    rw [normalizeLoop, put_of_left room pos, List.take_nil, List.append_nil]
  | case2 ch =>
    by_cases hmore : left > 1
    · have hroom : (out ++ [ch]).length + (left - 1) = FMT_SIZE := by
        rw [List.length_append, List.length_singleton]
        omega
      rw [normalizeLoop, if_pos hmore, put_of_left room pos, Option.bind_some,
        put_of_left hroom (by omega),
        List.take_of_length_le (by rw [List.length_singleton]; omega)]
    · exact normalize_loop_full _ _ room pos hmore
  | case3 ch next fmt hm ih =>
    by_cases hmore : left > 1
    · obtain ⟨left', hput, hpos', hroom', hleft'⟩ := put_err_spec err room pos
      rw [normalizeLoop, if_pos hmore, if_pos hm, hput, Option.bind_some]
      change normalizeLoop _ fmt (out ++ err.take (left - 1)) left' = _
      rw [ih hroom' hpos', hleft', List.take_append, List.append_assoc out]
    · exact normalize_loop_full _ _ room pos hmore
  | case4 ch next fmt hm hpercent ih =>
    by_cases hmore : left > 1
    · obtain ⟨rfl, rfl⟩ := hpercent
      have hroom : (out ++ [37]).length + (left - 1) = FMT_SIZE := by
        rw [List.length_append, List.length_singleton]
        omega
      rw [normalizeLoop, if_pos hmore, if_neg hm]
      by_cases hpair : left > 2
      · have hroom' : (out ++ [37] ++ [37]).length + (left - 2) = FMT_SIZE := by
          rw [List.length_append, List.length_singleton]
          omega
        obtain ⟨k, rfl⟩ : ∃ k, left = k + 3 := ⟨left - 3, by omega⟩
        rw [if_pos ⟨rfl, rfl, hpair⟩, put_of_left room pos, Option.bind_some,
          put_of_left hroom (by omega), Option.bind_some, ih hroom' (by omega)]
        simp
      · -- there is room for one of the two
        obtain rfl : left = 2 := by omega
        rw [if_neg (by omega), put_of_left room pos, Option.bind_some,
          normalize_loop_full _ [] hroom (by omega) (by omega)]
        simp
    · exact normalize_loop_full _ _ room pos hmore
  | case5 ch next fmt hm hpercent ih =>
    by_cases hmore : left > 1
    · have hroom : (out ++ [ch]).length + (left - 1) = FMT_SIZE := by
        rw [List.length_append, List.length_singleton]
        omega
      obtain ⟨k, rfl⟩ : ∃ k, left = k + 2 := ⟨left - 2, by omega⟩
      rw [normalizeLoop, if_pos hmore, if_neg hm, if_neg (fun h => hpercent ⟨h.1, h.2.1⟩),
        put_of_left room pos, Option.bind_some, ih hroom (by omega)]
      simp
    · exact normalize_loop_full _ _ room pos hmore

/-- What is left of the expansion is written. -/
theorem normalized_fmt_eq (err fmt : List UInt8) :
    getNormalizedFmt err fmt = some ((expand err fmt).take (FMT_SIZE - 1) ++ [0]) := by
  have hroom : ([] : List UInt8).length + FMT_SIZE = FMT_SIZE := rfl
  exact normalize_loop_spec hroom (by decide)

private theorem mem_expand {err fmt : List UInt8} {b : UInt8} (h : b ∈ expand err fmt) :
    b ∈ err ∨ b ∈ fmt := by
  fun_induction expand err fmt with
  | case1 => cases h
  | case2 ch => exact .inr h
  | case3 ch next fmt hm ih =>
    rcases List.mem_append.mp h with h | h
    · exact .inl h
    · exact (ih h).imp_right (fun h => by simp [h])
  | case4 ch next fmt hm hpercent ih =>
    obtain ⟨rfl, rfl⟩ := hpercent
    simp only [List.mem_cons] at h ⊢
    tauto
  | case5 ch next fmt hm hpercent ih =>
    simp only [List.mem_cons] at h ih ⊢
    tauto

/-- A string and its terminator within `FMT_SIZE` bytes are written, and where the expansion fits,
the string is the expansion. -/
theorem getNormalizedFmt_expands (err fmt : List UInt8) (herr : 0 ∉ err) (hfmt : 0 ∉ fmt) :
    ∃ s, getNormalizedFmt err fmt = some (s ++ [0]) ∧ 0 ∉ s ∧ (s ++ [0]).length ≤ FMT_SIZE ∧
      ((expand err fmt).length ≤ FMT_SIZE - 1 → s = expand err fmt) := by
  refine ⟨(expand err fmt).take (FMT_SIZE - 1), normalized_fmt_eq err fmt, fun h => ?_, ?_,
    fun h => List.take_of_length_le h⟩
  · rcases mem_expand (List.mem_of_mem_take h) with h | h
    · exact herr h
    · exact hfmt h
  · have hsize : FMT_SIZE = 1025 := rfl
    rw [List.length_append, List.length_take, List.length_singleton]
    omega

/-- `%%m%m` with the error text `E`. -/
theorem getNormalizedFmt_expands_escaped :
    ∃ s, getNormalizedFmt [69] [37, 37, 109, 37, 109] = some (s ++ [0]) ∧ 0 ∉ s ∧
      (s ++ [0]).length ≤ FMT_SIZE ∧
      ((expand [69] [37, 37, 109, 37, 109]).length ≤ FMT_SIZE - 1 →
        s = expand [69] [37, 37, 109, 37, 109]) :=
  getNormalizedFmt_expands [69] [37, 37, 109, 37, 109] (by decide) (by decide)

end Nebase.Syslog
