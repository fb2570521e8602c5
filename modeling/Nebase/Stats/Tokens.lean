/- The words of a string, and what follows its last parenthesis. -/

import Nebase.Stats.Model

set_option autoImplicit false
set_option relaxedAutoImplicit false

namespace Nebase.Stats

theorem strrchr_append {front rest : List UInt8} {c : UInt8} (last : c ∉ rest) :
    strrchr (front ++ c :: rest) c = some rest := by
  have hrest : ∀ b ∈ rest.reverse, decide (b ≠ c) = true := by
    intro b hb
    rw [List.mem_reverse] at hb
    exact decide_eq_true (fun h => last (h ▸ hb))
  rw [strrchr, if_pos (by simp), List.reverse_append, List.reverse_cons, List.append_assoc,
    List.takeWhile_append_of_pos hrest]
  simp

theorem strrchr_eq_none {s : List UInt8} {c : UInt8} (h : c ∉ s) : strrchr s c = none :=
  if_neg h

/-- The string is split at its last `c`, if it has one. -/
theorem last_split {s : List UInt8} {c : UInt8} (h : c ∈ s) :
    ∃ front rest, s = front ++ c :: rest ∧ c ∉ rest := by
  obtain ⟨as, bs, hsplit, hfirst⟩ := List.eq_append_cons_of_mem (List.mem_reverse.mpr h)
  refine ⟨bs.reverse, as.reverse, ?_, by rwa [List.mem_reverse]⟩
  rw [← List.reverse_reverse s, hsplit, List.reverse_append, List.reverse_cons, List.append_assoc]
  rfl

/-- A property of all lines and their numbers, from number `i` on. -/
theorem forall_getElem?_cons {α : Type} (P : Nat → α → Prop) {i : Nat} {a : α} {as : List α} :
    (∀ j b, (a :: as)[j]? = some b → P (i + j) b) ↔
      P i a ∧ ∀ j b, as[j]? = some b → P (i + 1 + j) b := by
  constructor
  · intro h
    refine ⟨h 0 a rfl, fun j b hj => ?_⟩
    have hnext := h (j + 1) b hj
    rwa [← Nat.add_assoc, Nat.add_right_comm] at hnext
  · rintro ⟨hfirst, hrest⟩ j b hj
    cases j with
    | zero => exact Option.some.inj hj ▸ hfirst
    | succ j =>
      have hnext := hrest j b hj
      rwa [Nat.add_right_comm] at hnext

/-! What `strtok_r` returns. -/

variable {delim : List UInt8}

@[simp]
theorem strtok_nil : strtok delim [] = [] := by
  simp [strtok]

/-- A delimiter separates. -/
theorem strtok_append_cons {c : UInt8} (hc : c ∈ delim) (a b : List UInt8) :
    strtok delim (a ++ c :: b) = strtok delim a ++ strtok delim b := by
  unfold strtok
  rw [List.splitOnP_append_cons a b (decide_eq_true hc), List.filter_append]

/-- A word is one token. -/
theorem strtok_word {w : List UInt8} (hne : w ≠ []) (hw : ∀ b ∈ w, b ∉ delim) :
    strtok delim w = [w] := by
  unfold strtok
  rw [List.splitOnP_eq_singleton (fun b hb => decide_eq_false (hw b hb))]
  simp [hne]

/-- Words with one delimiter between them are read back. -/
theorem strtok_intercalate {c : UInt8} (hc : c ∈ delim) {ws : List (List UInt8)}
    (hws : ∀ w ∈ ws, w ≠ [] ∧ ∀ b ∈ w, b ∉ delim) : strtok delim ([c].intercalate ws) = ws := by
  induction ws with
  | nil => exact strtok_nil
  | cons w ws ih =>
    obtain ⟨⟨hne, hw⟩, hrest⟩ := List.forall_mem_cons.mp hws
    cases ws with
    | nil => rw [List.intercalate_singleton, strtok_word hne hw]
    | cons v ws =>
      rw [List.intercalate_cons_cons, List.append_assoc, List.singleton_append,
        strtok_append_cons hc, strtok_word hne hw, ih hrest, List.singleton_append]

theorem not_mem_intercalate {b c : UInt8} (hne : b ≠ c) {ws : List (List UInt8)}
    (hws : ∀ w ∈ ws, b ∉ w) : b ∉ [c].intercalate ws := by
  induction ws with
  | nil => simp
  | cons w ws ih =>
    obtain ⟨hw, hrest⟩ := List.forall_mem_cons.mp hws
    cases ws with
    | nil => rwa [List.intercalate_singleton]
    | cons v ws =>
      rw [List.intercalate_cons_cons, List.mem_append, List.mem_append, List.mem_singleton, not_or,
        not_or]
      exact ⟨⟨hw, hne⟩, ih hrest⟩

private theorem splitOnP_concat {f : UInt8 → Bool} {c : UInt8} (hc : f c = false)
    (s : List UInt8) :
    ∃ ws w, s.splitOnP f = ws ++ [w] ∧ (s ++ [c]).splitOnP f = ws ++ [w ++ [c]] := by
  induction s with
  | nil => exact ⟨[], [], by simp, by simp [List.splitOnP_cons_eq_if_modifyHead, hc]⟩
  | cons b s ih =>
    obtain ⟨ws, w, hs, hsc⟩ := ih
    rw [List.cons_append, List.splitOnP_cons_eq_if_modifyHead, List.splitOnP_cons_eq_if_modifyHead,
      hs, hsc]
    by_cases hb : f b
    · exact ⟨[] :: ws, w, by simp [hb], by simp [hb]⟩
    · cases ws with
      | nil => exact ⟨[], b :: w, by simp [hb], by simp [hb]⟩
      | cons v ws => exact ⟨(b :: v) :: ws, w, by simp [hb], by simp [hb]⟩

/-- One byte more makes the last token longer, or one of its own. -/
theorem strtok_concat {c : UInt8} (hc : c ∉ delim) (s : List UInt8) :
    ∃ ws w, strtok delim s = ws ++ (if w = [] then [] else [w]) ∧
      strtok delim (s ++ [c]) = ws ++ [w ++ [c]] := by
  obtain ⟨ws, w, hs, hsc⟩ := splitOnP_concat (f := (· ∈ delim)) (decide_eq_false hc) s
  refine ⟨ws.filter (· ≠ []), w, ?_, ?_⟩
  · rw [strtok, hs, List.filter_append]
    split_ifs with hw <;> simp [hw]
  · rw [strtok, hsc, List.filter_append]
    simp

end Nebase.Stats
