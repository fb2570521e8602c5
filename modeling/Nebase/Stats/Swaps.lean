/- Which contents of /proc/swaps are loaded as they stand. -/

import Nebase.Stats.Tokens
import Mathlib.Data.List.GetD

set_option autoImplicit false
set_option relaxedAutoImplicit false

namespace Nebase.Stats

open Nebase.Foundation.Decimal

/-- What `getline` returns until the end of the file, each line with its newline. -/
def getlines : List UInt8 → List (List UInt8)
  | [] => []
  | b :: bs =>
    if b = 10 then
      [b] :: getlines bs
    else
      match getlines bs with
      | [] => [[b]]
      | line :: lines => (b :: line) :: lines

/-- The fields of a line, without its newline; as in every string, a byte 0 ends them. -/
def lineFields (line : List UInt8) : List (List UInt8) := swapFields (line.takeWhile (· ≠ 10))

/-- The number in field `k`, counted from 0. -/
def fieldNumber (fields : List (List UInt8)) (k : Nat) : Nat := strtoul (fields.getD k [])

/-- The device of a line that starts with `/` and has four fields. -/
def device (line : List UInt8) : Option SwapStatNode :=
  if line.head? = some 47 ∧ 4 ≤ (lineFields line).length then
    some ⟨(lineFields line).getD 0 [], fieldNumber (lineFields line) 2 * 1024,
      fieldNumber (lineFields line) 3 * 1024⟩
  else
    none

/-- Without memory for its node a line gives none. -/
def deviceOf (alloc : Bool) (line : List UInt8) : Option SwapStatNode :=
  if alloc then device line else none

/-- The devices of the lines from number `i` on, in their order. -/
def devices (alloc : Nat → Bool) (i : Nat) (lines : List (List UInt8)) : List SwapStatNode :=
  (lines.zipIdx i).filterMap (fun l => deviceOf (alloc l.2) l.1)

/-- The call passes no null pointer on, and the list it returns has the devices. -/
def LoadsDevices (o : SwapOutcome) (p : OpenFiles) : Prop :=
  ∃ r p', nebStatsSwapLoad o p = .ok (r, p') ∧
    ∀ nodes, r = some nodes → nodes = devices o.alloc 0 o.lines

/-- The line has four fields, and both sizes fit; or the whole line with its newline is one
token. -/
def WellFormed (line : List UInt8) : Prop :=
  (4 ≤ (lineFields line).length ∧ fieldNumber (lineFields line) 2 < 2 ^ 54 ∧
    fieldNumber (lineFields line) 3 < 2 ^ 54) ∨
  (swapFields line).length ≤ 1

/-- A line without its newline, and then at most the newline. -/
def IsLine (line : List UInt8) : Prop :=
  ∃ body, 10 ∉ body ∧ (line = body ∨ line = body ++ [10])

theorem isLine_of_mem_getlines {content line : List UInt8} (h : line ∈ getlines content) :
    IsLine line := by
  induction content generalizing line with
  | nil => cases h
  | cons b bs ih =>
    rw [getlines] at h
    split_ifs at h with hb
    · rcases List.mem_cons.mp h with rfl | h
      · exact ⟨[], by simp, .inr (by rw [hb]; rfl)⟩
      · exact ih h
    · cases hrest : getlines bs with
      | nil =>
        rw [hrest] at h
        obtain rfl := List.mem_singleton.mp h
        exact ⟨[b], by simpa using Ne.symm hb, .inl rfl⟩
      | cons first lines =>
        rw [hrest] at h ih
        rcases List.mem_cons.mp h with rfl | h
        · obtain ⟨body, hbody, hfirst⟩ := ih List.mem_cons_self
          refine ⟨b :: body, by simp [hbody, Ne.symm hb], ?_⟩
          rcases hfirst with rfl | rfl
          · exact .inl rfl
          · exact .inr rfl
        · exact ih (List.mem_cons_of_mem _ h)

/-! The newline is a part of the last field, or a field of its own. -/

private theorem cstr_eq_self {s : List UInt8} (h : 0 ∉ s) : cstr s = s := by
  rw [cstr, List.takeWhile_eq_self_iff]
  intro b hb
  exact decide_eq_true (fun h0 => h (h0 ▸ hb))

private theorem cstr_append_of_mem {s : List UInt8} (h : 0 ∈ s) (rest : List UInt8) :
    cstr (s ++ rest) = cstr s := by
  obtain ⟨front, back, rfl, hfront⟩ := List.eq_append_cons_of_mem h
  have hfront' : ∀ b ∈ front, decide (b ≠ 0) = true := by
    intro b hb
    exact decide_eq_true (fun h0 => hfront (h0 ▸ hb))
  have htext : ∀ tail, cstr (front ++ 0 :: tail) = front := by
    intro tail
    rw [cstr, List.takeWhile_append_of_pos hfront']
    simp
  rw [List.append_assoc, List.cons_append, htext, htext]

/-- The tokens of a line against its fields: as many or one more, and all but the last one equal. -/
theorem tokens_of_line {line : List UInt8} (hline : IsLine line) :
    swapFields line = lineFields line ∨
      ∃ ws w, lineFields line = ws ++ (if w = [] then [] else [w]) ∧
        swapFields line = ws ++ [w ++ [10]] := by
  obtain ⟨body, hbody, hline⟩ := hline
  have hbody' : ∀ b ∈ body, decide (b ≠ 10) = true := by
    intro b hb
    exact decide_eq_true (fun h => hbody (h ▸ hb))
  rcases hline with rfl | rfl
  · left
    rw [lineFields, List.takeWhile_eq_self_iff.mpr hbody']
  · have htext : (body ++ [10]).takeWhile (· ≠ 10) = body := by
      rw [List.takeWhile_append_of_pos hbody']
      simp
    rw [lineFields, htext, swapFields, swapFields]
    by_cases hnul : 0 ∈ body
    · left
      rw [cstr_append_of_mem hnul]
    · right
      rw [cstr_eq_self hnul, cstr_eq_self (by simpa using hnul)]
      exact strtok_concat (by decide) body

/-- There are no more fields than tokens, and of four fields the tokens have the same name and the
same numbers. -/
theorem tokens_spec {line : List UInt8} (hline : IsLine line) :
    (lineFields line).length ≤ (swapFields line).length ∧
      (4 ≤ (lineFields line).length →
        (swapFields line).getD 0 [] = (lineFields line).getD 0 [] ∧
          ∀ k, k < 4 → fieldNumber (swapFields line) k = fieldNumber (lineFields line) k) := by
  rcases tokens_of_line hline with heq | ⟨ws, w, hfields, htokens⟩
  · rw [heq]
    exact ⟨le_rfl, fun _ => ⟨rfl, fun _ _ => rfl⟩⟩
  · by_cases hw : w = []
    · rw [if_pos hw, List.append_nil] at hfields
      rw [hfields, htokens]
      refine ⟨by simp, fun hfour => ?_⟩
      have hfront : ∀ k, k < 4 → (ws ++ [w ++ [10]]).getD k [] = ws.getD k [] := by
        intro k hk
        rw [List.getD_append _ _ _ _ (by omega)]
      exact ⟨hfront 0 (by decide), fun k hk => by rw [fieldNumber, fieldNumber, hfront k hk]⟩
    · rw [if_neg hw] at hfields
      rw [hfields, htokens]
      refine ⟨by simp, fun hfour => ?_⟩
      rw [List.length_append, List.length_singleton] at hfour
      have hfront : ∀ k, k < ws.length →
          (ws ++ [w ++ [10]]).getD k [] = (ws ++ [w]).getD k [] := by
        intro k hk
        rw [List.getD_append _ _ _ _ hk, List.getD_append _ _ _ _ hk]
      refine ⟨hfront 0 (by omega), fun k hk => ?_⟩
      unfold fieldNumber
      by_cases hlast : k < ws.length
      · rw [hfront k hlast]
      · -- the last field, with a newline behind it
        obtain rfl : k = ws.length := by omega
        rw [List.getD_append_right _ _ _ _ le_rfl, List.getD_append_right _ _ _ _ le_rfl,
          Nat.sub_self]
        exact strtoul_concat (by decide) (by decide) w

/-- What becomes of a line, by the number of its tokens. -/
theorem swap_line_eq (alloc : Bool) (line : List UInt8) :
    swapLine alloc line =
      if line.head? = some 47 ∧ alloc = true ∧ 2 ≤ (swapFields line).length then
        if 4 ≤ (swapFields line).length then
          .ok (some ⟨(swapFields line).getD 0 [], fieldNumber (swapFields line) 2 * 2 ^ 10 % 2 ^ 64,
            fieldNumber (swapFields line) 3 * 2 ^ 10 % 2 ^ 64⟩)
        else
          .error .nullString
      else
        .ok none := by
  unfold swapLine fieldNumber
  by_cases hdevice : line.head? = some 47
  · match swapFields line with
    | [] => simp [hdevice]
    | [_] => simp [hdevice]
    | [_, _] => cases alloc <;> simp [hdevice]
    | [_, _, _] => cases alloc <;> simp [hdevice]
    | _ :: _ :: _ :: _ :: _ => cases alloc <;> simp [hdevice]
  · simp [hdevice]

/-- A line of a device comes out as claimed where it is well-formed. -/
private theorem device_line_iff {line : List UInt8} (hline : IsLine line)
    (hdevice : line.head? = some 47) :
    swapLine true line = .ok (device line) ↔ WellFormed line := by
  obtain ⟨hle, hsame⟩ := tokens_spec hline
  rw [swap_line_eq]
  unfold WellFormed
  by_cases hone : (swapFields line).length ≤ 1
  · have hnone : device line = none := if_neg (fun h => absurd h.2 (by omega))
    rw [if_neg (by omega), hnone]
    exact ⟨fun _ => .inr hone, fun _ => rfl⟩
  · rw [if_pos ⟨hdevice, rfl, by omega⟩]
    by_cases hfields : 4 ≤ (lineFields line).length
    · obtain ⟨hname, hnumber⟩ := hsame hfields
      rw [if_pos (by omega), device, if_pos ⟨hdevice, hfields⟩, hname, hnumber 2 (by decide),
        hnumber 3 (by decide)]
      simp only [Except.ok.injEq, Option.some.injEq, SwapStatNode.mk.injEq, true_and]
      omega
    · have hnone : device line = none := if_neg (fun h => hfields h.2)
      rw [hnone]
      constructor
      · intro h
        split_ifs at h
        cases h
      · rintro (h | h)
        · exact absurd h.1 hfields
        · exact absurd h hone

theorem swap_line_iff {line : List UInt8} (hline : IsLine line) (alloc : Bool) :
    swapLine alloc line = .ok (deviceOf alloc line) ↔
      (line.head? = some 47 → alloc = true → WellFormed line) := by
  by_cases hdevice : line.head? = some 47
  · cases alloc with
    | false => simp [swap_line_eq, deviceOf]
    | true =>
      rw [deviceOf, if_pos rfl, device_line_iff hline hdevice]
      exact ⟨fun h _ _ => h, fun h => h hdevice rfl⟩
  · simp [swap_line_eq, deviceOf, device, hdevice]

/-- No device is missing. -/
private theorem swap_line_length {line : List UInt8} (hline : IsLine line) {alloc : Bool}
    {n : Option SwapStatNode} (h : swapLine alloc line = .ok n) :
    (deviceOf alloc line).toList.length ≤ n.toList.length := by
  obtain ⟨hle, -⟩ := tokens_spec hline
  rw [swap_line_eq] at h
  split_ifs at h with hdevice hfour
  · obtain rfl := Except.ok.inj h
    cases deviceOf alloc line <;> simp
  · have hnone : deviceOf alloc line = none := by
      cases alloc with
      | false => rfl
      | true =>
        have hno : ¬ (line.head? = some 47 ∧ 4 ≤ (lineFields line).length) :=
          fun hdev => hdevice ⟨hdev.1, rfl, by omega⟩
        exact if_neg hno
    rw [hnone]
    exact Nat.zero_le _

/-! The loop over the lines. -/

private theorem toList_inj {α : Type} {a b : Option α} (h : a.toList = b.toList) : a = b := by
  ext x
  rw [← Option.mem_toList, ← Option.mem_toList, h]

theorem devices_cons (alloc : Nat → Bool) (i : Nat) (line : List UInt8)
    (lines : List (List UInt8)) :
    devices alloc i (line :: lines) =
      (deviceOf (alloc i) line).toList ++ devices alloc (i + 1) lines := by
  unfold devices
  rw [List.zipIdx_cons, List.filterMap_cons]
  cases deviceOf (alloc i) line <;> rfl

theorem swap_lines_length {lines : List (List UInt8)} (hlines : ∀ line ∈ lines, IsLine line)
    {alloc : Nat → Bool} {i : Nat} {nodes : List SwapStatNode}
    (h : swapLines alloc i lines = .ok nodes) :
    (devices alloc i lines).length ≤ nodes.length := by
  induction lines generalizing i nodes with
  | nil => exact Nat.zero_le _
  | cons line lines ih =>
    obtain ⟨hline, hrest⟩ := List.forall_mem_cons.mp hlines
    rw [swapLines] at h
    cases hfirst : swapLine (alloc i) line with
    | error e => simp [hfirst] at h
    | ok n =>
      cases hloop : swapLines alloc (i + 1) lines with
      | error e => simp [hfirst, hloop] at h
      | ok ns =>
        simp only [hfirst, hloop, Except.ok.injEq] at h
        have hn := swap_line_length hline hfirst
        have hns := ih hrest hloop
        rw [← h, devices_cons, List.length_append, List.length_append]
        omega

/-- The loop gives the devices where each line gives its own. -/
theorem swap_lines_iff {lines : List (List UInt8)} (hlines : ∀ line ∈ lines, IsLine line)
    (alloc : Nat → Bool) (i : Nat) :
    swapLines alloc i lines = .ok (devices alloc i lines) ↔
      ∀ j line, lines[j]? = some line →
        swapLine (alloc (i + j)) line = .ok (deviceOf (alloc (i + j)) line) := by
  induction lines generalizing i with
  | nil => simp [swapLines, devices]
  | cons line lines ih =>
    obtain ⟨hline, hrest⟩ := List.forall_mem_cons.mp hlines
    rw [forall_getElem?_cons (fun k l => swapLine (alloc k) l = .ok (deviceOf (alloc k) l)),
      ← ih hrest, swapLines, devices_cons]
    cases hfirst : swapLine (alloc i) line with
    | error e => simp
    | ok n =>
      cases hloop : swapLines alloc (i + 1) lines with
      | error e => simp
      | ok ns =>
        have hn := swap_line_length hline hfirst
        have hns := swap_lines_length hrest hloop
        simp only [Except.ok.injEq]
        constructor
        · intro h
          have hlen := congrArg List.length h
          rw [List.length_append, List.length_append] at hlen
          obtain ⟨h1, h2⟩ := List.append_inj h (by omega)
          rw [toList_inj h1, h2]
          exact ⟨rfl, rfl⟩
        · rintro ⟨rfl, rfl⟩
          rfl

/-- For every content and every failure of an allocation, `neb_stats_swap_load` passes no null
pointer on and returns the devices exactly where every line of a device whose node is obtained is
well-formed, or the file is not read. -/
theorem nebStatsSwapLoad_devices_iff (malloc fopen : Bool) (content : List UInt8)
    (alloc : Nat → Bool) (p : OpenFiles) :
    LoadsDevices ⟨malloc, fopen, getlines content, alloc⟩ p ↔
      malloc = false ∨ fopen = false ∨
        ∀ i line, (getlines content)[i]? = some line → line.head? = some 47 → alloc i = true →
          WellFormed line := by
  unfold LoadsDevices nebStatsSwapLoad
  cases malloc with
  | false => simp
  | true =>
    cases fopen with
    | false => simp
    | true =>
      have hlines : ∀ line ∈ getlines content, IsLine line :=
        fun _ => isLine_of_mem_getlines
      have hloop := swap_lines_iff hlines alloc 0
      have hwell : (∀ j line, (getlines content)[j]? = some line →
          swapLine (alloc (0 + j)) line = .ok (deviceOf (alloc (0 + j)) line)) ↔
          ∀ i line, (getlines content)[i]? = some line → line.head? = some 47 →
            alloc i = true → WellFormed line := by
        refine forall_congr' fun j => forall_congr' fun line => imp_congr_right fun hj => ?_
        rw [Nat.zero_add]
        exact swap_line_iff (hlines line (List.mem_of_getElem? hj)) (alloc j)
      rw [← hwell, ← hloop]
      cases hres : swapLines alloc 0 (getlines content) with
      | error e => simp
      | ok nodes => simp

/-- A line with two fields: `/a b`. -/
theorem nebStatsSwapLoad_two_fields :
    nebStatsSwapLoad ⟨true, true, getlines [47, 97, 32, 98, 10], fun _ => true⟩ ⟨∅, ∅⟩ =
        .error .nullString ∧
      ¬ LoadsDevices ⟨true, true, getlines [47, 97, 32, 98, 10], fun _ => true⟩ ⟨∅, ∅⟩ := by
  have hfault : nebStatsSwapLoad ⟨true, true, getlines [47, 97, 32, 98, 10], fun _ => true⟩ ⟨∅, ∅⟩ =
      .error .nullString := rfl
  refine ⟨hfault, ?_⟩
  rintro ⟨r, p', hres, -⟩
  rw [hfault] at hres
  cases hres

end Nebase.Stats
