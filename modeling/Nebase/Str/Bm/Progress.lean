/- The search loops go forward, stay inside of the pattern and of the text, and end. -/

import Nebase.Str.Bm.Search

set_option autoImplicit false
set_option relaxedAutoImplicit false

namespace Nebase.Str.Bm

open Nebase.Foundation.GoodSuffix

section Turns

variable (p : List UInt8) (pl : Int) (t : List UInt8) (tl : Int) (bmGs bmBc : IntBuf)

/-- One turn of the search loop at `j`. The inner `none` says that the pattern is found, else it is
the next `j`. -/
def searchTurn (j : Int) : Option (Option Int) := do
  let i ← scanBack (byteAt p) (fun i => byteAt t (i + j)) pl.toNat
  if i < 0 then
    some none
  else
    let gs ← bmGs.read i
    let c ← byteAt t (i + j)
    let bc ← bmBc.read c.toNat
    some (some (j + MAX gs (bc - pl + 1 + i)))

/-- A run of the loop from `j` on: the alignments it tries, and what it returns. -/
inductive Run : Int → List Int → Option Int → Prop
  | past {j : Int} (past : tl - pl < j) : Run j [] none
  | found {j : Int} (within : j ≤ tl - pl)
      (turn : searchTurn p pl t bmGs bmBc j = some none) : Run j [j] (some j)
  | shift {j j' : Int} {js : List Int} {r : Option Int} (within : j ≤ tl - pl)
      (turn : searchTurn p pl t bmGs bmBc j = some (some j')) (rest : Run j' js r) :
      Run j (j :: js) r

end Turns

section Runs

variable {p t : List UInt8} {pl tl : Int} {bmGs bmBc : IntBuf}

theorem search_loop_succ {j : Int} (within : j ≤ tl - pl) (fuel : Nat) :
    searchLoop p pl t tl bmGs bmBc (fuel + 1) j =
      (searchTurn p pl t bmGs bmBc j).bind fun next =>
        match next with
        | none => some (some j)
        | some j' => searchLoop p pl t tl bmGs bmBc fuel j' := by
  rw [searchLoop, if_pos within, searchTurn]
  cases scanBack (byteAt p) (fun i => byteAt t (i + j)) pl.toNat with
  | none => rfl
  | some i =>
    by_cases hi : i < 0
    · simp [hi]
    · cases hgs : bmGs.read i with
      | none => simp [hi, hgs]
      | some gs =>
        cases hbyte : byteAt t (i + j) with
        | none => simp [hi, hgs, hbyte]
        | some c =>
          cases hbc : bmBc.read c.toNat with
          | none => simp [hi, hgs, hbyte, hbc]
          | some bc => simp [hi, hgs, hbyte, hbc]

/-- With a turn for each alignment the loop gets to the end of its run. -/
theorem Run.search_loop {j : Int} {js : List Int} {r : Option Int}
    (run : Run p pl t tl bmGs bmBc j js r) {fuel : Nat} (hfuel : js.length ≤ fuel) :
    searchLoop p pl t tl bmGs bmBc fuel j = some r := by
  induction run generalizing fuel with
  | past past =>
    cases fuel with
    | zero => rw [searchLoop, if_neg (by omega)]
    | succ fuel => rw [searchLoop, if_neg (by omega)]
  | found within turn =>
    obtain ⟨fuel, rfl⟩ := Nat.exists_eq_add_of_lt hfuel
    rw [search_loop_succ within, turn, Option.bind_some]
  | shift within turn rest ih =>
    rw [List.length_cons] at hfuel
    obtain ⟨fuel, rfl⟩ := Nat.exists_eq_add_of_lt hfuel
    rw [search_loop_succ within, turn, Option.bind_some]
    exact ih (by omega)

/-- A turn within the text goes forward, and not beyond the next `pl` alignments. -/
theorem search_turn_spec (tables : TablesOk p pl bmGs bmBc) (hpl : 1 ≤ pl) (hp : pl ≤ p.length)
    (ht : tl ≤ t.length) {j : Int} (h0 : 0 ≤ j) (hj : j ≤ tl - pl) :
    ∃ next, searchTurn p pl t bmGs bmBc j = some next ∧
      ∀ j', next = some j' → j + 1 ≤ j' ∧ j' ≤ j + pl := by
  obtain ⟨i, hscan, hi, hilt, -, hstop⟩ := compare_spec tables hpl hp ht h0 hj
  by_cases hmatch : i < 0
  · exact ⟨none, by simp [searchTurn, hscan, hmatch], by simp⟩
  · obtain ⟨-, hbyte, gs, bc, hgs, hgood, hbc, hbad⟩ := hstop (by omega)
    refine ⟨some (j + MAX gs (bc - pl + 1 + i)),
      by simp [searchTurn, hscan, hmatch, hgs, hbyte, hbc], ?_⟩
    rintro j' hj'
    obtain rfl := Option.some.inj hj'
    have hmax := (MAX_le_iff gs (bc - pl + 1 + i) _).mp le_rfl
    have hpos : 1 ≤ gs := hgood.1.pos
    have hle : MAX gs (bc - pl + 1 + i) ≤ pl := by
      have hgspl : gs ≤ pl := hgood.2 (good_shift_whole hpl hilt)
      have hbcpl : bc ≤ pl := hbad.2 (.inl rfl)
      exact (MAX_le_iff _ _ _).mpr ⟨hgspl, by omega⟩
    omega

/-- There is a run, and no alignment is tried twice. -/
theorem run_exists (tables : TablesOk p pl bmGs bmBc) (hpl : 1 ≤ pl) (hp : pl ≤ p.length)
    (ht : tl ≤ t.length) (n : Nat) {j : Int} (h0 : 0 ≤ j) (hn : tl - pl + 1 - j ≤ n) :
    ∃ js r, Run p pl t tl bmGs bmBc j js r ∧ js.Pairwise (· + 1 ≤ ·) ∧
      (∀ k ∈ js, j ≤ k ∧ k ≤ tl - pl) ∧ js.length ≤ n := by
  induction n generalizing j with
  | zero => exact ⟨[], none, .past (by omega), .nil, by simp, le_rfl⟩
  | succ n ih =>
    by_cases hj : j ≤ tl - pl
    · obtain ⟨next, hturn, hforward⟩ := search_turn_spec tables hpl hp ht h0 hj
      cases next with
      | none =>
        exact ⟨[j], some j, .found hj hturn, List.pairwise_singleton _ _, by simp [hj], by simp⟩
      | some j' =>
        have hj' := (hforward j' rfl).1
        obtain ⟨js, r, hrun, hsorted, hwithin, hlen⟩ := ih (j := j') (by omega) (by omega)
        refine ⟨j :: js, r, .shift hj hturn hrun, ?_, ?_, by simpa using hlen⟩
        · refine List.pairwise_cons.mpr ⟨fun k hk => ?_, hsorted⟩
          exact hj'.trans (hwithin k hk).1
        · intro k hk
          rcases List.mem_cons.mp hk with rfl | hk
          · exact ⟨le_rfl, hj⟩
          · exact ⟨by have := (hwithin k hk).1; omega, (hwithin k hk).2⟩
    · exact ⟨[], none, .past (by omega), .nil, by simp, by simp⟩

end Runs

/-- Every turn of the loop at an alignment within the text reads inside of the pattern and of the
text and goes at least one further, and the run ends with `result` after at most
`tl - pl + 1` alignments. -/
def Progresses (p t : List UInt8) (bmGs bmBc : IntBuf) (result : Option (Option Int)) : Prop :=
  (∀ j : Int, 0 ≤ j → j ≤ t.length - p.length →
    ∃ next, searchTurn p p.length t bmGs bmBc j = some next ∧
      ∀ j', next = some j' → j + 1 ≤ j' ∧ j' ≤ j + p.length) ∧
  ∃ js r, Run p p.length t t.length bmGs bmBc 0 js r ∧ result = some r ∧
    js.Pairwise (· + 1 ≤ ·) ∧ (∀ j ∈ js, 0 ≤ j ∧ j ≤ t.length - p.length) ∧
    js.length ≤ ((t.length : Int) - p.length + 1).toNat

private theorem search_progresses {p t : List UInt8} {bmGs bmBc : IntBuf} (hp : p ≠ [])
    (tables : TablesOk p p.length bmGs bmBc) :
    Progresses p t bmGs bmBc
      (if (p.length : Int) > t.length then some none
        else searchLoop p p.length t t.length bmGs bmBc
          ((t.length : Int) - p.length + 1).toNat 0) := by
  have hpl : (1 : Int) ≤ p.length := by
    have := List.length_pos_iff.mpr hp
    omega
  refine ⟨fun j h0 hj => search_turn_spec tables hpl le_rfl le_rfl h0 hj, ?_⟩
  obtain ⟨js, r, hrun, hsorted, hwithin, hlen⟩ :=
    run_exists (t := t) tables hpl le_rfl le_rfl ((t.length : Int) - p.length + 1).toNat le_rfl
      (by omega)
  refine ⟨js, r, hrun, ?_, hsorted, hwithin, hlen⟩
  split_ifs with hshort
  · cases hrun with
    | past => rfl
    | found within => omega
    | shift within => omega
  · exact hrun.search_loop hlen

/-- For every pattern that is not empty and every text, each turn of the loop of both searches stays
in bounds and goes forward, and the search ends. -/
theorem nebStrBm_progress (p : List UInt8) (hp : p ≠ []) :
    (∀ t : List UInt8, ∃ bmGs bmBc, preBmGs p p.length (.uninit p.length) = some bmGs ∧
      preBmBc p p.length (.uninit ASIZE) = some bmBc ∧
      Progresses p t bmGs bmBc (nebStrBmSearch p p.length t t.length)) ∧
    ∃ c, nebStrBmCtxCreate true p p.length = some (some c) ∧
      ∀ t : List UInt8, Progresses p t c.bmGs c.bmBc (nebStrBmCtxSearch c t t.length) := by
  have hpos := List.length_pos_iff.mpr hp
  obtain ⟨bmGs, bmBc, hgs, hbc, tables⟩ := tables_ok (by omega : (1 : Int) ≤ p.length) le_rfl
  constructor
  · intro t
    refine ⟨bmGs, bmBc, hgs, hbc, ?_⟩
    have hprogress := search_progresses (t := t) hp tables
    simpa only [nebStrBmSearch, hgs, hbc, Option.bind_eq_bind, Option.bind_some] using hprogress
  · refine ⟨⟨p, p.length, bmBc, bmGs⟩, ?_, ?_⟩
    · simp only [nebStrBmCtxCreate, hgs, hbc, if_true, Option.bind_eq_bind, Option.bind_some]
    · exact fun t => search_progresses hp tables

/-- The pattern `bab`, whose bad character shift at a mismatch with the text `aab` is -1. -/
theorem nebStrBm_progress_bab :
    (∀ t : List UInt8, ∃ bmGs bmBc, preBmGs [98, 97, 98] 3 (.uninit 3) = some bmGs ∧
      preBmBc [98, 97, 98] 3 (.uninit ASIZE) = some bmBc ∧
      Progresses [98, 97, 98] t bmGs bmBc (nebStrBmSearch [98, 97, 98] 3 t t.length)) ∧
    ∃ c, nebStrBmCtxCreate true [98, 97, 98] 3 = some (some c) ∧
      ∀ t : List UInt8, Progresses [98, 97, 98] t c.bmGs c.bmBc (nebStrBmCtxSearch c t t.length) :=
  nebStrBm_progress [98, 97, 98] (by decide)

end Nebase.Str.Bm
