/- Boyer-Moore search finds the first occurrence. -/

import Nebase.Str.Bm.Tables

set_option autoImplicit false
set_option relaxedAutoImplicit false

namespace Nebase.Str.Bm

open Nebase.Foundation.GoodSuffix

/-- The first `pl` bytes of `p` occur at `j` within the first `tl` bytes of `t`. -/
def OccursAt (p : List UInt8) (pl : Int) (t : List UInt8) (tl j : Int) : Prop :=
  0 ≤ j ∧ j + pl ≤ tl ∧ Occurs (bytes p) (bytes t) pl j

/-- The result of a search: the least position of an occurrence, or `NULL` when there is none. -/
def FirstOccurrence (p : List UInt8) (pl : Int) (t : List UInt8) (tl : Int) :
    Option Int → Prop
  | some j => OccursAt p pl t tl j ∧ ∀ j', OccursAt p pl t tl j' → j ≤ j'
  | none => ∀ j, ¬ OccursAt p pl t tl j

/-- The tables of a pattern, as the search reads them. -/
structure TablesOk (p : List UInt8) (pl : Int) (bmGs bmBc : IntBuf) : Prop where
  good : ∀ q, 0 ≤ q → q < pl → ∃ v, bmGs.read q = some v ∧
    IsLeast {s | GoodShift (bytes p) pl q s} v
  bad : ∀ c : UInt8, ∃ v, bmBc.read c.toNat = some v ∧ IsLeast (Distances (bytes p) pl c) v

theorem MAX_le_iff (a b s : Int) : MAX a b ≤ s ↔ a ≤ s ∧ b ≤ s := by
  unfold MAX
  split_ifs <;> omega

section Search

variable {p t : List UInt8} {pl tl : Int} {bmGs bmBc : IntBuf}

/-- Where the comparison at `j` stops: at -1, or at a mismatch with its two shifts. -/
theorem compare_spec (tables : TablesOk p pl bmGs bmBc) (hpl : 1 ≤ pl) (hp : pl ≤ p.length)
    (ht : tl ≤ t.length) {j : Int} (h0 : 0 ≤ j) (hj : j ≤ tl - pl) :
    ∃ i, scanBack (byteAt p) (fun i => byteAt t (i + j)) pl.toNat = some i ∧ -1 ≤ i ∧ i < pl ∧
      (∀ k, i < k → k < pl → bytes p k = bytes t (k + j)) ∧
      (0 ≤ i → bytes p i ≠ bytes t (i + j) ∧ byteAt t (i + j) = some (bytes t (i + j)) ∧
        ∃ gs bc, bmGs.read i = some gs ∧ IsLeast {s | GoodShift (bytes p) pl i s} gs ∧
          bmBc.read (bytes t (i + j)).toNat = some bc ∧
          IsLeast (Distances (bytes p) pl (bytes t (i + j))) bc) := by
  obtain ⟨i, hscan, hi, hilt, hagree, hstop⟩ :=
    scan_back_spec (l := byteAt p) (r := fun i => byteAt t (i + j)) (a := bytes p)
      (b := fun i => bytes t (i + j)) pl.toNat
      (fun k hk0 hk => byte_at_eq hk0 (by omega))
      (fun k hk0 hk => byte_at_eq (by omega) (by omega))
  refine ⟨i, hscan, hi, by omega, fun k hk1 hk2 => hagree k hk1 (by omega), ?_⟩
  intro hi0
  obtain ⟨gs, hgs, hgood⟩ := tables.good i hi0 (by omega)
  obtain ⟨bc, hbc, hbad⟩ := tables.bad (bytes t (i + j))
  exact ⟨hstop hi0, byte_at_eq (by omega) (by omega), gs, bc, hgs, hgood, hbc, hbad⟩

theorem search_loop_spec (tables : TablesOk p pl bmGs bmBc) (hpl : 1 ≤ pl)
    (hp : pl ≤ p.length) (ht : tl ≤ t.length) (fuel : Nat) {j : Int} (h0 : 0 ≤ j)
    (hfuel : tl - pl + 1 - j ≤ fuel)
    (before : ∀ j', OccursAt p pl t tl j' → j ≤ j') :
    ∃ r, searchLoop p pl t tl bmGs bmBc fuel j = some r ∧ FirstOccurrence p pl t tl r := by
  induction fuel generalizing j with
  | zero =>
    refine ⟨none, ?_, ?_⟩
    · rw [searchLoop, if_neg (by omega)]
    · intro j' hocc
      have hle := before j' hocc
      have hend := hocc.2.1
      omega
  | succ fuel ih =>
    push_cast at hfuel
    by_cases hj : j ≤ tl - pl
    · obtain ⟨i, hscan, hi, hilt, matched, hstop⟩ := compare_spec tables hpl hp ht h0 hj
      by_cases hmatch : i < 0
      · refine ⟨some j, ?_, ⟨h0, by omega, ?_⟩, before⟩
        · rw [searchLoop, if_pos hj]
          simp [hscan, hmatch]
        · intro k hk0 hk
          rw [matched k (by omega) hk, Int.add_comm]
      · obtain ⟨mismatch, hbyte, gs, bc, hgs, hgood, hbc, hbad⟩ := hstop (by omega)
        have hmax := (MAX_le_iff gs (bc - pl + 1 + i) _).mp le_rfl
        have hpos : 1 ≤ gs := hgood.1.pos
        obtain ⟨r, hloop, hfirst⟩ := ih (j := j + MAX gs (bc - pl + 1 + i)) (by omega)
          (by omega) (by
            intro j' hocc
            have hle := before j' hocc
            have hne : j' ≠ j := by
              rintro rfl
              have hat := hocc.2.2 i (by omega) (by omega)
              rw [Int.add_comm] at hat
              exact mismatch hat.symm
            have hocc' : Occurs (bytes p) (bytes t) pl (j + (j' - j)) := by
              rw [show j + (j' - j) = j' by omega]
              exact hocc.2.2
            have hshift : MAX gs (bc - pl + 1 + i) ≤ j' - j := (MAX_le_iff _ _ _).mpr
              ⟨hgood.2 (hocc'.goodShift hilt (by omega) matched mismatch),
                hocc'.badCharacter hilt (by omega) hbad.2⟩
            omega)
        refine ⟨r, ?_, hfirst⟩
        rw [searchLoop, if_pos hj]
        simp [hscan, hmatch, hgs, hbyte, hbc, hloop]
    · refine ⟨none, ?_, ?_⟩
      · rw [searchLoop, if_neg hj]
      · intro j' hocc
        have hle := before j' hocc
        have hend := hocc.2.1
        omega

/-- The search from the start of the text. -/
private theorem search_spec (tables : TablesOk p pl bmGs bmBc) (hpl : 1 ≤ pl)
    (hp : pl ≤ p.length) (ht : tl ≤ t.length) :
    ∃ r, (if pl > tl then some none
        else searchLoop p pl t tl bmGs bmBc (tl - pl + 1).toNat 0) = some r ∧
      FirstOccurrence p pl t tl r := by
  split_ifs with hshort
  · refine ⟨none, rfl, ?_⟩
    intro j hocc
    have h0 := hocc.1
    have hend := hocc.2.1
    omega
  · exact search_loop_spec tables hpl hp ht _ le_rfl (by omega) (fun j hocc => hocc.1)

end Search

theorem tables_ok {p : List UInt8} {pl : Int} (hpl : 1 ≤ pl) (hp : pl ≤ p.length) :
    ∃ bmGs bmBc, preBmGs p pl (.uninit pl.toNat) = some bmGs ∧
      preBmBc p pl (.uninit ASIZE) = some bmBc ∧ TablesOk p pl bmGs bmBc := by
  obtain ⟨bmGs, hgs, hgood⟩ := preBmGs_spec hpl hp
  obtain ⟨bmBc, hbc, hbad⟩ := preBmBc_spec hpl hp
  exact ⟨bmGs, bmBc, hgs, hbc, hgood, hbad⟩

/-- Both searches, for every pattern and every text, read and write nothing out of bounds and
return the first occurrence, or `NULL` if there is none. -/
theorem nebStrBm_first_occurrence (p : List UInt8) (pl : Int) (hpl : 1 ≤ pl)
    (hp : pl ≤ p.length) :
    (∀ (t : List UInt8) (tl : Int), tl ≤ t.length →
      ∃ r, nebStrBmSearch p pl t tl = some r ∧ FirstOccurrence p pl t tl r) ∧
    ∃ c, nebStrBmCtxCreate true p pl = some (some c) ∧
      ∀ (t : List UInt8) (tl : Int), tl ≤ t.length →
        ∃ r, nebStrBmCtxSearch c t tl = some r ∧ FirstOccurrence p pl t tl r := by
  obtain ⟨bmGs, bmBc, hgs, hbc, tables⟩ := tables_ok hpl hp
  constructor
  · intro t tl ht
    obtain ⟨r, hsearch, hfirst⟩ := search_spec tables hpl hp ht
    refine ⟨r, ?_, hfirst⟩
    rw [← hsearch]
    simp only [nebStrBmSearch, hgs, hbc, Option.bind_eq_bind, Option.bind_some]
  · refine ⟨⟨p, pl, bmBc, bmGs⟩, by simp [nebStrBmCtxCreate, hgs, hbc], ?_⟩
    exact fun t tl ht => search_spec tables hpl hp ht

/-- The pattern `aba`, which is a border of itself. -/
theorem nebStrBm_first_occurrence_aba :
    (∀ (t : List UInt8) (tl : Int), tl ≤ t.length →
      ∃ r, nebStrBmSearch [97, 98, 97] 3 t tl = some r ∧
        FirstOccurrence [97, 98, 97] 3 t tl r) ∧
    ∃ c, nebStrBmCtxCreate true [97, 98, 97] 3 = some (some c) ∧
      ∀ (t : List UInt8) (tl : Int), tl ≤ t.length →
        ∃ r, nebStrBmCtxSearch c t tl = some r ∧ FirstOccurrence [97, 98, 97] 3 t tl r :=
  nebStrBm_first_occurrence [97, 98, 97] 3 (by decide) (by decide)

end Nebase.Str.Bm
