/- What stays of the conversion specifications of a format that is cut off. -/

import Nebase.Foundation.Printf
import Nebase.Syslog.Normalize

set_option autoImplicit false
set_option relaxedAutoImplicit false

namespace Nebase.Syslog

open Nebase.Foundation.Printf

/-- `%%` and the directives that take arguments. -/
def isSpec : Piece → Bool
  | .percent => true
  | .conv _ _ => true
  | _ => false

def specs (ps : List Piece) : List Piece := ps.filter isSpec

/-- What stands for a piece in the expansion. -/
def expandPiece (err : List UInt8) (p : Piece) : List Piece :=
  if p = .strerr then err.map Piece.char else [p]

def expandPieces (err : List UInt8) (ps : List Piece) : List Piece := ps.flatMap (expandPiece err)

/-- The string that is written is a format, and its conversion specifications are the first ones of
the format of these pieces. -/
def StaysFormat (err fmt : List UInt8) (ps : List Piece) : Prop :=
  ∃ s qs, getNormalizedFmt err fmt = some (s ++ [0]) ∧ parse s = some qs ∧ .strerr ∉ qs ∧
    specs qs <+: specs ps

/-- The expansion is no longer than the buffer, or whole pieces fill the buffer. -/
def EndsBetween (err : List UInt8) (ps : List Piece) : Prop :=
  ((expandPieces err ps).flatMap Piece.text).length ≤ FMT_SIZE - 1 ∨
    ∃ qs rs, expandPieces err ps = qs ++ rs ∧ (qs.flatMap Piece.text).length = FMT_SIZE - 1

private theorem expand_cons {err s : List UInt8} {c : UInt8} (h : c ≠ 37) :
    expand err (c :: s) = c :: expand err s := by
  cases s with
  | nil => rfl
  | cons d s => rw [expand, if_neg (fun h' => h h'.1), if_neg (fun h' => h h'.1)]

private theorem expand_plain {err cs : List UInt8} (h : 37 ∉ cs) (s : List UInt8) :
    expand err (cs ++ s) = cs ++ expand err s := by
  induction cs with
  | nil => rfl
  | cons c cs ih =>
    obtain ⟨hc, hcs⟩ := not_or.mp (fun h' => h (List.mem_cons.mpr h'))
    rw [List.cons_append, expand_cons (Ne.symm hc), ih hcs, List.cons_append]

/-- A percent sign in front of something else than `m` and a percent sign is copied alone. -/
private theorem expand_percent {err s : List UInt8} {b : UInt8} (h : b ≠ 37 ∧ b ≠ 109) :
    expand err (37 :: b :: s) = 37 :: expand err (b :: s) := by
  rw [expand, if_neg (fun h' => h.2 h'.2), if_neg (fun h' => h.1 h'.2)]

private theorem expand_piece_text (err : List UInt8) (p : Piece) :
    (expandPiece err p).flatMap Piece.text = if p = .strerr then err else p.text := by
  unfold expandPiece
  split_ifs
  · rw [List.flatMap_map]
    exact List.flatMap_singleton' err
  · simp

/-- A piece in front is expanded by itself. -/
private theorem expand_text {p : Piece} (valid : p.Valid) (err s : List UInt8) :
    expand err (p.text ++ s) = (expandPiece err p).flatMap Piece.text ++ expand err s := by
  rw [expand_piece_text]
  cases p with
  | char c => exact expand_cons valid
  | percent => rfl
  | strerr => rfl
  | conv mods c =>
    obtain ⟨hmods, hconv, -⟩ := valid
    have hbody : ∀ b ∈ mods ++ [c], b ≠ 37 ∧ b ≠ 109 := by
      intro b hb
      rcases List.mem_append.mp hb with hb | hb
      · exact modifier_ne_percent (hmods b hb)
      · exact List.mem_singleton.mp hb ▸ (conversion_plain hconv).2
    have hplain : 37 ∉ mods ++ [c] := fun h => (hbody 37 h).1 rfl
    obtain ⟨b, body, hcons⟩ : ∃ b body, mods ++ [c] = b :: body :=
      List.exists_cons_of_ne_nil (by simp)
    rw [if_neg (by simp), Piece.text]
    rw [hcons] at hbody hplain ⊢
    have hfirst := hbody b List.mem_cons_self
    calc expand err (37 :: (b :: (body ++ s)))
      _ = 37 :: expand err (b :: body ++ s) := expand_percent hfirst
      _ = 37 :: (b :: body ++ expand err s) := by rw [expand_plain hplain]

/-- The expansion consists of its pieces. -/
private theorem expand_pieces {ps : List Piece} (valid : ∀ p ∈ ps, p.Valid) (err : List UInt8) :
    expand err (ps.flatMap Piece.text) = (expandPieces err ps).flatMap Piece.text := by
  induction ps with
  | nil => rfl
  | cons p ps ih =>
    obtain ⟨hp, hps⟩ := List.forall_mem_cons.mp valid
    rw [List.flatMap_cons, expand_text hp, ih hps, ← List.flatMap_append]
    rfl

private theorem expand_pieces_valid {err : List UInt8} {ps : List Piece}
    (valid : ∀ p ∈ ps, p.Valid) (herr : 37 ∉ err) :
    ∀ q ∈ expandPieces err ps, q.Valid ∧ q ≠ .strerr := by
  intro q hq
  obtain ⟨p, hp, hq⟩ := List.mem_flatMap.mp hq
  unfold expandPiece at hq
  split_ifs at hq with hstrerr
  · obtain ⟨c, hc, rfl⟩ := List.mem_map.mp hq
    refine ⟨?_, by simp⟩
    rintro rfl
    exact herr hc
  · obtain rfl := List.mem_singleton.mp hq
    exact ⟨valid q hp, hstrerr⟩

/-- The error texts add no conversion specification. -/
private theorem specs_expand_pieces (err : List UInt8) (ps : List Piece) :
    specs (expandPieces err ps) = specs ps := by
  induction ps with
  | nil => rfl
  | cons p ps ih =>
    have hpiece : specs (expandPiece err p) = specs [p] := by
      unfold expandPiece
      split_ifs with hstrerr
      · rw [hstrerr]
        refine List.filter_eq_nil_iff.mpr (fun q hq => ?_)
        obtain ⟨c, -, rfl⟩ := List.mem_map.mp hq
        exact Bool.false_ne_true
      · rfl
    calc specs (expandPieces err (p :: ps))
      _ = specs (expandPiece err p) ++ specs (expandPieces err ps) := List.filter_append ..
      _ = specs ([p] ++ ps) := by rw [hpiece, ih]; exact (List.filter_append ..).symm

/-- What is written of a format is a format where its expansion ends between two pieces. -/
private theorem stays_format_of_ends {err fmt : List UInt8} {ps : List Piece}
    (hfmt : parse fmt = some ps) (herr : 37 ∉ err) (h : EndsBetween err ps) :
    StaysFormat err fmt ps := by
  obtain ⟨rfl, valid⟩ := parse_sound hfmt
  have hvalid := expand_pieces_valid valid herr
  obtain ⟨qs, rs, hsplit, hcut⟩ : ∃ qs rs, expandPieces err ps = qs ++ rs ∧
      ((expandPieces err ps).flatMap Piece.text).take (FMT_SIZE - 1) = qs.flatMap Piece.text := by
    rcases h with hall | ⟨qs, rs, hsplit, hlen⟩
    · exact ⟨_, [], (List.append_nil _).symm, List.take_of_length_le hall⟩
    · exact ⟨qs, rs, hsplit, by rw [hsplit, List.flatMap_append, List.take_left' hlen]⟩
  have hqs : ∀ q ∈ qs, q ∈ expandPieces err ps :=
    fun q hq => hsplit ▸ List.mem_append_left rs hq
  refine ⟨qs.flatMap Piece.text, qs, ?_, parse_text_all (fun q hq => (hvalid q (hqs q hq)).1),
    fun hq => (hvalid .strerr (hqs _ hq)).2 rfl, ?_⟩
  · rw [normalized_fmt_eq, expand_pieces valid, hcut]
  · rw [← specs_expand_pieces err ps, hsplit]
    exact (List.prefix_append qs rs).filter _

/-- A string that is a format after it was cut off ends between two pieces. -/
private theorem ends_of_parse {err fmt s : List UInt8} {ps qs : List Piece}
    (hfmt : parse fmt = some ps) (herr : 37 ∉ err)
    (hwrite : getNormalizedFmt err fmt = some (s ++ [0])) (hparse : parse s = some qs) :
    EndsBetween err ps := by
  obtain ⟨rfl, valid⟩ := parse_sound hfmt
  obtain ⟨rfl, hqs⟩ := parse_sound hparse
  rw [normalized_fmt_eq, expand_pieces valid, Option.some.injEq] at hwrite
  have hcut := List.append_cancel_right hwrite
  have hvalid : ∀ q ∈ expandPieces err ps, q.Valid :=
    fun q hq => (expand_pieces_valid valid herr q hq).1
  obtain ⟨rs, hsplit⟩ := parse_prefix hqs hvalid (hcut ▸ List.take_prefix _ _)
  by_cases hall : ((expandPieces err ps).flatMap Piece.text).length ≤ FMT_SIZE - 1
  · exact .inl hall
  · refine .inr ⟨qs, rs, hsplit.symm, ?_⟩
    rw [← hcut, List.length_take, Nat.min_eq_left (by omega)]

end Nebase.Syslog
