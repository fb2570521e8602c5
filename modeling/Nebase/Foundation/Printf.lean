/- Formats of printf: their pieces, and the parser that finds them. What a directive may consist of
   is decided by its modifiers and its conversion character. -/

import Mathlib.Data.List.Basic

set_option autoImplicit false
set_option relaxedAutoImplicit false

namespace Nebase.Foundation.Printf

def byte (c : Char) : UInt8 := UInt8.ofNat c.toNat

/-- Flags; 39 is the apostrophe. -/
def isFlag (b : UInt8) : Bool := b ∈ 39 :: ['-', '+', ' ', '#', '0'].map byte

def isDecimal (b : UInt8) : Bool := byte '0' ≤ b && b ≤ byte '9'

/-- What may stand between the percent sign of a directive and its conversion character. -/
def isModifier (b : UInt8) : Bool :=
  isFlag b || isDecimal b || b ∈ ['.', '*', '$', 'h', 'l', 'q', 'L', 'j', 'z', 't'].map byte

def isConversion (b : UInt8) : Bool :=
  b ∈ ['d', 'i', 'o', 'u', 'x', 'X', 'e', 'E', 'f', 'F', 'g', 'G', 'a', 'A', 'c', 'C', 's', 'S',
    'p', 'n'].map byte

/-- `*`, `*n$` or digits are skipped. -/
def skipNumber (s : List UInt8) : List UInt8 :=
  if s.head? = some (byte '*') then
    let t := s.tail.dropWhile isDecimal
    if t.head? = some (byte '$') then t.tail else s.tail
  else
    s.dropWhile isDecimal

/-- The number of an argument in front, `n$`, is skipped. -/
def skipArgument (s : List UInt8) : List UInt8 :=
  let t := s.dropWhile isDecimal
  if t.head? = some (byte '$') ∧ t.length < s.length then t.tail else s

/-- An argument number, flags, a width, a precision and a length, in this order. -/
def isShape (mods : List UInt8) : Bool :=
  let t := skipNumber ((skipArgument mods).dropWhile isFlag)
  let u := if t.head? = some (byte '.') then skipNumber t.tail else t
  u ∈ [[], [byte 'h'], [byte 'h', byte 'h'], [byte 'l'], [byte 'l', byte 'l'], [byte 'q'],
    [byte 'L'], [byte 'j'], [byte 'z'], [byte 't']]

/-- A piece of a format: a byte that stands for itself, `%%`, `%m`, or a directive that takes
arguments. -/
inductive Piece
  | char (c : UInt8)
  | percent
  | strerr
  | conv (mods : List UInt8) (c : UInt8)
  deriving DecidableEq

def Piece.text : Piece → List UInt8
  | .char c => [c]
  | .percent => [37, 37]
  | .strerr => [37, 109]
  | .conv mods c => 37 :: (mods ++ [c])

def Piece.Valid : Piece → Prop
  | .char c => c ≠ 37
  | .percent => True
  | .strerr => True
  | .conv mods c => (∀ b ∈ mods, isModifier b = true) ∧ isConversion c = true ∧ isShape mods = true

/-- The parser inside a directive, behind these modifiers, or between the pieces. -/
def parseFrom : Option (List UInt8) → List UInt8 → Option (List Piece)
  | none, [] => some []
  | some _, [] => none
  | none, b :: s =>
    if b = 37 then parseFrom (some []) s else (parseFrom none s).map (.char b :: ·)
  | some mods, b :: s =>
    if isModifier b then
      parseFrom (some (mods ++ [b])) s
    else if mods = [] ∧ b = 37 then
      (parseFrom none s).map (.percent :: ·)
    else if mods = [] ∧ b = 109 then
      (parseFrom none s).map (.strerr :: ·)
    else if isConversion b && isShape mods then
      (parseFrom none s).map (.conv mods b :: ·)
    else
      none

/-- The pieces of a format, `none` for a string that is not one. -/
def parse (s : List UInt8) : Option (List Piece) := parseFrom none s

example : parse (['%', '-', '5', '.', '*', 'l', 'd', '%', '%', 'm'].map byte) =
    some [.conv (['-', '5', '.', '*', 'l'].map byte) (byte 'd'), .percent, .char (byte 'm')] := by
  decide

theorem conversion_plain {b : UInt8} (h : isConversion b = true) :
    isModifier b = false ∧ b ≠ 37 ∧ b ≠ 109 := by
  have hall : ∀ c ∈ ['d', 'i', 'o', 'u', 'x', 'X', 'e', 'E', 'f', 'F', 'g', 'G', 'a', 'A', 'c', 'C',
      's', 'S', 'p', 'n'].map byte, isModifier c = false ∧ c ≠ 37 ∧ c ≠ 109 := by decide +kernel
  exact hall b (by simpa [isConversion] using h)

theorem modifier_ne_percent {b : UInt8} (h : isModifier b = true) : b ≠ 37 ∧ b ≠ 109 := by
  constructor
  · rintro rfl
    exact absurd h (by decide)
  · rintro rfl
    exact absurd h (by decide)

/-- Modifiers are collected. -/
theorem parse_modifiers {ms : List UInt8} (h : ∀ b ∈ ms, isModifier b = true)
    (mods s : List UInt8) : parseFrom (some mods) (ms ++ s) = parseFrom (some (mods ++ ms)) s := by
  induction ms generalizing mods with
  | nil => simp
  | cons b ms ih =>
    obtain ⟨hb, hms⟩ := List.forall_mem_cons.mp h
    rw [List.cons_append, parseFrom, if_pos hb, ih hms, List.append_assoc, List.singleton_append]

/-- A piece in front is parsed as itself. -/
theorem parse_text {p : Piece} (valid : p.Valid) (s : List UInt8) :
    parse (p.text ++ s) = (parse s).map (p :: ·) := by
  cases p with
  | char c => exact if_neg valid
  | percent => rfl
  | strerr => rfl
  | conv mods c =>
    obtain ⟨hmods, hconv, hshape⟩ := valid
    obtain ⟨hmodifier, hpercent, hm⟩ := conversion_plain hconv
    have hstart : parse ((Piece.conv mods c).text ++ s) =
        parseFrom (some []) (mods ++ (c :: s)) := by
      simp [parse, Piece.text, parseFrom]
    rw [hstart, parse_modifiers hmods, List.nil_append]
    simp [parseFrom, hmodifier, hpercent, hm, hconv, hshape, parse]

theorem parse_pieces {ps : List Piece} (valid : ∀ p ∈ ps, p.Valid) (s : List UInt8) :
    parse (ps.flatMap Piece.text ++ s) = (parse s).map (ps ++ ·) := by
  induction ps with
  | nil => simp
  | cons p ps ih =>
    obtain ⟨hp, hps⟩ := List.forall_mem_cons.mp valid
    rw [List.flatMap_cons, List.append_assoc, parse_text hp, ih hps, Option.map_map]
    rfl

theorem parse_text_all {ps : List Piece} (valid : ∀ p ∈ ps, p.Valid) :
    parse (ps.flatMap Piece.text) = some ps := by
  have h := parse_pieces valid []
  rwa [List.append_nil, show parse [] = some [] from rfl, Option.map_some, List.append_nil] at h

/-- Bytes other than the percent sign stand for themselves. -/
theorem parse_chars {cs : List UInt8} (h : 37 ∉ cs) (s : List UInt8) :
    parse (cs ++ s) = (parse s).map (cs.map Piece.char ++ ·) := by
  have hvalid : ∀ p ∈ cs.map Piece.char, p.Valid := by
    intro p hp
    obtain ⟨c, hc, rfl⟩ := List.mem_map.mp hp
    exact fun hpercent => h (hpercent ▸ hc)
  have htext : (cs.map Piece.char).flatMap Piece.text = cs := by
    rw [List.flatMap_map]
    exact List.flatMap_singleton' cs
  rw [← parse_pieces hvalid, htext]

/-- What stands in front of the rest of a format: nothing, or a directive up to here. -/
private def opened : Option (List UInt8) → List UInt8
  | none => []
  | some mods => 37 :: mods

/-- A piece in front of pieces that are found in the rest. -/
private theorem sound_cons {p : Piece} {s pre : List UInt8} {ps : List Piece} (valid : p.Valid)
    (htext : pre = p.text) (hrest : s = ps.flatMap Piece.text ∧ ∀ q ∈ ps, q.Valid) :
    pre ++ s = (p :: ps).flatMap Piece.text ∧ ∀ q ∈ p :: ps, q.Valid := by
  refine ⟨?_, List.forall_mem_cons.mpr ⟨valid, hrest.2⟩⟩
  rw [List.flatMap_cons, htext, ← hrest.1]

/-- A format consists of the pieces that are found in it. -/
private theorem parse_from_sound {state : Option (List UInt8)} {s : List UInt8} {ps : List Piece}
    (mods : ∀ ms, state = some ms → ∀ b ∈ ms, isModifier b = true)
    (h : parseFrom state s = some ps) :
    opened state ++ s = ps.flatMap Piece.text ∧ ∀ p ∈ ps, p.Valid := by
  induction s generalizing state ps with
  | nil =>
    cases state with
    | none =>
      obtain rfl := Option.some.inj h
      exact ⟨rfl, fun p hp => by cases hp⟩
    | some ms => cases h
  | cons b s ih =>
    have hplain : ∀ ms, (none : Option (List UInt8)) = some ms → ∀ b ∈ ms, isModifier b = true :=
      fun ms hms => by cases hms
    cases state with
    | none =>
      rw [parseFrom] at h
      split_ifs at h with hb
      · subst hb
        exact ih (fun ms hms b hmem => by cases hms; cases hmem) h
      · obtain ⟨qs, hqs, rfl⟩ := Option.map_eq_some_iff.mp h
        have hsplit : opened none ++ b :: s = [b] ++ s := rfl
        rw [hsplit]
        exact sound_cons (p := .char b) hb rfl (ih hplain hqs)
    | some ms =>
      have hms := mods ms rfl
      have hsplit : opened (some ms) ++ b :: s = opened (some ms) ++ [b] ++ s := by simp
      rw [parseFrom] at h
      rw [hsplit]
      split_ifs at h with hmod hpercent hstrerr hconv
      · have hnext : ∀ ms', some (ms ++ [b]) = some ms' → ∀ c ∈ ms', isModifier c = true := by
          rintro ms' hms' c hc
          obtain rfl := Option.some.inj hms'
          rcases List.mem_append.mp hc with hc | hc
          · exact hms c hc
          · rw [List.mem_singleton] at hc
            exact hc ▸ hmod
        exact ih hnext h
      · obtain ⟨rfl, rfl⟩ := hpercent
        obtain ⟨qs, hqs, rfl⟩ := Option.map_eq_some_iff.mp h
        exact sound_cons (p := .percent) trivial rfl (ih hplain hqs)
      · obtain ⟨rfl, rfl⟩ := hstrerr
        obtain ⟨qs, hqs, rfl⟩ := Option.map_eq_some_iff.mp h
        exact sound_cons (p := .strerr) trivial rfl (ih hplain hqs)
      · obtain ⟨qs, hqs, rfl⟩ := Option.map_eq_some_iff.mp h
        obtain ⟨hc, hshape⟩ := Bool.and_eq_true_iff.mp hconv
        exact sound_cons (p := .conv ms b) ⟨hms, hc, hshape⟩ rfl (ih hplain hqs)

theorem parse_sound {s : List UInt8} {ps : List Piece} (h : parse s = some ps) :
    s = ps.flatMap Piece.text ∧ ∀ p ∈ ps, p.Valid :=
  parse_from_sound (fun _ hms => by cases hms) h

/-- The pieces of a format that starts with whole pieces start with these. -/
theorem parse_prefix {ps qs : List Piece} (hps : ∀ p ∈ ps, p.Valid) (hqs : ∀ q ∈ qs, q.Valid)
    (h : ps.flatMap Piece.text <+: qs.flatMap Piece.text) : ps <+: qs := by
  obtain ⟨rest, hrest⟩ := h
  have hparse : (parse rest).map (ps ++ ·) = some qs := by
    rw [← parse_pieces hps, hrest]
    exact parse_text_all hqs
  obtain ⟨rs, -, hsplit⟩ := Option.map_eq_some_iff.mp hparse
  exact ⟨rs, hsplit⟩

end Nebase.Foundation.Printf
