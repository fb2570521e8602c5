/- Coloured binary trees seen from a place inside them: the context of a subtree, what lies before
   and after it, and the red-black conditions on both sides of the cut. -/

import Mathlib.Algebra.Group.Nat.Defs
import Mathlib.Data.List.Nodup
import Mathlib.Data.Nat.Log

set_option autoImplicit false
set_option relaxedAutoImplicit false

namespace Nebase.Foundation.RedBlack

universe u

inductive Dir
  | left
  | right
  deriving DecidableEq

def Dir.other : Dir → Dir
  | .left => .right
  | .right => .left

@[simp] theorem left_other : Dir.left.other = .right := rfl

@[simp] theorem right_other : Dir.right.other = .left := rfl

@[simp] theorem other_other (d : Dir) : d.other.other = d := by
  cases d <;> rfl

@[simp] theorem other_ne (d : Dir) : d.other ≠ d := by
  cases d <;> decide

@[simp] theorem ne_other (d : Dir) : d ≠ d.other := by
  cases d <;> decide

theorem ne_iff_eq_other {d e : Dir} : d ≠ e ↔ d = e.other := by
  cases d <;> cases e <;> decide

inductive Color
  | red
  | black
  deriving DecidableEq

theorem color_ne_red {c : Color} : c ≠ .red ↔ c = .black := by
  cases c <;> decide

theorem color_ne_black {c : Color} : c ≠ .black ↔ c = .red := by
  cases c <;> decide

inductive ColorTree (α : Type u)
  | leaf
  | node (c : Color) (l : ColorTree α) (a : α) (r : ColorTree α)

variable {α : Type u}

namespace ColorTree

/-- A leaf counts as black. -/
def color : ColorTree α → Color
  | leaf => .black
  | node c _ _ _ => c

def paint (c : Color) : ColorTree α → ColorTree α
  | leaf => leaf
  | node _ l a r => node c l a r

/-- The node with the child `near` in the direction `d`. -/
def build (c : Color) (d : Dir) (near : ColorTree α) (a : α) (far : ColorTree α) : ColorTree α :=
  match d with
  | .left => node c near a far
  | .right => node c far a near

def inorder : ColorTree α → List α
  | leaf => []
  | node _ l a r => l.inorder ++ a :: r.inorder

def height : ColorTree α → Nat
  | leaf => 0
  | node _ l _ r => max l.height r.height + 1

@[simp] theorem color_leaf : (leaf : ColorTree α).color = .black := rfl

@[simp] theorem color_build (c : Color) (d : Dir) (x y : ColorTree α) (a : α) :
    (build c d x a y).color = c := by
  cases d <;> rfl

@[simp] theorem paint_build (c e : Color) (d : Dir) (x y : ColorTree α) (a : α) :
    (build c d x a y).paint e = build e d x a y := by
  cases d <;> rfl

@[simp] theorem inorder_paint (c : Color) (t : ColorTree α) : (t.paint c).inorder = t.inorder := by
  cases t <;> rfl

@[simp] theorem color_paint_black (t : ColorTree α) : (t.paint .black).color = .black := by
  cases t <;> rfl

@[simp] theorem inorder_eq_nil {t : ColorTree α} : t.inorder = [] ↔ t = leaf := by
  cases t <;> simp [inorder]

theorem build_other (c : Color) (d : Dir) (x y : ColorTree α) (a : α) :
    build c d.other x a y = build c d y a x := by
  cases d <;> rfl

theorem paint_of_color {t : ColorTree α} {c : Color} (h : t.color = c) : t.paint c = t := by
  cases t with
  | leaf => rfl
  | node c' l a r =>
    obtain rfl : c' = c := h
    rfl

/-- A tree that is not a leaf, with its children named by the direction. -/
theorem eq_build (d : Dir) {t : ColorTree α} (h : t ≠ leaf) :
    ∃ c x a y, t = build c d x a y := by
  cases t with
  | leaf => exact absurd rfl h
  | node c l a r =>
    cases d with
    | left => exact ⟨c, l, a, r, rfl⟩
    | right => exact ⟨c, r, a, l, rfl⟩

theorem ne_leaf_of_red {t : ColorTree α} (h : t.color = .red) : t ≠ leaf := by
  rintro rfl
  cases h

@[simp] theorem build_ne_leaf (c : Color) (d : Dir) (x y : ColorTree α) (a : α) :
    build c d x a y ≠ leaf := by
  cases d <;> simp [build]

end ColorTree

open ColorTree

/-- A step down: the node passed, with the child that was not taken. -/
structure Frame (α : Type u) where
  dir : Dir
  color : Color
  elem : α
  sibling : ColorTree α

/-- The way from a subtree up to the root, the nearest node first. -/
abbrev Context (α : Type u) := List (Frame α)

def plug : Context α → ColorTree α → ColorTree α
  | [], t => t
  | f :: k, t => plug k (build f.color f.dir t f.elem f.sibling)

/-- The elements in front of the hole. -/
def before : Context α → List α
  | [] => []
  | f :: k =>
    match f.dir with
    | .left => before k
    | .right => before k ++ f.sibling.inorder ++ [f.elem]

/-- The elements behind the hole. -/
def after : Context α → List α
  | [] => []
  | f :: k =>
    match f.dir with
    | .left => f.elem :: (f.sibling.inorder ++ after k)
    | .right => after k

@[simp] theorem plug_nil (t : ColorTree α) : plug [] t = t := rfl

theorem plug_cons (f : Frame α) (k : Context α) (t : ColorTree α) :
    plug (f :: k) t = plug k (build f.color f.dir t f.elem f.sibling) := rfl

theorem plug_append (k k' : Context α) (t : ColorTree α) :
    plug (k ++ k') t = plug k' (plug k t) := by
  induction k generalizing t with
  | nil => rfl
  | cons f k ih => exact ih _

theorem inorder_plug (k : Context α) (t : ColorTree α) :
    (plug k t).inorder = before k ++ (t.inorder ++ after k) := by
  induction k generalizing t with
  | nil => simp [plug, before, after]
  | cons f k ih =>
    rw [plug_cons, ih]
    cases hd : f.dir <;> simp [before, after, hd, build, inorder]

/-- Two subtrees with the same elements leave the same elements in a context. -/
theorem inorder_plug_congr {k : Context α} {t t' : ColorTree α} (h : t.inorder = t'.inorder) :
    (plug k t).inorder = (plug k t').inorder := by
  rw [inorder_plug, inorder_plug, h]

theorem plug_ne_leaf {k : Context α} {t : ColorTree α} (h : k ≠ [] ∨ t ≠ leaf) :
    plug k t ≠ leaf := by
  induction k generalizing t with
  | nil => simpa using h
  | cons f k ih => exact ih (.inr (build_ne_leaf _ _ _ _ _))

/-- Every element sits at the root of a subtree. -/
theorem exists_plug_of_mem {t : ColorTree α} {a : α} (ha : a ∈ t.inorder) :
    ∃ k c l r, t = plug k (node c l a r) := by
  induction t with
  | leaf => cases ha
  | node c l b r ihl ihr =>
    simp only [inorder, List.mem_append, List.mem_cons] at ha
    rcases ha with ha | rfl | ha
    · obtain ⟨k, c', l', r', rfl⟩ := ihl ha
      exact ⟨k ++ [⟨.left, c, b, r⟩], c', l', r', by simp [plug_append, plug, build]⟩
    · exact ⟨[], c, l, r, rfl⟩
    · obtain ⟨k, c', l', r', rfl⟩ := ihr ha
      exact ⟨k ++ [⟨.right, c, b, l⟩], c', l', r', by simp [plug_append, plug, build]⟩

/-! The colours and the black height. -/

/-- No red node has a red child, and every way down to a leaf meets `n` black nodes. -/
def Balanced : ColorTree α → Nat → Prop
  | leaf, n => n = 0
  | node .red l _ r, n => l.color = .black ∧ r.color = .black ∧ Balanced l n ∧ Balanced r n
  | node .black _ _ _, 0 => False
  | node .black l _ r, n + 1 => Balanced l n ∧ Balanced r n

@[simp] theorem balanced_leaf {n : Nat} : Balanced (leaf : ColorTree α) n ↔ n = 0 := by
  cases n <;> rfl

@[simp] theorem balanced_red {d : Dir} {x y : ColorTree α} {a : α} {n : Nat} :
    Balanced (build .red d x a y) n ↔
      x.color = .black ∧ y.color = .black ∧ Balanced x n ∧ Balanced y n := by
  cases d with
  | left => cases n <;> exact Iff.rfl
  | right => cases n <;> simp only [build, Balanced] <;> tauto

@[simp] theorem balanced_black {d : Dir} {x y : ColorTree α} {a : α} {n : Nat} :
    Balanced (build .black d x a y) (n + 1) ↔ Balanced x n ∧ Balanced y n := by
  cases d with
  | left => exact Iff.rfl
  | right => exact And.comm

theorem balanced_black_cases {d : Dir} {x y : ColorTree α} {a : α} {n : Nat}
    (h : Balanced (build .black d x a y) n) : ∃ m, n = m + 1 ∧ Balanced x m ∧ Balanced y m := by
  cases n with
  | zero => cases d <;> exact h.elim
  | succ m => exact ⟨m, rfl, balanced_black.mp h⟩

/-- The colour above the hole. The root has to be black, as the child of a red node has. -/
def parentColor : Context α → Color
  | [] => .red
  | f :: _ => f.color

/-- What the context asks of a black subtree in its hole: the black height `n`. -/
def Fits : Context α → Nat → Prop
  | [], _ => True
  | ⟨_, .red, _, s⟩ :: k, n =>
    Balanced s n ∧ s.color = .black ∧ parentColor k = .black ∧ Fits k n
  | ⟨_, .black, _, s⟩ :: k, n => Balanced s n ∧ Fits k (n + 1)

def IsRedBlack (t : ColorTree α) : Prop :=
  t.color = .black ∧ ∃ n, Balanced t n

/-- A subtree that may stand in the hole of `k`. -/
structure Accepts (k : Context α) (t : ColorTree α) (n : Nat) : Prop where
  fits : Fits k n
  balanced : Balanced t n
  color : parentColor k = .red → t.color = .black

theorem accepts_cons {f : Frame α} {k : Context α} {t : ColorTree α} :
    (∃ n, Accepts (f :: k) t n) ↔ ∃ n, Accepts k (build f.color f.dir t f.elem f.sibling) n := by
  obtain ⟨d, c, a, s⟩ := f
  cases c with
  | red =>
    constructor
    · rintro ⟨n, fits, balanced, color⟩
      exact ⟨n, fits.2.2.2, balanced_red.mpr ⟨color rfl, fits.2.1, balanced, fits.1⟩,
        fun h => absurd (fits.2.2.1.symm.trans h) (by decide)⟩
    · rintro ⟨n, fits, balanced, color⟩
      obtain ⟨ht, hs, bt, bs⟩ := balanced_red.mp balanced
      refine ⟨n, ⟨bs, hs, ?_, fits⟩, bt, fun _ => ht⟩
      cases hk : parentColor k with
      | black => rfl
      | red => exact absurd (color hk) (by simp)
  | black =>
    constructor
    · rintro ⟨n, fits, balanced, color⟩
      exact ⟨n + 1, fits.2, balanced_black.mpr ⟨balanced, fits.1⟩, fun _ => color_build ..⟩
    · rintro ⟨n, fits, balanced, -⟩
      obtain ⟨m, rfl, bt, bs⟩ := balanced_black_cases balanced
      exact ⟨m, ⟨bs, fits⟩, bt, fun h => absurd h (by simp [parentColor])⟩

theorem red_black_plug {k : Context α} {t : ColorTree α} :
    IsRedBlack (plug k t) ↔ ∃ n, Accepts k t n := by
  induction k generalizing t with
  | nil =>
    constructor
    · rintro ⟨color, n, balanced⟩
      exact ⟨n, trivial, balanced, fun _ => color⟩
    · rintro ⟨n, -, balanced, color⟩
      exact ⟨color rfl, n, balanced⟩
  | cons f k ih => rw [plug_cons, ih, accepts_cons]

/-- A black subtree of the height asked for fits, whatever is above it. -/
theorem Fits.red_black {k : Context α} {t : ColorTree α} {n : Nat} (fits : Fits k n)
    (balanced : Balanced t n) (color : t.color = .black) : IsRedBlack (plug k t) :=
  red_black_plug.mpr ⟨n, fits, balanced, fun _ => color⟩

theorem red_black_leaf : IsRedBlack (leaf : ColorTree α) := ⟨rfl, 0, balanced_leaf.mpr rfl⟩

theorem balanced_paint_black {t : ColorTree α} {n : Nat} (red : t.color = .red)
    (balanced : Balanced t n) : Balanced (t.paint .black) (n + 1) := by
  obtain ⟨c, x, a, y, rfl⟩ := eq_build .left (ne_leaf_of_red red)
  obtain rfl : c = .red := by simpa using red
  obtain ⟨-, -, bx, b_y⟩ := balanced_red.mp balanced
  rw [paint_build]
  exact balanced_black.mpr ⟨bx, b_y⟩

/-! How high a balanced tree is. -/

theorem height_le_of_balanced {t : ColorTree α} {n : Nat} (h : Balanced t n) :
    t.height ≤ 2 * n + (if t.color = .red then 1 else 0) := by
  induction t generalizing n with
  | leaf => simp [height]
  | node c l a r ihl ihr =>
    cases c with
    | red =>
      obtain ⟨hl, hr, bl, br⟩ := balanced_red (d := .left).mp h
      have hl' := ihl bl
      have hr' := ihr br
      simp only [hl, hr, reduceCtorEq, if_false, Nat.add_zero] at hl' hr'
      simp only [height, color, if_true]
      omega
    | black =>
      obtain ⟨m, rfl, bl, br⟩ := balanced_black_cases (d := .left) h
      have hl' := ihl bl
      have hr' := ihr br
      simp only [height, color, reduceCtorEq, if_false]
      split at hl' <;> split at hr' <;> omega

theorem pow_le_of_balanced {t : ColorTree α} {n : Nat} (h : Balanced t n) :
    2 ^ n ≤ t.inorder.length + 1 := by
  induction t generalizing n with
  | leaf =>
    obtain rfl := balanced_leaf.mp h
    simp [inorder]
  | node c l a r ihl ihr =>
    cases c with
    | red =>
      obtain ⟨-, -, bl, br⟩ := balanced_red (d := .left).mp h
      have := ihl bl
      simp only [inorder, List.length_append, List.length_cons]
      omega
    | black =>
      obtain ⟨m, rfl, bl, br⟩ := balanced_black_cases (d := .left) h
      have hl := ihl bl
      have hr := ihr br
      simp only [inorder, List.length_append, List.length_cons, Nat.pow_succ]
      omega

/-- The height of a red-black tree is logarithmic in the number of its elements. -/
theorem IsRedBlack.height_le {t : ColorTree α} (h : IsRedBlack t) :
    t.height ≤ 2 * Nat.log 2 (t.inorder.length + 1) := by
  obtain ⟨color, n, balanced⟩ := h
  have height := height_le_of_balanced balanced
  rw [color] at height
  have log : n ≤ Nat.log 2 (t.inorder.length + 1) :=
    Nat.le_log_of_pow_le (by omega) (pow_le_of_balanced balanced)
  simp only [reduceCtorEq, if_false, Nat.add_zero] at height
  omega

/-- A context is no longer than the tree is high. -/
theorem height_plug (k : Context α) (t : ColorTree α) :
    k.length + t.height ≤ (plug k t).height := by
  induction k generalizing t with
  | nil => simp
  | cons f k ih =>
    have step : t.height + 1 ≤ (build f.color f.dir t f.elem f.sibling).height := by
      cases f.dir <;> simp only [build, height] <;> omega
    have := ih (build f.color f.dir t f.elem f.sibling)
    simp only [List.length_cons, plug_cons]
    omega

end Nebase.Foundation.RedBlack
