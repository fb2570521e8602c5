/- Rotation, and the repair of a red node below a red node. -/

import Nebase.Foundation.RedBlack.Tree

set_option autoImplicit false
set_option relaxedAutoImplicit false

namespace Nebase.Foundation.RedBlack

universe u

variable {α : Type u}

open ColorTree

/-- The child in the direction `d` and the root exchange their places; the colours stay. -/
def rotate : Dir → ColorTree α → Option (ColorTree α)
  | .left, node c (node c' x b y) a z => some (node c x b (node c' y a z))
  | .right, node c z a (node c' y b x) => some (node c (node c' z a y) b x)
  | _, _ => none

@[simp] theorem rotate_build (d : Dir) (c c' : Color) (x y z : ColorTree α) (a b : α) :
    rotate d (build c d (build c' d x b y) a z) = some (build c d x b (build c' d y a z)) := by
  cases d <;> rfl

@[simp] theorem rotate_build_leaf (d : Dir) (c : Color) (z : ColorTree α) (a : α) :
    rotate d (build c d leaf a z) = none := by
  cases d <;> rfl

theorem rotate_cases {d : Dir} {t t' : ColorTree α} (h : rotate d t = some t') :
    ∃ c c' x b y a z, t = build c d (build c' d x b y) a z ∧
      t' = build c d x b (build c' d y a z) := by
  cases d with
  | left =>
    match t, h with
    | node c (node c' x b y) a z, h =>
      exact ⟨c, c', x, b, y, a, z, rfl, (Option.some.inj h).symm⟩
  | right =>
    match t, h with
    | node c z a (node c' y b x), h =>
      exact ⟨c, c', x, b, y, a, z, rfl, (Option.some.inj h).symm⟩

theorem rotate_inorder {d : Dir} {t t' : ColorTree α} (h : rotate d t = some t') :
    t'.inorder = t.inorder := by
  obtain ⟨c, c', x, b, y, a, z, rfl, rfl⟩ := rotate_cases h
  cases d <;> simp [build, inorder]

/-- `self` is red and hangs below the red node of the first frame. Under a red uncle the trouble
moves two levels up; otherwise one rotation or two end it. -/
def insertRebalance : Context α → ColorTree α → Option (ColorTree α)
  | ⟨d, fc, f, s⟩ :: ⟨w, gc, g, uncle⟩ :: k, self =>
    if uncle.color = .red then
      let grandpa := build gc w (build .black d self f s) g (uncle.paint .black)
      match k with
      | [] => some grandpa
      | h :: k' =>
        if h.color = .black then
          some (plug (h :: k') (grandpa.paint .red))
        else
          insertRebalance (h :: k') (grandpa.paint .red)
    else do
      let father ← (if d = w then some (build fc d self f s)
        else rotate w.other (build fc d self f s))
      let top ← rotate w (build gc w father g uncle)
      some ((plug k top).paint .black)
  | _, _ => none

/-- The rotations under a black uncle. -/
theorem insert_rotations {d w : Dir} {self s uncle : ColorTree α} {f g : α} {n : Nat}
    (red : self.color = .red) (bself : Balanced self n) (bs : Balanced s n)
    (bu : Balanced uncle n) (hs : s.color = .black) (hu : uncle.color = .black) :
    ∃ father top, (if d = w then some (build .red d self f s)
        else rotate w.other (build .red d self f s)) = some father ∧
      rotate w (build .black w father g uncle) = some top ∧
      Balanced top (n + 1) ∧ top.color = .black ∧
      top.inorder = (build .black w (build .red d self f s) g uncle).inorder := by
  by_cases hd : d = w
  · subst hd
    refine ⟨_, _, if_pos rfl, rotate_build .., ?_, color_build .., ?_⟩
    · exact balanced_black.mpr ⟨bself, balanced_red.mpr ⟨hs, hu, bs, bu⟩⟩
    · cases d <;> simp [build, inorder]
  · obtain rfl := ne_iff_eq_other.mp hd
    obtain ⟨sc, b, x, a, rfl⟩ := eq_build w.other (ne_leaf_of_red red)
    obtain rfl : sc = .red := by simpa using red
    obtain ⟨hb, ha, bb, ba⟩ := balanced_red.mp bself
    refine ⟨build .red w (build .red w s f a) x b,
      build .black w (build .red w s f a) x (build .red w b g uncle), ?_, ?_, ?_,
      color_build .., ?_⟩
    · rw [if_neg hd, rotate_build, build_other, build_other]
    · exact rotate_build ..
    · exact balanced_black.mpr ⟨balanced_red.mpr ⟨hs, ha, bs, ba⟩, balanced_red.mpr
        ⟨hb, hu, bb, bu⟩⟩
    · cases w <;> simp [build, inorder]

/-- Above a red node there is a black one. -/
theorem fits_red_cases {k : Context α} {n : Nat} (below : k ≠ []) (father : parentColor k = .red)
    (fits : Fits k n) :
    ∃ d f s w g uncle k', k = ⟨d, .red, f, s⟩ :: ⟨w, .black, g, uncle⟩ :: k' ∧
      s.color = .black ∧ Balanced s n ∧ Balanced uncle n ∧ Fits k' (n + 1) := by
  match k, below, father, fits with
  | ⟨d, .red, f, s⟩ :: k, _, _, ⟨bs, hs, grandpa, fits⟩ =>
    match k, grandpa, fits with
    | ⟨w, .black, g, uncle⟩ :: k', _, ⟨bu, fits⟩ =>
      exact ⟨d, f, s, w, g, uncle, k', rfl, hs, bs, bu, fits⟩

/-- The loop ends in a red-black tree with the same elements. It goes up two frames at a time:
painted red, the grandfather is at its place what `self` was at its own. -/
theorem insert_rebalance_spec {k : Context α} {self : ColorTree α} {n : Nat} (below : k ≠ [])
    (father : parentColor k = .red) (fits : Fits k n) (red : self.color = .red)
    (balanced : Balanced self n) :
    ∃ t, insertRebalance k self = some t ∧ IsRedBlack t ∧
      t.inorder = (plug k self).inorder := by
  induction hlen : k.length using Nat.strongRecOn generalizing k self n with
  | ind len ih =>
  obtain ⟨d, f, s, w, g, uncle, k', rfl, hs, bs, bu, fits⟩ := fits_red_cases below father fits
  rw [insertRebalance]
  by_cases hu : uncle.color = .red
  · rw [if_pos hu]
    have bf : Balanced (build .black d self f s) (n + 1) := balanced_black.mpr ⟨balanced, bs⟩
    have bu' : Balanced (uncle.paint .black) (n + 1) := balanced_paint_black hu bu
    have order : ∀ c, (build c w (build .black d self f s) g (uncle.paint .black)).inorder =
        (build .black w (build .red d self f s) g uncle).inorder := by
      intro c
      cases w <;> cases d <;> simp [build, inorder]
    have bred : Balanced (build .red w (build .black d self f s) g (uncle.paint .black))
        (n + 1) := balanced_red.mpr ⟨color_build .., color_paint_black _, bf, bu'⟩
    cases k' with
    | nil =>
      exact ⟨_, rfl, ⟨color_build .., n + 2, balanced_black.mpr ⟨bf, bu'⟩⟩, order .black⟩
    | cons h k'' =>
      simp only [paint_build]
      by_cases hh : h.color = .black
      · refine ⟨_, if_pos hh, red_black_plug.mpr ⟨n + 1, fits, bred, ?_⟩,
          inorder_plug_congr (order .red)⟩
        exact fun red => absurd (hh.symm.trans red) (by decide)
      · obtain ⟨t, ht, redBlack, elems⟩ := ih (k''.length + 1)
          (by rw [← hlen]; simp) (List.cons_ne_nil h k'') (color_ne_black.mp hh) fits
          (color_build ..) bred rfl
        exact ⟨t, (if_neg hh).trans ht, redBlack,
          elems.trans (inorder_plug_congr (order .red))⟩
  · obtain ⟨father, top, hfather, htop, btop, ctop, order⟩ :=
      insert_rotations (d := d) (w := w) (f := f) (g := g) red balanced bs bu hs
        (color_ne_red.mp hu)
    have redBlack : IsRedBlack (plug k' top) := fits.red_black btop ctop
    refine ⟨plug k' top, ?_, redBlack, inorder_plug_congr order⟩
    simp only [if_neg hu, hfather, htop, Option.bind_eq_bind, Option.bind_some,
      paint_of_color redBlack.1]

/-- A new element at a leaf: black at the root, red anywhere else. -/
def insertAt (k : Context α) (a : α) : Option (ColorTree α) :=
  match k with
  | [] => some (node .black leaf a leaf)
  | f :: k =>
    if f.color = .red then
      insertRebalance (f :: k) (node .red leaf a leaf)
    else
      some (plug (f :: k) (node .red leaf a leaf))

/-- The insertion ends in a red-black tree with one element more. -/
theorem insert_at_spec {k : Context α} {a : α} (h : IsRedBlack (plug k leaf)) :
    ∃ t, insertAt k a = some t ∧ IsRedBlack t ∧ t.inorder = before k ++ a :: after k := by
  cases k with
  | nil =>
    exact ⟨_, rfl, ⟨rfl, 1, balanced_black (d := .left).mpr ⟨balanced_leaf.mpr rfl,
      balanced_leaf.mpr rfl⟩⟩, rfl⟩
  | cons f k =>
    obtain ⟨n, fits, balanced, -⟩ := red_black_plug.mp h
    have bnew : Balanced (node .red leaf a leaf) n :=
      balanced_red (d := .left).mpr ⟨rfl, rfl, balanced, balanced⟩
    have order : (plug (f :: k) (node .red leaf a leaf)).inorder =
        before (f :: k) ++ a :: after (f :: k) := by
      simp [inorder_plug, inorder]
    rw [insertAt]
    by_cases hf : f.color = .red
    · rw [if_pos hf]
      obtain ⟨t, ht, redBlack, elems⟩ :=
        insert_rebalance_spec (List.cons_ne_nil f k) hf fits rfl bnew
      exact ⟨t, ht, redBlack, elems.trans order⟩
    · exact ⟨_, if_neg hf, red_black_plug.mpr ⟨n, fits, bnew, fun h => absurd h hf⟩, order⟩

end Nebase.Foundation.RedBlack
