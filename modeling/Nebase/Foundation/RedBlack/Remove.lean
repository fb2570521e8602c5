/- The repair of a subtree that has lost a black node, and the removal of an element. -/

import Nebase.Foundation.RedBlack.Insert

set_option autoImplicit false
set_option relaxedAutoImplicit false

namespace Nebase.Foundation.RedBlack

universe u

variable {α : Type u}

open ColorTree

namespace ColorTree

def child (d : Dir) : ColorTree α → ColorTree α
  | leaf => leaf
  | node _ l _ r =>
    match d with
    | .left => l
    | .right => r

@[simp] theorem child_build (c : Color) (d : Dir) (x y : ColorTree α) (a : α) :
    (build c d x a y).child d = x := by
  cases d <;> rfl

@[simp] theorem child_other_build (c : Color) (d : Dir) (x y : ColorTree α) (a : α) :
    (build c d x a y).child d.other = y := by
  cases d <;> rfl

def root : ColorTree α → Option α
  | leaf => none
  | node _ _ a _ => some a

@[simp] theorem root_build (c : Color) (d : Dir) (x y : ColorTree α) (a : α) :
    (build c d x a y).root = some a := by
  cases d <;> rfl

/-- Both children are black; a leaf has none. -/
def BlackChildren (t : ColorTree α) : Prop :=
  (t.child .left).color = .black ∧ (t.child .right).color = .black

instance (t : ColorTree α) : Decidable t.BlackChildren := by
  unfold BlackChildren
  infer_instance

@[simp] theorem black_children_build {c : Color} {d : Dir} {x y : ColorTree α} {a : α} :
    (build c d x a y).BlackChildren ↔ x.color = .black ∧ y.color = .black := by
  cases d with
  | left => exact Iff.rfl
  | right => exact And.comm

/-- The child in the direction `d` is painted, if there is one. -/
def paintChild (d : Dir) (c : Color) (t : ColorTree α) : Option (ColorTree α) :=
  match d, t with
  | .left, node c' (node _ x b y) a r => some (node c' (node c x b y) a r)
  | .right, node c' l a (node _ x b y) => some (node c' l a (node c x b y))
  | _, _ => none

theorem paint_child_build {c e : Color} {d : Dir} {x y : ColorTree α} {a : α} (hx : x ≠ leaf) :
    (build e d x a y).paintChild d c = some (build e d (x.paint c) a y) := by
  cases x with
  | leaf => exact absurd rfl hx
  | node c' l b r => cases d <;> rfl

theorem paint_child_cases {c : Color} {d : Dir} {t t' : ColorTree α}
    (h : t.paintChild d c = some t') :
    ∃ e x a y, t = build e d x a y ∧ x ≠ leaf ∧ t' = build e d (x.paint c) a y := by
  have ht : t ≠ leaf := by
    rintro rfl
    cases d <;> cases h
  obtain ⟨e, x, a, y, rfl⟩ := eq_build d ht
  have hx : x ≠ leaf := by
    rintro rfl
    cases d <;> cases h
  rw [paint_child_build hx] at h
  exact ⟨e, x, a, y, rfl, hx, (Option.some.inj h).symm⟩

end ColorTree

/-- What the loop does once the brother is not black with a black father and black children:
exchange two colours, or rotate once or twice. -/
def removalFinish (f : Frame α) (k : Context α) (t : ColorTree α) : Option (ColorTree α) := do
  let _ ← f.sibling.root
  if f.color = .red ∧ f.sibling.color = .black ∧ f.sibling.BlackChildren then
    some (plug k (build .black f.dir t f.elem (f.sibling.paint .red)))
  else do
    let brother ← (if (f.sibling.child f.dir.other).color = .black then
      rotate f.dir f.sibling else some f.sibling)
    let brother ← brother.paintChild f.dir.other .black
    let top ← rotate f.dir.other (build f.color f.dir t f.elem brother)
    some (plug k top)

/-- `t` hangs below the first frame and lacks a black node. -/
def removalRebalance : Context α → ColorTree α → Option (ColorTree α)
  | [], t => some t
  | f :: k, t =>
    if t.color = .red then
      some (plug (f :: k) t)
    else do
      let b ← f.sibling.root
      if f.color = .black ∧ f.sibling.BlackChildren then
        if f.sibling.color = .red then
          -- the brother takes the father's place, the father hangs red below it
          removalFinish ⟨f.dir, f.sibling.color, f.elem, f.sibling.child f.dir⟩
            (⟨f.dir, f.color, b, f.sibling.child f.dir.other⟩ :: k) t
        else
          removalRebalance k (build f.color f.dir t f.elem (f.sibling.paint .red))
      else
        removalFinish f k t

theorem ne_leaf_of_balanced {t : ColorTree α} {n : Nat} (balanced : Balanced t (n + 1)) :
    t ≠ leaf := by
  rintro rfl
  exact absurd (balanced_leaf.mp balanced) (by omega)

theorem root_of_balanced {t : ColorTree α} {n : Nat} (balanced : Balanced t (n + 1)) :
    ∃ a, t.root = some a := by
  obtain ⟨c, x, a, y, rfl⟩ := eq_build .left (ne_leaf_of_balanced balanced)
  exact ⟨a, root_build ..⟩

theorem balanced_paint_red {t : ColorTree α} {n : Nat} (balanced : Balanced t (n + 1))
    (black : t.color = .black) (children : t.BlackChildren) : Balanced (t.paint .red) n := by
  obtain ⟨c, x, a, y, rfl⟩ := eq_build .left (ne_leaf_of_balanced balanced)
  obtain rfl : c = .black := by simpa using black
  obtain ⟨bx, b_y⟩ := balanced_black.mp balanced
  obtain ⟨hx, hy⟩ := black_children_build.mp children
  rw [paint_build]
  exact balanced_red.mpr ⟨hx, hy, bx, b_y⟩

/-- A red nephew is rotated to the far side and pays for the missing node. -/
theorem far_nephew {w : Dir} {bro : ColorTree α} {n : Nat} (bbro : Balanced bro (n + 1))
    (black : bro.color = .black) (nephew : ¬ bro.BlackChildren) :
    ∃ near b far, (if (bro.child w.other).color = .black then rotate w bro else some bro) =
        some (build .black w near b far) ∧ far.color = .red ∧ Balanced near n ∧ Balanced far n ∧
      (build .black w near b far).inorder = bro.inorder := by
  obtain ⟨c, near, b, far, rfl⟩ := eq_build w (ne_leaf_of_balanced bbro)
  obtain rfl : c = .black := by simpa using black
  obtain ⟨bnear, bfar⟩ := balanced_black.mp bbro
  rw [child_other_build]
  by_cases hfar : far.color = .black
  · have hnear : near.color = .red := by
      by_contra h
      exact nephew (black_children_build.mpr ⟨color_ne_red.mp h, hfar⟩)
    obtain ⟨c, x, m, y, rfl⟩ := eq_build w (ne_leaf_of_red hnear)
    obtain rfl : c = .red := by simpa using hnear
    obtain ⟨-, hy, bx, b_y⟩ := balanced_red.mp bnear
    refine ⟨x, m, build .red w y b far, ?_, color_build .., bx,
      balanced_red.mpr ⟨hy, hfar, b_y, bfar⟩, ?_⟩
    · rw [if_pos hfar, rotate_build]
    · cases w <;> simp [build, inorder]
  · exact ⟨near, b, far, if_neg hfar, color_ne_black.mp hfar, bnear, bfar, rfl⟩

theorem Fits.sibling {f : Frame α} {k : Context α} {n : Nat} (fits : Fits (f :: k) n) :
    Balanced f.sibling n := by
  obtain ⟨d, c, a, s⟩ := f
  cases c with
  | red => exact fits.1
  | black => exact fits.1

theorem removal_finish_spec {f : Frame α} {k : Context α} {t : ColorTree α} {n : Nat}
    (fits : Fits (f :: k) (n + 1)) (bt : Balanced t n)
    (brother : f.sibling.color = .black)
    (red : f.color = .red ∨ ¬ f.sibling.BlackChildren) :
    ∃ u, removalFinish f k t = some u ∧ IsRedBlack u ∧ u.inorder = (plug (f :: k) t).inorder := by
  have bbro : Balanced f.sibling (n + 1) := fits.sibling
  obtain ⟨b₀, hroot⟩ := root_of_balanced bbro
  obtain ⟨w, pc, p, bro⟩ := f
  simp only at brother red bbro hroot
  simp only [removalFinish, hroot, Option.bind_eq_bind, Option.bind_some]
  by_cases hkids : bro.BlackChildren
  · obtain rfl : pc = .red := red.resolve_right (not_not_intro hkids)
    obtain ⟨-, -, -, fits⟩ := fits
    refine ⟨_, if_pos ⟨rfl, brother, hkids⟩, fits.red_black (n := n + 1) ?_ (color_build ..),
      inorder_plug_congr ?_⟩
    · exact balanced_black.mpr ⟨bt, balanced_paint_red bbro brother hkids⟩
    · cases w <;> simp [build, inorder]
  · obtain ⟨near, b, far, hrot, hfar, bnear, bfar, order⟩ :=
      far_nephew (w := w) bbro brother hkids
    -- the new top has the father's colour, and both of its children are black
    have btop : ∃ m, Accepts k (build pc w (build .black w t p near) b (far.paint .black)) m := by
      have bx : Balanced (build .black w t p near) (n + 1) := balanced_black.mpr ⟨bt, bnear⟩
      have b_y : Balanced (far.paint .black) (n + 1) := balanced_paint_black hfar bfar
      cases pc with
      | red =>
        obtain ⟨-, -, hk, fits⟩ := fits
        refine ⟨n + 1, fits, balanced_red.mpr ⟨color_build .., color_paint_black _, bx, b_y⟩, ?_⟩
        exact fun red => absurd (hk.symm.trans red) (by decide)
      | black =>
        exact ⟨n + 2, fits.2, balanced_black.mpr ⟨bx, b_y⟩, fun _ => color_build ..⟩
    have htop : rotate w.other (build pc w t p (build .black w near b (far.paint .black))) =
        some (build pc w (build .black w t p near) b (far.paint .black)) := by
      have := rotate_build w.other pc .black (far.paint .black) near t p b
      simpa only [build_other] using this
    refine ⟨_, ?_, red_black_plug.mpr btop, ?_⟩
    · have hpaint : (build .black w near b far).paintChild w.other .black =
          some (build .black w near b (far.paint .black)) := by
        have := paint_child_build (c := .black) (e := .black) (d := w.other) (y := near) (a := b)
          (ne_leaf_of_red hfar)
        simpa only [build_other] using this
      rw [if_neg (fun h => hkids h.2.2)]
      simp only [hrot, hpaint, htop, Option.bind_some]
    · rw [plug_cons]
      refine inorder_plug_congr ?_
      have order' : (build pc w t p bro).inorder =
          (build pc w t p (build .black w near b far)).inorder := by
        cases w <;> simp [build, inorder, ← order]
      rw [order']
      cases w <;> simp [build, inorder]

/-- The loop ends in a red-black tree with the same elements. After a recolouring the father is the
root of a black subtree that lacks a node, one frame further up. -/
theorem removal_rebalance_spec {k : Context α} {t : ColorTree α} {n : Nat} (below : k ≠ [])
    (fits : Fits k (n + 1)) (bt : Balanced t n) (ht : t.color = .black) :
    ∃ u, removalRebalance k t = some u ∧ IsRedBlack u ∧ u.inorder = (plug k t).inorder := by
  induction k generalizing t n with
  | nil => exact absurd rfl below
  | cons f k ih =>
    have bbro : Balanced f.sibling (n + 1) := fits.sibling
    obtain ⟨w, pc, p, bro⟩ := f
    simp only at bbro
    obtain ⟨bc, near, b, far, rfl⟩ := eq_build w (ne_leaf_of_balanced bbro)
    rw [removalRebalance, if_neg (by rw [ht]; decide)]
    simp only [root_build, color_build, black_children_build, child_build, child_other_build,
      paint_build, Option.bind_eq_bind, Option.bind_some]
    by_cases hcase : pc = .black ∧ near.color = .black ∧ far.color = .black
    · obtain ⟨rfl, hnear, hfar⟩ := hcase
      rw [if_pos ⟨rfl, hnear, hfar⟩]
      cases bc with
      | red =>
        obtain ⟨-, -, bnear, bfar⟩ := balanced_red.mp bbro
        obtain ⟨u, hu, redBlack, order⟩ := removal_finish_spec
          (f := ⟨w, .red, p, near⟩) (k := ⟨w, .black, b, far⟩ :: k)
          ⟨bnear, hnear, rfl, bfar, fits.2⟩ bt hnear (.inl rfl)
        refine ⟨u, hu, redBlack, order.trans ?_⟩
        simp only [plug_cons]
        refine inorder_plug_congr ?_
        cases w <;> simp [build, inorder]
      | black =>
        obtain ⟨bnear, bfar⟩ := balanced_black.mp bbro
        have bup : Balanced (build .black w t p (build .red w near b far)) (n + 1) :=
          balanced_black.mpr ⟨bt, balanced_red.mpr ⟨hnear, hfar, bnear, bfar⟩⟩
        have order : (build .black w t p (build .red w near b far)).inorder =
            (build .black w t p (build .black w near b far)).inorder := by
          cases w <;> simp [build, inorder]
        rw [if_neg (by decide)]
        cases k with
        | nil => exact ⟨_, rfl, ⟨color_build .., n + 1, bup⟩, order⟩
        | cons g k =>
          obtain ⟨u, hu, redBlack, order'⟩ := ih (List.cons_ne_nil g k) fits.2 bup
            (color_build ..)
          exact ⟨u, hu, redBlack, order'.trans (inorder_plug_congr order)⟩
    · rw [if_neg hcase]
      -- a red father has a black child, and a red brother has two
      have brother : bc = .black := by
        cases bc with
        | black => rfl
        | red =>
          obtain ⟨hnear, hfar, -, -⟩ := balanced_red.mp bbro
          cases pc with
          | red => exact absurd fits.2.1 (by simp)
          | black => exact absurd ⟨rfl, hnear, hfar⟩ hcase
      refine removal_finish_spec fits bt (by simpa using brother) ?_
      simp only [black_children_build]
      cases pc with
      | red => exact .inl rfl
      | black => exact .inr (fun h => hcase ⟨rfl, h⟩)

/-! The removal of the element at the root of a subtree. -/

/-- The last subtree on the way in the direction `d`, with its context. -/
def extreme (d : Dir) : ColorTree α → Context α × ColorTree α
  | leaf => ([], leaf)
  | node c l a r =>
    match d with
    | .left =>
      match extreme .left l with
      | (_, leaf) => ([], node c l a r)
      | (k, t) => (k ++ [⟨.left, c, a, r⟩], t)
    | .right =>
      match extreme .right r with
      | (_, leaf) => ([], node c l a r)
      | (k, t) => (k ++ [⟨.right, c, a, l⟩], t)

/-- The place of a subtree below its father; the root is to the left. -/
def position : Context α → Dir
  | [] => .left
  | f :: _ => f.dir

/-- An element with two children gives its place to the nearest one on the side away from its
father, which leaves at most a son behind. -/
def removeRoot (k : Context α) : ColorTree α → Option (ColorTree α)
  | leaf => none
  | node c leaf _ leaf =>
    if c = .black ∧ k.length ≠ 0 then removalRebalance k leaf else some (plug k leaf)
  | node c l _ leaf => some (plug k (l.paint c))
  | node c leaf _ r => some (plug k (r.paint c))
  | node c l a r => do
    let which := (position k).other
    let (inner, standin) := extreme which.other ((node c l a r).child which)
    let s ← standin.root
    let son := standin.child which
    let k' := inner ++ ⟨which, c, s, (node c l a r).child which.other⟩ :: k
    if standin.color = .black ∧ son.color = .black then
      removalRebalance k' son
    else
      some (plug k' (son.paint .black))

theorem extreme_spec (d : Dir) {t : ColorTree α} (ht : t ≠ leaf) :
    ∃ k c a far, extreme d t = (k, build c d leaf a far) ∧
      t = plug k (build c d leaf a far) ∧ ∀ f ∈ k, f.dir = d := by
  induction t with
  | leaf => exact absurd rfl ht
  | node c l a r ihl ihr =>
    cases d with
    | left =>
      by_cases hl : l = leaf
      · subst hl
        exact ⟨[], c, a, r, rfl, rfl, by simp⟩
      · obtain ⟨k, c', b, far, hext, hplug, dirs⟩ := ihl hl
        refine ⟨k ++ [⟨.left, c, a, r⟩], c', b, far, ?_, ?_, ?_⟩
        · rw [extreme, hext]
          rfl
        · rw [plug_append, ← hplug]
          rfl
        · simpa [or_imp, forall_and] using dirs
    | right =>
      by_cases hr : r = leaf
      · subst hr
        exact ⟨[], c, a, l, rfl, rfl, by simp⟩
      · obtain ⟨k, c', b, far, hext, hplug, dirs⟩ := ihr hr
        refine ⟨k ++ [⟨.right, c, a, l⟩], c', b, far, ?_, ?_, ?_⟩
        · rw [extreme, hext]
          rfl
        · rw [plug_append, ← hplug]
          rfl
        · simpa [or_imp, forall_and] using dirs

theorem before_append (k k' : Context α) : before (k ++ k') = before k' ++ before k := by
  induction k with
  | nil => simp [before]
  | cons f k ih => cases hd : f.dir <;> simp [before, hd, ih]

theorem after_append (k k' : Context α) : after (k ++ k') = after k ++ after k' := by
  induction k with
  | nil => rfl
  | cons f k ih => cases hd : f.dir <;> simp [after, hd, ih]

theorem before_of_left {k : Context α} (h : ∀ f ∈ k, f.dir = .left) : before k = [] := by
  induction k with
  | nil => rfl
  | cons f k ih =>
    rw [before, h f List.mem_cons_self]
    exact ih (fun g hg => h g (List.mem_cons_of_mem f hg))

theorem after_of_right {k : Context α} (h : ∀ f ∈ k, f.dir = .right) : after k = [] := by
  induction k with
  | nil => rfl
  | cons f k ih =>
    rw [after, h f List.mem_cons_self]
    exact ih (fun g hg => h g (List.mem_cons_of_mem f hg))

/-- The conditions on the colours do not look at the elements. -/
theorem parent_color_elem (k k' : Context α) (d : Dir) (c : Color) (a b : α) (s : ColorTree α) :
    parentColor (k ++ ⟨d, c, a, s⟩ :: k') = parentColor (k ++ ⟨d, c, b, s⟩ :: k') := by
  cases k <;> rfl

theorem fits_elem {k k' : Context α} {d : Dir} {c : Color} {a b : α} {s : ColorTree α} {n : Nat}
    (fits : Fits (k ++ ⟨d, c, a, s⟩ :: k') n) : Fits (k ++ ⟨d, c, b, s⟩ :: k') n := by
  induction k generalizing n with
  | nil => cases c <;> exact fits
  | cons f k ih =>
    obtain ⟨e, fc, x, t⟩ := f
    cases fc with
    | red =>
      obtain ⟨bt, ht, hk, fits⟩ := fits
      exact ⟨bt, ht, (parent_color_elem k k' d c b a s).trans hk, ih fits⟩
    | black => exact ⟨fits.1, ih fits.2⟩

theorem eq_leaf_of_balanced_zero {t : ColorTree α} (h : Balanced t 0) (ht : t.color = .black) :
    t = leaf := by
  by_contra hne
  obtain ⟨c, x, a, y, rfl⟩ := eq_build .left hne
  obtain rfl : c = .black := by simpa using ht
  obtain ⟨m, hm, -⟩ := balanced_black_cases h
  exact absurd hm (by omega)

/-- An only child is red, and its father black. -/
theorem only_child {d : Dir} {c : Color} {x : ColorTree α} {a : α} {n : Nat} (hx : x ≠ leaf)
    (balanced : Balanced (build c d x a leaf) n) :
    c = .black ∧ n = 1 ∧ x.color = .red ∧ Balanced x 0 := by
  cases c with
  | red =>
    obtain ⟨cx, -, bx, hn⟩ := balanced_red.mp balanced
    obtain rfl := balanced_leaf.mp hn
    exact absurd (eq_leaf_of_balanced_zero bx cx) hx
  | black =>
    obtain ⟨m, rfl, bx, hm⟩ := balanced_black_cases balanced
    obtain rfl := balanced_leaf.mp hm
    refine ⟨rfl, rfl, color_ne_black.mp (fun h => hx (eq_leaf_of_balanced_zero bx h)), bx⟩

/-- The standin leaves its place to its son, and takes that of the element `a`. -/
theorem swap_spec {inner k : Context α} {w : Dir} {c sc : Color} {a s : α} {son y : ColorTree α}
    (h : IsRedBlack (plug (inner ++ ⟨w, c, a, y⟩ :: k) (build sc w.other leaf s son))) :
    ∃ u, (if sc = .black ∧ son.color = .black then
        removalRebalance (inner ++ ⟨w, c, s, y⟩ :: k) son
        else some (plug (inner ++ ⟨w, c, s, y⟩ :: k) (son.paint .black))) = some u ∧
      IsRedBlack u ∧ u.inorder = (plug (inner ++ ⟨w, c, s, y⟩ :: k) son).inorder := by
  obtain ⟨n, fits, balanced, -⟩ := red_black_plug.mp h
  have fits' := fits_elem (b := s) fits
  cases sc with
  | red =>
    obtain ⟨-, hson, hn, bson⟩ := balanced_red.mp balanced
    obtain rfl := balanced_leaf.mp hn
    refine ⟨_, if_neg (by simp), fits'.red_black (n := 0) ?_ (color_paint_black _),
      inorder_plug_congr (inorder_paint _ _)⟩
    rw [paint_of_color hson]
    exact bson
  | black =>
    obtain ⟨m, rfl, hm, bson⟩ := balanced_black_cases balanced
    obtain rfl := balanced_leaf.mp hm
    by_cases hson : son.color = .black
    · rw [if_pos ⟨rfl, hson⟩]
      exact removal_rebalance_spec (by simp) fits' bson hson
    · refine ⟨_, if_neg (fun h => hson h.2), fits'.red_black (n := 1) ?_ (color_paint_black _),
        inorder_plug_congr (inorder_paint _ _)⟩
      exact balanced_paint_black (color_ne_black.mp hson) bson

theorem swap_inorder {inner k : Context α} {w : Dir} {c sc : Color} {a s : α} {son y : ColorTree α}
    {x l r : ColorTree α} {d : Color} (dirs : ∀ f ∈ inner, f.dir = w.other)
    (hx : x = plug inner (build sc w.other leaf s son)) (ht : node d l a r = build c w x a y) :
    (plug (inner ++ ⟨w, c, s, y⟩ :: k) son).inorder =
      before k ++ (l.inorder ++ (r.inorder ++ after k)) := by
  rw [inorder_plug, before_append, after_append]
  cases w with
  | left =>
    obtain ⟨rfl, rfl, -, rfl⟩ := node.inj ht
    rw [hx, inorder_plug, after_of_right dirs]
    simp [before, after, build, inorder]
  | right =>
    obtain ⟨rfl, rfl, -, rfl⟩ := node.inj ht
    rw [hx, inorder_plug, before_of_left dirs]
    simp [before, after, build, inorder]

theorem remove_only_child {k : Context α} {d : Dir} {c : Color} {x : ColorTree α} {a : α}
    (hx : x ≠ leaf) (h : IsRedBlack (plug k (build c d x a leaf))) :
    IsRedBlack (plug k (x.paint c)) := by
  obtain ⟨n, fits, balanced, -⟩ := red_black_plug.mp h
  obtain ⟨rfl, rfl, cx, bx⟩ := only_child hx balanced
  exact fits.red_black (balanced_paint_black cx bx) (color_paint_black _)

/-- A node with two children, seen with the child `x` in the direction `w`. -/
theorem two_children {c : Color} {l r : ColorTree α} {a : α} (w : Dir) (hl : l ≠ leaf)
    (hr : r ≠ leaf) : ∃ x y, x ≠ leaf ∧ y ≠ leaf ∧ node c l a r = build c w x a y := by
  cases w with
  | left => exact ⟨l, r, hl, hr, rfl⟩
  | right => exact ⟨r, l, hr, hl, rfl⟩

theorem remove_root_two {k inner : Context α} {w : Dir} {c d sc : Color} {l r x y son : ColorTree α}
    {a s : α} (hx : x ≠ leaf) (hy : y ≠ leaf) (hw : (position k).other = w)
    (ht : node d l a r = build c w x a y)
    (hext : extreme w.other x = (inner, build sc w.other leaf s son)) :
    removeRoot k (node d l a r) = if sc = .black ∧ son.color = .black then
      removalRebalance (inner ++ ⟨w, c, s, y⟩ :: k) son
      else some (plug (inner ++ ⟨w, c, s, y⟩ :: k) (son.paint .black)) := by
  have hl : l ≠ leaf := by
    rintro rfl
    cases w with
    | left => exact hx (node.inj ht).2.1.symm
    | right => exact hy (node.inj ht).2.1.symm
  have hr : r ≠ leaf := by
    rintro rfl
    cases w with
    | left => exact hy (node.inj ht).2.2.2.symm
    | right => exact hx (node.inj ht).2.2.2.symm
  have hson : (build sc w.other leaf s son).child w = son := by
    have := child_other_build sc w.other leaf son s
    rwa [other_other] at this
  match l, r, hl, hr with
  | node lc ll lb lr, node rc rl rb rr, _, _ =>
    simp only [removeRoot, hw, ht, child_build, child_other_build, hext, root_build, color_build,
      hson, Option.bind_eq_bind, Option.bind_some]
    have hd : d = c := (congrArg ColorTree.color ht).trans (color_build ..)
    rw [hd]

/-- The removal ends in a red-black tree that lacks one element. -/
theorem remove_root_spec {k : Context α} {c : Color} {l r : ColorTree α} {a : α}
    (h : IsRedBlack (plug k (node c l a r))) :
    ∃ u, removeRoot k (node c l a r) = some u ∧ IsRedBlack u ∧
      u.inorder = before k ++ (l.inorder ++ (r.inorder ++ after k)) := by
  match l, r, h with
  | leaf, leaf, h =>
    obtain ⟨n, fits, balanced, color⟩ := red_black_plug.mp h
    rw [removeRoot]
    cases c with
    | red =>
      obtain ⟨-, -, hn, -⟩ := balanced_red (d := .left).mp balanced
      refine ⟨_, if_neg (by simp), red_black_plug.mpr ⟨n, fits, hn, fun _ => rfl⟩, ?_⟩
      simp [inorder_plug, inorder]
    | black =>
      obtain ⟨m, rfl, hm, -⟩ := balanced_black_cases (d := .left) balanced
      obtain rfl := balanced_leaf.mp hm
      by_cases hk : k = []
      · subst hk
        exact ⟨_, if_neg (by simp), red_black_leaf, rfl⟩
      · rw [if_pos ⟨rfl, fun h => hk (List.length_eq_zero_iff.mp h)⟩]
        obtain ⟨u, hu, redBlack, order⟩ := removal_rebalance_spec hk fits hm rfl
        exact ⟨u, hu, redBlack, order.trans (by simp [inorder_plug, inorder])⟩
  | node lc ll lb lr, leaf, h =>
    refine ⟨_, rfl, remove_only_child (d := .left) (by simp) h, ?_⟩
    simp [inorder_plug, inorder]
  | leaf, node rc rl rb rr, h =>
    refine ⟨_, rfl, remove_only_child (d := .right) (by simp) h, ?_⟩
    simp [inorder_plug, inorder]
  | node lc ll lb lr, node rc rl rb rr, h =>
    obtain ⟨w, hw⟩ : ∃ w, (position k).other = w := ⟨_, rfl⟩
    obtain ⟨x, y, hx, hy, ht⟩ :=
      two_children (c := c) (a := a) w (build_ne_leaf lc .left ll lr lb)
        (build_ne_leaf rc .left rl rr rb)
    obtain ⟨inner, sc, s, son, hext, hplug, dirs⟩ := extreme_spec w.other hx
    have h' : IsRedBlack (plug (inner ++ ⟨w, c, a, y⟩ :: k) (build sc w.other leaf s son)) := by
      rw [plug_append, ← hplug, plug_cons, ← ht]
      exact h
    obtain ⟨u, hu, redBlack, order⟩ := swap_spec (s := s) h'
    exact ⟨u, (remove_root_two hx hy hw ht hext).trans hu, redBlack,
      order.trans (swap_inorder dirs hplug ht)⟩

end Nebase.Foundation.RedBlack
