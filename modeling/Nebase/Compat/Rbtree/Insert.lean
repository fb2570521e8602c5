/- The repair after an insertion, in memory. -/

import Nebase.Compat.Rbtree.Steps

set_option autoImplicit false
set_option relaxedAutoImplicit false

namespace Nebase.Compat.Rbtree

open Nebase.Foundation.RedBlack

theorem mem_of_ptr {s : ColorTree NodeAddr} {a : NodeAddr} (h : ptr s = .node a) :
    a ∈ s.inorder := by
  cases s with
  | leaf => cases h
  | node c l b r =>
    obtain rfl : b = a := Ptr.node.inj h
    simp [ColorTree.inorder]

/-- Below the root the address at the root of a subtree is not the one in `rbt_root`. -/
theorem root_in_context {k : Context NodeAddr} (s : ColorTree NodeAddr) (hk : k ≠ []) :
    ∃ a, InContext a k ∧ ptr (plug k s) = .node a := by
  induction k generalizing s with
  | nil => exact absurd rfl hk
  | cons f k ih =>
    rw [plug_cons]
    by_cases hk' : k = []
    · subst hk'
      exact ⟨f.elem, in_context_cons.mpr (.inl rfl), by simp⟩
    · obtain ⟨a, ha, hptr⟩ := ih (.build f.color f.dir s f.elem f.sibling) hk'
      exact ⟨a, in_context_cons.mpr (.inr (.inr ha)), hptr⟩

section Places

variable {t : RbTree} {k : Context NodeAddr} {s : ColorTree NodeAddr}

theorem Represents.root (rep : Represents t k s) : t.rbtRoot = ptr (plug k s) :=
  (represents_plug.mp rep).context

theorem Represents.root_eq (rep : Represents t k s) {a : NodeAddr} (hs : ptr s = .node a) :
    t.rbtRoot = ptr s ↔ k = [] := by
  constructor
  · intro h
    by_contra hk
    obtain ⟨b, hb, hptr⟩ := root_in_context s hk
    rw [rep.root, hptr, hs] at h
    obtain rfl := Ptr.node.inj h
    exact (nodup_plug.mp rep.nodup).2.2 b (mem_of_ptr hs) hb
  · rintro rfl
    exact rep.root

theorem Represents.color (rep : Represents t k s) : t.rbColor (ptr s) = some s.color :=
  rb_color_ptr rep.tree

/-- What can be read at the father. -/
theorem Represents.father_cell {f : Frame NodeAddr} (rep : Represents t (f :: k) s) :
    t.nodes f.elem =
      some (rbNode f.dir (ptr s) (ptr f.sibling) (fatherPtr k) (position k) f.color) :=
  rep.context.1

theorem Represents.sibling_color {f : Frame NodeAddr} (rep : Represents t (f :: k) s) :
    t.rbColor (ptr f.sibling) = some f.sibling.color :=
  rb_color_ptr rep.context.2.1

/-- No two of a node, its sibling and their father are the same. -/
theorem Represents.ptr_sibling_ne {f : Frame NodeAddr} (rep : Represents t (f :: k) s)
    {a : NodeAddr} (hs : ptr s = .node a) : ptr f.sibling ≠ .node a := by
  intro h
  have nodup := rep.nodup
  refine (nodup_plug.mp nodup).2.2 a (mem_of_ptr hs) ?_
  exact in_context_cons.mpr (.inr (.inl (mem_of_ptr h)))

theorem rb_mark_build {c : Color} (c' : Color) {d : Dir} {x y : ColorTree NodeAddr} {a : NodeAddr}
    (rep : Represents t k (.build c d x a y)) :
    ∃ t', t.rbMark (.node a) c' = some t' ∧ Represents t' k (.build c' d x a y) ∧
      Writes t t' (plug k (.build c d x a y)).inorder := by
  cases d with
  | left => exact rb_mark_spec rep
  | right => exact rb_mark_spec rep

/-- A subtree that is not a leaf is repainted. -/
theorem rb_mark_paint (c' : Color) (rep : Represents t k s) (hs : s ≠ .leaf) :
    ∃ t', t.rbMark (ptr s) c' = some t' ∧ Represents t' k (s.paint c') ∧
      Writes t t' (plug k s).inorder := by
  obtain ⟨c, x, a, y, rfl⟩ := ColorTree.eq_build .left hs
  rw [ptr_build, ColorTree.paint_build]
  exact rb_mark_build c' rep

end Places

/-- The rotations under a black uncle, and the last stroke at the root. -/
theorem insert_rotations_spec {t : RbTree} {k : Context NodeAddr} {d w : Dir} {fc gc : Color}
    {f g : NodeAddr} {s uncle self father top : ColorTree NodeAddr}
    (rep : Represents t (⟨d, fc, f, s⟩ :: ⟨w, gc, g, uncle⟩ :: k) self) (hself : self ≠ .leaf)
    (hfather : (if d = w then some (.build fc d self f s)
      else rotate w.other (.build fc d self f s)) = some father)
    (htop : rotate w (.build gc w father g uncle) = some top) :
    ∃ t', insertRotations t (ptr self) (.node f) (.node g) w = some t' ∧
      Represents t' [] ((plug k top).paint .black) ∧
      Writes t t' (plug (⟨d, fc, f, s⟩ :: ⟨w, gc, g, uncle⟩ :: k) self).inorder := by
  obtain ⟨a, hptr⟩ : ∃ a, ptr self = .node a := by
    cases self with
    | leaf => exact absurd rfl hself
    | node c l a r => exact ⟨a, rfl⟩
  have repF := represents_cons.mp rep
  have inner : ∃ t1, (if ptr self = (if d = w then ptr s else ptr self) then
        rbTreeReparentNodes t (.node f) w.other else some t) = some t1 ∧
      Represents t1 (⟨w, gc, g, uncle⟩ :: k) father ∧
      Writes t t1 (plug (⟨w, gc, g, uncle⟩ :: k) (.build fc d self f s)).inorder := by
    by_cases hd : d = w
    · rw [if_pos hd] at hfather
      obtain rfl := Option.some.inj hfather
      have hne : ptr self ≠ ptr s := fun h =>
        rep.ptr_sibling_ne hptr (h.symm.trans hptr)
      exact ⟨t, by rw [if_pos hd, if_neg hne], repF, Writes.refl _ _⟩
    · rw [if_neg hd] at hfather
      obtain ⟨t1, eval, rep1, writes⟩ := rb_tree_reparent_nodes_spec repF hfather
      rw [ptr_build] at eval
      exact ⟨t1, by rw [if_neg hd, if_pos rfl, eval], rep1, writes⟩
  obtain ⟨t1, eval1, rep1, writes1⟩ := inner
  have rep1' := represents_cons.mp rep1
  obtain ⟨t2, eval2, rep2, writes2⟩ := rb_tree_reparent_nodes_spec rep1' htop
  rw [ptr_build] at eval2
  have htop' : top ≠ .leaf := by
    obtain ⟨_, _, _, _, _, _, _, -, rfl⟩ := rotate_cases htop
    exact ColorTree.build_ne_leaf _ _ _ _ _
  have repRoot := represents_plug.mp rep2
  obtain ⟨t3, eval3, rep3, writes3⟩ :=
    rb_mark_paint .black repRoot (plug_ne_leaf (.inr htop'))
  have order : father.inorder = (ColorTree.build fc d self f s).inorder := by
    split_ifs at hfather with hd
    · rw [Option.some.inj hfather]
    · exact rotate_inorder hfather
  have order1 : (plug (⟨w, gc, g, uncle⟩ :: k) father).inorder =
      (plug (⟨w, gc, g, uncle⟩ :: k) (.build fc d self f s)).inorder := inorder_plug_congr order
  have order2 : (plug k top).inorder = (plug (⟨w, gc, g, uncle⟩ :: k) father).inorder :=
    inorder_plug_congr (rotate_inorder htop)
  refine ⟨t3, ?_, rep3, (writes1.trans writes2 ?_).trans writes3 ?_⟩
  · have son : t.rbNodes (.node f) w.other = some (if d = w then ptr s else ptr self) := by
      rw [rb_nodes_node, rep.father_cell, Option.map_some]
      by_cases hd : d = w
      · subst hd
        simp
      · obtain rfl := ne_iff_eq_other.mp hd
        simp
    have root : t2.rbtRoot = ptr (plug k top) := repRoot.root
    simp only at eval2
    simp only [insertRotations, son, eval1, eval2, root, eval3, Option.bind_eq_bind,
      Option.bind_some]
  · rw [← plug_cons, order1]
  · rw [plug_nil, order2, order1]

/-- The loop in memory computes that on the tree. -/
theorem insert_rebalance_loop_spec {t : RbTree} {k : Context NodeAddr} {self u : ColorTree NodeAddr}
    {fuel : Nat} (rep : Represents t k self) (hself : self ≠ .leaf)
    (hu : insertRebalance k self = some u) (enough : k.length ≤ fuel) :
    ∃ t', insertRebalanceLoop fuel t (ptr self) (fatherPtr k) = some t' ∧
      Represents t' [] u ∧ Writes t t' (plug k self).inorder := by
  induction fuel generalizing t k self with
  | zero =>
    obtain rfl := List.length_eq_zero_iff.mp (Nat.le_zero.mp enough)
    cases hu
  | succ fuel ih =>
    match k, rep, hu, enough with
    | ⟨d, fc, f, s⟩ :: ⟨w, gc, g, uncle⟩ :: k, rep, hu, enough =>
      have repF := represents_cons.mp rep
      have repU := represents_sibling.mp repF
      have cellF := rep.father_cell
      have cellG := repF.father_cell
      have hne : ptr uncle ≠ .node f := repF.ptr_sibling_ne (ptr_build ..)
      have grandpa : t.rbFather (.node f) = some (.node g) := by
        simp [RbTree.rbFather, cellF, fatherPtr]
      have which : ∃ right, t.rbNodes (.node g) .right = some right ∧
          (if Ptr.node f = right then Dir.right else .left) = w := by
        cases w with
        | left => simpa [cellG, rbNode, RbNode.rbNodes] using hne.symm
        | right => simp [cellG, rbNode, RbNode.rbNodes]
      have far : t.rbNodes (.node g) w.other = some (ptr uncle) := by
        simp [cellG]
      obtain ⟨right, hright, hw⟩ := which
      have color := repF.sibling_color
      change ∃ t', insertRebalanceLoop (fuel + 1) t (ptr self) (.node f) = some t' ∧ _
      simp only [insertRebalanceLoop, grandpa, hright, hw, far, color, Option.bind_eq_bind,
        Option.bind_some]
      rw [insertRebalance] at hu
      by_cases hc : uncle.color = .red
      · rw [if_pos hc] at hu
        rw [if_neg (by rw [hc]; decide)]
        obtain ⟨t1, eval1, rep1, writes1⟩ :=
          rb_mark_paint .black repU (ColorTree.ne_leaf_of_red hc)
        obtain ⟨t2, eval2, rep2, writes2⟩ :=
          rb_mark_build .black (represents_sibling.mpr rep1)
        have repG := represents_cons.mp rep2
        have writesG :
            Writes t t2 (plug (⟨d, fc, f, s⟩ :: ⟨w, gc, g, uncle⟩ :: k) self).inorder := by
          refine (writes1.cast ?_).trans writes2 ?_
          · simp only [plug_cons, ColorTree.build_other]
          · simp only [plug_cons]
            refine inorder_plug_congr ?_
            cases w <;> simp [ColorTree.build, ColorTree.inorder]
        have root := repG.root_eq (a := g) (by simp)
        rw [ptr_build] at root
        simp only [eval1, eval2, Option.bind_some, root]
        cases k with
        | nil =>
          obtain rfl := Option.some.inj hu
          exact ⟨t2, rfl, repG, writesG⟩
        | cons h k =>
          rw [if_neg (List.cons_ne_nil h k)]
          obtain ⟨t3, eval3, rep3, writes3⟩ := rb_mark_build .red repG
          simp only [ColorTree.paint_build] at eval3 hu
          have father3 : t3.rbFather (.node g) = some (.node h.elem) := by
            have cell := (rep_tree_build.mp rep3.tree).1
            simp [RbTree.rbFather, cell, fatherPtr]
          have color3 : t3.rbColor (.node h.elem) = some h.color := by
            simp [RbTree.rbColor, rep3.father_cell]
          have writes : Writes t t3
              (plug (⟨d, fc, f, s⟩ :: ⟨w, gc, g, uncle⟩ :: h :: k) self).inorder := by
            refine writesG.trans writes3 ?_
            simp only [plug_cons]
            refine inorder_plug_congr ?_
            cases h.dir <;> cases w <;> cases d <;> simp [ColorTree.build, ColorTree.inorder]
          simp only [eval3, father3, color3, Option.bind_some]
          by_cases hh : h.color = .black
          · rw [if_pos hh] at hu ⊢
            obtain rfl := Option.some.inj hu
            exact ⟨t3, rfl, represents_plug.mp rep3, writes⟩
          · rw [if_neg hh] at hu ⊢
            obtain ⟨t', eval, rep', writes'⟩ := ih rep3 (ColorTree.build_ne_leaf _ _ _ _ _) hu
              (by simp only [List.length_cons] at enough ⊢; omega)
            rw [ptr_build] at eval
            refine ⟨t', eval, rep', writes.trans writes' ?_⟩
            simp only [plug_cons]
            refine inorder_plug_congr ?_
            cases h.dir <;> cases w <;> cases d <;> simp [ColorTree.build, ColorTree.inorder]
      · rw [if_neg hc] at hu
        rw [if_pos (color_ne_red.mp hc)]
        simp only [Option.bind_eq_bind, Option.bind_eq_some_iff, Option.some.injEq] at hu
        obtain ⟨father, hfather, top, htop, rfl⟩ := hu
        exact insert_rotations_spec rep hself hfather htop

end Nebase.Compat.Rbtree
