/- What the rotation and the recolouring of the tree in memory do to the tree they stand for. -/

import Nebase.Compat.Rbtree.Represents

set_option autoImplicit false
set_option relaxedAutoImplicit false

namespace Nebase.Compat.Rbtree

open Nebase.Foundation.RedBlack

/-- Only nodes of `xs` are written, and `rbt_minmax` is not. -/
structure Writes (t t' : RbTree) (xs : List NodeAddr) : Prop where
  minmax : t'.rbtMinmax = t.rbtMinmax
  outside : ∀ a, a ∉ xs → t'.nodes a = t.nodes a

theorem Writes.refl (t : RbTree) (xs : List NodeAddr) : Writes t t xs := ⟨rfl, fun _ _ => rfl⟩

theorem Writes.trans {t t' t'' : RbTree} {xs ys : List NodeAddr} (first : Writes t t' xs)
    (second : Writes t' t'' ys) (same : ys = xs) : Writes t t'' xs :=
  ⟨second.minmax.trans first.minmax, fun a ha =>
    (second.outside a (fun h => ha (same ▸ h))).trans (first.outside a ha)⟩

theorem Writes.cast {t t' : RbTree} {xs ys : List NodeAddr} (writes : Writes t t' xs)
    (same : xs = ys) : Writes t t' ys := same ▸ writes

section Rotation

variable {t : RbTree} {k : Context NodeAddr} {c c' : Color} {d : Dir} {x y z : ColorTree NodeAddr}
  {a b : NodeAddr}

theorem rb_tree_reparent_nodes_eval
    (context : RepContext t k (.node a)) (ha : ¬ InContext a k) (hb : ¬ InContext b k)
    (hab : a ≠ b) (cellA : t.nodes a = some (rbNode d (.node b) (ptr z) (fatherPtr k)
      (position k) c))
    (cellB : t.nodes b = some (rbNode d (ptr x) (ptr y) (.node a) d c'))
    (repY : RepTree t.nodes (.node b) d.other y) (nodupY : y.inorder.Nodup)
    (hy : ∀ e ∈ y.inorder, e ≠ a ∧ e ≠ b ∧ ¬ InContext e k) :
    ∃ t', rbTreeReparentNodes t (.node a) d = some t' ∧
      t'.rbtRoot = (t.fill k (.node b)).rbtRoot ∧ t'.rbtMinmax = t.rbtMinmax ∧
      t'.nodes a = some (rbNode d (ptr y) (ptr z) (.node b) d.other c') ∧
      t'.nodes b = some (rbNode d (ptr x) (.node a) (fatherPtr k) (position k) c) ∧
      RepTree t'.nodes (.node a) d y ∧
      ∀ e, e ≠ a → e ≠ b → e ∉ y.inorder → t'.nodes e = (t.fill k (.node b)).nodes e := by
  have slot := set_rb_nodes_context (q := .node b) context
  have fillA := (fill_nodes (t := t) (p := .node b) ha).trans cellA
  have fillB := (fill_nodes (t := t) (p := .node b) hb).trans cellB
  cases y with
  | leaf =>
    cases d <;>
      simp [rbTreeReparentNodes, RbTree.rbFather, RbTree.rbPosition, RbTree.rbSetFather,
        RbTree.rbSwapProperties, RbTree.rbSetPosition, cellA, slot, fillA, fillB, store_nodes, hab,
        hab.symm, rbNode, RbNode.rbNodes, RbNode.setRbNodes, RepTree]
    all_goals
      intro f hfa hfb _
      simp [hfa, hfb]
  | node yc yl e yr =>
    obtain ⟨hea, heb, he⟩ := hy e (by simp [ColorTree.inorder])
    have fillE := (fill_nodes (t := t) (p := .node b) he).trans repY.1
    have repE : ∀ m : Memory, m e = some ⟨ptr yl, ptr yr, .node a, d, yc⟩ →
        (∀ f, f ≠ a → f ≠ b → f ≠ e → m f = (t.fill k (.node b)).nodes f) →
        RepTree m (.node a) d (.node yc yl e yr) := by
      intro m cell same
      refine repY.reparent nodupY cell (fun f hf hfe => ?_)
      obtain ⟨hfa, hfb, hfk⟩ := hy f hf
      exact (same f hfa hfb hfe).trans (fill_nodes hfk)
    have hmem : e ∈ (ColorTree.node yc yl e yr).inorder := by simp [ColorTree.inorder]
    cases d <;>
      simp [rbTreeReparentNodes, RbTree.rbFather, RbTree.rbPosition, RbTree.rbSetFather,
        RbTree.rbSwapProperties, RbTree.rbSetPosition, cellA, slot, fillA, fillB, fillE,
        store_nodes, hab, hab.symm, hea, heb, hea.symm, heb.symm, rbNode, RbNode.rbNodes,
        RbNode.setRbNodes]
    all_goals
      refine ⟨repE _ (by simp) (fun f hfa hfb hfe => by simp [store_nodes, hfa, hfb, hfe]), ?_⟩
      intro f hfa hfb hf
      have hfe : f ≠ e := fun h => hf (h ▸ hmem)
      simp [hfa, hfb, hfe]

/-- The rotation in memory is the rotation of the tree it stands for. -/
theorem rb_tree_reparent_nodes_spec {s s' : ColorTree NodeAddr} (rep : Represents t k s)
    (hrot : rotate d s = some s') :
    ∃ t', rbTreeReparentNodes t (ptr s) d = some t' ∧ Represents t' k s' ∧
      Writes t t' (plug k s).inorder := by
  obtain ⟨c, c', x, b, y, a, z, rfl, rfl⟩ := rotate_cases hrot
  have order : (ColorTree.build c d x b (.build c' d y a z)).inorder =
      (ColorTree.build c d (.build c' d x b y) a z).inorder := rotate_inorder hrot
  obtain ⟨context, tree, nodup⟩ := rep
  obtain ⟨nodupK, nodupS, apart⟩ := nodup_plug.mp nodup
  obtain ⟨cellA, sub, repZ⟩ := rep_tree_build.mp tree
  obtain ⟨cellB, repX, repY⟩ := rep_tree_build.mp sub
  rw [ptr_build] at context cellA
  have mem : ∀ e, e ∈ (ColorTree.build c d (.build c' d x b y) a z).inorder ↔
      e = a ∨ e = b ∨ e ∈ x.inorder ∨ e ∈ y.inorder ∨ e ∈ z.inorder := by
    intro e
    cases d <;> simp [ColorTree.build, ColorTree.inorder] <;> tauto
  have distinct : a ≠ b ∧ y.inorder.Nodup ∧ (∀ e ∈ x.inorder, e ≠ a ∧ e ≠ b ∧ e ∉ y.inorder) ∧
      (∀ e ∈ y.inorder, e ≠ a ∧ e ≠ b) ∧ ∀ e ∈ z.inorder, e ≠ a ∧ e ≠ b ∧ e ∉ y.inorder := by
    cases d <;>
      simp only [ColorTree.build, ColorTree.inorder, List.nodup_append, List.nodup_cons,
        List.mem_append, List.mem_cons] at nodupS <;>
      grind
  obtain ⟨hab, nodupY, hx, hy, hz⟩ := distinct
  have apartY : ∀ e ∈ y.inorder, ¬ InContext e k := fun e he =>
    apart e ((mem e).mpr (.inr (.inr (.inr (.inl he)))))
  have apartA : ¬ InContext a k := apart a ((mem a).mpr (.inl rfl))
  have apartB : ¬ InContext b k := apart b ((mem b).mpr (.inr (.inl rfl)))
  obtain ⟨t', eval, root, minmax, cellA', cellB', repY', others⟩ :=
    rb_tree_reparent_nodes_eval context apartA apartB hab (by simpa using cellA) cellB repY nodupY
      (fun e he => ⟨(hy e he).1, (hy e he).2, apartY e he⟩)
  have kept : ∀ e, ¬ InContext e k → e ≠ a → e ≠ b → e ∉ y.inorder → t'.nodes e = t.nodes e :=
    fun e hk ha hb hy => (others e ha hb hy).trans (fill_nodes hk)
  refine ⟨t', by rwa [ptr_build], ⟨?_, ?_, ?_⟩, minmax, ?_⟩
  · rw [ptr_build]
    refine RepContext.congr root (fun e he => others e ?_ ?_ ?_) (context.fill nodupK)
    · rintro rfl
      exact apartA he
    · rintro rfl
      exact apartB he
    · exact fun h => apartY e h he
  · refine rep_tree_build.mpr ⟨by rwa [ptr_build], repX.congr (fun e he => ?_), ?_⟩
    · exact kept e (apart e ((mem e).mpr (.inr (.inr (.inl he))))) (hx e he).1 (hx e he).2.1
        (hx e he).2.2
    · refine rep_tree_build.mpr ⟨cellA', repY', repZ.congr (fun e he => ?_)⟩
      exact kept e (apart e ((mem e).mpr (.inr (.inr (.inr (.inr he)))))) (hz e he).1 (hz e he).2.1
        (hz e he).2.2
  · rw [inorder_plug, order, ← inorder_plug]
    exact nodup
  · intro e he
    rw [mem_inorder_plug, not_or] at he
    refine kept e he.2 ?_ ?_ ?_
    · rintro rfl
      exact he.1 ((mem e).mpr (.inl rfl))
    · rintro rfl
      exact he.1 ((mem e).mpr (.inr (.inl rfl)))
    · exact fun h => he.1 ((mem e).mpr (.inr (.inr (.inr (.inl h)))))

end Rotation

/-- A node changes its colour. -/
theorem rb_mark_spec {t : RbTree} {k : Context NodeAddr} {c c' : Color} {l r : ColorTree NodeAddr}
    {a : NodeAddr} (rep : Represents t k (.node c l a r)) :
    ∃ t', t.rbMark (.node a) c' = some t' ∧ Represents t' k (.node c' l a r) ∧
      Writes t t' (plug k (.node c l a r)).inorder := by
  obtain ⟨context, tree, nodup⟩ := rep
  obtain ⟨-, nodupS, apart⟩ := nodup_plug.mp nodup
  have ha : a ∈ (ColorTree.node c l a r).inorder := by simp [ColorTree.inorder]
  refine ⟨t.store a ⟨ptr l, ptr r, fatherPtr k, position k, c'⟩, ?_, ⟨?_, ?_, ?_⟩, rfl, ?_⟩
  · simp [RbTree.rbMark, tree.1]
  · refine RepContext.congr (store_root t a _) (fun e he => store_nodes_of_ne t _ ?_) context
    rintro rfl
    exact apart e ha he
  · exact tree.reparent nodupS (store_nodes_self ..) (fun e _ he => store_nodes_of_ne t _ he)
  · rw [inorder_plug] at nodup ⊢
    exact nodup
  · intro e he
    refine store_nodes_of_ne t _ ?_
    rintro rfl
    exact he (mem_inorder_plug.mpr (.inl ha))

/-- The colour that `RB_RED_P` and `RB_BLACK_P` see. -/
theorem rb_color_ptr {m : RbTree} {father : Ptr} {d : Dir} {s : ColorTree NodeAddr}
    (rep : RepTree m.nodes father d s) : m.rbColor (ptr s) = some s.color := by
  cases s with
  | leaf => rfl
  | node c l a r => simp [RbTree.rbColor, rep.1, ColorTree.color]

end Nebase.Compat.Rbtree
