/- The repair after a removal, in memory. -/

import Nebase.Compat.Rbtree.Insert

set_option autoImplicit false
set_option relaxedAutoImplicit false

namespace Nebase.Compat.Rbtree

open Nebase.Foundation.RedBlack

theorem child_color {t : RbTree} {father : Ptr} {e : Dir} {s : ColorTree NodeAddr} (d : Dir)
    (rep : RepTree t.nodes father e s) (hs : s ≠ .leaf) :
    (t.rbNodes (ptr s) d >>= t.rbColor) = some (s.child d).color := by
  cases s with
  | leaf => exact absurd rfl hs
  | node c l a r =>
    obtain ⟨cell, repL, repR⟩ := rep
    cases d with
    | left => simp [cell, RbNode.rbNodes, ColorTree.child, rb_color_ptr repL]
    | right => simp [cell, RbNode.rbNodes, ColorTree.child, rb_color_ptr repR]

theorem ne_leaf_of_root {s : ColorTree NodeAddr} {b : NodeAddr} (h : s.root = some b) :
    s ≠ .leaf := by
  rintro rfl
  cases h

/-- Case 4: the far nephew is painted, and the brother takes the father's place. -/
theorem far_nephew_spec {t : RbTree} {k : Context NodeAddr} {w : Dir} {pc : Color}
    {p : NodeAddr} {s bro bro' top : ColorTree NodeAddr}
    (rep : Represents t k (.build pc w s p bro))
    (hpaint : bro.paintChild w.other .black = some bro')
    (htop : rotate w.other (.build pc w s p bro') = some top) :
    ∃ t', (do
        let far ← t.rbNodes (ptr bro) w.other
        let t ← t.rbMark far .black
        rbTreeReparentNodes t (.node p) w.other) = some t' ∧
      Represents t' k top ∧ Writes t t' (plug k (.build pc w s p bro)).inorder := by
  obtain ⟨bc, far, b, near, rfl, hfar, rfl⟩ := ColorTree.paint_child_cases hpaint
  -- down to the far nephew
  have repB : Represents t (⟨w.other, pc, p, s⟩ :: k) (.build bc w.other far b near) :=
    represents_sibling.mp (represents_cons.mpr rep)
  have repN : Represents t (⟨w.other, bc, b, near⟩ :: ⟨w.other, pc, p, s⟩ :: k) far :=
    represents_cons.mpr repB
  have son : t.rbNodes (ptr (.build bc w.other far b near)) w.other = some (ptr far) := by
    rw [ptr_build, rb_nodes_node, (rep_tree_build.mp repB.tree).1]
    simp
  obtain ⟨t1, eval1, rep1, writes1⟩ := rb_mark_paint .black repN hfar
  -- and up again
  have repP : Represents t1 k (.build pc w s p (.build bc w.other (far.paint .black) b near)) :=
    represents_cons.mp (represents_sibling.mpr (represents_cons.mp rep1))
  obtain ⟨t2, eval2, rep2, writes2⟩ := rb_tree_reparent_nodes_spec repP htop
  rw [ptr_build] at eval2
  refine ⟨t2, ?_, rep2, (writes1.cast ?_).trans writes2 ?_⟩
  · simp only [son, eval1, eval2, Option.bind_eq_bind, Option.bind_some]
  · simp only [plug_cons, ColorTree.build_other]
  · refine inorder_plug_congr ?_
    cases w <;> simp [ColorTree.build, ColorTree.inorder]

/-- What ends the loop, in memory and on the tree. -/
theorem removal_final_spec {t : RbTree} {f : Frame NodeAddr} {k : Context NodeAddr}
    {s u : ColorTree NodeAddr} (rep : Represents t (f :: k) s) (hu : removalFinish f k s = some u) :
    ∃ t', removalFinal t (.node f.elem) (ptr f.sibling) f.dir = some t' ∧
      Represents t' [] u ∧ Writes t t' (plug (f :: k) s).inorder := by
  obtain ⟨w, pc, p, bro⟩ := f
  simp only [removalFinish, Option.bind_eq_bind, Option.bind_eq_some_iff] at hu
  obtain ⟨b, hroot, hu⟩ := hu
  have hbro := ne_leaf_of_root hroot
  have repP := represents_cons.mp rep
  have repB := represents_sibling.mp rep
  have cellP := rep.father_cell
  have colorP : t.rbColor (.node p) = some pc := by
    simp [RbTree.rbColor, cellP]
  have colorB := repB.color
  have colorL := child_color .left repB.tree hbro
  have colorR := child_color .right repB.tree hbro
  have colorF := child_color w.other repB.tree hbro
  simp only at repP repB
  simp only [removalFinal, colorP, colorB, colorL, colorR, Option.bind_eq_bind, Option.bind_some]
  by_cases hcase : pc = .red ∧ bro.color = .black ∧ bro.BlackChildren
  · rw [if_pos hcase] at hu
    obtain rfl := Option.some.inj hu
    obtain ⟨hpc, hbc, hl, hr⟩ := hcase
    rw [if_pos ⟨hpc, hbc, hl, hr⟩]
    obtain ⟨t1, eval1, rep1, writes1⟩ := rb_mark_build .black repP
    obtain ⟨t2, eval2, rep2, writes2⟩ :=
      rb_mark_paint .red (represents_sibling.mp (represents_cons.mpr rep1)) hbro
    refine ⟨t2, ?_, ?_, writes1.trans writes2 ?_⟩
    · simp only [eval1, eval2, Option.bind_some]
    · exact represents_plug.mp (represents_cons.mp (represents_sibling.mpr rep2))
    · simp only [plug_cons, ColorTree.build_other]
      refine inorder_plug_congr ?_
      cases w <;> simp [ColorTree.build, ColorTree.inorder]
  · rw [if_neg hcase] at hu
    rw [if_neg (fun h => hcase ⟨h.1, h.2.1, h.2.2.1, h.2.2.2⟩)]
    simp only [Option.bind_eq_some_iff, Option.some.injEq] at hu
    obtain ⟨bro1, hbro1, bro2, hpaint, top, htop, rfl⟩ := hu
    have near : ∃ t1, (if (bro.child w.other).color = .black then do
          let t ← rbTreeReparentNodes t (ptr bro) w
          let brother ← t.rbNodes (.node p) w.other
          some (t, brother)
        else some (t, ptr bro)) = some (t1, ptr bro1) ∧
        Represents t1 k (.build pc w s p bro1) ∧
        Writes t t1 (plug k (.build pc w s p bro)).inorder := by
      split_ifs at hbro1 ⊢ with hfar
      · obtain ⟨t1, eval1, rep1, writes1⟩ := rb_tree_reparent_nodes_spec repB hbro1
        refine ⟨t1, ?_, represents_cons.mp (represents_sibling.mpr rep1), writes1.cast ?_⟩
        · have son : t1.rbNodes (.node p) w.other = some (ptr bro1) := by
            rw [rb_nodes_node, rep1.father_cell]
            simp
          simp only [eval1, son, Option.bind_eq_bind, Option.bind_some]
        · simp only [plug_cons, ColorTree.build_other]
      · obtain rfl := Option.some.inj hbro1
        exact ⟨t, rfl, repP, Writes.refl _ _⟩
    obtain ⟨t1, eval1, rep1, writes1⟩ := near
    obtain ⟨t2, eval2, rep2, writes2⟩ := far_nephew_spec rep1 hpaint htop
    simp only [Option.bind_eq_bind] at colorF eval1 eval2
    refine ⟨t2, ?_, represents_plug.mp rep2, writes1.trans writes2 ?_⟩
    · simp only [colorF, eval1, eval2, Option.bind_some]
    · refine inorder_plug_congr ?_
      have order : bro1.inorder = bro.inorder := by
        split_ifs at hbro1 with hfar
        · exact rotate_inorder hbro1
        · rw [Option.some.inj hbro1]
      cases w <;> simp [ColorTree.build, ColorTree.inorder, order]

/-- The loop in memory computes that on the tree. -/
theorem rb_tree_removal_rebalance_spec {t : RbTree} {f : Frame NodeAddr} {k : Context NodeAddr}
    {s u : ColorTree NodeAddr} {fuel : Nat} (rep : Represents t (f :: k) s)
    (hu : removalRebalance (f :: k) s = some u) (enough : k.length < fuel) :
    ∃ t', rbTreeRemovalRebalance fuel t (.node f.elem) f.dir = some t' ∧
      Represents t' [] u ∧ Writes t t' (plug (f :: k) s).inorder := by
  induction fuel generalizing t f k s with
  | zero => exact absurd enough (Nat.not_lt_zero _)
  | succ fuel ih =>
    obtain ⟨w, pc, p, bro⟩ := f
    rw [removalRebalance] at hu
    have cellP := rep.father_cell
    have near : (t.rbNodes (.node p) w >>= t.rbColor) = some s.color := by
      have : t.rbNodes (.node p) w = some (ptr s) := by
        rw [rb_nodes_node, cellP]
        simp
      rw [this]
      exact rep.color
    have far : t.rbNodes (.node p) w.other = some (ptr bro) := by
      rw [rb_nodes_node, cellP]
      simp
    have colorP : t.rbColor (.node p) = some pc := by
      simp [RbTree.rbColor, cellP]
    simp only [rbTreeRemovalRebalance, near, far, colorP, Option.bind_eq_bind, Option.bind_some]
    by_cases hs : s.color = .red
    · rw [if_pos hs] at hu ⊢
      obtain rfl := Option.some.inj hu
      exact ⟨t, rfl, represents_plug.mp rep, Writes.refl _ _⟩
    rw [if_neg hs] at hu ⊢
    simp only [Option.bind_eq_bind, Option.bind_eq_some_iff] at hu
    obtain ⟨b, hroot, hu⟩ := hu
    have hbro := ne_leaf_of_root hroot
    have repP := represents_cons.mp rep
    have repB := represents_sibling.mp rep
    simp only at repP repB
    have colorB := repB.color
    have colorL := child_color .left repB.tree hbro
    have colorR := child_color .right repB.tree hbro
    simp only [Option.bind_eq_bind] at colorL colorR
    simp only [colorL, colorR, colorB, Option.bind_some]
    by_cases hcase : pc = .black ∧ bro.BlackChildren
    · rw [if_pos hcase] at hu
      rw [if_pos ⟨hcase.1, hcase.2.1, hcase.2.2⟩]
      by_cases hbc : bro.color = .red
      · rw [if_pos hbc] at hu ⊢
        obtain ⟨bc, far', b', near', rfl⟩ := ColorTree.eq_build w.other hbro
        obtain rfl : b' = b := Option.some.inj ((ColorTree.root_build ..).symm.trans hroot)
        have hrot := rotate_build w.other pc bc far' near' s p b'
        obtain ⟨t1, eval1, rep1, writes1⟩ := rb_tree_reparent_nodes_spec
          (s := .build pc w.other (.build bc w.other far' b' near') p s)
          (by rwa [ColorTree.build_other pc]) hrot
        rw [ptr_build] at eval1
        have hnear : (ColorTree.build bc w.other far' b' near').child w = near' := by
          have := ColorTree.child_other_build bc w.other far' near' b'
          rwa [other_other] at this
        simp only [ColorTree.color_build, hnear, ColorTree.child_build] at hu
        have rep1' : Represents t1 (⟨w, bc, p, near'⟩ :: ⟨w, pc, b', far'⟩ :: k) s := by
          refine represents_cons.mpr (represents_cons.mpr ?_)
          simpa only [ColorTree.build_other] using rep1
        have brother : t1.rbNodes (.node p) w.other = some (ptr near') := by
          rw [rb_nodes_node, rep1'.father_cell]
          simp
        obtain ⟨t', eval, rep', writes'⟩ := removal_final_spec rep1' hu
        refine ⟨t', ?_, rep', (writes1.cast ?_).trans writes' ?_⟩
        · simp only [eval1, brother, eval, Option.bind_some]
        · simp only [plug_cons, ColorTree.build_other]
        · simp only [plug_cons]
          refine inorder_plug_congr ?_
          cases w <;> simp [ColorTree.build, ColorTree.inorder]
      · rw [if_neg hbc] at hu ⊢
        obtain ⟨t1, eval1, rep1, writes1⟩ := rb_mark_paint .red repB hbro
        have repG : Represents t1 k (.build pc w s p (bro.paint .red)) :=
          represents_cons.mp (represents_sibling.mpr rep1)
        have writesG : Writes t t1 (plug (⟨w, pc, p, bro⟩ :: k) s).inorder :=
          writes1.cast (by simp only [plug_cons, ColorTree.build_other])
        have root := repG.root_eq (a := p) (by simp)
        rw [ptr_build] at root
        simp only [eval1, Option.bind_some, root]
        cases k with
        | nil =>
          obtain rfl := Option.some.inj hu
          exact ⟨t1, rfl, repG, writesG⟩
        | cons g k =>
          rw [if_neg (List.cons_ne_nil g k)]
          have cell := (rep_tree_build.mp repG.tree).1
          have position1 : t1.rbPosition (.node p) = some g.dir := by
            simp [RbTree.rbPosition, cell, position]
          have father1 : t1.rbFather (.node p) = some (.node g.elem) := by
            simp [RbTree.rbFather, cell, fatherPtr]
          obtain ⟨t', eval, rep', writes'⟩ := ih repG hu
            (by simp only [List.length_cons] at enough; omega)
          refine ⟨t', ?_, rep', writesG.trans writes' ?_⟩
          · simp only [position1, father1, eval, Option.bind_some]
          · simp only [plug_cons]
            refine inorder_plug_congr ?_
            cases g.dir <;> cases w <;> simp [ColorTree.build, ColorTree.inorder]
    · rw [if_neg hcase] at hu
      rw [if_neg (fun h => hcase ⟨h.1, h.2.1, h.2.2⟩)]
      exact removal_final_spec rep hu

end Nebase.Compat.Rbtree
