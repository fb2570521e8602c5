/- A node leaves the tree in memory: a childless one, one with an only child, and one with two
   children, whose place another node takes. -/

import Nebase.Compat.Rbtree.Leaf

set_option autoImplicit false
set_option relaxedAutoImplicit false

namespace Nebase.Compat.Rbtree

open Nebase.Foundation.RedBlack

/-- A node outside the tree may be written. -/
theorem Represents.store {t : RbTree} {k : Context NodeAddr} {s : ColorTree NodeAddr}
    (rep : Represents t k s) {a : NodeAddr} (apart : a ∉ (plug k s).inorder) (n : RbNode) :
    Represents (t.store a n) k s := by
  rw [mem_inorder_plug, not_or] at apart
  refine ⟨RepContext.congr (store_root t a n) (fun e he => store_nodes_of_ne t n ?_) rep.context,
    rep.tree.congr (fun e he => store_nodes_of_ne t n ?_), rep.nodup⟩
  · rintro rfl
    exact apart.2 he
  · rintro rfl
    exact apart.1 he

theorem Represents.withMinmax {t : RbTree} {k : Context NodeAddr} {s : ColorTree NodeAddr}
    (rep : Represents t k s) (m : Dir → Ptr) : Represents (t.withMinmax m) k s :=
  ⟨RepContext.congr (show (t.withMinmax m).rbtRoot = t.rbtRoot from rfl) (fun _ _ => rfl)
    rep.context, rep.tree, rep.nodup⟩

/-- A childless node is cut off. -/
theorem cut_leaf {t : RbTree} {k : Context NodeAddr} {c : Color} {a : NodeAddr}
    (rep : Represents t k (.node c .leaf a .leaf)) :
    t.setRbNodes (fatherPtr k) (position k) .null = some (t.fill k .null) ∧
      Represents (t.fill k .null) k .leaf ∧ ¬ InContext a k := by
  have apart : ¬ InContext a k :=
    (nodup_plug.mp rep.nodup).2.2 a (by simp [ColorTree.inorder])
  refine ⟨set_rb_nodes_context rep.context, ⟨rep.context.fill rep.nodup_context, trivial, ?_⟩,
    apart⟩
  rw [inorder_plug]
  exact rep.nodup_context

/-- `rbt_minmax` after the removal of a childless node. -/
theorem minmax_prune {minmax : Dir → Ptr} {f : Frame NodeAddr} {k : Context NodeAddr}
    {a : NodeAddr} (nodup : (before (f :: k) ++ a :: after (f :: k)).Nodup)
    (ends : MinmaxOf minmax (before (f :: k) ++ a :: after (f :: k))) :
    MinmaxOf (if minmax f.dir = .node a then Function.update minmax f.dir (.node f.elem)
      else minmax) (before (f :: k) ++ after (f :: k)) := by
  rcases around_father f k with ⟨hd, zs, haround⟩ | ⟨hd, ys, haround⟩
  · rw [haround] at ends nodup ⊢
    rw [hd]
    exact minmax_remove_left nodup ends
  · rw [haround, List.append_assoc] at ends nodup ⊢
    rw [hd]
    exact minmax_remove_right nodup ends

theorem rb_tree_prune_node_spec {t : RbTree} {k : Context NodeAddr} {c : Color} {a : NodeAddr}
    {u : ColorTree NodeAddr} {fuel : Nat} (rep : Represents t k (.node c .leaf a .leaf))
    (ends : MinmaxOf t.rbtMinmax (before k ++ a :: after k))
    (hu : removeRoot k (.node c .leaf a .leaf) = some u) (enough : k.length ≤ fuel) :
    ∃ t', rbTreePruneNode fuel t (.node a) (c = .black ∧ t.rbtRoot ≠ .node a) = some t' ∧
      Represents t' [] u ∧ MinmaxOf t'.rbtMinmax (before k ++ after k) ∧
      ∀ e, ¬ InContext e k → t'.nodes e =
        if e = a then some ⟨.null, .null, .null, position k, c⟩ else t.nodes e := by
  obtain ⟨cut, rep1, apart⟩ := cut_leaf rep
  have root := rep.root_eq (ptr_node c .leaf .leaf a)
  rw [ptr_node] at root
  have cell := rep.tree.1
  have which : t.rbPosition (.node a) = some (position k) := by simp [RbTree.rbPosition, cell]
  have father : t.rbFather (.node a) = some (fatherPtr k) := by simp [RbTree.rbFather, cell]
  have left : t.rbNodes (.node a) .left = some .null := by simp [cell, RbNode.rbNodes]
  -- `rbt_minmax`, and the father of the node that has left
  have last : ∀ m : Dir → Ptr, ∃ t2, ((t.fill k .null).withMinmax m).rbSetFather (.node a) .null =
      some t2 ∧ Represents t2 k .leaf ∧ t2.rbtMinmax = m ∧
      ∀ e, ¬ InContext e k → t2.nodes e =
        if e = a then some ⟨.null, .null, .null, position k, c⟩ else t.nodes e := by
    intro m
    have cell2 : ((t.fill k .null).withMinmax m).nodes a =
        some ⟨.null, .null, fatherPtr k, position k, c⟩ := (fill_nodes apart).trans cell
    refine ⟨((t.fill k .null).withMinmax m).store a ⟨.null, .null, .null, position k, c⟩,
      by simp [RbTree.rbSetFather, cell2], ?_, rfl, ?_⟩
    · refine (rep1.withMinmax m).store ?_ _
      rw [mem_inorder_plug]
      simpa [ColorTree.inorder] using apart
    · intro e he
      rw [store_nodes]
      split_ifs
      · rfl
      · exact fill_nodes he
  rw [removeRoot] at hu
  cases k with
  | nil =>
    obtain rfl : ColorTree.leaf = u := by simpa using hu
    have hroot : t.rbtRoot = .node a := root.mpr rfl
    have choice : ∃ m, (if (t.fill [] .null).rbtMinmax .left = .node a then
        ((t.fill [] .null).setMinmax .left .slot).setMinmax .right .slot
        else t.fill [] .null) = (t.fill [] .null).withMinmax m := by
      split_ifs
      · exact ⟨_, rfl⟩
      · exact ⟨_, rfl⟩
    obtain ⟨m, hm⟩ := choice
    obtain ⟨t2, eval2, rep2, minmax2, same2⟩ := last m
    refine ⟨t2, ?_, rep2, fun h => absurd rfl h, same2⟩
    simp only [fatherPtr, position] at which father cut
    simp only [rbTreePruneNode, which, father, left, cut, hroot, decide_true, if_true, hm, eval2,
      ne_eq, not_true, and_false, decide_false, Bool.false_eq_true, if_false, Option.bind_eq_bind,
      Option.bind_some]
  | cons f k =>
    have hroot : ¬ t.rbtRoot = .node a := fun h => List.cons_ne_nil f k (root.mp h)
    obtain ⟨t2, eval2, rep2, minmax2, same2⟩ :=
      last (if t.rbtMinmax f.dir = .node a then
        Function.update t.rbtMinmax f.dir (.node f.elem) else t.rbtMinmax)
    have choice : (if t.rbtMinmax f.dir = .node a then
        (t.fill (f :: k) .null).setMinmax f.dir (.node f.elem) else t.fill (f :: k) .null) =
        (t.fill (f :: k) .null).withMinmax (if t.rbtMinmax f.dir = .node a then
          Function.update t.rbtMinmax f.dir (.node f.elem) else t.rbtMinmax) := by
      split_ifs
      · rfl
      · rfl
    have nodup : (before (f :: k) ++ a :: after (f :: k)).Nodup := by
      have := rep.nodup
      rw [inorder_plug] at this
      exact this
    have ends2 : MinmaxOf t2.rbtMinmax (before (f :: k) ++ after (f :: k)) := by
      rw [minmax2]
      exact minmax_prune nodup ends
    simp only [fatherPtr, position] at which father cut
    simp only [rbTreePruneNode, which, father, left, cut, hroot, fill_minmax, decide_false,
      Bool.false_eq_true, if_false, choice, eval2, ne_eq, not_false_eq_true, and_true,
      decide_eq_true_eq, Option.bind_eq_bind, Option.bind_some]
    by_cases hc : c = .black
    · rw [if_pos ⟨hc, by simp⟩] at hu
      rw [if_pos hc]
      obtain ⟨t', eval, rep', writes⟩ := rb_tree_removal_rebalance_spec rep2 hu
        enough
      refine ⟨t', eval, rep', by rwa [writes.minmax], fun e he => ?_⟩
      refine (writes.outside e ?_).trans (same2 e he)
      rw [mem_inorder_plug]
      simpa [ColorTree.inorder] using he
    · rw [if_neg (fun h => hc h.1)] at hu
      rw [if_neg hc]
      obtain rfl := Option.some.inj hu
      exact ⟨t2, rfl, represents_plug.mp rep2, ends2, same2⟩

/-- `rbt_minmax` after the only child `b` has taken the place of `a`. -/
theorem minmax_only_child {minmax : Dir → Ptr} {f : Frame NodeAddr} {k : Context NodeAddr}
    {w : Dir} {a b : NodeAddr} {c : Color}
    (nodup : (plug (f :: k) (.build c w (.node .red .leaf b .leaf) a .leaf)).inorder.Nodup)
    (ends : MinmaxOf minmax
      (plug (f :: k) (.build c w (.node .red .leaf b .leaf) a .leaf)).inorder) :
    MinmaxOf (if minmax f.dir = .node a then Function.update minmax f.dir (.node b) else minmax)
      (before (f :: k) ++ b :: after (f :: k)) := by
  rw [inorder_plug] at nodup ends
  obtain ⟨ys, hys⟩ : ∃ ys, ys = before (f :: k) := ⟨_, rfl⟩
  obtain ⟨zs, hzs⟩ : ∃ zs, zs = after (f :: k) := ⟨_, rfl⟩
  have around : (f.dir = .left ∧ zs ≠ []) ∨ (f.dir = .right ∧ ys ≠ []) := by
    rcases around_father f k with ⟨hd, _, h⟩ | ⟨hd, _, h⟩
    · exact .inl ⟨hd, by rw [hzs, h]; simp⟩
    · exact .inr ⟨hd, by rw [hys, h]; simp⟩
  rw [← hys, ← hzs] at nodup ends ⊢
  cases w with
  | left =>
    simp only [ColorTree.build, ColorTree.inorder, List.nil_append, List.cons_append] at nodup ends
    rcases around with ⟨hd, hz⟩ | ⟨hd, hy⟩
    · have split : ys ++ b :: a :: zs = (ys ++ [b]) ++ a :: zs := by simp
      rw [split] at nodup ends
      rw [hd, if_neg (minmax_left_ne nodup ends (by simp))]
      have := minmax_remove_inner ends (by simp) hz
      rwa [List.append_assoc] at this
    · rw [hd]
      exact minmax_remove_right nodup ends
  | right =>
    simp only [ColorTree.build, ColorTree.inorder, List.nil_append, List.cons_append] at nodup ends
    rcases around with ⟨hd, hz⟩ | ⟨hd, hy⟩
    · rw [hd]
      exact minmax_remove_left nodup ends
    · rw [hd, if_neg (minmax_right_ne nodup ends (by simp))]
      exact minmax_remove_inner ends hy (by simp)

theorem rb_tree_prune_blackred_branch_spec {t : RbTree} {k : Context NodeAddr} {c : Color}
    {w : Dir} {a b : NodeAddr}
    (rep : Represents t k (.build c w (.node .red .leaf b .leaf) a .leaf))
    (ends : MinmaxOf t.rbtMinmax
      (plug k (.build c w (.node .red .leaf b .leaf) a .leaf)).inorder) :
    ∃ t', rbTreePruneBlackredBranch t (.node a) w = some t' ∧
      Represents t' k (.node c .leaf b .leaf) ∧
      MinmaxOf t'.rbtMinmax (before k ++ b :: after k) ∧
      (∀ e, e ≠ a → e ≠ b → ¬ InContext e k → t'.nodes e = t.nodes e) ∧
      (t'.nodes a).isSome = true := by
  obtain ⟨cell, son, -⟩ := rep_tree_build.mp rep.tree
  have cellB := son.1
  obtain ⟨nodupK, nodupS, apart⟩ := nodup_plug.mp rep.nodup
  have hab : a ≠ b := by
    cases w <;> simp [ColorTree.build, ColorTree.inorder] at nodupS
    · exact fun h => nodupS h.symm
    · exact nodupS
  have ha : ¬ InContext a k := apart a (by cases w <;> simp [ColorTree.build, ColorTree.inorder])
  have hb : ¬ InContext b k := apart b (by cases w <;> simp [ColorTree.build, ColorTree.inorder])
  have root := rep.root_eq (ptr_build ..)
  rw [ptr_build] at root
  have father : t.rbFather (.node a) = some (fatherPtr k) := by simp [RbTree.rbFather, cell]
  have son' : t.rbNodes (.node a) w = some (.node b) := by simp [cell]
  obtain ⟨t1, ht1⟩ : ∃ t1, t1 = t.store b ⟨.null, .null, .node a, position k, c⟩ := ⟨_, rfl⟩
  have copy : t.rbCopyProperties (.node b) (.node a) = some t1 := by
    rw [ht1]
    simp [RbTree.rbCopyProperties, cell, cellB]
  have context1 : RepContext t1 k (.node a) := by
    rw [ht1]
    refine RepContext.congr (store_root t b _) (fun e he => store_nodes_of_ne t _ ?_)
      (by simpa using rep.context)
    rintro rfl
    exact hb he
  have position1 : t1.rbPosition (.node b) = some (position k) := by
    simp [RbTree.rbPosition, ht1]
  have slot := set_rb_nodes_context (q := .node b) context1
  have cellB2 : (t1.fill k (.node b)).nodes b = some ⟨.null, .null, .node a, position k, c⟩ := by
    rw [fill_nodes hb, ht1, store_nodes_self]
  obtain ⟨t3, ht3⟩ : ∃ t3, t3 =
      (t1.fill k (.node b)).store b ⟨.null, .null, fatherPtr k, position k, c⟩ := ⟨_, rfl⟩
  have father3 : (t1.fill k (.node b)).rbSetFather (.node b) (fatherPtr k) = some t3 := by
    rw [ht3]
    simp [RbTree.rbSetFather, cellB2]
  have minmax3 : t3.rbtMinmax = t.rbtMinmax := by
    rw [ht3, store_minmax, fill_minmax, ht1, store_minmax]
  have same3 : ∀ e, e ≠ b → ¬ InContext e k → t3.nodes e = t.nodes e := by
    intro e he hk
    rw [ht3, store_nodes_of_ne _ _ he, fill_nodes hk, ht1, store_nodes_of_ne _ _ he]
  have rep3 : Represents t3 k (.node c .leaf b .leaf) := by
    refine ⟨RepContext.congr (by rw [ht3]; rfl) (fun e he => ?_) (context1.fill nodupK),
      ⟨by rw [ht3]; exact store_nodes_self .., trivial, trivial⟩, nodup_insert nodupK hb⟩
    rw [ht3]
    refine store_nodes_of_ne _ _ ?_
    rintro rfl
    exact hb he
  have last : ∀ m : Dir → Ptr, ∃ t', (t3.withMinmax m).rbSetFather (.node a) .null = some t' ∧
      Represents t' k (.node c .leaf b .leaf) ∧ t'.rbtMinmax = m ∧
      (∀ e, e ≠ a → e ≠ b → ¬ InContext e k → t'.nodes e = t.nodes e) ∧
      (t'.nodes a).isSome = true := by
    intro m
    have cellA : (t3.withMinmax m).nodes a = some (rbNode w (.node b) .null (fatherPtr k)
        (position k) c) := (same3 a hab ha).trans (by simpa using cell)
    refine ⟨_, by simp [RbTree.rbSetFather, cellA]; rfl, (rep3.withMinmax m).store ?_ _, rfl,
      ?_, ?_⟩
    · rw [mem_inorder_plug]
      simpa [ColorTree.inorder, hab] using ha
    · intro e hea heb hk
      exact (store_nodes_of_ne _ _ hea).trans (same3 e heb hk)
    · simp
  cases k with
  | nil =>
    have hroot : t.rbtRoot = .node a := root.mpr rfl
    obtain ⟨t', eval, rep', minmax', same', alloc'⟩ :=
      last (Function.update t3.rbtMinmax w.other (.node b))
    refine ⟨t', ?_, rep', ?_, same', alloc'⟩
    · have choice : t3.setMinmax w.other (.node b) =
          t3.withMinmax (Function.update t3.rbtMinmax w.other (.node b)) := rfl
      simp only [rbTreePruneBlackredBranch, father, son', hroot, decide_true, if_true, copy,
        position1, slot, father3, choice, eval, Option.bind_eq_bind, Option.bind_some]
    · rintro - d
      rw [minmax', minmax3]
      have near := ends (by cases w <;> simp [ColorTree.build, ColorTree.inorder]) w
      cases w <;> cases d <;> simp_all [ColorTree.build, ColorTree.inorder, endOf, before, after]
  | cons f k =>
    have hroot : ¬ t.rbtRoot = .node a := fun h => List.cons_ne_nil f k (root.mp h)
    obtain ⟨t', eval, rep', minmax', same', alloc'⟩ :=
      last (if t3.rbtMinmax f.dir = .node a then
        Function.update t3.rbtMinmax f.dir (.node b) else t3.rbtMinmax)
    have choice : (if t3.rbtMinmax f.dir = .node a then t3.setMinmax f.dir (.node b) else t3) =
        t3.withMinmax (if t3.rbtMinmax f.dir = .node a then
          Function.update t3.rbtMinmax f.dir (.node b) else t3.rbtMinmax) := by
      split_ifs
      · rfl
      · rfl
    refine ⟨t', ?_, rep', ?_, same', alloc'⟩
    · simp only [position] at position1 slot
      simp only [rbTreePruneBlackredBranch, father, son', hroot, decide_false, Bool.false_eq_true,
        if_false, copy, position1, slot, father3, choice, eval, Option.bind_eq_bind,
        Option.bind_some]
    · rw [minmax', minmax3]
      exact minmax_only_child rep.nodup ends

/-- `standin` has the children of `self`; it gets its properties, its father and its place. -/
theorem take_place {t : RbTree} {k : Context NodeAddr} {c c' : Color} {w e : Dir}
    {x y : ColorTree NodeAddr} {a s : NodeAddr} {f : Ptr} {n : RbNode}
    (context : RepContext t k (.node a)) (cellA : t.nodes a = some n)
    (father : n.father = fatherPtr k) (pos : n.position = position k) (color : n.color = c)
    (cellS : t.nodes s = some (rbNode w (ptr x) (ptr y) f e c'))
    (repX : RepTree t.nodes (.node s) w x) (repY : RepTree t.nodes (.node s) w.other y)
    (nodup : (plug k (.build c w x s y)).inorder.Nodup)
    (apart : a ∉ (plug k (.build c w x s y)).inorder) :
    ∃ t1 t2 t3 t4, t.rbCopyProperties (.node s) (.node a) = some t1 ∧
      t1.rbFather (.node a) = some (fatherPtr k) ∧
      t1.rbSetFather (.node s) (fatherPtr k) = some t2 ∧
      t2.rbPosition (.node s) = some (position k) ∧
      t2.setRbNodes (fatherPtr k) (position k) (.node s) = some t3 ∧
      t3.rbtMinmax = t.rbtMinmax ∧
      t3.rbSetFather (.node a) .null = some t4 ∧ Represents t4 k (.build c w x s y) ∧
      t4.rbtMinmax = t.rbtMinmax ∧ (t4.nodes a).isSome = true ∧
      ∀ e, e ≠ a → e ∉ (plug k (.build c w x s y)).inorder → t4.nodes e = t.nodes e := by
  obtain ⟨nodupK, nodupS, apartK⟩ := nodup_plug.mp nodup
  have memS : s ∈ (ColorTree.build c w x s y).inorder := by
    cases w <;> simp [ColorTree.build, ColorTree.inorder]
  have hs : ¬ InContext s k := apartK s memS
  rw [mem_inorder_plug, not_or] at apart
  have has : a ≠ s := fun h => apart.1 (h ▸ memS)
  obtain ⟨t2, ht2⟩ : ∃ t2, t2 = (t.store s (rbNode w (ptr x) (ptr y) f (position k) c)).store s
      (rbNode w (ptr x) (ptr y) (fatherPtr k) (position k) c) := ⟨_, rfl⟩
  have same2 : ∀ e, e ≠ s → t2.nodes e = t.nodes e := by
    intro e he
    rw [ht2, store_nodes_of_ne _ _ he, store_nodes_of_ne _ _ he]
  have context2 : RepContext t2 k (.node a) := by
    refine RepContext.congr (by rw [ht2]; rfl) (fun e he => same2 e ?_) context
    rintro rfl
    exact hs he
  have cellS3 : (t2.fill k (.node s)).nodes s =
      some (rbNode w (ptr x) (ptr y) (fatherPtr k) (position k) c) := by
    rw [fill_nodes hs, ht2, store_nodes_self]
  have same3 : ∀ e, e ≠ s → ¬ InContext e k → (t2.fill k (.node s)).nodes e = t.nodes e :=
    fun e he hk => (fill_nodes hk).trans (same2 e he)
  have rep3 : Represents (t2.fill k (.node s)) k (.build c w x s y) := by
    have distinct : (∀ e ∈ x.inorder, e ≠ s) ∧ ∀ e ∈ y.inorder, e ≠ s := by
      cases w <;>
        simp only [ColorTree.build, ColorTree.inorder, List.nodup_append, List.nodup_cons,
          List.mem_cons] at nodupS <;>
        grind
    have mem : ∀ e, e ∈ x.inorder ∨ e ∈ y.inorder → ¬ InContext e k := by
      intro e he
      refine apartK e ?_
      cases w <;>
        simp only [ColorTree.build, ColorTree.inorder, List.mem_append, List.mem_cons] <;>
        tauto
    refine ⟨?_, rep_tree_build.mpr ⟨cellS3, repX.congr (fun e he => ?_),
      repY.congr (fun e he => ?_)⟩, nodup⟩
    · rw [ptr_build]
      exact context2.fill nodupK
    · exact same3 e (distinct.1 e he) (mem e (.inl he))
    · exact same3 e (distinct.2 e he) (mem e (.inr he))
  have cellA3 : (t2.fill k (.node s)).nodes a = some n := (same3 a has apart.2).trans cellA
  refine ⟨t.store s (rbNode w (ptr x) (ptr y) f (position k) c), t2, t2.fill k (.node s),
    (t2.fill k (.node s)).store a { n with father := .null }, ?_, ?_, ?_, ?_,
    set_rb_nodes_context context2, ?_, ?_, rep3.store ?_ _, ?_, ?_, ?_⟩
  · cases w <;> simp [RbTree.rbCopyProperties, cellA, cellS, rbNode, pos, color]
  · simp [RbTree.rbFather, store_nodes, has, cellA, father]
  · rw [ht2]
    cases w <;> simp [RbTree.rbSetFather, rbNode]
  · simp [RbTree.rbPosition, ht2]
  · rw [fill_minmax, ht2]
    rfl
  · simp [RbTree.rbSetFather, cellA3]
  · rw [mem_inorder_plug]
    exact not_or.mpr apart
  · rw [store_minmax, fill_minmax, ht2]
    rfl
  · simp
  · intro e hea he
    rw [mem_inorder_plug, not_or] at he
    rw [store_nodes_of_ne _ _ hea]
    refine same3 e ?_ he.2
    rintro rfl
    exact he.1 memS

end Nebase.Compat.Rbtree
