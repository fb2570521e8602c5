/- `rb_tree_remove_node` in memory is the removal of the root of a subtree. -/

import Nebase.Compat.Rbtree.Swap
import Nebase.Foundation.RedBlack.Remove

set_option autoImplicit false
set_option relaxedAutoImplicit false

namespace Nebase.Compat.Rbtree

open Nebase.Foundation.RedBlack

/-- What a removal leaves of the memory: the tree without the node, and the node still there. -/
structure Removed (t t' : RbTree) (a : NodeAddr) (s u : ColorTree NodeAddr) : Prop where
  rep : Represents t' [] u
  minmax : MinmaxOf t'.rbtMinmax u.inorder
  alloc : (t'.nodes a).isSome = true
  outside : ∀ e, e ∉ s.inorder → t'.nodes e = t.nodes e

section Remove

variable {t : RbTree} {k : Context NodeAddr} {c : Color} {l r u : ColorTree NodeAddr} {a : NodeAddr}
  {fuel : Nat}

theorem remove_childless (rep : Represents t k (.node c .leaf a .leaf))
    (ends : MinmaxOf t.rbtMinmax (plug k (.node c .leaf a .leaf)).inorder)
    (redBlack : IsRedBlack (plug k (.node c .leaf a .leaf)))
    (hu : removeRoot k (.node c .leaf a .leaf) = some u) (enough : k.length ≤ fuel) :
    ∃ t', rbTreeRemoveNode fuel t a = some t' ∧
      Removed t t' a (plug k (.node c .leaf a .leaf)) u := by
  obtain ⟨left, right, -, -⟩ := rep.step
  have color : t.rbColor (.node a) = some c := by simp [RbTree.rbColor, rep.tree.1]
  have apart : ¬ InContext a k := (nodup_plug.mp rep.nodup).2.2 a (by simp [ColorTree.inorder])
  have split : (plug k (.node c .leaf a .leaf)).inorder = before k ++ a :: after k := by
    rw [inorder_plug]
    rfl
  obtain ⟨t', eval, rep', minmax', same⟩ :=
    rb_tree_prune_node_spec rep (split ▸ ends) hu enough
  obtain ⟨u', hu', -, order⟩ := remove_root_spec redBlack
  obtain rfl : u' = u := Option.some.inj (hu'.symm.trans hu)
  refine ⟨t', ?_, rep', ?_, ?_, ?_⟩
  · simp only [rbTreeRemoveNode, left, right, ptr_leaf, and_self, if_true, color, eval,
      Option.bind_eq_bind, Option.bind_some]
  · rw [order]
    exact minmax'
  · rw [same a apart, if_pos rfl]
    rfl
  · intro e he
    rw [split, List.mem_append, List.mem_cons, not_or, not_or] at he
    rw [same e (fun h => h.elim he.1 he.2.2), if_neg he.2.1]

/-- An only child, seen with its direction. -/
theorem only_child_shape {w : Dir} {x : ColorTree NodeAddr} {n : Nat} (hx : x ≠ .leaf)
    (balanced : Balanced (.build c w x a .leaf) n) : ∃ b, x = .node .red .leaf b .leaf := by
  obtain ⟨-, -, red, bx⟩ := only_child hx balanced
  obtain ⟨xc, l, b, r, rfl⟩ := ColorTree.eq_build .left hx
  obtain rfl : xc = .red := by simpa using red
  obtain ⟨cl, cr, bl, br⟩ := balanced_red.mp bx
  rw [eq_leaf_of_balanced_zero bl cl, eq_leaf_of_balanced_zero br cr]
  exact ⟨b, rfl⟩

theorem remove_one_child {w : Dir} {x : ColorTree NodeAddr}
    (rep : Represents t k (.build c w x a .leaf))
    (hx : x ≠ .leaf) (ends : MinmaxOf t.rbtMinmax (plug k (.build c w x a .leaf)).inorder)
    (redBlack : IsRedBlack (plug k (.build c w x a .leaf))) :
    ∃ t', rbTreeRemoveNode fuel t a = some t' ∧
      Removed t t' a (plug k (.build c w x a .leaf)) (plug k (x.paint c)) := by
  obtain ⟨n, -, balanced, -⟩ := red_black_plug.mp redBlack
  obtain ⟨b, rfl⟩ := only_child_shape hx balanced
  have cell := (rep_tree_build.mp rep.tree).1
  have near : t.rbNodes (.node a) w = some (.node b) := by simp [cell]
  have far : t.rbNodes (.node a) w.other = some .null := by simp [cell]
  obtain ⟨t', eval, rep', minmax', same, alloc⟩ := rb_tree_prune_blackred_branch_spec rep ends
  refine ⟨t', ?_, represents_plug.mp rep', ?_, alloc, ?_⟩
  · cases w with
    | left =>
      rw [left_other] at far
      simp [rbTreeRemoveNode, near, far, eval]
    | right =>
      rw [right_other] at far
      simp [rbTreeRemoveNode, near, far, eval]
  · rw [inorder_plug]
    exact minmax'
  · intro e he
    rw [mem_inorder_plug, not_or] at he
    refine same e ?_ ?_ he.2
    · rintro rfl
      exact he.1 (by cases w <;> simp [ColorTree.build, ColorTree.inorder])
    · rintro rfl
      exact he.1 (by cases w <;> simp [ColorTree.build, ColorTree.inorder])

/-- The son of a standin is red, if there is one. -/
theorem standin_son {sc : Color} {d : Dir} {s : NodeAddr} {son : ColorTree NodeAddr} {n : Nat}
    (balanced : Balanced (.build sc d .leaf s son) n) : son = .leaf ∨ son.color = .red := by
  by_cases hson : son = .leaf
  · exact .inl hson
  · have flipped : Balanced (.build sc d.other son s .leaf) n := by
      rwa [ColorTree.build_other]
    exact .inr (only_child hson flipped).2.2.1

/-- The standin is the end of its subtree. -/
theorem end_of_extreme {inner : Context NodeAddr} {d : Dir} {sc : Color} {s : NodeAddr}
    {son : ColorTree NodeAddr} (dirs : ∀ f ∈ inner, f.dir = d) :
    endOf d (plug inner (.build sc d .leaf s son)).inorder = some s := by
  rw [inorder_plug]
  cases d with
  | left =>
    rw [before_of_left dirs]
    rfl
  | right =>
    rw [after_of_right dirs, List.append_nil]
    simp only [ColorTree.build, ColorTree.inorder, ← List.append_assoc]
    exact end_right_concat _ _

/-- The ends of the tree are not a node with two children. -/
theorem minmax_two_ne {w d : Dir} {x y : ColorTree NodeAddr} (hx : x ≠ .leaf) (hy : y ≠ .leaf)
    (nodup : (plug k (.build c w x a y)).inorder.Nodup)
    (ends : MinmaxOf t.rbtMinmax (plug k (.build c w x a y)).inorder) :
    t.rbtMinmax d ≠ .node a := by
  obtain ⟨p, q, hp, hq, order⟩ : ∃ p q, p ≠ [] ∧ q ≠ [] ∧
      (plug k (.build c w x a y)).inorder = p ++ a :: q := by
    cases w with
    | left => exact ⟨before k ++ x.inorder, y.inorder ++ after k, by simp [hx], by simp [hy],
        by simp [inorder_plug, ColorTree.build, ColorTree.inorder]⟩
    | right => exact ⟨before k ++ y.inorder, x.inorder ++ after k, by simp [hy], by simp [hx],
        by simp [inorder_plug, ColorTree.build, ColorTree.inorder]⟩
  rw [order] at nodup ends
  cases d with
  | left => exact minmax_left_ne nodup ends hp
  | right => exact minmax_right_ne nodup ends hq

/-- Whether the standin is a child of the node or not, its son ends up where it was. -/
theorem swap_standin {inner : Context NodeAddr} {w : Dir} {sc : Color} {s : NodeAddr}
    {y son : ColorTree NodeAddr}
    (rep : Represents t (inner ++ ⟨w, c, a, y⟩ :: k) (.build sc w.other .leaf s son))
    (dirs : ∀ f ∈ inner, f.dir = w.other) (hy : y ≠ .leaf) (hson : son = .leaf ∨ son.color = .red)
    (apart : t.rbtMinmax (position k) ≠ .node a)
    (hu : (if sc = .black ∧ son.color = .black then
        removalRebalance (inner ++ ⟨w, c, s, y⟩ :: k) son
      else some (plug (inner ++ ⟨w, c, s, y⟩ :: k) (son.paint .black))) = some u)
    (enough : (inner ++ ⟨w, c, s, y⟩ :: k).length ≤ fuel) :
    ∃ t', rbTreeSwapPruneAndRebalance fuel t (.node a) (.node s) = some t' ∧
      Represents t' [] u ∧ t'.rbtMinmax = t.rbtMinmax ∧ (t'.nodes a).isSome = true ∧
      ∀ e, e ∉ (plug (inner ++ ⟨w, c, a, y⟩ :: k) (.build sc w.other .leaf s son)).inorder →
        t'.nodes e = t.nodes e := by
  rw [ColorTree.build_other] at rep ⊢
  -- a last rebalancing, if there is one, writes to the tree that has been left
  have last : ∀ {f : Frame NodeAddr} {rest : Context NodeAddr} {t1 : RbTree},
      f :: rest = inner ++ ⟨w, c, s, y⟩ :: k →
      rbTreeSwapPruneAndRebalance fuel t (.node a) (.node s) =
        (if sc = .black ∧ son.color = .black then
          rbTreeRemovalRebalance fuel t1 (.node f.elem) f.dir else some t1) →
      Represents t1 (f :: rest) (son.paint .black) → t1.rbtMinmax = t.rbtMinmax →
      (t1.nodes a).isSome = true →
      (∀ e, e ∉ (plug (inner ++ ⟨w, c, a, y⟩ :: k) (.build sc w son s .leaf)).inorder →
        t1.nodes e = t.nodes e) →
      ∃ t', rbTreeSwapPruneAndRebalance fuel t (.node a) (.node s) = some t' ∧
        Represents t' [] u ∧ t'.rbtMinmax = t.rbtMinmax ∧ (t'.nodes a).isSome = true ∧
        ∀ e, e ∉ (plug (inner ++ ⟨w, c, a, y⟩ :: k) (.build sc w son s .leaf)).inorder →
          t'.nodes e = t.nodes e := by
    intro f rest t1 hk eval rep1 minmax1 alloc1 same1
    rw [← hk] at hu enough
    have perm : (plug (inner ++ ⟨w, c, a, y⟩ :: k) (.build sc w son s .leaf)).inorder.Perm
        (a :: (plug (inner ++ ⟨w, c, s, y⟩ :: k) son).inorder) := swap_perm inner w
    have nodup := perm.nodup_iff.mp rep.nodup
    rw [← hk] at perm nodup
    by_cases hblack : sc = .black ∧ son.color = .black
    · rw [if_pos hblack] at hu eval
      have paint : son.paint .black = son := ColorTree.paint_of_color hblack.2
      rw [paint] at rep1
      obtain ⟨t', eval', rep', writes⟩ := rb_tree_removal_rebalance_spec rep1 hu enough
      refine ⟨t', eval.trans eval', rep', writes.minmax.trans minmax1, ?_, fun e he => ?_⟩
      · rw [writes.outside a (List.nodup_cons.mp nodup).1]
        exact alloc1
      · refine (writes.outside e (fun h => he ?_)).trans (same1 e he)
        exact perm.mem_iff.mpr (List.mem_cons_of_mem a h)
    · rw [if_neg hblack] at hu eval
      obtain rfl := Option.some.inj hu
      exact ⟨t1, eval, represents_plug.mp rep1, minmax1, alloc1, same1⟩
  cases inner with
  | nil =>
    obtain ⟨t1, eval, rep1, minmax1, alloc1, same1⟩ :=
      swap_child fuel (represents_cons.mp rep) hy hson apart
    exact last rfl eval rep1 minmax1 alloc1 same1
  | cons g inner =>
    obtain ⟨t1, eval, rep1, minmax1, alloc1, same1⟩ :=
      swap_far fuel rep (dirs g List.mem_cons_self) hy hson apart
    exact last rfl eval rep1 minmax1 alloc1 same1

theorem remove_two_children (rep : Represents t k (.node c l a r)) (hl : l ≠ .leaf)
    (hr : r ≠ .leaf) (ends : MinmaxOf t.rbtMinmax (plug k (.node c l a r)).inorder)
    (redBlack : IsRedBlack (plug k (.node c l a r))) (hu : removeRoot k (.node c l a r) = some u)
    (enough : (plug k (.node c l a r)).height < fuel) :
    ∃ t', rbTreeRemoveNode fuel t a = some t' ∧ Removed t t' a (plug k (.node c l a r)) u := by
  obtain ⟨w, hw⟩ : ∃ w, (position k).other = w := ⟨_, rfl⟩
  obtain ⟨x, y, hx, hy, ht⟩ := two_children (c := c) (a := a) w hl hr
  obtain ⟨left, right, -, -⟩ := rep.step
  have cell := rep.tree.1
  have which : t.rbPosition (.node a) = some (position k) := by simp [RbTree.rbPosition, cell]
  obtain ⟨u', hu', -, order⟩ := remove_root_spec redBlack
  obtain rfl : u' = u := Option.some.inj (hu'.symm.trans hu)
  obtain ⟨inner, sc, s, son, hext, hplug, dirs⟩ := extreme_spec w.other hx
  rw [remove_root_two hx hy hw ht hext] at hu
  -- the minimum of the right side, or the maximum of the left one
  have repX : Represents t (⟨w, c, a, y⟩ :: k) x := represents_cons.mpr (ht ▸ rep)
  have near : t.rbNodes (.node a) w = some (ptr x) := by
    rw [rb_nodes_node, repX.father_cell]
    simp
  have low := height_plug k (.node c l a r)
  have lowX : x.height < (ColorTree.node c l a r).height := by
    rw [ht]
    cases w <;> simp only [ColorTree.build, ColorTree.height] <;> omega
  have iterate : rbTreeIterate fuel t (.node a) w = some (.node s) := by
    rw [rbTreeIterate, if_neg (by simp)]
    simp only [near, Option.bind_eq_bind, Option.bind_some]
    rw [if_neg (fun h => hx (ptr_eq_null.mp h)), iterate_down_spec repX hx (by omega), hplug,
      end_of_extreme dirs]
    rfl
  have repS : Represents t (inner ++ ⟨w, c, a, y⟩ :: k) (.build sc w.other .leaf s son) :=
    represents_append.mpr (hplug ▸ repX)
  have whole : plug (inner ++ ⟨w, c, a, y⟩ :: k) (.build sc w.other .leaf s son) =
      plug k (.node c l a r) := by
    rw [plug_append, ← hplug, ht]
    rfl
  have hson : son = .leaf ∨ son.color = .red := by
    obtain ⟨n, -, balanced, -⟩ := red_black_plug.mp (whole ▸ redBlack)
    exact standin_son balanced
  have apart : t.rbtMinmax (position k) ≠ .node a :=
    minmax_two_ne hx hy (ht ▸ rep.nodup) (ht ▸ ends)
  have long : (inner ++ ⟨w, c, s, y⟩ :: k).length ≤ fuel := by
    have := height_plug (inner ++ ⟨w, c, a, y⟩ :: k) (.build sc w.other .leaf s son)
    rw [whole] at this
    simp only [List.length_append, List.length_cons] at this ⊢
    omega
  obtain ⟨t', eval, rep', minmax', alloc', same'⟩ := swap_standin repS dirs hy hson apart hu long
  have hleft : ¬ ptr l = .null := fun h => hl (ptr_eq_null.mp h)
  have hright : ¬ ptr r = .null := fun h => hr (ptr_eq_null.mp h)
  refine ⟨t', ?_, rep', ?_, alloc', fun e he => same' e (by rwa [whole])⟩
  · simp only [rbTreeRemoveNode, left, right, hleft, hright, and_self, or_self, if_false, which, hw,
      iterate, eval, Option.bind_eq_bind, Option.bind_some]
  · rw [minmax', order]
    have split : (plug k (.node c l a r)).inorder =
        (before k ++ l.inorder) ++ a :: (r.inorder ++ after k) := by
      simp [inorder_plug, ColorTree.inorder]
    rw [split] at ends
    have := minmax_remove_inner ends (by simp [hl]) (by simp [hr])
    rwa [List.append_assoc] at this

/-- The operation in memory follows the one on trees. -/
theorem remove_node_in_memory (rep : Represents t k (.node c l a r))
    (ends : MinmaxOf t.rbtMinmax (plug k (.node c l a r)).inorder)
    (redBlack : IsRedBlack (plug k (.node c l a r))) (hu : removeRoot k (.node c l a r) = some u)
    (enough : (plug k (.node c l a r)).height < fuel) :
    ∃ t', rbTreeRemoveNode fuel t a = some t' ∧ Removed t t' a (plug k (.node c l a r)) u := by
  have low := height_plug k (.node c l a r)
  match l, r, rep, ends, redBlack, hu with
  | .leaf, .leaf, rep, ends, redBlack, hu =>
    exact remove_childless rep ends redBlack hu (by omega)
  | .node lc ll lb lr, .leaf, rep, ends, redBlack, hu =>
    obtain rfl := Option.some.inj hu
    exact remove_one_child (w := .left) rep (by simp) ends redBlack
  | .leaf, .node rc rl rb rr, rep, ends, redBlack, hu =>
    obtain rfl := Option.some.inj hu
    exact remove_one_child (w := .right) rep (by simp) ends redBlack
  | .node lc ll lb lr, .node rc rl rb rr, rep, ends, redBlack, hu =>
    exact remove_two_children rep (by simp) (by simp) ends redBlack hu enough

end Remove

end Nebase.Compat.Rbtree
