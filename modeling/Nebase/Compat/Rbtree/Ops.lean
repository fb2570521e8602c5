/- The operations of the tree in memory on the ordered list of its nodes, and how many turns their
   loops need. -/

import Nebase.Compat.Rbtree.Remove

set_option autoImplicit false
set_option relaxedAutoImplicit false

namespace Nebase.Compat.Rbtree

open Nebase.Foundation.RedBlack

/-- A tree is in memory, it is red-black, and `rbt_minmax` holds its ends. -/
structure Stands (t : RbTree) (s : ColorTree NodeAddr) : Prop where
  rep : Represents t [] s
  redBlack : IsRedBlack s
  minmax : MinmaxOf t.rbtMinmax s.inorder

/-- The nodes of the tree in memory, in order. -/
def Holds (t : RbTree) (xs : List NodeAddr) : Prop := ∃ s, Stands t s ∧ s.inorder = xs

/-- More turns than a red-black tree with `n` nodes is high. -/
def turns (n : Nat) : Nat := 2 * Nat.log 2 (n + 1) + 1

theorem Stands.height_lt {t : RbTree} {s : ColorTree NodeAddr} (stands : Stands t s) :
    s.height < turns s.inorder.length := Nat.lt_succ_of_le stands.redBlack.height_le

theorem Holds.nodup {t : RbTree} {xs : List NodeAddr} (holds : Holds t xs) : xs.Nodup := by
  obtain ⟨s, stands, rfl⟩ := holds
  exact stands.rep.nodup

theorem rep_tree_alloc {nodes : NodeAddr → Option RbNode} {father : Ptr} {d : Dir}
    {s : ColorTree NodeAddr} (rep : RepTree nodes father d s) :
    ∀ a ∈ s.inorder, (nodes a).isSome = true := by
  induction s generalizing father d with
  | leaf => exact fun a ha => absurd ha List.not_mem_nil
  | node c l b r ihl ihr =>
    obtain ⟨cell, repL, repR⟩ := rep
    intro a ha
    simp only [ColorTree.inorder, List.mem_append, List.mem_cons] at ha
    rcases ha with ha | rfl | ha
    · exact ihl repL a ha
    · rw [cell]
      rfl
    · exact ihr repR a ha

/-- The nodes of the tree are allocated. -/
theorem Holds.alloc {t : RbTree} {xs : List NodeAddr} (holds : Holds t xs) {a : NodeAddr}
    (ha : a ∈ xs) : (t.nodes a).isSome = true := by
  obtain ⟨s, stands, rfl⟩ := holds
  exact rep_tree_alloc stands.rep.tree a ha

theorem rb_tree_init_holds (nodes : Memory) : Holds (rbTreeInit nodes) [] :=
  ⟨.leaf, ⟨⟨rfl, trivial, List.nodup_nil⟩, red_black_leaf, fun h => absurd rfl h⟩, rfl⟩

/-- A node that is in the tree, with its children and its context. -/
theorem Stands.split {t : RbTree} {s : ColorTree NodeAddr} (stands : Stands t s)
    {ys zs : List NodeAddr} {a : NodeAddr} (order : s.inorder = ys ++ a :: zs) :
    ∃ k c l r, s = plug k (.node c l a r) ∧ ys = before k ++ l.inorder ∧
      zs = r.inorder ++ after k := by
  obtain ⟨k, c, l, r, rfl⟩ := exists_plug_of_mem (a := a) (by rw [order]; simp)
  refine ⟨k, c, l, r, rfl, ?_⟩
  have nodup := stands.rep.nodup
  rw [plug_nil, order] at nodup
  have order' : ys ++ a :: zs = (before k ++ l.inorder) ++ a :: (r.inorder ++ after k) := by
    rw [← order, inorder_plug]
    simp [ColorTree.inorder]
  have apart : a ∉ before k ++ l.inorder ∧ a ∉ r.inorder ++ after k := by
    rw [order', List.nodup_append, List.nodup_cons] at nodup
    exact ⟨fun h => nodup.2.2 a h a List.mem_cons_self rfl, nodup.2.1.1⟩
  obtain ⟨h1, -, h2⟩ := (List.append_cons_inj_of_notMem apart.1 apart.2).mp order'.symm
  exact ⟨h1.symm, h2.symm⟩

section Find

variable {κ : Type} (ops : RbTreeOps κ) {t : RbTree} {xs : List NodeAddr} {fuel : Nat} {key : κ}

theorem rb_tree_find_node_spec (holds : Holds t xs)
    (graded : Graded (fun a => ops.compareKey a key) xs) (enough : turns xs.length ≤ fuel) :
    rbTreeFindNode ops fuel t key =
      some (toPtr (xs.find? (fun a => ops.compareKey a key = 0))) := by
  obtain ⟨s, stands, rfl⟩ := holds
  have eval := find_loop_spec (fun a => ops.compareKey a key) stands.rep
    (lt_of_lt_of_le stands.height_lt enough)
  rw [rbTreeFindNode, show t.rbtRoot = ptr s from stands.rep.root, eval]
  rcases search_cases graded with ⟨k, hsearch, -, order, hys, hzs⟩ |
    ⟨k, c, l, r, a, ys, zs, hsearch, order, ha, hys, hzs⟩
  · rw [hsearch, order, (find_equal hys hzs).1]
    rfl
  · rw [hsearch, order, (find_equal hys hzs).2 a ha]
    rfl

/-- The first node that is not smaller than the key. -/
theorem rb_tree_find_node_geq_spec (holds : Holds t xs)
    (graded : Graded (fun a => ops.compareKey a key) xs) (enough : turns xs.length ≤ fuel) :
    rbTreeFindNodeGeq ops fuel t key =
      some (toPtr (xs.find? (fun a => 0 ≤ ops.compareKey a key))) := by
  obtain ⟨s, stands, rfl⟩ := holds
  have eval := find_geq_loop_spec (fun a => ops.compareKey a key) stands.rep
    (lt_of_lt_of_le stands.height_lt enough)
  rw [rbTreeFindNodeGeq, show t.rbtRoot = ptr s from stands.rep.root]
  refine eval.trans ?_
  rcases search_cases graded with ⟨k, hsearch, -, order, hys, hzs⟩ |
    ⟨k, c, l, r, a, ys, zs, hsearch, order, ha, hys, hzs⟩
  · rw [hsearch, order, find_not_less hys (fun b hb => le_of_lt (hzs b hb))]
    rfl
  · rw [hsearch, order, find_not_less hys]
    · rfl
    · intro b hb
      rcases List.mem_cons.mp hb with rfl | hb
      · exact le_of_eq ha.symm
      · exact le_of_lt (hzs b hb)

/-- The last node that is not greater than the key. -/
theorem rb_tree_find_node_leq_spec (holds : Holds t xs)
    (graded : Graded (fun a => ops.compareKey a key) xs) (enough : turns xs.length ≤ fuel) :
    rbTreeFindNodeLeq ops fuel t key =
      some (toPtr (xs.filter (fun a => ops.compareKey a key ≤ 0)).getLast?) := by
  obtain ⟨s, stands, rfl⟩ := holds
  have eval := find_leq_loop_spec (fun a => ops.compareKey a key) stands.rep
    (lt_of_lt_of_le stands.height_lt enough)
  rw [rbTreeFindNodeLeq, show t.rbtRoot = ptr s from stands.rep.root]
  refine eval.trans ?_
  rcases search_cases graded with ⟨k, hsearch, -, order, hys, hzs⟩ |
    ⟨k, c, l, r, a, ys, zs, hsearch, order, ha, hys, hzs⟩
  · rw [hsearch, order, last_not_greater (fun b hb => le_of_lt (hys b hb)) hzs]
    rfl
  · have split : ys ++ a :: zs = (ys ++ [a]) ++ zs := by simp
    rw [hsearch, order, split, last_not_greater _ hzs, List.getLast?_concat]
    · rfl
    · intro b hb
      rcases List.mem_append.mp hb with hb | hb
      · exact le_of_lt (hys b hb)
      · obtain rfl := List.mem_singleton.mp hb
        exact le_of_eq ha

end Find

section Iterate

variable {t : RbTree} {ys zs : List NodeAddr} {a : NodeAddr} {fuel : Nat}

/-- `RB_TREE_MIN` and `RB_TREE_MAX`. -/
theorem rb_tree_iterate_null {xs : List NodeAddr} (holds : Holds t xs) (fuel : Nat) (d : Dir) :
    rbTreeIterate fuel t .null d = some (toPtr (endOf d xs)) := by
  obtain ⟨s, stands, rfl⟩ := holds
  rw [rbTreeIterate, if_pos rfl, show t.rbtRoot = ptr s from stands.rep.root]
  cases s with
  | leaf => cases d <;> rfl
  | node c l a r =>
    rw [ptr_node, if_neg (by simp)]
    exact congrArg some (stands.minmax (by simp [ColorTree.inorder]) d)

/-- `RB_TREE_NEXT` and `RB_TREE_PREV`. -/
theorem rb_tree_iterate_spec (holds : Holds t (ys ++ a :: zs))
    (enough : turns (ys ++ a :: zs).length ≤ fuel) :
    rbTreeIterate fuel t (.node a) .right = some (toPtr zs.head?) ∧
      rbTreeIterate fuel t (.node a) .left = some (toPtr ys.getLast?) := by
  obtain ⟨s, stands, order⟩ := holds
  obtain ⟨k, c, l, r, rfl, rfl, rfl⟩ := stands.split order
  have rep := represents_plug.mpr stands.rep
  obtain ⟨left, right, repL, repR⟩ := rep.step
  have high := stands.height_lt
  rw [order] at high
  have low := height_plug k (.node c l a r)
  simp only [ColorTree.height] at low
  have up : ∀ d, iterateUp t d fuel (.node a) = some (toPtr (beyond d.other k)) := by
    intro d
    have := iterate_up_spec (d := d.other) rep (by omega : k.length < fuel)
    rwa [other_other] at this
  constructor
  · rw [rbTreeIterate, if_neg (by simp)]
    simp only [right, right_other, Option.bind_eq_bind, Option.bind_some]
    by_cases hr : r = .leaf
    · subst hr
      rw [ptr_leaf, if_pos rfl, up]
      rfl
    · rw [if_neg (fun h => hr (ptr_eq_null.mp h)),
        iterate_down_spec repR hr (by omega)]
      have hne : r.inorder ≠ [] := fun h => hr (ColorTree.inorder_eq_nil.mp h)
      rw [List.head?_append_of_ne_nil _ hne]
      rfl
  · rw [rbTreeIterate, if_neg (by simp)]
    simp only [left, left_other, Option.bind_eq_bind, Option.bind_some]
    by_cases hl : l = .leaf
    · subst hl
      rw [ptr_leaf, if_pos rfl, up]
      simp [ColorTree.inorder, beyond]
    · rw [if_neg (fun h => hl (ptr_eq_null.mp h)),
        iterate_down_spec repL hl (by omega)]
      have hne : l.inorder ≠ [] := fun h => hl (ColorTree.inorder_eq_nil.mp h)
      rw [List.getLast?_append_of_ne_nil _ hne]
      rfl

end Iterate

section Change

variable {t : RbTree} {xs ys zs : List NodeAddr} {a : NodeAddr} {fuel : Nat}

/-- A node is linked in between the smaller ones and the greater ones, or the equal one is returned
and nothing changes. -/
theorem rb_tree_insert_node_spec {κ : Type} (ops : RbTreeOps κ) (holds : Holds t xs)
    (graded : Graded (fun b => ops.compareNodes b a) xs) (alloc : (t.nodes a).isSome = true)
    (fresh : a ∉ xs) (enough : turns xs.length ≤ fuel) :
    (∃ b ∈ xs, ops.compareNodes b a = 0 ∧ rbTreeInsertNode ops fuel t a = some (t, b)) ∨
    ∃ ys zs t', xs = ys ++ zs ∧ (∀ b ∈ ys, ops.compareNodes b a < 0) ∧
      (∀ b ∈ zs, 0 < ops.compareNodes b a) ∧ rbTreeInsertNode ops fuel t a = some (t', a) ∧
      Holds t' (ys ++ a :: zs) ∧ ∀ e, e ≠ a → e ∉ xs → t'.nodes e = t.nodes e := by
  obtain ⟨s, stands, rfl⟩ := holds
  have descent := insert_descent_spec (fun b => ops.compareNodes b a) stands.rep
    (lt_of_lt_of_le stands.height_lt enough)
  have root : t.rbtRoot = ptr s := stands.rep.root
  simp only [fatherPtr, position, ← root] at descent
  rcases search_cases graded with ⟨k, hsearch, hplug, order, hys, hzs⟩ |
    ⟨k, c, l, r, b, ys, zs, hsearch, order, hb, hys, hzs⟩
  · obtain ⟨n, hn⟩ := Option.isSome_iff_exists.mp alloc
    have rep : Represents t k .leaf := represents_plug.mpr (hplug ▸ stands.rep)
    have inContext : ∀ e, InContext e k ↔ e ∈ s.inorder := by
      intro e
      rw [order, List.mem_append]
      exact Iff.rfl
    have redBlack : IsRedBlack (plug k .leaf) := hplug ▸ stands.redBlack
    obtain ⟨u, hu, hred, elems⟩ := insert_at_spec (a := a) redBlack
    have low := height_plug k (.leaf : ColorTree NodeAddr)
    rw [hplug] at low
    have high := stands.height_lt
    obtain ⟨t', eval, rep', minmax', same⟩ := insert_leaf_spec rep hn
      (fun h => fresh ((inContext a).mp h)) (order ▸ stands.minmax) hu
      (by simp only [ColorTree.height] at low; omega : k.length ≤ fuel)
    refine .inr ⟨before k, after k, t', order, hys, hzs, ?_, ⟨u, ⟨rep', hred, ?_⟩, elems⟩, ?_⟩
    · rw [hsearch] at descent
      simp only [rbTreeInsertNode, descent, placeOf, eval, Option.bind_eq_bind, Option.bind_some]
    · rwa [elems]
    · exact fun e he hs => same e he (fun h => hs ((inContext e).mp h))
  · refine .inl ⟨b, by rw [order]; simp, hb, ?_⟩
    rw [hsearch] at descent
    simp only [rbTreeInsertNode, descent, placeOf, Option.bind_eq_bind, Option.bind_some]

/-- A node of the tree is unlinked. -/
theorem rb_tree_remove_node_spec (holds : Holds t (ys ++ a :: zs))
    (enough : turns (ys ++ a :: zs).length ≤ fuel) :
    ∃ t', rbTreeRemoveNode fuel t a = some t' ∧ Holds t' (ys ++ zs) ∧
      (t'.nodes a).isSome = true ∧ ∀ e, e ∉ ys ++ a :: zs → t'.nodes e = t.nodes e := by
  obtain ⟨s, stands, order⟩ := holds
  have high := stands.height_lt
  rw [order] at high
  obtain ⟨k, c, l, r, rfl, rfl, rfl⟩ := stands.split order
  obtain ⟨u, hu, redBlack, order'⟩ := remove_root_spec stands.redBlack
  obtain ⟨t', eval, removed⟩ := remove_node_in_memory (represents_plug.mpr stands.rep)
    stands.minmax stands.redBlack hu (lt_of_lt_of_le high enough)
  refine ⟨t', eval, ⟨u, ⟨removed.rep, redBlack, removed.minmax⟩, ?_⟩, removed.alloc, ?_⟩
  · rw [order', List.append_assoc]
  · intro e he
    refine removed.outside e ?_
    rwa [order]

end Change

end Nebase.Compat.Rbtree
