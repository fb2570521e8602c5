/- The descents and the iteration in memory. -/

import Nebase.Compat.Rbtree.Rebalance
import Nebase.Foundation.RedBlack.Search

set_option autoImplicit false
set_option relaxedAutoImplicit false

namespace Nebase.Compat.Rbtree

open Nebase.Foundation.RedBlack

def toPtr : Option NodeAddr → Ptr
  | none => .null
  | some a => .node a

@[simp] theorem to_ptr_none : toPtr none = .null := rfl

@[simp] theorem to_ptr_some (a : NodeAddr) : toPtr (some a) = .node a := rfl

/-- The first element of a list, or the last one. -/
def endOf (d : Dir) (xs : List NodeAddr) : Option NodeAddr :=
  match d with
  | .left => xs.head?
  | .right => xs.getLast?

/-- The nearest element outside the hole in the direction `d`. -/
def beyond (d : Dir) (k : Context NodeAddr) : Option NodeAddr :=
  match d with
  | .left => (before k).getLast?
  | .right => (after k).head?

/-- Up from a child on the other side the father is next. -/
theorem beyond_cons_other {f : Frame NodeAddr} {k : Context NodeAddr} {d : Dir}
    (h : f.dir = d.other) : beyond d (f :: k) = some f.elem := by
  cases d <;> simp [beyond, before, after, h]

theorem beyond_cons_same {f : Frame NodeAddr} {k : Context NodeAddr} {d : Dir}
    (h : f.dir = d) : beyond d (f :: k) = beyond d k := by
  cases d <;> simp [beyond, before, after, h]

/-- What the descent for an insertion finds. -/
def placeOf : Context NodeAddr × ColorTree NodeAddr → NodeAddr ⊕ (Ptr × Dir)
  | (k, .leaf) => .inr (fatherPtr k, position k)
  | (_, .node _ _ a _) => .inl a

section Descent

variable {t : RbTree} {k : Context NodeAddr} {s : ColorTree NodeAddr}
  {fuel : Nat}

/-- One step of a descent. -/
theorem Represents.step {c : Color} {l r : ColorTree NodeAddr} {a : NodeAddr}
    (rep : Represents t k (.node c l a r)) :
    t.rbNodes (.node a) .left = some (ptr l) ∧ t.rbNodes (.node a) .right = some (ptr r) ∧
      Represents t (⟨.left, c, a, r⟩ :: k) l ∧ Represents t (⟨.right, c, a, l⟩ :: k) r := by
  have cell := rep.tree.1
  refine ⟨by simp [cell, RbNode.rbNodes], by simp [cell, RbNode.rbNodes],
    represents_cons.mpr rep, represents_cons.mpr rep⟩

theorem find_loop_spec (diff : NodeAddr → Int) (rep : Represents t k s) (enough : s.height < fuel) :
    findLoop diff t fuel (ptr s) = some (ptr (search diff k s).2) := by
  induction fuel generalizing k s with
  | zero => exact absurd enough (Nat.not_lt_zero _)
  | succ fuel ih =>
    cases s with
    | leaf => rfl
    | node c l a r =>
      obtain ⟨left, right, repL, repR⟩ := rep.step
      simp only [ColorTree.height] at enough
      rw [ptr_node, findLoop, search]
      split_ifs with h0 hneg
      · rfl
      · simp only [right, Option.bind_eq_bind, Option.bind_some]
        exact ih repR (by omega)
      · simp only [left, Option.bind_eq_bind, Option.bind_some]
        exact ih repL (by omega)

theorem insert_descent_spec (diff : NodeAddr → Int) (rep : Represents t k s)
    (enough : s.height < fuel) :
    insertDescent diff t fuel (fatherPtr k) (position k) (ptr s) =
      some (placeOf (search diff k s)) := by
  induction fuel generalizing k s with
  | zero => exact absurd enough (Nat.not_lt_zero _)
  | succ fuel ih =>
    cases s with
    | leaf => rfl
    | node c l a r =>
      obtain ⟨left, right, repL, repR⟩ := rep.step
      simp only [ColorTree.height] at enough
      rw [ptr_node, insertDescent, search]
      split_ifs with h0 hneg
      · rfl
      · simp only [right, Option.bind_eq_bind, Option.bind_some]
        exact ih repR (by omega)
      · simp only [left, Option.bind_eq_bind, Option.bind_some]
        exact ih repL (by omega)

/-- Until the node sought, or the end, the last greater node is the next one after the hole. -/
theorem find_geq_loop_spec (diff : NodeAddr → Int) (rep : Represents t k s)
    (enough : s.height < fuel) :
    findLastLoop diff (fun diff => 0 < diff) t fuel (ptr s) (toPtr (beyond .right k)) =
      some (match search diff k s with
        | (k', .leaf) => toPtr (beyond .right k')
        | (_, .node _ _ a _) => .node a) := by
  induction fuel generalizing k s with
  | zero => exact absurd enough (Nat.not_lt_zero _)
  | succ fuel ih =>
    cases s with
    | leaf => rfl
    | node c l a r =>
      obtain ⟨left, right, repL, repR⟩ := rep.step
      simp only [ColorTree.height] at enough
      rw [ptr_node, findLastLoop, search]
      by_cases h0 : diff a = 0
      · simp [h0]
      · by_cases hneg : diff a < 0
        · have keep : ¬ 0 < diff a := by omega
          simp only [h0, hneg, keep, right, if_false, if_true, decide_false, Bool.false_eq_true,
            Option.bind_eq_bind, Option.bind_some]
          exact ih repR (by omega)
        · have keep : 0 < diff a := by omega
          simp only [h0, hneg, keep, left, if_false, if_true, decide_true,
            Option.bind_eq_bind, Option.bind_some]
          exact ih repL (by omega)

theorem find_leq_loop_spec (diff : NodeAddr → Int) (rep : Represents t k s)
    (enough : s.height < fuel) :
    findLastLoop diff (fun diff => diff < 0) t fuel (ptr s) (toPtr (beyond .left k)) =
      some (match search diff k s with
        | (k', .leaf) => toPtr (beyond .left k')
        | (_, .node _ _ a _) => .node a) := by
  induction fuel generalizing k s with
  | zero => exact absurd enough (Nat.not_lt_zero _)
  | succ fuel ih =>
    cases s with
    | leaf => rfl
    | node c l a r =>
      obtain ⟨left, right, repL, repR⟩ := rep.step
      simp only [ColorTree.height] at enough
      rw [ptr_node, findLastLoop, search]
      by_cases h0 : diff a = 0
      · simp [h0]
      · by_cases hneg : diff a < 0
        · simp only [h0, hneg, right, if_false, if_true, decide_true,
            Option.bind_eq_bind, Option.bind_some]
          have last : beyond .left (⟨.right, c, a, l⟩ :: k) = some a := by
            simp [beyond, before]
          have := ih repR (by omega)
          rwa [last] at this
        · simp only [h0, hneg, left, if_false, decide_false, Bool.false_eq_true,
            Option.bind_eq_bind, Option.bind_some]
          exact ih repL (by omega)

end Descent

section Iteration

variable {t : RbTree} {k : Context NodeAddr} {s : ColorTree NodeAddr} {fuel : Nat}

theorem iterate_down_spec {o : Dir} (rep : Represents t k s) (hs : s ≠ .leaf)
    (enough : s.height ≤ fuel) :
    iterateDown t o fuel (ptr s) = some (toPtr (endOf o s.inorder)) := by
  induction fuel generalizing k s with
  | zero =>
    cases s with
    | leaf => exact absurd rfl hs
    | node c l a r => exact absurd enough (by simp [ColorTree.height])
  | succ fuel ih =>
    obtain ⟨c, near, a, far, rfl⟩ := ColorTree.eq_build o hs
    have son : t.rbNodes (.node a) o = some (ptr near) := by
      rw [rb_nodes_node, (rep_tree_build.mp rep.tree).1]
      simp
    have high : near.height ≤ fuel := by
      cases o <;> simp only [ColorTree.build, ColorTree.height] at enough <;> omega
    rw [ptr_build, iterateDown]
    simp only [son, Option.bind_eq_bind, Option.bind_some]
    by_cases hn : near = .leaf
    · subst hn
      cases o <;> simp [endOf, ColorTree.build, ColorTree.inorder]
    · rw [if_neg (fun h => hn (ptr_eq_null.mp h))]
      have repN : Represents t (⟨o, c, a, far⟩ :: k) near := represents_cons.mpr rep
      rw [ih repN hn high]
      have hne : near.inorder ≠ [] := by
        cases near with
        | leaf => exact absurd rfl hn
        | node c' l b r => simp [ColorTree.inorder]
      cases o with
      | left => simp [endOf, ColorTree.build, ColorTree.inorder, List.head?_append_of_ne_nil _ hne]
      | right =>
        simp only [endOf, ColorTree.build, ColorTree.inorder]
        rw [List.getLast?_append_of_ne_nil _ (List.cons_ne_nil a _),
          List.getLast?_cons_of_ne_nil hne]

theorem iterate_up_spec {d : Dir} {c : Color} {l r : ColorTree NodeAddr} {a : NodeAddr}
    (rep : Represents t k (.node c l a r)) (enough : k.length < fuel) :
    iterateUp t d.other fuel (.node a) = some (toPtr (beyond d k)) := by
  induction fuel generalizing k c l a r with
  | zero => exact absurd enough (Nat.not_lt_zero _)
  | succ fuel ih =>
    have root := rep.root_eq (ptr_node c l r a)
    rw [ptr_node] at root
    simp only [iterateUp, root]
    cases k with
    | nil =>
      rw [if_pos rfl]
      cases d <;> rfl
    | cons f k =>
      rw [if_neg (List.cons_ne_nil f k)]
      have position' : t.rbPosition (.node a) = some f.dir := by
        simp [RbTree.rbPosition, rep.tree.1, position]
      have father : t.rbFather (.node a) = some (.node f.elem) := by
        simp [RbTree.rbFather, rep.tree.1, fatherPtr]
      simp only [position', father, Option.bind_eq_bind, Option.bind_some]
      by_cases hd : d.other = f.dir
      · rw [if_pos hd, beyond_cons_other hd.symm]
        rfl
      · rw [if_neg hd, beyond_cons_same (by cases d <;> cases hf : f.dir <;> simp_all)]
        obtain ⟨c', x, b, y, hb⟩ := ColorTree.eq_build .left
          (ColorTree.build_ne_leaf f.color f.dir (.node c l a r) f.sibling f.elem)
        have rep' := represents_cons.mp rep
        have helem : f.elem = b := by
          have := congrArg ptr hb
          simpa using this
        rw [hb] at rep'
        rw [helem]
        exact ih rep' (by simpa using enough)

end Iteration

end Nebase.Compat.Rbtree
