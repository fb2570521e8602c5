/- The loops over a tree: `RB_TREE_FOREACH`, and `RB_TREE_FOREACH_SAFE` with a body that removes the
   object and frees it. -/

import Nebase.Compat.Rbtree.Runs
import Mathlib.Data.List.Induction

set_option autoImplicit false
set_option relaxedAutoImplicit false

namespace Nebase.Compat.Rbtree

open Nebase.Foundation.RedBlack

/-- The object is given back: its memory may not be accessed any more. To give back what is not
allocated is undefined behaviour. -/
def RbTree.free (t : RbTree) (a : NodeAddr) : Option RbTree :=
  if (t.nodes a).isSome then some { t with nodes := Function.update t.nodes a none } else none

/-- `RB_TREE_FOREACH` and `RB_TREE_FOREACH_REVERSE` from an object on, with a body that leaves the
tree as it is: the objects visited. -/
def rbTreeForeach (fuel : Nat) (t : RbTree) (direction : Dir) :
    Nat → Ptr → Option (List NodeAddr)
  | 0, _ => none
  | _ + 1, .null => some []
  | _ + 1, .slot => none
  | turns + 1, .node a => do
    let next ← rbTreeIterate fuel t (.node a) direction
    let visited ← rbTreeForeach fuel t direction turns next
    some (a :: visited)

/-- `RB_TREE_FOREACH_SAFE` from an object on; the body is `rb_tree_remove_node` and `free`. -/
def rbTreeRemoveAll (fuel : Nat) : Nat → RbTree → Ptr → Option (RbTree × List NodeAddr)
  | 0, _, _ => none
  | _ + 1, t, .null => some (t, [])
  | _ + 1, _, .slot => none
  | turns + 1, t, .node a => do
    let next ← rbTreeIterate fuel t (.node a) .right
    let t ← rbTreeRemoveNode fuel t a
    let t ← t.free a
    let (t, removed) ← rbTreeRemoveAll fuel turns t next
    some (t, a :: removed)

/-- Memory outside the tree may change. -/
theorem Holds.congr {t t' : RbTree} {xs : List NodeAddr} (holds : Holds t xs)
    (root : t'.rbtRoot = t.rbtRoot) (minmax : t'.rbtMinmax = t.rbtMinmax)
    (same : ∀ a ∈ xs, t'.nodes a = t.nodes a) : Holds t' xs := by
  obtain ⟨s, stands, rfl⟩ := holds
  refine ⟨s, ⟨⟨?_, stands.rep.tree.congr same, stands.rep.nodup⟩, stands.redBlack, ?_⟩, rfl⟩
  · exact root.trans stands.rep.context
  · rw [minmax]
    exact stands.minmax

theorem Holds.free {t : RbTree} {xs : List NodeAddr} {a : NodeAddr} (holds : Holds t xs)
    (apart : a ∉ xs) (alloc : (t.nodes a).isSome = true) :
    ∃ t', t.free a = some t' ∧ Holds t' xs ∧ t'.nodes = Function.update t.nodes a none := by
  refine ⟨_, if_pos alloc, holds.congr rfl rfl (fun b hb => Function.update_of_ne ?_ ..), rfl⟩
  rintro rfl
  exact apart hb

theorem turns_mono {m n : Nat} (h : m ≤ n) : turns m ≤ turns n := by
  have logs : Nat.log 2 (m + 1) ≤ Nat.log 2 (n + 1) := Nat.log_mono_right (Nat.succ_le_succ h)
  unfold turns
  omega

section Foreach

variable {t : RbTree} {fuel : Nat}

theorem rb_tree_foreach_from {ys zs : List NodeAddr} {n : Nat} (holds : Holds t (ys ++ zs))
    (enough : turns (ys ++ zs).length ≤ fuel) (long : zs.length < n) :
    rbTreeForeach fuel t .right n (toPtr zs.head?) = some zs := by
  induction zs generalizing ys n with
  | nil =>
    obtain ⟨n, rfl⟩ := Nat.exists_eq_add_one_of_ne_zero (Nat.ne_zero_of_lt long)
    rfl
  | cons a zs ih =>
    obtain ⟨n, rfl⟩ := Nat.exists_eq_add_one_of_ne_zero (Nat.ne_zero_of_lt long)
    obtain ⟨next, -⟩ := rb_tree_iterate_spec holds enough
    have split : ys ++ a :: zs = (ys ++ [a]) ++ zs := by simp
    rw [split] at holds enough
    have rest := ih holds enough (by simpa using long)
    simp only [List.head?_cons, to_ptr_some, rbTreeForeach, next, rest, Option.bind_eq_bind,
      Option.bind_some]

theorem rb_tree_foreach_reverse_from {ys zs : List NodeAddr} {n : Nat}
    (holds : Holds t (ys ++ zs)) (enough : turns (ys ++ zs).length ≤ fuel)
    (long : ys.length < n) :
    rbTreeForeach fuel t .left n (toPtr ys.getLast?) = some ys.reverse := by
  induction ys using List.reverseRecOn generalizing zs n with
  | nil =>
    obtain ⟨n, rfl⟩ := Nat.exists_eq_add_one_of_ne_zero (Nat.ne_zero_of_lt long)
    rfl
  | append_singleton ys a ih =>
    obtain ⟨n, rfl⟩ := Nat.exists_eq_add_one_of_ne_zero (Nat.ne_zero_of_lt long)
    rw [List.append_assoc, List.singleton_append] at holds enough
    obtain ⟨-, prev⟩ := rb_tree_iterate_spec holds enough
    have rest := ih holds enough (by simpa using long)
    simp only [List.getLast?_concat, to_ptr_some, rbTreeForeach, prev, rest, Option.bind_eq_bind,
      Option.bind_some, List.reverse_append, List.reverse_singleton, List.singleton_append]

/-- The loops visit every object of the tree once, in order. -/
theorem rb_tree_foreach_spec {xs : List NodeAddr} {n : Nat} (holds : Holds t xs)
    (enough : turns xs.length ≤ fuel) (long : xs.length < n) :
    (rbTreeIterate fuel t .null .right).bind (rbTreeForeach fuel t .left n) = some xs.reverse ∧
      (rbTreeIterate fuel t .null .left).bind (rbTreeForeach fuel t .right n) = some xs := by
  constructor
  · rw [rb_tree_iterate_null holds fuel, Option.bind_some]
    rw [← List.append_nil xs] at holds enough
    exact rb_tree_foreach_reverse_from holds enough long
  · rw [rb_tree_iterate_null holds fuel, Option.bind_some]
    exact rb_tree_foreach_from (show Holds t ([] ++ xs) from holds) enough long

/-- The next object has been read before its predecessor goes. -/
theorem rb_tree_remove_all_spec {xs : List NodeAddr} {n : Nat} (holds : Holds t xs)
    (enough : turns xs.length ≤ fuel) (long : xs.length < n) :
    ∃ t', rbTreeRemoveAll fuel n t (toPtr xs.head?) = some (t', xs) ∧ Holds t' [] ∧
      ∀ e, t'.nodes e = if e ∈ xs then none else t.nodes e := by
  induction xs generalizing t n with
  | nil =>
    obtain ⟨n, rfl⟩ := Nat.exists_eq_add_one_of_ne_zero (Nat.ne_zero_of_lt long)
    exact ⟨t, rfl, holds, fun e => by simp⟩
  | cons a xs ih =>
    obtain ⟨n, rfl⟩ := Nat.exists_eq_add_one_of_ne_zero (Nat.ne_zero_of_lt long)
    have first : Holds t ([] ++ a :: xs) := holds
    obtain ⟨next, -⟩ := rb_tree_iterate_spec first enough
    obtain ⟨t1, remove, holds1, alloc1, same1⟩ := rb_tree_remove_node_spec first enough
    have apart : a ∉ xs := (List.nodup_cons.mp holds.nodup).1
    have fewer : turns xs.length ≤ fuel :=
      le_trans (turns_mono (by simp)) enough
    obtain ⟨t2, free, holds2, nodes2⟩ := holds1.free apart alloc1
    obtain ⟨t3, rest, holds3, same3⟩ := ih holds2 fewer (by simpa using long)
    refine ⟨t3, ?_, holds3, fun e => ?_⟩
    · simp only [List.head?_cons, to_ptr_some, rbTreeRemoveAll, next, remove, free, rest,
        Option.bind_eq_bind, Option.bind_some]
    · rw [same3, nodes2]
      by_cases he : e ∈ xs
      · rw [if_pos he, if_pos (List.mem_cons_of_mem a he)]
      · rw [if_neg he]
        by_cases hea : e = a
        · subst hea
          rw [if_pos List.mem_cons_self]
          exact Function.update_self ..
        · rw [if_neg (by simp [hea, he])]
          exact (Function.update_of_ne hea ..).trans (same1 e (by simp [hea, he]))

end Foreach

section Runs

open Nebase.Foundation.Machine Nebase.Foundation.SortedKeys

variable {ρ : Type} [LinearOrder ρ] {cmp : ρ → ρ → Int}

/-- In every state of a proper run the loops visit the objects of the book once, in the order of
their keys, and the loop that removes them gives back these objects and no other memory. -/
theorem rbTree_runs_foreach (compares : Compares cmp) (nodes : NodeAddr → Option RbNode)
    (key : NodeAddr → ρ) (rs : List (Nat × Request ρ))
    (proper : StepsMeet (step cmp) Proper (start nodes key) rs) {s : Client ρ}
    (reached : run (step cmp) (start nodes key) rs = some s) {fuel n : Nat}
    (enough : turns s.held.card ≤ fuel) (long : s.held.card < n) :
    ∃ xs, Sorted s.key xs ∧ xs.toFinset = s.held ∧
      (rbTreeIterate fuel s.tree .null .left).bind (rbTreeForeach fuel s.tree .right n) = some xs ∧
      (rbTreeIterate fuel s.tree .null .right).bind (rbTreeForeach fuel s.tree .left n) =
        some xs.reverse ∧
      ∃ t, (rbTreeIterate fuel s.tree .null .left).bind (rbTreeRemoveAll fuel n s.tree) =
          some (t, xs) ∧ t.rbtRoot = .null ∧
        ∀ a, t.nodes a = if a ∈ s.held then none else s.tree.nodes a := by
  obtain ⟨xs, shelved⟩ :=
    invariant_run (sound_preserved compares) (sound_start nodes key) proper reached
  rw [← shelved.length] at enough long
  obtain ⟨reverse, forward⟩ := rb_tree_foreach_spec shelved.holds enough long
  obtain ⟨t, eval, ⟨s', stands, empty⟩, same⟩ := rb_tree_remove_all_spec shelved.holds enough long
  refine ⟨xs, shelved.sorted, ?_, forward, reverse, t, ?_, ?_, fun a => ?_⟩
  · ext a
    rw [List.mem_toFinset, shelved.book]
  · rw [rb_tree_iterate_null shelved.holds fuel, Option.bind_some]
    exact eval
  · obtain rfl := ColorTree.inorder_eq_nil.mp empty
    exact stands.rep.root
  · rw [same]
    exact if_congr (shelved.book a) rfl rfl

theorem rbTree_runs_foreach_five_objects :
    ∃ (s : Client Int) (xs : List NodeAddr) (t : RbTree),
      run (step (· - ·)) (start (fun _ => none) (fun _ => 0)) fiveObjects = some s ∧
      Sorted s.key xs ∧ xs.toFinset = s.held ∧
      (rbTreeIterate 9 s.tree .null .left).bind (rbTreeRemoveAll 9 9 s.tree) = some (t, xs) := by
  obtain ⟨s, reached, few⟩ : ∃ s : Client Int,
      run (step (· - ·)) (start (fun _ => none) (fun _ => 0)) fiveObjects = some s ∧
        s.held.card = 3 := run_reaches (by decide)
  obtain ⟨xs, sorted, book, -, -, t, eval, -⟩ := rbTree_runs_foreach
    (n := 9) ⟨fun x y => by omega, fun x y => by omega⟩ _ _ _ (by decide) reached
    (show turns _ ≤ 9 by rw [few]; decide) (by rw [few]; decide)
  exact ⟨s, xs, t, reached, sorted, book, eval⟩

end Runs

end Nebase.Compat.Rbtree
