/- The threads in the registry at any time, whatever the order of their steps: a set of threads that
   each operation reads and writes. -/

import Nebase.Thread.Registry.Model
import Nebase.Compat.Rbtree.Runs

set_option autoImplicit false
set_option relaxedAutoImplicit false

namespace Nebase.Thread.Registry

open Nebase.Compat.Rbtree
open Nebase.Foundation.SortedKeys
open Nebase.Foundation.Machine

/-- What the callers and the system grant: the calls are made between init and deinit, which no
thread is inside of; `calloc` returns what is not allocated; an ended thread makes no call, and its
name may be given to another. -/
def Legal (s : State) : Action → Prop
  | .init _ _ _ => s.threadRbtOk = false
  | .deinit => ∀ p, s.threads p ≠ some .registering
  | .create p => s.threads p = none ∧ p ≠ 0
  | .register p _ => s.threadRbtOk = true ∧ s.threads p = some .running
  | .rbtAdd p calloc =>
    s.threads p = some .registering ∧ ∀ n, calloc = some n → s.threadRbt.nodes n = none
  | .isRunning _ => s.threadRbtOk = true
  | .exit p => s.threads p = some .running

instance (s : State) : ∀ a : Action, Decidable (Legal s a)
  | .init _ _ _ => inferInstanceAs (Decidable (s.threadRbtOk = false))
  | .deinit => inferInstanceAs (Decidable (∀ p, s.threads p ≠ some .registering))
  | .create p => inferInstanceAs (Decidable (s.threads p = none ∧ p ≠ 0))
  | .register p _ =>
    inferInstanceAs (Decidable (s.threadRbtOk = true ∧ s.threads p = some .running))
  | .rbtAdd p calloc =>
    inferInstanceAs (Decidable (s.threads p = some .registering ∧
      ∀ n, calloc = some n → s.threadRbt.nodes n = none))
  | .isRunning _ => inferInstanceAs (Decidable (s.threadRbtOk = true))
  | .exit p => inferInstanceAs (Decidable (s.threads p = some .running))

/-- `neb_thread_register` has set the value of the key for the thread and then not found the memory
for its node. -/
def Orphan (s : State) (p : PthreadT) : Prop :=
  s.threadExitKeyOk = true ∧ s.specific p ≠ 0 ∧
    ∀ a, (s.threadRbt.nodes a).isSome = true → s.ptid a ≠ p.toInt

/-- An orphan does not end. -/
def Orderly (s : State) : Action → Prop
  | .exit p => ¬ Orphan s p
  | _ => True

/-- The registry as a set of threads: what is returned, and the set after it. -/
def Answers (r : Finset PthreadT) (e : Action × Ret) (r' : Finset PthreadT) : Prop :=
  match e with
  | (.init spin key sem, ret) => r' = ∅ ∧ ret = .int (if spin && key && sem then 0 else -1)
  | (.deinit, ret) => r' = ∅ ∧ ret = .void
  | (.create _, ret) => r' = r ∧ ret = .void
  | (.register _ setspecific, ret) => r' = r ∧ ret = if setspecific then .void else .int (-1)
  | (.rbtAdd _ none, ret) => r' = r ∧ ret = .int (-1)
  | (.rbtAdd p (some _), ret) => r' = insert p r ∧ ret = .int (if p ∈ r then -1 else 0)
  | (.isRunning p, ret) => r' = r ∧ ret = .bool (decide (p ∈ r))
  | (.exit p, ret) => r' = r.erase p ∧ ret = .void

/-- The tree holds one node for each thread of the set, and nothing else is allocated. -/
structure Entered (rbt : RbTree) (ptid : NodeAddr → Int) (xs : List NodeAddr)
    (r : Finset PthreadT) : Prop where
  holds : Holds rbt xs
  sorted : Sorted ptid xs
  alloc : ∀ a, (rbt.nodes a).isSome = true ↔ a ∈ xs
  names : ∀ p : PthreadT, (∃ a ∈ xs, ptid a = p.toInt) ↔ p ∈ r
  owned : ∀ a ∈ xs, ∃ p : PthreadT, ptid a = p.toInt

/-- The state after `n` steps, with the threads `r` in the registry. -/
structure Kept (n : Nat) (s : State) (r : Finset PthreadT) : Prop where
  entered : ∃ xs, Entered s.threadRbt s.ptid xs r ∧ xs.length ≤ n
  flags : s.threadExitKeyOk = s.threadRbtOk ∧ s.threadRbtLockOk = s.threadRbtOk ∧
    s.threadReadySem = s.threadRbtOk
  closed : s.threadRbtOk = false → r = ∅
  nonzero : ∀ p, s.threads p ≠ none → p ≠ 0
  keyed : ∀ p, s.specific p = 0 ∨ s.specific p = p ∧ s.threads p ≠ none
  marked : ∀ p ∈ r, p ≠ 0 ∧ s.specific p = p
  registering : ∀ p, s.threads p = some .registering →
    s.threadRbtOk = true ∧ s.specific p = p

/-- `thread_rbt_cmp_node` and `thread_rbt_cmp_key` order the nodes by `ptid`. -/
theorem thread_rbt_compares :
    Compares (fun x y : Int => if x < y then -1 else if x = y then 0 else 1) := by
  constructor
  · intro x y
    split_ifs <;> omega
  · intro x y
    split_ifs <;> omega

theorem pthread_to_int_injective {p q : PthreadT} (h : p.toInt = q.toInt) : p = q :=
  BitVec.eq_of_toInt_eq h

section Entered

variable {rbt : RbTree} {ptid : NodeAddr → Int} {xs ys zs : List NodeAddr} {r : Finset PthreadT}
  {fuel : Nat} {p : PthreadT}

theorem Entered.graded (entered : Entered rbt ptid xs r) (k : Int) :
    Nebase.Foundation.RedBlack.Graded (fun a => (threadRbtOps ptid).compareKey a k) xs :=
  thread_rbt_compares.graded entered.sorted k

theorem thread_rbt_cmp_eq_zero (x k : Int) :
    (if x < k then (-1 : Int) else if x = k then 0 else 1) = 0 ↔ x = k :=
  thread_rbt_compares.zero_iff x k

/-- The node of a thread of the set is found. -/
theorem Entered.find_of_mem (entered : Entered rbt ptid xs r) (enough : turns xs.length ≤ fuel)
    (hp : p ∈ r) : ∃ a ∈ xs, ptid a = p.toInt ∧
      rbTreeFindNode (threadRbtOps ptid) fuel rbt p.toInt = some (.node a) := by
  obtain ⟨a, ha, key⟩ := (entered.names p).mpr hp
  refine ⟨a, ha, key, ?_⟩
  rw [rb_tree_find_node_spec _ entered.holds (entered.graded p.toInt) enough]
  cases found : xs.find? (fun b => (threadRbtOps ptid).compareKey b p.toInt = 0) with
  | none =>
    have := List.find?_eq_none.mp found a ha
    rw [decide_eq_true_eq] at this
    exact absurd ((thread_rbt_cmp_eq_zero _ _).mpr key) this
  | some b =>
    have same := List.find?_some found
    rw [decide_eq_true_eq] at same
    have key' : ptid b = p.toInt := (thread_rbt_cmp_eq_zero _ _).mp same
    obtain rfl := entered.sorted.injective (List.mem_of_find?_eq_some found) ha
      (key'.trans key.symm)
    rfl

theorem Entered.find_of_not_mem (entered : Entered rbt ptid xs r)
    (enough : turns xs.length ≤ fuel) (hp : p ∉ r) :
    rbTreeFindNode (threadRbtOps ptid) fuel rbt p.toInt = some .null := by
  rw [rb_tree_find_node_spec _ entered.holds (entered.graded p.toInt) enough]
  have none_found : xs.find? (fun b => (threadRbtOps ptid).compareKey b p.toInt = 0) = none := by
    refine List.find?_eq_none.mpr (fun a ha => ?_)
    rw [decide_eq_true_eq]
    exact fun same => hp ((entered.names p).mp ⟨a, ha, (thread_rbt_cmp_eq_zero _ _).mp same⟩)
  rw [none_found]
  rfl

/-- A thread leaves the set with its node. -/
theorem Entered.remove {rbt' : RbTree} {a : NodeAddr}
    (entered : Entered rbt ptid (ys ++ a :: zs) r) (key : ptid a = p.toInt)
    (holds : Holds rbt' (ys ++ zs)) (same : ∀ e, e ≠ a → e ∉ ys ++ a :: zs →
      rbt'.nodes e = rbt.nodes e) (gone : rbt'.nodes a = none)
    (alloc : ∀ e ∈ ys ++ zs, (rbt'.nodes e).isSome = true) :
    Entered rbt' ptid (ys ++ zs) (r.erase p) := by
  have apart : a ∉ ys ++ zs := by
    have nodup := entered.sorted.nodup
    rw [List.nodup_middle, List.nodup_cons] at nodup
    exact nodup.1
  have mem : ∀ e, e ∈ ys ++ a :: zs ↔ e = a ∨ e ∈ ys ++ zs := by
    intro e
    simp only [List.mem_append, List.mem_cons]
    tauto
  refine ⟨holds, entered.sorted.remove, fun e => ⟨fun h => ?_, alloc e⟩, fun q => ?_,
    fun e he => entered.owned e ((mem e).mpr (.inr he))⟩
  · by_cases hea : e = a
    · rw [hea, gone] at h
      cases h
    · by_contra he
      have hout : e ∉ ys ++ a :: zs := fun h' => ((mem e).mp h').elim hea he
      rw [same e hea hout] at h
      exact hout ((entered.alloc e).mp h)
  · rw [Finset.mem_erase, ← entered.names q]
    constructor
    · rintro ⟨e, he, hkey⟩
      refine ⟨?_, e, (mem e).mpr (.inr he), hkey⟩
      rintro rfl
      have := entered.sorted.injective ((mem e).mpr (.inr he)) ((mem a).mpr (.inl rfl))
        (hkey.trans key.symm)
      exact apart (this ▸ he)
    · rintro ⟨hq, e, he, hkey⟩
      rcases (mem e).mp he with rfl | he
      · exact absurd (pthread_to_int_injective (hkey.symm.trans key)) hq
      · exact ⟨e, he, hkey⟩

end Entered

section Steps

variable {s : State} {xs : List NodeAddr} {r : Finset PthreadT} {fuel : Nat} {p : PthreadT}

theorem thread_rbt_exist_spec (entered : Entered s.threadRbt s.ptid xs r)
    (enough : turns xs.length ≤ fuel) :
    threadRbtExist fuel p s = some (decide (p ∈ r)) := by
  by_cases hp : p ∈ r
  · obtain ⟨a, -, -, find⟩ := entered.find_of_mem enough hp
    simp [threadRbtExist, find, hp]
  · have find := entered.find_of_not_mem enough hp
    simp [threadRbtExist, find, hp]

/-- The destructor finds the node of its thread. -/
theorem thread_rbt_del_spec (self : PthreadT) (entered : Entered s.threadRbt s.ptid xs r)
    (enough : turns xs.length ≤ fuel) (hp : p ∈ r) (nonzero : p ≠ 0) :
    ∃ rbt xs', threadRbtDel fuel self p s = some { s with threadRbt := rbt } ∧
      Entered rbt s.ptid xs' (r.erase p) ∧ xs'.length ≤ xs.length := by
  obtain ⟨a, ha, key, find⟩ := entered.find_of_mem enough hp
  obtain ⟨ys, zs, rfl⟩ := List.append_of_mem ha
  obtain ⟨t1, remove, holds1, alloc1, same1⟩ := rb_tree_remove_node_spec entered.holds enough
  have nodup := entered.sorted.nodup
  rw [List.nodup_middle, List.nodup_cons] at nodup
  obtain ⟨t2, free, holds2, nodes2⟩ := holds1.free nodup.1 alloc1
  refine ⟨t2, ys ++ zs, ?_, entered.remove key holds2 ?_ ?_ ?_, by simp⟩
  · simp only [threadRbtDel, if_pos nonzero, find, remove, threadRbtNodeDel, free,
      Option.bind_eq_bind, Option.bind_some, Option.map_some]
  · intro e hea he
    rw [nodes2, Function.update_of_ne hea, same1 e he]
  · rw [nodes2, Function.update_self]
  · intro e he
    exact holds2.alloc he

theorem thread_rbt_del_orphan (self : PthreadT) (entered : Entered s.threadRbt s.ptid xs r)
    (enough : turns xs.length ≤ fuel) (hp : p ∉ r) (nonzero : p ≠ 0) :
    threadRbtDel fuel self p s = none := by
  have find := entered.find_of_not_mem enough hp
  simp only [threadRbtDel, if_pos nonzero, find, Option.bind_eq_bind, Option.bind_some]

/-- A thread enters once: a second node is given back. -/
theorem thread_rbt_add_spec {n : NodeAddr} (entered : Entered s.threadRbt s.ptid xs r)
    (enough : turns xs.length ≤ fuel) (fresh : s.threadRbt.nodes n = none) :
    ∃ rbt ptid xs', threadRbtAdd fuel p (some n) s =
        some (if p ∈ r then -1 else 0, { s with threadRbt := rbt, ptid := ptid }) ∧
      Entered rbt ptid xs' (insert p r) ∧ xs'.length ≤ xs.length + 1 := by
  have apart : n ∉ xs := fun h => by
    have := (entered.alloc n).mpr h
    rw [fresh] at this
    cases this
  have other : ∀ b ∈ xs, b ≠ n := fun b hb h => apart (h ▸ hb)
  obtain ⟨t0, ht0⟩ : ∃ t0, t0 = s.threadRbt.store n ⟨.null, .null, .null, .left, .black⟩ := ⟨_, rfl⟩
  obtain ⟨ptid, hptid⟩ : ∃ ptid, ptid = Function.update s.ptid n p.toInt := ⟨_, rfl⟩
  have new : threadRbtNodeNew p.toInt (some n) s =
      some (n, { s with threadRbt := t0, ptid := ptid }) := by
    rw [ht0, hptid]
    rfl
  have key : ptid n = p.toInt := by rw [hptid, Function.update_self]
  have keys : ∀ b ∈ xs, ptid b = s.ptid b := fun b hb => by
    rw [hptid, Function.update_of_ne (other b hb)]
  have holds0 : Holds t0 xs := by
    rw [ht0]
    exact entered.holds.congr rfl rfl (fun b hb => store_nodes_of_ne _ _ (other b hb))
  have sorted0 : Sorted ptid xs := entered.sorted.congr keys
  have alloc0 : (t0.nodes n).isSome = true := by
    rw [ht0, store_nodes_self]
    rfl
  have out0 : ∀ e, e ≠ n → t0.nodes e = s.threadRbt.nodes e := fun e he => by
    rw [ht0, store_nodes_of_ne _ _ he]
  rcases rb_tree_insert_node_spec (threadRbtOps ptid) holds0
      (thread_rbt_compares.graded sorted0 (ptid n)) alloc0 apart enough with
    ⟨b, hb, same, eval⟩ | ⟨ys, zs, t1, rfl, less, greater, eval, holds1, same1⟩
  · have keyB : s.ptid b = p.toInt := by
      rw [← keys b hb, ← key]
      exact (thread_rbt_cmp_eq_zero _ _).mp same
    have hp : p ∈ r := (entered.names p).mp ⟨b, hb, keyB⟩
    obtain ⟨t2, free, holds2, nodes2⟩ := holds0.free apart alloc0
    refine ⟨t2, ptid, xs, ?_, ⟨holds2, sorted0, fun e => ?_, fun q => ?_, fun e he => ?_⟩, by simp⟩
    · simp only [threadRbtAdd, new, eval, if_pos (other b hb), threadRbtNodeDel, free, if_pos hp,
        Option.bind_eq_bind, Option.bind_some, Option.map_some]
    · by_cases hen : e = n
      · subst hen
        rw [nodes2, Function.update_self]
        simpa using apart
      · rw [nodes2, Function.update_of_ne hen, out0 e hen, entered.alloc]
    · rw [Finset.insert_eq_of_mem hp, ← entered.names q]
      exact exists_congr fun e => and_congr_right fun he => by rw [keys e he]
    · obtain ⟨q, hq⟩ := entered.owned e he
      exact ⟨q, (keys e he).trans hq⟩
  · have below : ∀ b ∈ ys, ptid b < ptid n := fun b hb =>
      (thread_rbt_compares.neg_iff _ _).mp (less b hb)
    have above : ∀ b ∈ zs, ptid n < ptid b := fun b hb =>
      (thread_rbt_compares.pos_iff _ _).mp (greater b hb)
    have hp : p ∉ r := by
      intro hp
      obtain ⟨b, hb, hkey⟩ := (entered.names p).mpr hp
      rw [← keys b hb, ← key] at hkey
      rcases List.mem_append.mp hb with hb | hb
      · exact absurd hkey (ne_of_lt (below b hb))
      · exact absurd hkey.symm (ne_of_lt (above b hb))
    have mem : ∀ e, e ∈ ys ++ n :: zs ↔ e = n ∨ e ∈ ys ++ zs := by
      intro e
      simp only [List.mem_append, List.mem_cons]
      tauto
    refine ⟨t1, ptid, ys ++ n :: zs, ?_, ⟨holds1, sorted0.insert below above, fun e => ?_,
      fun q => ?_, fun e he => ?_⟩, by simp [Nat.add_assoc]⟩
    · simp only [threadRbtAdd, new, eval, ne_eq, not_true, if_false, if_neg hp,
        Option.bind_eq_bind, Option.bind_some]
    · refine ⟨fun h => ?_, fun he => holds1.alloc he⟩
      by_contra he
      rw [mem, not_or] at he
      rw [same1 e he.1 he.2, out0 e he.1, entered.alloc] at h
      exact he.2 h
    · rw [Finset.mem_insert, ← entered.names q]
      constructor
      · rintro ⟨e, he, hkey⟩
        rcases (mem e).mp he with rfl | he
        · exact .inl (pthread_to_int_injective (hkey.symm.trans key))
        · exact .inr ⟨e, he, (keys e he).symm.trans hkey⟩
      · rintro (rfl | ⟨e, he, hkey⟩)
        · exact ⟨n, (mem n).mpr (.inl rfl), key⟩
        · exact ⟨e, (mem e).mpr (.inr he), (keys e he).trans hkey⟩
    · rcases (mem e).mp he with rfl | he
      · exact ⟨p, key⟩
      · obtain ⟨q, hq⟩ := entered.owned e he
        exact ⟨q, (keys e he).trans hq⟩

/-- The loop of `neb_thread_deinit` is the one that removes every object of a tree. -/
theorem thread_rbt_clear_eq (fuel turns : Nat) (s : State) (node : Ptr) :
    threadRbtClear fuel turns s node =
      (rbTreeRemoveAll fuel turns s.threadRbt node).map
        (fun r => { s with threadRbt := r.1 }) := by
  induction turns generalizing s node with
  | zero => rfl
  | succ turns ih =>
    cases node with
    | null => rfl
    | slot => rfl
    | node a =>
      rw [threadRbtClear, rbTreeRemoveAll]
      cases rbTreeIterate fuel s.threadRbt (.node a) .right with
      | none => rfl
      | some next =>
        cases rbTreeRemoveNode fuel s.threadRbt a with
        | none => rfl
        | some t =>
          cases hfree : t.free a with
          | none => simp [threadRbtNodeDel, hfree]
          | some t' =>
            simp only [threadRbtNodeDel, hfree, ih, Option.bind_eq_bind, Option.bind_some,
              Option.map_some]
            cases rbTreeRemoveAll fuel turns t' next with
            | none => rfl
            | some r => rfl

theorem entered_nil {rbt : RbTree} {ptid : NodeAddr → Int} (holds : Holds rbt [])
    (alloc : ∀ a, rbt.nodes a = none) : Entered rbt ptid [] ∅ :=
  ⟨holds, List.Pairwise.nil, fun a => by simp [alloc a], fun p => by simp, by simp⟩

/-- After `neb_thread_deinit` nothing is allocated. -/
theorem neb_thread_deinit_spec (entered : Entered s.threadRbt s.ptid xs r)
    (closed : s.threadRbtOk = false → xs = []) (enough : turns xs.length ≤ fuel)
    (long : xs.length < fuel) :
    ∃ rbt, nebThreadDeinit fuel s = some { s with
        threadRbtLockOk := false, threadRbtOk := false, threadExitKeyOk := false,
        threadReadySem := false, threadRbt := rbt } ∧ Entered rbt s.ptid [] ∅ := by
  cases hok : s.threadRbtOk with
  | false =>
    obtain rfl := closed hok
    refine ⟨s.threadRbt, ?_, entered_nil entered.holds (fun a => ?_)⟩
    · simp [nebThreadDeinit, hok]
    · by_contra h
      have := (entered.alloc a).mp (Option.ne_none_iff_isSome.mp h)
      cases this
  | true =>
    obtain ⟨t', eval, holds', same'⟩ := rb_tree_remove_all_spec entered.holds enough long
    have first := rb_tree_iterate_null entered.holds fuel .left
    refine ⟨t', ?_, entered_nil holds' (fun a => ?_)⟩
    · simp only [nebThreadDeinit, hok, if_true, first, Option.bind_eq_bind, Option.bind_some,
        thread_rbt_clear_eq, endOf, eval, Option.map_some]
    · rw [same']
      split_ifs with ha
      · rfl
      · by_contra h
        exact ha ((entered.alloc a).mp (Option.ne_none_iff_isSome.mp h))

end Steps

end Nebase.Thread.Registry
