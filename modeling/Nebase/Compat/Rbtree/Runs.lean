/- A tree in the hands of a client over whole runs: no operation goes wrong, and each answers from
   the set of the objects that are in the tree. -/

import Nebase.Compat.Rbtree.Ops
import Nebase.Foundation.Machine
import Nebase.Foundation.SortedKeys
import Mathlib.Data.Finset.Card

set_option autoImplicit false
set_option relaxedAutoImplicit false

namespace Nebase.Compat.Rbtree

open Nebase.Foundation.RedBlack (Dir Graded)
open Nebase.Foundation.SortedKeys
open Nebase.Foundation.Machine

section Client

variable {ρ : Type}

/-- The comparison functions of a tree whose objects have keys. -/
def opsOf (cmp : ρ → ρ → Int) (key : NodeAddr → ρ) : RbTreeOps ρ where
  compareNodes := fun a b => cmp (key a) (key b)
  compareKey := fun a k => cmp (key a) k

/-- The sign of the comparison is the order of the keys. -/
structure Compares [LinearOrder ρ] (cmp : ρ → ρ → Int) : Prop where
  neg_iff : ∀ x y, cmp x y < 0 ↔ x < y
  pos_iff : ∀ x y, 0 < cmp x y ↔ y < x

/-- The objects have their keys in memory. `held` is the book of the client: the objects it has
inserted and not removed since. -/
structure Client (ρ : Type) where
  tree : RbTree
  key : NodeAddr → ρ
  held : Finset NodeAddr

/-- `prepare` is any access of the client to an object outside the tree: it may be allocated,
written and freed. -/
inductive Request (ρ : Type)
  | prepare (a : NodeAddr) (n : Option RbNode) (k : ρ)
  | insertNode (a : NodeAddr)
  | removeNode (a : NodeAddr)
  | findNode (k : ρ)
  | findNodeGeq (k : ρ)
  | findNodeLeq (k : ρ)
  | iterate (a : Option NodeAddr) (d : Dir)

/-- What is returned, and what is left. -/
def serve (cmp : ρ → ρ → Int) (s : Client ρ) : Nat × Request ρ → Option (Ptr × Client ρ)
  | (_, .prepare a n k) =>
    some (.null, { s with
      tree := { s.tree with nodes := Function.update s.tree.nodes a n }
      key := Function.update s.key a k })
  | (fuel, .insertNode a) => do
    let (t, b) ← rbTreeInsertNode (opsOf cmp s.key) fuel s.tree a
    some (.node b, { s with tree := t, held := if b = a then insert a s.held else s.held })
  | (fuel, .removeNode a) => do
    let t ← rbTreeRemoveNode fuel s.tree a
    some (.null, { s with tree := t, held := s.held.erase a })
  | (fuel, .findNode k) => do
    let p ← rbTreeFindNode (opsOf cmp s.key) fuel s.tree k
    some (p, s)
  | (fuel, .findNodeGeq k) => do
    let p ← rbTreeFindNodeGeq (opsOf cmp s.key) fuel s.tree k
    some (p, s)
  | (fuel, .findNodeLeq k) => do
    let p ← rbTreeFindNodeLeq (opsOf cmp s.key) fuel s.tree k
    some (p, s)
  | (fuel, .iterate a d) => do
    let p ← rbTreeIterate fuel s.tree (toPtr a) d
    some (p, s)

def step (cmp : ρ → ρ → Int) (s : Client ρ) (r : Nat × Request ρ) : Option (Client ρ) :=
  (serve cmp s r).map Prod.snd

def observe (cmp : ρ → ρ → Int) (s : Client ρ) (r : Nat × Request ρ) : List (Request ρ × Ptr) :=
  ((serve cmp s r).map (fun p => (r.2, p.1))).toList

/-- What a caller owes: an object is inserted once, and it is in the tree when it is removed or
stepped from. -/
def Owed (s : Client ρ) : Request ρ → Prop
  | .prepare a _ _ => a ∉ s.held
  | .insertNode a => a ∉ s.held ∧ (s.tree.nodes a).isSome = true
  | .removeNode a => a ∈ s.held
  | .iterate (some a) _ => a ∈ s.held
  | _ => True

instance (s : Client ρ) : ∀ r : Request ρ, Decidable (Owed s r)
  | .prepare a _ _ => inferInstanceAs (Decidable (a ∉ s.held))
  | .insertNode a => inferInstanceAs (Decidable (a ∉ s.held ∧ (s.tree.nodes a).isSome = true))
  | .removeNode a => inferInstanceAs (Decidable (a ∈ s.held))
  | .findNode _ | .findNodeGeq _ | .findNodeLeq _ => inferInstanceAs (Decidable True)
  | .iterate none _ => inferInstanceAs (Decidable True)
  | .iterate (some a) _ => inferInstanceAs (Decidable (a ∈ s.held))

/-- The loops get the turns the size of the tree asks for. -/
def Proper (s : Client ρ) (r : Nat × Request ρ) : Prop := turns s.held.card ≤ r.1 ∧ Owed s r.2

instance (s : Client ρ) (r : Nat × Request ρ) : Decidable (Proper s r) :=
  inferInstanceAs (Decidable (_ ∧ _))

/-- After `rb_tree_init`, with anything in the memory of the objects. -/
def start (nodes : NodeAddr → Option RbNode) (key : NodeAddr → ρ) : Client ρ :=
  ⟨rbTreeInit nodes, key, ∅⟩

/-- The purpose of the tree: a set of objects with distinct keys. -/
structure Index (ρ : Type) where
  key : NodeAddr → ρ
  held : Finset NodeAddr
  distinct : ∀ a ∈ held, ∀ b ∈ held, key a = key b → a = b

def Index.empty (key : NodeAddr → ρ) : Index ρ := ⟨key, ∅, fun _ h => absurd h (by simp)⟩

/-- The answer to a request, and the set after it. -/
def Answers [LinearOrder ρ] (i : Index ρ) (e : Request ρ × Ptr) (j : Index ρ) : Prop :=
  match e with
  | (.prepare a _ k, p) => p = .null ∧ j.key = Function.update i.key a k ∧ j.held = i.held
  | (.insertNode a, p) =>
    j.key = i.key ∧
      ((∃ b ∈ i.held, i.key b = i.key a ∧ p = .node b ∧ j.held = i.held) ∨
        (∀ b ∈ i.held, i.key b ≠ i.key a) ∧ p = .node a ∧ j.held = insert a i.held)
  | (.removeNode a, p) => p = .null ∧ j.key = i.key ∧ j.held = i.held.erase a
  | (.findNode k, p) => j = i ∧ ∃ r, p = toPtr r ∧ Least i.key (fun b => b ∈ i.held ∧ i.key b = k) r
  | (.findNodeGeq k, p) =>
    j = i ∧ ∃ r, p = toPtr r ∧ Least i.key (fun b => b ∈ i.held ∧ k ≤ i.key b) r
  | (.findNodeLeq k, p) =>
    j = i ∧ ∃ r, p = toPtr r ∧ Greatest i.key (fun b => b ∈ i.held ∧ i.key b ≤ k) r
  | (.iterate none .left, p) => j = i ∧ ∃ r, p = toPtr r ∧ Least i.key (· ∈ i.held) r
  | (.iterate none .right, p) => j = i ∧ ∃ r, p = toPtr r ∧ Greatest i.key (· ∈ i.held) r
  | (.iterate (some a) .right, p) =>
    j = i ∧ ∃ r, p = toPtr r ∧ Least i.key (fun b => b ∈ i.held ∧ i.key a < i.key b) r
  | (.iterate (some a) .left, p) =>
    j = i ∧ ∃ r, p = toPtr r ∧ Greatest i.key (fun b => b ∈ i.held ∧ i.key b < i.key a) r

end Client

section Runs

variable {ρ : Type} [LinearOrder ρ] {cmp : ρ → ρ → Int}

theorem Compares.zero_iff (compares : Compares cmp) (x y : ρ) : cmp x y = 0 ↔ x = y := by
  have neg := compares.neg_iff x y
  have pos := compares.pos_iff x y
  constructor
  · intro h
    rw [h] at neg pos
    exact le_antisymm (not_lt.mp (fun h' => absurd (pos.mpr h') (by simp)))
      (not_lt.mp (fun h' => absurd (neg.mpr h') (by simp)))
  · rintro rfl
    have := neg.not.mpr (lt_irrefl x)
    have := pos.not.mpr (lt_irrefl x)
    omega

theorem Compares.nonneg_iff (compares : Compares cmp) (x y : ρ) : 0 ≤ cmp x y ↔ y ≤ x := by
  rw [← not_lt, compares.neg_iff, not_lt]

theorem Compares.nonpos_iff (compares : Compares cmp) (x y : ρ) : cmp x y ≤ 0 ↔ x ≤ y := by
  rw [← not_lt, compares.pos_iff, not_lt]

/-- A list sorted by the keys is in the order of the comparisons. -/
theorem Compares.graded (compares : Compares cmp) {key : NodeAddr → ρ} {xs : List NodeAddr}
    (sorted : Sorted key xs) (k : ρ) : Graded (fun a => cmp (key a) k) xs := by
  refine List.Pairwise.imp (fun {a b} h ha => ?_) sorted
  exact (compares.pos_iff _ _).mpr (lt_of_le_of_lt ((compares.nonneg_iff _ _).mp ha) h)

/-- The nodes of the tree in memory are those of the book, sorted by their keys. -/
structure Shelved (s : Client ρ) (xs : List NodeAddr) : Prop where
  holds : Holds s.tree xs
  sorted : Sorted s.key xs
  book : ∀ a, a ∈ xs ↔ a ∈ s.held

def Sound (s : Client ρ) : Prop := ∃ xs, Shelved s xs

def Agrees (s : Client ρ) (i : Index ρ) : Prop := i.key = s.key ∧ i.held = s.held

theorem Shelved.length {s : Client ρ} {xs : List NodeAddr} (shelved : Shelved s xs) :
    xs.length = s.held.card := by
  have : xs.toFinset = s.held := by
    ext a
    rw [List.mem_toFinset, shelved.book]
  rw [← this, List.toFinset_card_of_nodup shelved.holds.nodup]

/-- The keys in the tree are distinct. -/
theorem Shelved.distinct {s : Client ρ} {xs : List NodeAddr} (shelved : Shelved s xs) :
    ∀ a ∈ s.held, ∀ b ∈ s.held, s.key a = s.key b → a = b := fun _ ha _ hb same =>
  shelved.sorted.injective ((shelved.book _).mpr ha) ((shelved.book _).mpr hb) same

theorem sound_start (nodes : NodeAddr → Option RbNode) (key : NodeAddr → ρ) :
    Sound (start nodes key) :=
  ⟨[], rb_tree_init_holds nodes, List.Pairwise.nil, fun a => by simp [start]⟩

section Serve

variable {s : Client ρ} {xs : List NodeAddr} {fuel : Nat}

/-- What `Proper` and `Sound` give of a request. -/
def Serves (cmp : ρ → ρ → Int) (s : Client ρ) (r : Nat × Request ρ) : Prop :=
  ∃ p s', serve cmp s r = some (p, s') ∧ Sound s' ∧
    ∀ i, Agrees s i → ∃ j, Answers i (r.2, p) j ∧ Agrees s' j

/-- A request that leaves everything as it is. -/
theorem serves_query {r : Nat × Request ρ} {q : Option NodeAddr} (sound : Sound s)
    (eval : serve cmp s r = some (toPtr q, s))
    (answer : ∀ i, Agrees s i → Answers i (r.2, toPtr q) i) : Serves cmp s r :=
  ⟨toPtr q, s, eval, sound, fun i agrees => ⟨i, answer i agrees, agrees⟩⟩

theorem serves_prepare {a : NodeAddr} {n : Option RbNode} {k : ρ} (shelved : Shelved s xs)
    (fresh : a ∉ s.held) : Serves cmp s (fuel, .prepare a n k) := by
  have apart : a ∉ xs := fun h => fresh ((shelved.book a).mp h)
  have other : ∀ b ∈ xs, b ≠ a := fun b hb h => apart (h ▸ hb)
  refine ⟨_, _, rfl, ⟨xs, ?_, ?_, shelved.book⟩, ?_⟩
  · obtain ⟨t, stands, rfl⟩ := shelved.holds
    refine ⟨t, ⟨⟨stands.rep.context, ?_, stands.rep.nodup⟩, stands.redBlack, stands.minmax⟩, rfl⟩
    exact stands.rep.tree.congr (fun b hb => Function.update_of_ne (other b hb) ..)
  · exact shelved.sorted.congr (fun b hb => Function.update_of_ne (other b hb) ..)
  · rintro ⟨key, held, distinct⟩ ⟨rfl, rfl⟩
    refine ⟨⟨Function.update s.key a k, s.held, ?_⟩, ⟨rfl, rfl, rfl⟩, rfl, rfl⟩
    intro b hb c hc same
    rw [Function.update_of_ne (other b ((shelved.book b).mpr hb)),
      Function.update_of_ne (other c ((shelved.book c).mpr hc))] at same
    exact distinct b hb c hc same

theorem serves_insert {a : NodeAddr} (compares : Compares cmp) (shelved : Shelved s xs)
    (fresh : a ∉ s.held) (alloc : (s.tree.nodes a).isSome = true)
    (enough : turns xs.length ≤ fuel) : Serves cmp s (fuel, .insertNode a) := by
  have apart : a ∉ xs := fun h => fresh ((shelved.book a).mp h)
  rcases rb_tree_insert_node_spec (opsOf cmp s.key) shelved.holds
      (compares.graded shelved.sorted (s.key a)) alloc apart enough with
    ⟨b, hb, same, eval⟩ | ⟨ys, zs, t', rfl, less, greater, eval, holds, -⟩
  · have hba : b ≠ a := fun h => apart (h ▸ hb)
    refine ⟨.node b, s, ?_, ⟨xs, shelved⟩, ?_⟩
    · simp [serve, eval, hba]
    · rintro ⟨key, held, distinct⟩ ⟨rfl, rfl⟩
      exact ⟨_, ⟨rfl, .inl ⟨b, (shelved.book b).mp hb, (compares.zero_iff _ _).mp same, rfl, rfl⟩⟩,
        rfl, rfl⟩
  · have below : ∀ b ∈ ys, s.key b < s.key a := fun b hb => (compares.neg_iff _ _).mp (less b hb)
    have above : ∀ b ∈ zs, s.key a < s.key b := fun b hb => (compares.pos_iff _ _).mp (greater b hb)
    have sorted' : Sorted s.key (ys ++ a :: zs) := shelved.sorted.insert below above
    have book' : ∀ b, b ∈ ys ++ a :: zs ↔ b ∈ insert a s.held := by
      intro b
      rw [Finset.mem_insert, ← shelved.book b]
      simp only [List.mem_append, List.mem_cons]
      tauto
    have shelved' : Shelved ⟨t', s.key, insert a s.held⟩ (ys ++ a :: zs) :=
      ⟨holds, sorted', book'⟩
    refine ⟨.node a, _, ?_, ⟨_, shelved'⟩, ?_⟩
    · simp [serve, eval]
    · rintro ⟨key, held, distinct⟩ ⟨rfl, rfl⟩
      refine ⟨⟨s.key, insert a s.held, shelved'.distinct⟩, ⟨rfl, .inr ⟨?_, rfl, rfl⟩⟩, rfl, rfl⟩
      intro b hb same
      rcases List.mem_append.mp ((shelved.book b).mpr hb) with hb | hb
      · exact absurd same (ne_of_lt (below b hb))
      · exact absurd same.symm (ne_of_lt (above b hb))

theorem serves_remove {a : NodeAddr} (shelved : Shelved s xs) (ha : a ∈ s.held)
    (enough : turns xs.length ≤ fuel) : Serves cmp s (fuel, .removeNode a) := by
  obtain ⟨ys, zs, rfl⟩ := List.append_of_mem ((shelved.book a).mpr ha)
  obtain ⟨t', eval, holds, -, -⟩ := rb_tree_remove_node_spec shelved.holds enough
  have nodup := shelved.holds.nodup
  have gone : a ∉ ys ++ zs := by
    rw [List.nodup_middle, List.nodup_cons] at nodup
    exact nodup.1
  have shelved' : Shelved ⟨t', s.key, s.held.erase a⟩ (ys ++ zs) := by
    refine ⟨holds, shelved.sorted.remove, fun b => ?_⟩
    rw [Finset.mem_erase, ← shelved.book b, List.mem_append, List.mem_append, List.mem_cons]
    constructor
    · intro hb
      exact ⟨fun h => gone (h ▸ List.mem_append.mpr hb), by tauto⟩
    · tauto
  refine ⟨.null, _, ?_, ⟨_, shelved'⟩, ?_⟩
  · simp [serve, eval]
  · rintro ⟨key, held, distinct⟩ ⟨rfl, rfl⟩
    exact ⟨⟨s.key, s.held.erase a, shelved'.distinct⟩, ⟨rfl, rfl, rfl⟩, rfl, rfl⟩

/-- The condition of a search, said of the book. -/
theorem Shelved.condition (shelved : Shelved s xs) {P : NodeAddr → Prop} {Q : NodeAddr → Bool}
    (same : ∀ b, P b ↔ Q b = true) (b : NodeAddr) :
    (b ∈ s.held ∧ P b) ↔ b ∈ xs ∧ Q b = true := by
  rw [shelved.book, same]

theorem serves_find {k : ρ} (compares : Compares cmp) (shelved : Shelved s xs)
    (enough : turns xs.length ≤ fuel) : Serves cmp s (fuel, .findNode k) := by
  have eval := rb_tree_find_node_spec (opsOf cmp s.key) shelved.holds
    (compares.graded shelved.sorted k) enough
  refine serves_query ⟨xs, shelved⟩ (by rw [serve, eval]; rfl) ?_
  rintro ⟨key, held, distinct⟩ ⟨rfl, rfl⟩
  refine ⟨rfl, _, rfl, (shelved.sorted.least_find _).congr (shelved.condition fun b => ?_)⟩
  rw [decide_eq_true_eq]
  exact (compares.zero_iff _ _).symm

theorem serves_find_geq {k : ρ} (compares : Compares cmp) (shelved : Shelved s xs)
    (enough : turns xs.length ≤ fuel) : Serves cmp s (fuel, .findNodeGeq k) := by
  have eval := rb_tree_find_node_geq_spec (opsOf cmp s.key) shelved.holds
    (compares.graded shelved.sorted k) enough
  refine serves_query ⟨xs, shelved⟩ (by rw [serve, eval]; rfl) ?_
  rintro ⟨key, held, distinct⟩ ⟨rfl, rfl⟩
  refine ⟨rfl, _, rfl, (shelved.sorted.least_find _).congr (shelved.condition fun b => ?_)⟩
  rw [decide_eq_true_eq]
  exact (compares.nonneg_iff _ _).symm

theorem serves_find_leq {k : ρ} (compares : Compares cmp) (shelved : Shelved s xs)
    (enough : turns xs.length ≤ fuel) : Serves cmp s (fuel, .findNodeLeq k) := by
  have eval := rb_tree_find_node_leq_spec (opsOf cmp s.key) shelved.holds
    (compares.graded shelved.sorted k) enough
  refine serves_query ⟨xs, shelved⟩ (by rw [serve, eval]; rfl) ?_
  rintro ⟨key, held, distinct⟩ ⟨rfl, rfl⟩
  refine ⟨rfl, _, rfl, (shelved.sorted.greatest_filter _).congr (shelved.condition fun b => ?_)⟩
  rw [decide_eq_true_eq]
  exact (compares.nonpos_iff _ _).symm

theorem serves_iterate_null {d : Dir} (shelved : Shelved s xs) :
    Serves cmp s (fuel, .iterate none d) := by
  have eval := rb_tree_iterate_null shelved.holds fuel d
  refine serves_query (q := endOf d xs) ⟨xs, shelved⟩ ?_ ?_
  · rw [serve, to_ptr_none, eval]
    rfl
  · rintro ⟨key, held, distinct⟩ ⟨rfl, rfl⟩
    cases d with
    | left => exact ⟨rfl, _, rfl, shelved.sorted.least_head.congr (fun b => (shelved.book b).symm)⟩
    | right =>
      exact ⟨rfl, _, rfl, shelved.sorted.greatest_last.congr (fun b => (shelved.book b).symm)⟩

theorem serves_iterate {a : NodeAddr} {d : Dir} (shelved : Shelved s xs) (ha : a ∈ s.held)
    (enough : turns xs.length ≤ fuel) : Serves cmp s (fuel, .iterate (some a) d) := by
  obtain ⟨ys, zs, rfl⟩ := List.append_of_mem ((shelved.book a).mpr ha)
  obtain ⟨next, prev⟩ := rb_tree_iterate_spec shelved.holds enough
  cases d with
  | left =>
    refine serves_query (q := ys.getLast?) ⟨_, shelved⟩ ?_ ?_
    · rw [serve, to_ptr_some, prev]
      rfl
    · rintro ⟨key, held, distinct⟩ ⟨rfl, rfl⟩
      exact ⟨rfl, _, rfl, shelved.sorted.greatest_prev.congr
        (fun b => and_congr_left fun _ => (shelved.book b).symm)⟩
  | right =>
    refine serves_query (q := zs.head?) ⟨_, shelved⟩ ?_ ?_
    · rw [serve, to_ptr_some, next]
      rfl
    · rintro ⟨key, held, distinct⟩ ⟨rfl, rfl⟩
      exact ⟨rfl, _, rfl, shelved.sorted.least_next.congr
        (fun b => and_congr_left fun _ => (shelved.book b).symm)⟩

theorem sound_serves (compares : Compares cmp) {r : Nat × Request ρ} (sound : Sound s)
    (proper : Proper s r) : Serves cmp s r := by
  obtain ⟨xs, shelved⟩ := sound
  obtain ⟨fuel, r⟩ := r
  obtain ⟨enough, owed⟩ := proper
  rw [← shelved.length] at enough
  match r, owed with
  | .prepare a n k, owed => exact serves_prepare shelved owed
  | .insertNode a, owed => exact serves_insert compares shelved owed.1 owed.2 enough
  | .removeNode a, owed => exact serves_remove shelved owed enough
  | .findNode k, _ => exact serves_find compares shelved enough
  | .findNodeGeq k, _ => exact serves_find_geq compares shelved enough
  | .findNodeLeq k, _ => exact serves_find_leq compares shelved enough
  | .iterate none d, _ => exact serves_iterate_null shelved
  | .iterate (some a) d, owed => exact serves_iterate shelved owed enough

end Serve

theorem sound_step (compares : Compares cmp) {s : Client ρ} {r : Nat × Request ρ}
    (sound : Sound s) (proper : Proper s r) : ∃ t, step cmp s r = some t ∧ Sound t := by
  obtain ⟨p, s', eval, sound', -⟩ := sound_serves compares sound proper
  exact ⟨s', by rw [step, eval]; rfl, sound'⟩

theorem sound_preserved (compares : Compares cmp) (s : Client ρ) (r : Nat × Request ρ)
    (t : Client ρ) (sound : Sound s) (proper : Proper s r) (taken : step cmp s r = some t) :
    Sound t := by
  obtain ⟨t', taken', sound'⟩ := sound_step compares sound proper
  obtain rfl := Option.some.inj (taken.symm.trans taken')
  exact sound'

theorem answers_step (compares : Compares cmp) {s t : Client ρ} {r : Nat × Request ρ} {i : Index ρ}
    (related : Sound s ∧ Agrees s i) (proper : Proper s r) (taken : step cmp s r = some t) :
    ∃ j, Accepts Answers i (observe cmp s r) j ∧ Sound t ∧ Agrees t j := by
  obtain ⟨p, s', eval, sound', answers⟩ := sound_serves compares related.1 proper
  obtain ⟨j, answer, agrees⟩ := answers i related.2
  rw [step, eval] at taken
  obtain rfl := Option.some.inj taken
  refine ⟨j, ?_, sound', agrees⟩
  rw [observe, eval]
  exact Accepts.single answer

/-- Every request of a proper run is served, and the memory holds a red-black tree of the objects
in the book, sorted by their keys, after each. -/
theorem rbTree_runs_sound (compares : Compares cmp) (nodes : NodeAddr → Option RbNode)
    (key : NodeAddr → ρ) (rs : List (Nat × Request ρ))
    (proper : StepsMeet (step cmp) Proper (start nodes key) rs) :
    (∃ t, run (step cmp) (start nodes key) rs = some t) ∧
      AllStates (step cmp) Sound (start nodes key) rs := by
  constructor
  · obtain ⟨t, reached, -⟩ := run_enabled (fun s r sound proper => sound_step compares sound proper)
      (sound_start nodes key) proper
    exact ⟨t, reached⟩
  · exact AllStates.of_invariant (fun s h => h) (sound_preserved compares) (sound_start nodes key)
      proper

/-- The keys are numbers, compared by their difference. -/
def fiveObjects : List (Nat × Request Int) :=
  let n : RbNode := ⟨.null, .null, .null, .left, .black⟩
  [(9, .prepare 1 (some n) 20), (9, .prepare 2 (some n) 10), (9, .prepare 3 (some n) 30),
    (9, .prepare 4 (some n) 20), (9, .prepare 5 (some n) 15), (9, .insertNode 1),
    (9, .insertNode 2), (9, .insertNode 3), (9, .insertNode 4), (9, .findNodeGeq 12),
    (9, .insertNode 5), (9, .removeNode 1), (9, .iterate (some 2) .right), (9, .findNode 20)]

theorem rbTree_runs_sound_five_objects :
    (∃ t, run (step (· - ·)) (start (fun _ => none) (fun _ => 0)) fiveObjects = some t) ∧
      AllStates (step (· - ·)) Sound (start (fun _ => none) (fun _ => 0)) fiveObjects :=
  rbTree_runs_sound ⟨fun x y => by omega, fun x y => by omega⟩ _ _ _ (by decide)

/-- The answers along a proper run are those of the set of objects. -/
theorem rbTree_runs_answers (compares : Compares cmp) (nodes : NodeAddr → Option RbNode)
    (key : NodeAddr → ρ) (rs : List (Nat × Request ρ))
    (proper : StepsMeet (step cmp) Proper (start nodes key) rs) :
    ∃ t i, run (step cmp) (start nodes key) rs = some t ∧
      Accepts Answers (Index.empty key) (trace (step cmp) (observe cmp) (start nodes key) rs) i ∧
      i.held = t.held := by
  obtain ⟨t, reached, -⟩ := run_enabled (fun s r sound proper => sound_step compares sound proper)
    (sound_start nodes key) proper
  have related : Sound (start nodes key) ∧ Agrees (start nodes key) (Index.empty key) :=
    ⟨sound_start nodes key, rfl, rfl⟩
  obtain ⟨i, accepted, -, -, held⟩ := simulation_run
    (fun s r t i related proper taken => answers_step compares related proper taken)
    related proper reached
  exact ⟨t, i, reached, accepted, held⟩

theorem rbTree_runs_answers_five_objects :
    ∃ t i, run (step (· - ·)) (start (fun _ => none) (fun _ => 0)) fiveObjects = some t ∧
      Accepts Answers (Index.empty fun _ => 0)
        (trace (step (· - ·)) (observe (· - ·)) (start (fun _ => none) (fun _ => 0)) fiveObjects)
        i ∧ i.held = t.held :=
  rbTree_runs_answers ⟨fun x y => by omega, fun x y => by omega⟩ _ _ _ (by decide)

end Runs

end Nebase.Compat.Rbtree
