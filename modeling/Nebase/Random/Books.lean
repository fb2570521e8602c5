/- The books of a random pool: what its slices and counters hold after any run of calls. -/

import Nebase.Random.Pool

set_option autoImplicit false
set_option relaxedAutoImplicit false

namespace Nebase.Random

open Nebase.Foundation
open Nebase.Foundation.Machine (run run_cons_eq_some invariant_run StepsMeet)
open Nebase.Foundation.TailQueue (Queues IsTailq)

/-- The node an add takes from the obstack. -/
def PoolCall.added : PoolCall → Option NodeAddr
  | .add n _ _ => some n
  | _ => none

/-- The nodes in the slices of a bucket. -/
def sliceNodes (lists : Fin 10 → List NodeAddr) : List NodeAddr :=
  (List.finRange 10).flatMap lists

/-- The books of a pool to which the nodes `added` were added. -/
structure PoolBooks (p : NebRandomPool) (added : List NodeAddr) (lists : Fin 10 → List NodeAddr)
    (inUse : List NodeAddr) : Prop where
  slices : Function.Bijective (fun i : Fin 10 => p.bucket.slices i)
  list : ∀ s, IsTailq p.mem (p.bucket.nlist s) (lists s)
  used : IsTailq p.mem .inUse inUse
  counts : ∀ s, p.bucket.sliceCount s = (lists s).length
  total : p.bucket.count = ∑ s, p.bucket.sliceCount s
  ordered : ∀ i j, i ≤ j → j < RANDOM_POOL_SLICE_RANDOM_NUMBER →
    p.bucket.sliceCount (p.bucket.slices i) ≤ p.bucket.sliceCount (p.bucket.slices j)
  placed : (sliceNodes lists ++ inUse).Perm added
  once : (sliceNodes lists ++ inUse).Nodup

theorem Distinct.bijective {slices : Nat → Fin 10} (d : Distinct slices) :
    Function.Bijective (fun i : Fin 10 => slices i) := by
  have inj : Function.Injective (fun i : Fin 10 => slices i) := by
    intro i j hij
    exact Fin.ext (d i.isLt j.isLt hij)
  exact Finite.injective_iff_bijective.mp inj

section Lists

variable {p : NebRandomPool} {L : ListHead → List NodeAddr}

private theorem sliceNodes_length (lists : Fin 10 → List NodeAddr) :
    (sliceNodes lists).length = ∑ s, (lists s).length := by
  rw [sliceNodes, List.length_flatMap, ← List.ofFn_eq_map, List.sum_ofFn]

private theorem queues_once (Q : Queues p.mem (poolHeads p.bucket.addr) L) :
    (sliceNodes (fun s => L (p.bucket.nlist s)) ++ L .inUse).Nodup := by
  have heads : ∀ s, p.bucket.nlist s ∈ poolHeads p.bucket.addr := fun s => Or.inr ⟨s, rfl⟩
  have hin : ListHead.inUse ∈ poolHeads p.bucket.addr := Or.inl rfl
  have slices : (sliceNodes (fun s => L (p.bucket.nlist s))).Nodup := by
    rw [sliceNodes, List.nodup_flatMap]
    refine ⟨fun s _ => Q.nodup _ (heads s), ?_⟩
    refine (List.nodup_finRange 10).imp ?_
    intro s t hne
    exact Q.disjoint _ (heads s) _ (heads t) (by simpa [NebRandomBucket.nlist] using hne)
  refine List.Nodup.append slices (Q.nodup _ hin) ?_
  intro n hslice huse
  obtain ⟨s, -, hs⟩ := List.mem_flatMap.mp hslice
  exact Q.disjoint _ (heads s) _ hin (by simp [NebRandomBucket.nlist]) hs huse

private theorem queues_subset
    (known : ∀ h ∈ poolHeads p.bucket.addr, ∀ n ∈ L h, n ∈ p.nodes) :
    sliceNodes (fun s => L (p.bucket.nlist s)) ++ L .inUse ⊆ p.nodes := by
  intro n hn
  rcases List.mem_append.mp hn with hslice | huse
  · obtain ⟨s, -, hs⟩ := List.mem_flatMap.mp hslice
    exact known _ (Or.inr ⟨s, rfl⟩) n hs
  · exact known _ (Or.inl rfl) n huse

end Lists

/-! What the calls do to the counters and to the list of nodes. -/

theorem nebRandomBucketPut_count {draw : Nat} {n : NodeAddr} {b b' : NebRandomBucket}
    {m m' : NodeMem} (put : nebRandomBucketPut draw n b m = some (b', m')) :
    b'.count = b.count + 1 := by
  simp only [nebRandomBucketPut, Option.bind_eq_bind, Option.bind_eq_some_iff,
    Option.some.injEq, Prod.mk.injEq] at put
  obtain ⟨_, -, _, -, _, -, rfl, -⟩ := put
  rfl

private theorem pickScan_count {k rn stop : Nat} {b b' : NebRandomBucket} {m m' : NodeMem}
    {n : Option NodeAddr} (scan : pickScan k rn b m = some (n, stop, b', m')) :
    b'.count = b.count - n.toList.length := by
  induction k generalizing rn with
  | zero =>
    simp only [pickScan, Option.some.injEq, Prod.mk.injEq] at scan
    obtain ⟨rfl, -, rfl, -⟩ := scan
    simp
  | succ k ih =>
    simp only [pickScan, Option.bind_eq_bind, Option.bind_eq_some_iff] at scan
    obtain ⟨s, -, scan⟩ := scan
    split at scan
    · simp only [Option.some.injEq, Prod.mk.injEq] at scan
      obtain ⟨rfl, -, rfl, -⟩ := scan
      simp
    · exact ih scan

theorem nebRandomBucketPick_count {draw : Nat} {n : Option NodeAddr} {b b' : NebRandomBucket}
    {m m' : NodeMem} (pick : nebRandomBucketPick draw b m = some (n, b', m')) :
    b'.count + n.toList.length = b.count := by
  unfold nebRandomBucketPick at pick
  split_ifs at pick with empty
  · simp only [Option.some.injEq, Prod.mk.injEq] at pick
    obtain ⟨rfl, rfl, -⟩ := pick
    simp
  · simp only [Option.bind_eq_bind, Option.bind_eq_some_iff, Option.some.injEq,
      Prod.mk.injEq, Prod.exists] at pick
    obtain ⟨_, -, n', _, b'', _, hscan, _, -, rfl, rfl, -⟩ := pick
    have hcount := pickScan_count hscan
    have hlen : n'.toList.length ≤ 1 := by
      cases n' <;> simp
    change b''.count + n'.toList.length = b.count
    omega

/-- Every node that was ever added is counted once: in the bucket or in use. -/
def Counted (st : PoolState) (added : List NodeAddr) : Prop :=
  st.pool.nodes.Perm added ∧ st.pool.nodes.Nodup ∧
    st.pool.bucket.count + st.picked.length = st.pool.nodes.length

private theorem poolStep_counted {st st' : PoolState} {call : PoolCall} {added : List NodeAddr}
    (counted : Counted st added) (step : poolStep st call = some st') :
    Counted st' (added ++ call.added.toList) := by
  obtain ⟨hperm, hnodup, hcount⟩ := counted
  cases call with
  | add n value draw =>
    simp only [poolStep] at step
    split_ifs at step with guard
    simp only [nebRandomPoolAdd, Option.bind_eq_bind, Option.map_eq_some_iff,
      Option.bind_eq_some_iff, Option.some.injEq, Prod.exists] at step
    obtain ⟨_, ⟨b', m', hput, rfl⟩, rfl⟩ := step
    have hb := nebRandomBucketPut_count hput
    refine ⟨(hperm.cons n).trans (List.perm_append_singleton n added).symm,
      List.nodup_cons.mpr ⟨guard.1, hnodup⟩, ?_⟩
    rw [List.length_cons]
    change b'.count + st.picked.length = st.pool.nodes.length + 1
    omega
  | pick draw =>
    simp only [poolStep] at step
    split_ifs at step with guard
    simp only [nebRandomPoolPick, Option.bind_eq_bind, Option.map_eq_some_iff,
      Option.bind_eq_some_iff, Option.some.injEq, Prod.exists, Prod.mk.injEq] at step
    obtain ⟨_, _, ⟨n, b', m', hpick, rfl, rfl⟩, rfl⟩ := step
    have hb := nebRandomBucketPick_count hpick
    refine ⟨by simpa [PoolCall.added] using hperm, hnodup, ?_⟩
    rw [List.length_append]
    change b'.count + (n.toList.length + st.picked.length) = st.pool.nodes.length
    omega
  | put n draw =>
    simp only [poolStep] at step
    split_ifs at step with guard
    simp only [nebRandomPoolPut, Option.bind_eq_bind, Option.map_eq_some_iff,
      Option.bind_eq_some_iff, Option.some.injEq, Prod.exists] at step
    obtain ⟨_, ⟨b', m', hput, rfl⟩, rfl⟩ := step
    have hb := nebRandomBucketPut_count hput
    have hlen := List.length_erase_add_one guard.1
    refine ⟨by simpa [PoolCall.added] using hperm, hnodup, ?_⟩
    change b'.count + (st.picked.erase n).length = st.pool.nodes.length
    omega
  | confuse fuel draw =>
    simp only [poolStep, nebRandomPoolConfuse, Option.bind_eq_bind, Option.map_eq_some_iff,
      Option.bind_eq_some_iff, Option.some.injEq] at step
    obtain ⟨_, ⟨m', -, rfl⟩, rfl⟩ := step
    exact ⟨by simpa [PoolCall.added] using hperm, hnodup, hcount⟩

private theorem poolRun_counted {calls : List PoolCall} {st st' : PoolState}
    {added : List NodeAddr} (counted : Counted st added)
    (reached : run poolStep st calls = some st') :
    Counted st' (added ++ calls.filterMap PoolCall.added) := by
  induction calls generalizing st added with
  | nil =>
    obtain rfl := Option.some.inj reached
    simpa using counted
  | cons call calls ih =>
    obtain ⟨s1, hstep, hrest⟩ := run_cons_eq_some.mp reached
    have h := ih (poolStep_counted counted hstep) hrest
    have happend : added ++ call.added.toList ++ calls.filterMap PoolCall.added =
        added ++ (call :: calls).filterMap PoolCall.added := by
      rw [List.append_assoc]
      cases hc : call.added <;> simp [hc]
    rwa [happend] at h

/-- After every run of add, pick and put on a fresh pool, whatever is drawn: the pointer array
names each embedded slice once, the counters count the lists and ascend over the first eight
entries, and each node that was added is in one place, a slice or the list of nodes in use. -/
theorem nebRandomPool_keeps_books (addr : Nat) (mem : NodeMem) (calls : List PoolCall)
    (plain : ∀ c ∈ calls, c.isConfuse = false) (st : PoolState)
    (reached : run poolStep (poolInit addr mem) calls = some st) :
    ∃ lists inUse, PoolBooks st.pool (calls.filterMap PoolCall.added) lists inUse := by
  obtain ⟨L, Q, ok, hpicked, known⟩ := poolRun_ok addr mem calls st reached plain
  have start : Counted (poolInit addr mem) [] := ⟨List.Perm.nil, List.nodup_nil, rfl⟩
  obtain ⟨hperm, -, hcount⟩ := poolRun_counted start reached
  have once := queues_once Q
  have hlen : st.pool.nodes.length ≤
      (sliceNodes (fun s => L (st.pool.bucket.nlist s)) ++ L .inUse).length := by
    have htotal := ok.total
    rw [List.length_append, sliceNodes_length, hpicked]
    simp only [ok.counts] at htotal
    omega
  have placed := (List.subperm_of_subset once (queues_subset known)).perm_of_length_le hlen
  refine ⟨fun s => L (st.pool.bucket.nlist s), L .inUse, ?_⟩
  exact {
    slices := ok.distinct.bijective
    list := fun s => Q.repr _ (Or.inr ⟨s, rfl⟩)
    used := Q.repr _ (Or.inl rfl)
    counts := ok.counts
    total := ok.total
    ordered := ok.ascending
    placed := placed.trans (by simpa using hperm)
    once := once }

/-- Three nodes, of which one is picked and put back and another stays in use. -/
private def threeNodes : List PoolCall :=
  [.add 1 10 0, .add 2 20 0, .add 3 30 7, .pick 5, .put 1 1, .pick 5]

theorem nebRandomPool_keeps_books_at_three :
    ∃ st, run poolStep (poolInit 0 blankMem) threeNodes = some st ∧
      ∃ lists inUse, PoolBooks st.pool [1, 2, 3] lists inUse := by
  obtain ⟨st, reached, -⟩ : ∃ st, run poolStep (poolInit 0 blankMem) threeNodes = some st ∧
      st.picked.length = 1 :=
    Machine.run_reaches (by decide +kernel)
  exact ⟨st, reached, nebRandomPool_keeps_books 0 blankMem threeNodes
    (by simp [threeNodes, PoolCall.isConfuse]) st reached⟩

end Nebase.Random
