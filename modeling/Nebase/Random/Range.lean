/- Adding a range of values to a random pool or ring: the loop over an `int` and its overflow. -/

import Mathlib.Tactic.Linarith
import Nebase.Random.Pool

set_option autoImplicit false
set_option relaxedAutoImplicit false

namespace Nebase.Random

open Nebase.Foundation
open Nebase.Foundation.Machine (run run_cons run_cons_eq_some)

def INT_MAX : Int := 2147483647

/-- How a call of `add_range` ends: with its return value, or in the signed overflow of
`i += step`. -/
inductive RangeEnd (σ : Type)
  | returned (rc : Int) (s : σ)
  | overflow

/-- The loop of the `add_range` functions at its iteration `k`, where `add k` is the add function
with what its allocation and `arc4random_uniform` return then; `none` when `fuel` runs out. -/
def addRangeLoop {σ : Type} (add : Nat → Int → σ → Option (Int × σ)) (max step : Int) :
    Nat → Nat → Int → σ → Option (RangeEnd σ)
  | 0, _, _, _ => none
  | fuel + 1, k, i, p =>
    if i ≤ max then do
      let (rc, p) ← add k i p
      if rc ≠ 0 then
        some (.returned (-1) p)
      else if i + step ≤ INT_MAX then
        addRangeLoop add max step fuel (k + 1) (i + step) p
      else
        some .overflow
    else
      some (.returned 0 p)

/-- The `step` of the loop. -/
def rangeStep (step : Int) : Int := if step ≤ 0 then 1 else step

/-- `neb_random_pool_add` with the address that `obstack_alloc` returns, or `NULL`. -/
def poolAddTry (draw : Nat) (alloc : Option NodeAddr) (value : Int) (p : NebRandomPool) :
    Option (Int × NebRandomPool) :=
  match alloc with
  | none => some (-1, p)
  | some n => (nebRandomPoolAdd draw n value p).map (fun p => (0, p))

def ringAddTry (draw : Nat) (alloc : Option NodeAddr) (value : Int) (r : NebRandomRing) :
    Option (Int × NebRandomRing) :=
  match alloc with
  | none => some (-1, r)
  | some n => (nebRandomRingAdd draw n value r).map (fun r => (0, r))

/-- `alloc k` and `draw k` are the results of `obstack_alloc` and `arc4random_uniform` in the
iteration `k` of the loop. -/
def nebRandomPoolAddRange (alloc : Nat → Option NodeAddr) (draw : Nat → Nat) (min max step : Int)
    (fuel : Nat) (p : NebRandomPool) : Option (RangeEnd NebRandomPool) :=
  addRangeLoop (fun k => poolAddTry (draw k) (alloc k)) max (rangeStep step) fuel 0 min p

def nebRandomRingAddRange (alloc : Nat → Option NodeAddr) (draw : Nat → Nat) (min max step : Int)
    (fuel : Nat) (r : NebRandomRing) : Option (RangeEnd NebRandomRing) :=
  addRangeLoop (fun k => ringAddTry (draw k) (alloc k)) max (rangeStep step) fuel 0 min r

/-- The values `i`, `i + s`, ... of `n` iterations, each with the number of its iteration. -/
def rangeAdds (s : Int) : Nat → Nat → Int → List (Nat × Int)
  | 0, _, _ => []
  | n + 1, k, i => (k, i) :: rangeAdds s n (k + 1) (i + s)

/-- The call terminates without overflow, and adds what adding the values `min`, `min + s`, ... up
to `max` one by one adds: `one` is a single add, and `entries` are the values a pool holds. -/
def AddsRange {σ : Type} (call : Nat → σ → Option (RangeEnd σ)) (one : σ → Nat × Int → Option σ)
    (entries : σ → List Int) (min max s : Int) (p : σ) : Prop :=
  ∃ fuel p' adds, call fuel p = some (.returned 0 p') ∧ run one p adds = some p' ∧
    (adds.map Prod.snd).Nodup ∧
    (∀ v, v ∈ adds.map Prod.snd ↔ ∃ k : Nat, v = min + s * k ∧ v ≤ max) ∧
    entries p' = (adds.map Prod.snd).reverse ++ entries p

/-- The first value of the progression above `max` is an `int`, if the progression starts. -/
def RangeFits (min max s : Int) : Prop :=
  min ≤ max → min + s * ((max - min) / s + 1) ≤ INT_MAX

section Loop

variable {σ : Type} {add : Nat → Int → σ → Option (Int × σ)} {one : σ → Nat × Int → Option σ}
  {max s : Int}

private theorem addRangeLoop_run
    (single : ∀ k v p, add k v p = (one p (k, v)).map (fun q => (0, q))) (hs : 0 < s) (n k : Nat)
    (i : Int) (p q : σ) (reached : run one p (rangeAdds s n k i) = some q)
    (below : n = 0 ∨ i + s * (n - 1 : Nat) ≤ max) (above : max < i + s * n)
    (fits : n = 0 ∨ i + s * n ≤ INT_MAX) :
    addRangeLoop add max s (n + 1) k i p = some (.returned 0 q) := by
  induction n generalizing k i p with
  | zero =>
    obtain rfl := Option.some.inj reached
    have hlt : ¬ i ≤ max := by
      rw [Nat.cast_zero, mul_zero] at above
      omega
    simp only [addRangeLoop, if_neg hlt]
  | succ n ih =>
    obtain ⟨p1, hone, hrest⟩ := run_cons_eq_some.mp reached
    have hmul : s * ((n + 1 : Nat) : Int) = s * n + s := by
      push_cast
      ring
    have hnonneg : 0 ≤ s * (n : Int) := Int.mul_nonneg hs.le (Int.natCast_nonneg n)
    simp only [Nat.add_eq_zero_iff, one_ne_zero, and_false, false_or, Nat.add_sub_cancel]
      at below fits
    have hle : i ≤ max := by omega
    have hfit : i + s ≤ INT_MAX := by omega
    have tail := ih (k + 1) (i + s) p1 hrest ?_ (by omega) (Or.inr (by omega))
    · rw [addRangeLoop, if_pos hle, single, hone]
      simpa [hfit] using tail
    · cases n with
      | zero => exact Or.inl rfl
      | succ n =>
        right
        rw [Nat.add_sub_cancel]
        push_cast at below
        linarith

private theorem addRangeLoop_overflow
    (single : ∀ k v p, add k v p = (one p (k, v)).map (fun q => (0, q))) (hs : 0 < s) (n k : Nat)
    (i : Int) (below : i + s * n ≤ max) (high : INT_MAX < i + s * (n + 1)) (fuel : Nat)
    (p q : σ) : addRangeLoop add max s fuel k i p ≠ some (.returned 0 q) := by
  induction n generalizing k i p fuel with
  | zero =>
    cases fuel with
    | zero => simp [addRangeLoop]
    | succ fuel =>
      have hle : i ≤ max := by simpa using below
      have hfit : ¬ i + s ≤ INT_MAX := by simpa using high
      rw [addRangeLoop, if_pos hle, single]
      cases one p (k, i) <;> simp [hfit]
  | succ n ih =>
    cases fuel with
    | zero => simp [addRangeLoop]
    | succ fuel =>
      push_cast at below high
      have hnonneg : 0 ≤ s * (n : Int) := Int.mul_nonneg hs.le (Int.natCast_nonneg n)
      have hle : i ≤ max := by linarith
      rw [addRangeLoop, if_pos hle, single]
      cases hone : one p (k, i) with
      | none => simp
      | some p1 =>
        by_cases hfit : i + s ≤ INT_MAX
        · have tail := ih (k + 1) (i + s) (by linarith) (by linarith) fuel p1
          simpa [hfit] using tail
        · simp [hfit]

/-- The number of values of the progression. -/
private theorem range_count (hs : 0 < s) (min max : Int) :
    ∃ n : Nat, (n = 0 ∨ min + s * (n - 1 : Nat) ≤ max) ∧ max < min + s * n ∧
      (n = 0 ↔ max < min) ∧ (min ≤ max → (n : Int) = (max - min) / s + 1) := by
  by_cases hle : min ≤ max
  · have hquot : 0 ≤ (max - min) / s := Int.ediv_nonneg (by omega) hs.le
    have hdiv := Int.mul_ediv_add_emod (max - min) s
    have hmod := Int.emod_nonneg (max - min) (ne_of_gt hs)
    have hlt := Int.emod_lt_of_pos (max - min) hs
    refine ⟨((max - min) / s).toNat + 1, Or.inr ?_, ?_, by omega, fun _ => by omega⟩
    · rw [Nat.add_sub_cancel, Int.toNat_of_nonneg hquot]
      omega
    · push_cast
      rw [Int.toNat_of_nonneg hquot, mul_add, mul_one]
      omega
  · refine ⟨0, Or.inl rfl, ?_, by omega, fun h => absurd h hle⟩
    rw [Nat.cast_zero, mul_zero]
    omega

private theorem rangeAdds_values (n k : Nat) (i : Int) :
    (rangeAdds s n k i).map Prod.snd = (List.range n).map (fun j : Nat => i + s * j) := by
  induction n generalizing k i with
  | zero => simp [rangeAdds]
  | succ n ih =>
    rw [rangeAdds, List.map_cons, ih, List.range_succ_eq_map, List.map_cons, List.map_map]
    congr 1
    · simp
    · apply List.map_congr_left
      intro j _
      simp only [Function.comp_apply]
      push_cast
      ring

private theorem rangeAdds_mem (hs : 0 < s) {n : Nat} {min : Int}
    (below : n = 0 ∨ min + s * (n - 1 : Nat) ≤ max) (above : max < min + s * n) (v : Int) :
    v ∈ (rangeAdds s n 0 min).map Prod.snd ↔ ∃ k : Nat, v = min + s * k ∧ v ≤ max := by
  rw [rangeAdds_values, List.mem_map]
  constructor
  · rintro ⟨j, hj, rfl⟩
    have hlt := List.mem_range.mp hj
    refine ⟨j, rfl, ?_⟩
    rcases below with rfl | below
    · omega
    · have hmono : s * (j : Int) ≤ s * ((n - 1 : Nat) : Int) :=
        Int.mul_le_mul_of_nonneg_left (by omega) hs.le
      omega
  · rintro ⟨k, rfl, hle⟩
    have hlt : s * (k : Int) < s * n := by omega
    have hk := lt_of_mul_lt_mul_left hlt hs.le
    exact ⟨k, List.mem_range.mpr (by omega), rfl⟩

private theorem rangeAdds_nodup (hs : 0 < s) (n k : Nat) (i : Int) :
    ((rangeAdds s n k i).map Prod.snd).Nodup := by
  rw [rangeAdds_values]
  refine (List.nodup_range).map ?_
  intro a b hab
  have hmul : s * (a : Int) = s * b := by simpa using hab
  exact_mod_cast mul_left_cancel₀ (ne_of_gt hs) hmul

/-- The loop adds the range exactly when no overflow comes first, if single adds succeed. -/
private theorem addsRange_iff
    (single : ∀ k v p, add k v p = (one p (k, v)).map (fun q => (0, q))) (hs : 0 < s) (min : Int)
    {entries : σ → List Int} (p : σ)
    (adds : ∀ n, ∃ q, run one p (rangeAdds s n 0 min) = some q ∧
      entries q = ((rangeAdds s n 0 min).map Prod.snd).reverse ++ entries p) :
    AddsRange (fun fuel => addRangeLoop add max s fuel 0 min) one entries min max s p ↔
      RangeFits min max s := by
  obtain ⟨n, below, above, hempty, hcount⟩ := range_count hs min max
  constructor
  · rintro ⟨fuel, q, -, hcall, -⟩ hle
    by_contra hhigh
    have hn : ((n - 1 : Nat) : Int) + 1 = (max - min) / s + 1 := by
      have := hcount hle
      omega
    rcases below with hzero | below
    · exact absurd (hempty.mp hzero) (by omega)
    · refine addRangeLoop_overflow single hs (n - 1) 0 min below ?_ fuel p q hcall
      rw [hn]
      omega
  · intro fits
    obtain ⟨q, hrun, hentries⟩ := adds n
    refine ⟨n + 1, q, rangeAdds s n 0 min, ?_, hrun, rangeAdds_nodup hs n 0 min,
      rangeAdds_mem hs below above, hentries⟩
    refine addRangeLoop_run single hs n 0 min p q hrun below above ?_
    by_cases hle : min ≤ max
    · rw [hcount hle]
      exact Or.inr (fits hle)
    · exact Or.inl (hempty.mpr (by omega))

/-- Adding one by one, where every add finds a fresh node. -/
private theorem run_adds {entries : σ → List Int} {Fresh : Nat → σ → Prop}
    (addOne : ∀ k v p, Fresh k p →
      ∃ q, one p (k, v) = some q ∧ entries q = v :: entries p ∧ Fresh (k + 1) q)
    (n k : Nat) (i : Int) (p : σ) (fresh : Fresh k p) :
    ∃ q, run one p (rangeAdds s n k i) = some q ∧
      entries q = ((rangeAdds s n k i).map Prod.snd).reverse ++ entries p := by
  induction n generalizing k i p with
  | zero => exact ⟨p, rfl, rfl⟩
  | succ n ih =>
    obtain ⟨p1, hone, hentries, fresh1⟩ := addOne k i p fresh
    obtain ⟨q, hrun, hq⟩ := ih (k + 1) (i + s) p1 fresh1
    refine ⟨q, run_cons_eq_some.mpr ⟨p1, hone, hrun⟩, ?_⟩
    rw [hq, hentries, rangeAdds, List.map_cons, List.reverse_cons, List.append_assoc,
      List.singleton_append]

end Loop

/-- One add with the node and the draw of the iteration `k`. -/
def poolAddOne (node draw : Nat → Nat) (p : NebRandomPool) (a : Nat × Int) :
    Option NebRandomPool :=
  nebRandomPoolAdd (draw a.1) (node a.1) a.2 p

def ringAddOne (node draw : Nat → Nat) (r : NebRandomRing) (a : Nat × Int) :
    Option NebRandomRing :=
  nebRandomRingAdd (draw a.1) (node a.1) a.2 r

/-- The values of the nodes, the last one added first. -/
def NebRandomPool.entries (p : NebRandomPool) : List Int := p.nodes.map p.value

def NebRandomRing.entries (r : NebRandomRing) : List Int := r.nodes.map r.value

private theorem putReorder_total (cnt : Fin 10 → Nat) (k i : Nat) (slices : Nat → Fin 10)
    (bound : i + k = 8) : ∃ slices', putReorder cnt k i slices = some slices' := by
  induction k generalizing i slices with
  | zero => exact ⟨slices, rfl⟩
  | succ k ih =>
    have hprev : slot slices (i - 1) = some (slices (i - 1)) := if_pos (by
      simp only [RANDOM_POOL_SLICE_TOTAL_NUMBER]
      omega)
    have hslot : slot slices i = some (slices i) := if_pos (by
      simp only [RANDOM_POOL_SLICE_TOTAL_NUMBER]
      omega)
    simp only [putReorder, hprev, hslot, Option.bind_eq_bind, Option.bind_some]
    split
    · exact ih (i + 1) _ (by omega)
    · exact ⟨slices, rfl⟩

/-- A put succeeds on every bucket. -/
private theorem nebRandomBucketPut_total {draw : Nat} (hdraw : draw < 8) (n : NodeAddr)
    (b : NebRandomBucket) (m : NodeMem) : ∃ b' m', nebRandomBucketPut draw n b m = some (b', m') := by
  have h0 : slot b.slices 0 = some (b.slices 0) := if_pos (by decide)
  generalize hrn : (if b.sliceCount (b.slices 0) < b.count >>> 3 then 0 else draw) = rn
  have hlt : rn < 8 := by
    rw [← hrn]
    split <;> omega
  have hs : slot b.slices rn = some (b.slices rn) := if_pos (by
    simp only [RANDOM_POOL_SLICE_TOTAL_NUMBER]
    omega)
  obtain ⟨slices', hreorder⟩ := putReorder_total
    (Function.update b.sliceCount (b.slices rn) (b.sliceCount (b.slices rn) + 1))
    (RANDOM_POOL_SLICE_RANDOM_NUMBER - (rn + 1)) (rn + 1) b.slices (by
      simp only [RANDOM_POOL_SLICE_RANDOM_NUMBER]
      omega)
  simp only [nebRandomBucketPut, h0, hrn, hs, hreorder, Option.bind_eq_bind, Option.bind_some]
  exact ⟨_, _, rfl⟩

section Adds

variable {node draw : Nat → Nat}

private theorem entries_update {nodes : List NodeAddr} {n : NodeAddr} (fresh : n ∉ nodes)
    (value : NodeAddr → Int) (v : Int) :
    (n :: nodes).map (Function.update value n v) = v :: nodes.map value := by
  rw [List.map_cons, Function.update_self]
  congr 1
  apply List.map_congr_left
  intro k hk
  exact Function.update_of_ne (ne_of_mem_of_not_mem hk fresh) _ _

/-- The nodes from iteration `k` on are new. -/
private def FreshFrom (node : Nat → Nat) (k : Nat) (nodes : List NodeAddr) : Prop :=
  ∀ j, k ≤ j → node j ∉ nodes

private theorem FreshFrom.next (distinct : Function.Injective node) {k : Nat}
    {nodes : List NodeAddr} (fresh : FreshFrom node k nodes) :
    FreshFrom node (k + 1) (node k :: nodes) := by
  intro j hj hmem
  rcases List.mem_cons.mp hmem with heq | hmem
  · have := distinct heq
    omega
  · exact fresh j (by omega) hmem

private theorem poolAddOne_spec (draws : ∀ k, draw k < 8) (distinct : Function.Injective node)
    (k : Nat) (v : Int) (p : NebRandomPool) (fresh : FreshFrom node k p.nodes) :
    ∃ q, poolAddOne node draw p (k, v) = some q ∧ q.entries = v :: p.entries ∧
      FreshFrom node (k + 1) q.nodes := by
  obtain ⟨b', m', hput⟩ := nebRandomBucketPut_total (draws k) (node k) p.bucket p.mem
  refine ⟨{
    bucket := b'
    nodes := node k :: p.nodes
    value := Function.update p.value (node k) v
    mem := m' }, ?_, entries_update (fresh k le_rfl) p.value v, fresh.next distinct⟩
  simp only [poolAddOne, nebRandomPoolAdd, hput, Option.bind_eq_bind, Option.bind_some]

private theorem ringAddOne_spec (draws : ∀ k, draw k < 8) (distinct : Function.Injective node)
    (k : Nat) (v : Int) (r : NebRandomRing) (fresh : FreshFrom node k r.nodes) :
    ∃ q, ringAddOne node draw r (k, v) = some q ∧ q.entries = v :: r.entries ∧
      FreshFrom node (k + 1) q.nodes := by
  obtain ⟨b', m', hput⟩ := nebRandomBucketPut_total (draws k) (node k) r.pickBucket r.mem
  refine ⟨{ r with
    pickBucket := b'
    nodes := node k :: r.nodes
    value := Function.update r.value (node k) v
    mem := m' }, ?_, entries_update (fresh k le_rfl) r.value v, fresh.next distinct⟩
  simp only [ringAddOne, nebRandomRingAdd, hput, Option.bind_eq_bind, Option.bind_some]

private theorem rangeStep_pos (step : Int) : 0 < rangeStep step := by
  unfold rangeStep
  split <;> omega

private theorem poolAddsRange_iff (draws : ∀ k, draw k < 8) (distinct : Function.Injective node)
    (min max step : Int) (p : NebRandomPool) (fresh : ∀ k, node k ∉ p.nodes) :
    AddsRange (nebRandomPoolAddRange (some ∘ node) draw min max step) (poolAddOne node draw)
      NebRandomPool.entries min max (rangeStep step) p ↔ RangeFits min max (rangeStep step) := by
  have single : ∀ k v p, poolAddTry (draw k) (some (node k)) v p =
      (poolAddOne node draw p (k, v)).map (fun q => (0, q)) := fun _ _ _ => rfl
  refine addsRange_iff single (rangeStep_pos step) min p (fun n => ?_)
  exact run_adds (poolAddOne_spec draws distinct) n 0 min p (fun k _ => fresh k)

private theorem ringAddsRange_iff (draws : ∀ k, draw k < 8) (distinct : Function.Injective node)
    (min max step : Int) (r : NebRandomRing) (fresh : ∀ k, node k ∉ r.nodes) :
    AddsRange (nebRandomRingAddRange (some ∘ node) draw min max step) (ringAddOne node draw)
      NebRandomRing.entries min max (rangeStep step) r ↔ RangeFits min max (rangeStep step) := by
  have single : ∀ k v r, ringAddTry (draw k) (some (node k)) v r =
      (ringAddOne node draw r (k, v)).map (fun q => (0, q)) := fun _ _ _ => rfl
  refine addsRange_iff single (rangeStep_pos step) min r (fun n => ?_)
  exact run_adds (ringAddOne_spec draws distinct) n 0 min r (fun k _ => fresh k)

end Adds

/-- Where the allocations return new nodes, a range is added to a pool or a ring, each value up to
`max` once and without overflow, exactly when `min` is above `max` or the first value of the
progression above `max` is an `int`. -/
theorem nebRandomAddRange_iff (min max step : Int) (node draw : Nat → Nat)
    (draws : ∀ k, draw k < 8) (distinct : Function.Injective node) :
    (∀ p : NebRandomPool, (∀ k, node k ∉ p.nodes) →
      (AddsRange (nebRandomPoolAddRange (some ∘ node) draw min max step) (poolAddOne node draw)
        NebRandomPool.entries min max (rangeStep step) p ↔ RangeFits min max (rangeStep step))) ∧
    ∀ r : NebRandomRing, (∀ k, node k ∉ r.nodes) →
      (AddsRange (nebRandomRingAddRange (some ∘ node) draw min max step) (ringAddOne node draw)
        NebRandomRing.entries min max (rangeStep step) r ↔ RangeFits min max (rangeStep step)) :=
  ⟨poolAddsRange_iff draws distinct min max step, ringAddsRange_iff draws distinct min max step⟩

theorem nebRandomAddRange_iff_at_three :
    RangeFits 1 7 (rangeStep 3) ∧
    AddsRange (nebRandomPoolAddRange (some ∘ id) (fun _ => 0) 1 7 3) (poolAddOne id (fun _ => 0))
      NebRandomPool.entries 1 7 (rangeStep 3) (nebRandomPoolCreate 0 blankMem) ∧
    AddsRange (nebRandomRingAddRange (some ∘ id) (fun _ => 0) 1 7 3) (ringAddOne id (fun _ => 0))
      NebRandomRing.entries 1 7 (rangeStep 3) (nebRandomRingCreate 0 1 blankMem) := by
  have fits : RangeFits 1 7 (rangeStep 3) := fun _ => by decide
  obtain ⟨pool, ring⟩ := nebRandomAddRange_iff 1 7 3 id (fun _ => 0) (fun _ => by decide)
    Function.injective_id
  exact ⟨fits, (pool _ (fun _ => List.not_mem_nil)).mpr fits,
    (ring _ (fun _ => List.not_mem_nil)).mpr fits⟩

/-- A range that ends at `INT_MAX`, with one value in it. -/
theorem nebRandomPoolAddRange_fails :
    ¬ ∀ min max step : Int, -2147483648 ≤ min ∧ min ≤ INT_MAX → -2147483648 ≤ max ∧ max ≤ INT_MAX →
      AddsRange (nebRandomPoolAddRange (some ∘ id) (fun _ => 0) min max step)
        (poolAddOne id (fun _ => 0)) NebRandomPool.entries min max (rangeStep step)
        (nebRandomPoolCreate 0 blankMem) := by
  intro claim
  have adds := claim INT_MAX INT_MAX 1 (by decide) (by decide)
  have fits := (poolAddsRange_iff (fun _ => by decide) Function.injective_id INT_MAX INT_MAX 1 _
    (fun _ => List.not_mem_nil)).mp adds
  exact absurd (fits le_rfl) (by decide)

end Nebase.Random
