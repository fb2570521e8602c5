/- The invariant of a random bucket and the exact behaviour of put and pick on it. -/

import Mathlib.Algebra.BigOperators.Fin
import Mathlib.Algebra.Order.BigOperators.Group.Finset
import Mathlib.Data.Fintype.EquivFin
import Mathlib.Logic.Equiv.Basic
import Mathlib.Tactic.Ring
import Nebase.Foundation.Machine
import Nebase.Random.Model

set_option autoImplicit false
set_option relaxedAutoImplicit false

namespace Nebase.Random

open Nebase.Foundation
open Nebase.Foundation.Machine (run run_cons_eq_some invariant_run StepsMeet)
open Nebase.Foundation.TailQueue (Queues)

/-- The first `n` values of `c` ascend. -/
def Ascending (c : Nat → Nat) (n : Nat) : Prop :=
  ∀ i j, i ≤ j → j < n → c i ≤ c j

/-- The values off position `h` ascend. -/
def AscendingExcept (c : Nat → Nat) (n h : Nat) : Prop :=
  ∀ i j, i ≤ j → j < n → i ≠ h → j ≠ h → c i ≤ c j

/-- What the loop of `put` needs: the value at `h` may only be too large. -/
def UpOrder (c : Nat → Nat) (n h : Nat) : Prop :=
  AscendingExcept c n h ∧ ∀ i, i < h → c i ≤ c h

/-- What the loop of `pick` needs: the value at `h` may only be too small. -/
def DownOrder (c : Nat → Nat) (n h : Nat) : Prop :=
  AscendingExcept c n h ∧ ∀ j, h < j → j < n → c h ≤ c j

/-- Exchanging two neighbouring entries of the pointer array. -/
private def exchange (slices : Nat → Fin 10) (i : Nat) : Nat → Fin 10 :=
  Function.update (Function.update slices i (slices (i + 1))) (i + 1) (slices i)

private theorem exchange_lower (slices : Nat → Fin 10) (i : Nat) :
    exchange slices i i = slices (i + 1) := by
  simp [exchange]

private theorem exchange_upper (slices : Nat → Fin 10) (i : Nat) :
    exchange slices i (i + 1) = slices i := by
  simp [exchange]

private theorem exchange_other (slices : Nat → Fin 10) {i j : Nat} (h1 : j ≠ i)
    (h2 : j ≠ i + 1) : exchange slices i j = slices j := by
  simp [exchange, h1, h2]

/-- The entries of the pointer array designate pairwise different embedded slices. -/
def Distinct (slices : Nat → Fin 10) : Prop :=
  Set.InjOn slices {i | i < 10}

private theorem exchange_distinct {slices : Nat → Fin 10} (d : Distinct slices) {i : Nat}
    (hi : i + 1 < 10) : Distinct (exchange slices i) := by
  have heq : exchange slices i = slices ∘ Equiv.swap (i + 1) i := by
    rw [Equiv.comp_swap_eq_update]
    rfl
  rw [heq]
  refine d.comp (Equiv.injective _).injOn ?_
  intro j hj
  have hj' : j < 10 := hj
  change Equiv.swap (i + 1) i j < 10
  rw [Equiv.swap_apply_def]
  split
  · omega
  · split <;> omega

theorem Distinct.exists_entry {slices : Nat → Fin 10} (d : Distinct slices) (s : Fin 10) :
    ∃ i, i < 10 ∧ slices i = s := by
  have inj : Function.Injective (fun i : Fin 10 => slices i.val) := by
    intro i j hij
    exact Fin.ext (d i.isLt j.isLt hij)
  obtain ⟨i, hi⟩ := (Finite.injective_iff_surjective.mp inj) s
  exact ⟨i.val, i.isLt, hi⟩

private theorem UpOrder.done {c : Nat → Nat} {n h : Nat} (o : UpOrder c n h)
    (above : ∀ j, h < j → j < n → c h ≤ c j) : Ascending c n := by
  intro i j hij hj
  by_cases hi : i = h
  · subst hi
    rcases Nat.lt_or_ge i j with hlt | hge
    · exact above j hlt hj
    · have : i = j := by omega
      rw [this]
  · by_cases hjh : j = h
    · subst hjh
      exact o.2 i (by omega)
    · exact o.1 i j hij hj hi hjh

private theorem DownOrder.done {c : Nat → Nat} {n h : Nat} (o : DownOrder c n h)
    (below : ∀ i, i < h → c i ≤ c h) : Ascending c n := by
  intro i j hij hj
  by_cases hjh : j = h
  · subst hjh
    rcases Nat.lt_or_ge i j with hlt | hge
    · exact below i hlt
    · have : i = j := by omega
      rw [this]
  · by_cases hi : i = h
    · subst hi
      exact o.2 j (by omega) hj
    · exact o.1 i j hij hj hi hjh

private theorem UpOrder.move {cnt : Fin 10 → Nat} {slices : Nat → Fin 10} {n i : Nat}
    (o : UpOrder (cnt ∘ slices) n i) (hi : i + 1 < n)
    (small : cnt (slices (i + 1)) < cnt (slices i)) :
    UpOrder (cnt ∘ exchange slices i) n (i + 1) := by
  constructor
  · intro a b hab hb ha1 hb1
    simp only [Function.comp_apply]
    by_cases ha : a = i
    · subst ha
      rw [exchange_lower]
      by_cases hbi : b = a
      · rw [hbi, exchange_lower]
      · rw [exchange_other slices hbi hb1]
        exact o.1 (a + 1) b (by omega) hb (by omega) hbi
    · rw [exchange_other slices ha ha1]
      by_cases hbi : b = i
      · subst hbi
        rw [exchange_lower]
        exact o.1 a (b + 1) (by omega) hi ha (by omega)
      · rw [exchange_other slices hbi hb1]
        exact o.1 a b hab hb ha hbi
  · intro a ha
    simp only [Function.comp_apply, exchange_upper]
    by_cases hai : a = i
    · rw [hai, exchange_lower]
      omega
    · rw [exchange_other slices hai (by omega)]
      exact o.2 a (by omega)

private theorem DownOrder.move {cnt : Fin 10 → Nat} {slices : Nat → Fin 10} {n i : Nat}
    (o : DownOrder (cnt ∘ slices) n (i + 1)) (hi : i + 1 < n)
    (large : cnt (slices i) > cnt (slices (i + 1))) :
    DownOrder (cnt ∘ exchange slices i) n i := by
  constructor
  · intro a b hab hb ha hb0
    simp only [Function.comp_apply]
    by_cases hb1 : b = i + 1
    · subst hb1
      rw [exchange_upper]
      by_cases ha1 : a = i + 1
      · rw [ha1, exchange_upper]
      · rw [exchange_other slices ha ha1]
        exact o.1 a i (by omega) (by omega) ha1 (by omega)
    · rw [exchange_other slices hb0 hb1]
      by_cases ha1 : a = i + 1
      · subst ha1
        rw [exchange_upper]
        exact o.1 i b (by omega) hb (by omega) hb1
      · rw [exchange_other slices ha ha1]
        exact o.1 a b hab hb ha1 hb1
  · intro b hlt hb
    simp only [Function.comp_apply, exchange_lower]
    by_cases hb1 : b = i + 1
    · rw [hb1, exchange_upper]
      omega
    · rw [exchange_other slices (by omega) hb1]
      exact o.2 b (by omega) hb

/-- The reorder loop of `put` stays inside the array and restores the order of the slices it
draws from. -/
theorem putReorder_spec (cnt : Fin 10 → Nat) (k i : Nat) (slices : Nat → Fin 10)
    (bound : i + 1 + k = 8) (o : UpOrder (cnt ∘ slices) 8 i) (d : Distinct slices) :
    ∃ slices', putReorder cnt k (i + 1) slices = some slices' ∧
      Ascending (cnt ∘ slices') 8 ∧ Distinct slices' ∧ ∀ j, 8 ≤ j → slices' j = slices j := by
  induction k generalizing i slices with
  | zero =>
    refine ⟨slices, rfl, o.done ?_, d, fun _ _ => rfl⟩
    intro j hlt hj
    omega
  | succ k ih =>
    have hslot : slot slices i = some (slices i) := if_pos (by
      simp only [RANDOM_POOL_SLICE_TOTAL_NUMBER]
      omega)
    have hslot' : slot slices (i + 1) = some (slices (i + 1)) := if_pos (by
      simp only [RANDOM_POOL_SLICE_TOTAL_NUMBER]
      omega)
    by_cases small : cnt (slices (i + 1)) < cnt (slices i)
    · obtain ⟨slices', hrun, asc, hd, high⟩ := ih (i + 1) (exchange slices i) (by omega)
        (o.move (by omega) small) (exchange_distinct d (by omega))
      refine ⟨slices', ?_, asc, hd, ?_⟩
      · simpa [putReorder, hslot, hslot', small, exchange] using hrun
      · intro j hj
        rw [high j hj, exchange_other slices (by omega) (by omega)]
    · refine ⟨slices, by simp [putReorder, hslot, hslot', small], o.done ?_, d, fun _ _ => rfl⟩
      intro j hlt hj
      have hnext := o.1 (i + 1) j (by omega) hj (by omega) (by omega)
      simp only [Function.comp_apply] at hnext ⊢
      omega

/-- The reorder loop of `pick` stays inside the array when it starts inside the first eight
entries, and restores their order. -/
theorem pickReorder_spec (cnt : Fin 10 → Nat) (i : Nat) (slices : Nat → Fin 10)
    (bound : i < 8) (o : DownOrder (cnt ∘ slices) 8 i) (d : Distinct slices) :
    ∃ slices', pickReorder cnt i slices = some slices' ∧
      Ascending (cnt ∘ slices') 8 ∧ Distinct slices' ∧ ∀ j, 8 ≤ j → slices' j = slices j := by
  induction i generalizing slices with
  | zero =>
    refine ⟨slices, rfl, o.done ?_, d, fun _ _ => rfl⟩
    intro a ha
    omega
  | succ i ih =>
    have hslot : slot slices i = some (slices i) := if_pos (by
      simp only [RANDOM_POOL_SLICE_TOTAL_NUMBER]
      omega)
    have hslot' : slot slices (i + 1) = some (slices (i + 1)) := if_pos (by
      simp only [RANDOM_POOL_SLICE_TOTAL_NUMBER]
      omega)
    by_cases large : cnt (slices i) > cnt (slices (i + 1))
    · obtain ⟨slices', hrun, asc, hd, high⟩ := ih (exchange slices i) (by omega)
        (o.move (by omega) large) (exchange_distinct d (by omega))
      refine ⟨slices', ?_, asc, hd, ?_⟩
      · have hform :
            Function.update (Function.update slices (i + 1) (slices i)) i (slices (i + 1)) =
            exchange slices i := by
          rw [exchange, Function.update_comm (by omega)]
        simpa [pickReorder, hslot, hslot', large, hform] using hrun
      · intro j hj
        rw [high j hj, exchange_other slices (by omega) (by omega)]
    · refine ⟨slices, by simp [pickReorder, hslot, hslot', large], o.done ?_, d, fun _ _ => rfl⟩
      intro a ha
      have hprev := o.1 a i (by omega) (by omega) (by omega) (by omega)
      simp only [Function.comp_apply] at hprev ⊢
      omega

/-- The invariant of a bucket whose embedded slices hold the lists `L`. The last two slices are
never filled: `put` inserts below them and `pick` never moves a slice up. -/
structure BucketOk (b : NebRandomBucket) (L : ListHead → List NodeAddr) : Prop where
  distinct : Distinct b.slices
  counts : ∀ s, b.sliceCount s = (L (b.nlist s)).length
  total : b.count = ∑ s, b.sliceCount s
  ascending : Ascending (b.sliceCount ∘ b.slices) 8
  idle : ∀ i, 8 ≤ i → i < 10 → b.sliceCount (b.slices i) = 0

theorem BucketOk.largest_pos {b : NebRandomBucket} {L : ListHead → List NodeAddr}
    (ok : BucketOk b L) (pos : 0 < b.count) : 0 < b.sliceCount (b.slices 7) := by
  rw [ok.total] at pos
  obtain ⟨s, -, hs⟩ := Finset.exists_ne_zero_of_sum_ne_zero (Nat.ne_of_gt pos)
  obtain ⟨i, hi, rfl⟩ := ok.distinct.exists_entry s
  rcases Nat.lt_or_ge i 8 with hlt | hge
  · have hle := ok.ascending i 7 (by omega) (by omega)
    simp only [Function.comp_apply] at hle
    omega
  · exact absurd (ok.idle i hge hi) hs

private theorem sum_update_count (cnt : Fin 10 → Nat) (s : Fin 10) (v : Nat) :
    (∑ t, Function.update cnt s v t) + cnt s = (∑ t, cnt t) + v := by
  rw [Finset.sum_update_of_mem (Finset.mem_univ s),
    ← Finset.add_sum_erase _ cnt (Finset.mem_univ s),
    Finset.sdiff_singleton_eq_erase]
  ring

private theorem nlist_inj {b : NebRandomBucket} {s t : Fin 10} (h : b.nlist s = b.nlist t) :
    s = t := by
  simpa [NebRandomBucket.nlist] using h

private theorem slot_lt {slices : Nat → Fin 10} {i : Nat} (hi : i < 10) :
    slot slices i = some (slices i) :=
  if_pos hi

/-- What `put` does to a bucket that satisfies the invariant. -/
theorem nebRandomBucketPut_spec {b : NebRandomBucket} {m : NodeMem} {H : Set ListHead}
    {L : ListHead → List NodeAddr} (Q : Queues m H L) (ok : BucketOk b L)
    (heads : ∀ s, b.nlist s ∈ H) {draw : Nat} (hdraw : draw < 8) {n : NodeAddr}
    (fresh : ∀ h ∈ H, n ∉ L h) :
    ∃ s b' m', nebRandomBucketPut draw n b m = some (b', m') ∧ b'.addr = b.addr ∧
      b'.count = b.count + 1 ∧
      Queues m' H (Function.update L (b.nlist s) (L (b.nlist s) ++ [n])) ∧
      BucketOk b' (Function.update L (b.nlist s) (L (b.nlist s) ++ [n])) := by
  have h0 : slot b.slices 0 = some (b.slices 0) := slot_lt (by omega)
  generalize hrn : (if b.sliceCount (b.slices 0) < b.count >>> 3 then 0 else draw) = rn
  have hlt : rn < 8 := by
    rw [← hrn]
    split <;> omega
  have hs : slot b.slices rn = some (b.slices rn) := slot_lt (by omega)
  let s := b.slices rn
  let cnt := Function.update b.sliceCount s (b.sliceCount s + 1)
  have hcnt : ∀ i, i < 10 → i ≠ rn → cnt (b.slices i) = b.sliceCount (b.slices i) := by
    intro i hi hne
    exact Function.update_of_ne (fun e => hne (ok.distinct hi (show rn < 10 by omega) e)) _ _
  have hself : cnt (b.slices rn) = b.sliceCount (b.slices rn) + 1 := Function.update_self ..
  have order : UpOrder (cnt ∘ b.slices) 8 rn := by
    constructor
    · intro i j hij hj hi hjr
      simp only [Function.comp_apply]
      rw [hcnt i (by omega) hi, hcnt j (by omega) hjr]
      exact ok.ascending i j hij hj
    · intro i hi
      simp only [Function.comp_apply]
      rw [hcnt i (by omega) (by omega), hself]
      exact Nat.le_succ_of_le (ok.ascending i rn (by omega) hlt)
  obtain ⟨slices', hrun, asc, hd, high⟩ :=
    putReorder_spec cnt (8 - (rn + 1)) rn b.slices (by omega) order ok.distinct
  refine ⟨s, { b with slices := slices', sliceCount := cnt, count := b.count + 1 },
    TailQueue.insertTail (b.nlist s) n m, ?_, rfl, rfl, Q.insertTail (heads s) fresh, ?_⟩
  · simp only [nebRandomBucketPut, h0, Option.bind_eq_bind, Option.bind_some, hrn, hs,
      RANDOM_POOL_SLICE_RANDOM_NUMBER]
    simp only [cnt, s] at hrun
    rw [hrun]
    rfl
  · refine ⟨hd, ?_, ?_, asc, ?_⟩
    · intro t
      change cnt t = (Function.update L (b.nlist s) (L (b.nlist s) ++ [n]) (b.nlist t)).length
      by_cases heq : t = s
      · subst heq
        simp [cnt, ok.counts]
      · have hne : b.nlist t ≠ b.nlist s := fun e => heq (nlist_inj e)
        simp [cnt, heq, hne, ok.counts]
    · change b.count + 1 = ∑ t, cnt t
      have hsum := sum_update_count b.sliceCount s (b.sliceCount s + 1)
      have htotal := ok.total
      simp only [cnt]
      omega
    · intro i h8 h10
      change cnt (slices' i) = 0
      rw [high i h8, hcnt i h10 (by omega)]
      exact ok.idle i h8 h10

/-- The scan finds a node in a bucket whose slice 7 is not empty when it starts at most there. -/
private theorem pickScan_found {b : NebRandomBucket} {m : NodeMem} {H : Set ListHead}
    {L : ListHead → List NodeAddr} (Q : Queues m H L) (ok : BucketOk b L)
    (heads : ∀ s, b.nlist s ∈ H) (pos : 0 < b.sliceCount (b.slices 7)) (k rn : Nat)
    (bound : rn + k = 10) (start : rn ≤ 7) :
    ∃ stop n rest, stop ≤ 7 ∧ L (b.nlist (b.slices stop)) = n :: rest ∧
      pickScan k rn b m = some (some n, stop,
        { b with
          sliceCount := Function.update b.sliceCount (b.slices stop)
            (b.sliceCount (b.slices stop) - 1)
          count := b.count - 1 },
        TailQueue.remove (b.nlist (b.slices stop)) n m) := by
  induction k generalizing rn with
  | zero => omega
  | succ k ih =>
    have hs : slot b.slices rn = some (b.slices rn) := slot_lt (by omega)
    have hfirst := (Q.repr _ (heads (b.slices rn))).first_eq
    cases hL : L (b.nlist (b.slices rn)) with
    | nil =>
      have hne : rn ≠ 7 := by
        rintro rfl
        rw [ok.counts, hL] at pos
        simp at pos
      obtain ⟨stop, n, rest, hstop, hlist, hrun⟩ := ih (rn + 1) (by omega) (by omega)
      refine ⟨stop, n, rest, hstop, hlist, ?_⟩
      rw [← hrun]
      simp [pickScan, hs, hfirst, hL]
    | cons n rest =>
      refine ⟨rn, n, rest, start, hL, ?_⟩
      simp [pickScan, hs, hfirst, hL]

/-- Above index 7 every slice is empty, and the scan runs off the array. -/
private theorem pickScan_missed {b : NebRandomBucket} {m : NodeMem} {H : Set ListHead}
    {L : ListHead → List NodeAddr} (Q : Queues m H L) (ok : BucketOk b L)
    (heads : ∀ s, b.nlist s ∈ H) (k rn : Nat) (bound : rn + k = 10) (start : 8 ≤ rn) :
    pickScan k rn b m = some (none, 10, b, m) := by
  induction k generalizing rn with
  | zero =>
    have : rn = 10 := by omega
    rw [this]
    rfl
  | succ k ih =>
    have hs : slot b.slices rn = some (b.slices rn) := slot_lt (by omega)
    have hfirst := (Q.repr _ (heads (b.slices rn))).first_eq
    have hzero := ok.idle rn start (by omega)
    rw [ok.counts, List.length_eq_zero_iff] at hzero
    simp only [pickScan, hs, hfirst, hzero, Option.bind_eq_bind, Option.bind_some, List.head?_nil]
    exact ih (rn + 1) (by omega) (by omega)

private theorem pick_start {b : NebRandomBucket} {L : ListHead → List NodeAddr}
    (ok : BucketOk b L) (draw : Nat) :
    (if b.sliceCount (b.slices 9) > b.count >>> 1 then 9 else draw + 2) = draw + 2 := by
  rw [ok.idle 9 (by omega) (by omega)]
  exact if_neg (Nat.not_lt_zero _)

/-- What `pick` does on a bucket with nodes when the draw is at most 5. -/
theorem nebRandomBucketPick_spec {b : NebRandomBucket} {m : NodeMem} {H : Set ListHead}
    {L : ListHead → List NodeAddr} (Q : Queues m H L) (ok : BucketOk b L)
    (heads : ∀ s, b.nlist s ∈ H) (pos : 0 < b.count) {draw : Nat} (hdraw : draw ≤ 5) :
    ∃ s n b' m', nebRandomBucketPick draw b m = some (some n, b', m') ∧ b'.addr = b.addr ∧
      b'.count + 1 = b.count ∧ n ∈ L (b.nlist s) ∧
      Queues m' H (Function.update L (b.nlist s) ((L (b.nlist s)).erase n)) ∧
      BucketOk b' (Function.update L (b.nlist s) ((L (b.nlist s)).erase n)) := by
  have h9 : slot b.slices 9 = some (b.slices 9) := slot_lt (by omega)
  obtain ⟨stop, n, rest, hstop, hL, hscan⟩ := pickScan_found Q ok heads (ok.largest_pos pos)
    (10 - (draw + 2)) (draw + 2) (by omega) (by omega)
  let s := b.slices stop
  let cnt := Function.update b.sliceCount s (b.sliceCount s - 1)
  have hlen : b.sliceCount s = rest.length + 1 := by rw [ok.counts, hL]; rfl
  have hcnt : ∀ i, i < 10 → i ≠ stop → cnt (b.slices i) = b.sliceCount (b.slices i) := by
    intro i hi hne
    exact Function.update_of_ne (fun e => hne (ok.distinct hi (show stop < 10 by omega) e)) _ _
  have hself : cnt (b.slices stop) = b.sliceCount (b.slices stop) - 1 := Function.update_self ..
  have order : DownOrder (cnt ∘ b.slices) 8 stop := by
    constructor
    · intro i j hij hj hi hjr
      simp only [Function.comp_apply]
      rw [hcnt i (by omega) hi, hcnt j (by omega) hjr]
      exact ok.ascending i j hij hj
    · intro j hlt hj
      have hle := ok.ascending stop j (by omega) hj
      simp only [Function.comp_apply] at hle ⊢
      rw [hcnt j (by omega) (by omega), hself]
      omega
  obtain ⟨slices', hrun, asc, hd, high⟩ :=
    pickReorder_spec cnt stop b.slices (by omega) order ok.distinct
  have hn : n ∈ L (b.nlist s) := by rw [hL]; exact List.mem_cons_self
  refine ⟨s, n, { b with slices := slices', sliceCount := cnt, count := b.count - 1 },
    TailQueue.remove (b.nlist s) n m, ?_, rfl, ?_, hn, Q.remove (heads s) hn, ?_⟩
  · simp only [nebRandomBucketPick, Nat.ne_of_gt pos, if_false, RANDOM_POOL_SLICE_TOTAL_NUMBER,
      RANDOM_POOL_SLICE_RANDOM_NUMBER, h9, Option.bind_eq_bind, Option.bind_some, Nat.reduceSub,
      pick_start ok draw, hscan]
    simp only [cnt, s] at hrun
    rw [hrun]
    rfl
  · change b.count - 1 + 1 = b.count
    omega
  · refine ⟨hd, ?_, ?_, asc, ?_⟩
    · intro t
      change cnt t = (Function.update L (b.nlist s) ((L (b.nlist s)).erase n) (b.nlist t)).length
      by_cases heq : t = s
      · subst heq
        simp [cnt, ok.counts, List.length_erase_of_mem hn]
      · have hne : b.nlist t ≠ b.nlist s := fun e => heq (nlist_inj e)
        simp [cnt, heq, hne, ok.counts]
    · change b.count - 1 = ∑ t, cnt t
      have hsum := sum_update_count b.sliceCount s (b.sliceCount s - 1)
      have htotal := ok.total
      simp only [cnt]
      omega
    · intro i h8 h10
      change cnt (slices' i) = 0
      rw [high i h8, hcnt i h10 (by omega)]
      exact ok.idle i h8 h10

/-- With a draw of 6 or 7 the scan finds no node and the reorder loop reads `slices[10]`. -/
theorem nebRandomBucketPick_wild {b : NebRandomBucket} {m : NodeMem} {H : Set ListHead}
    {L : ListHead → List NodeAddr} (Q : Queues m H L) (ok : BucketOk b L)
    (heads : ∀ s, b.nlist s ∈ H) (pos : 0 < b.count) {draw : Nat} (high : 5 < draw)
    (hdraw : draw < 8) : nebRandomBucketPick draw b m = none := by
  have h9 : slot b.slices 9 = some (b.slices 9) := slot_lt (by omega)
  have hscan := pickScan_missed Q ok heads (10 - (draw + 2)) (draw + 2) (by omega) (by omega)
  simp only [nebRandomBucketPick, Nat.ne_of_gt pos, if_false, RANDOM_POOL_SLICE_TOTAL_NUMBER,
    RANDOM_POOL_SLICE_RANDOM_NUMBER, h9, Option.bind_eq_bind, Option.bind_some, Nat.reduceSub,
    pick_start ok draw, hscan]
  rfl

/-- The list heads of the bucket at `addr`. -/
def sliceHeads (addr : Nat) : Set ListHead := {h | ∃ s, h = .slice addr s}

private theorem init_slices (addr : Nat) (l : List (Fin 10)) (m : NodeMem) (H : Set ListHead)
    (Q : Queues m H (fun _ => [])) (nodup : l.Nodup) (new : ∀ s ∈ l, ListHead.slice addr s ∉ H) :
    Queues (l.foldl (fun m i => TailQueue.init (.slice addr i) m) m)
      (H ∪ {h | ∃ s ∈ l, h = .slice addr s}) (fun _ => []) := by
  induction l generalizing m H with
  | nil => simpa using Q
  | cons s l ih =>
    obtain ⟨hs, hl⟩ := List.nodup_cons.mp nodup
    have Q' : Queues (TailQueue.init (.slice addr s) m) (insert (.slice addr s) H)
        (fun _ => []) := by
      refine (Q.init (new s List.mem_cons_self)).congr ?_
      intro h _
      by_cases heq : h = .slice addr s
      · rw [heq, Function.update_self]
      · rw [Function.update_of_ne heq]
    refine (ih _ _ Q' hl ?_).mono ?_
    · intro t ht hmem
      rcases hmem with heq | hmem
      · simp only [ListHead.slice.injEq, true_and] at heq
        exact hs (heq ▸ ht)
      · exact new t (List.mem_cons_of_mem s ht) hmem
    · rintro h (hH | ⟨t, ht, rfl⟩)
      · exact Or.inl (Or.inr hH)
      · rcases List.mem_cons.mp ht with rfl | ht
        · exact Or.inl (Or.inl rfl)
        · exact Or.inr ⟨t, ht, rfl⟩

/-- A created bucket satisfies the invariant with all its slices empty. -/
theorem nebRandomBucketCreate_spec (addr : Nat) {m : NodeMem} {H : Set ListHead}
    (Q : Queues m H (fun _ => [])) (new : ∀ s, ListHead.slice addr s ∉ H) :
    Queues (nebRandomBucketCreate addr m).2 (H ∪ sliceHeads addr) (fun _ => []) ∧
      BucketOk (nebRandomBucketCreate addr m).1 (fun _ => []) ∧
      (nebRandomBucketCreate addr m).1.addr = addr := by
  refine ⟨?_, ?_, rfl⟩
  · refine (init_slices addr (List.finRange 10) m H Q (List.nodup_finRange 10)
      (fun s _ => new s)).mono ?_
    rintro h (hH | ⟨s, rfl⟩)
    · exact Or.inl hH
    · exact Or.inr ⟨s, List.mem_finRange s, rfl⟩
  · refine ⟨?_, fun _ => rfl, by simp [nebRandomBucketCreate], fun _ _ _ _ => le_rfl,
      fun _ _ _ => rfl⟩
    intro i hi j hj hij
    have hi' : i < 10 := hi
    have hj' : j < 10 := hj
    have hval := congrArg Fin.val hij
    simp only [nebRandomBucketCreate, Fin.ofNat] at hval
    omega

theorem nebRandomBucketPick_empty {b : NebRandomBucket} {m : NodeMem} (draw : Nat)
    (empty : b.count = 0) : nebRandomBucketPick draw b m = some (none, b, m) :=
  if_pos empty

/-- The calls on a bucket; `draw` is the value of `arc4random_uniform(8)` should it be called. -/
inductive BucketCall
  | put (n : NodeAddr) (draw : Nat)
  | pick (draw : Nat)

/-- A bucket with its memory and the nodes that are currently in it. -/
structure BucketState where
  bucket : NebRandomBucket
  mem : NodeMem
  held : List NodeAddr

def bucketInit (addr : Nat) (mem : NodeMem) : BucketState :=
  ⟨(nebRandomBucketCreate addr mem).1, (nebRandomBucketCreate addr mem).2, []⟩

/-- One call. A node is put only while it is not in the bucket; a draw is below 8. -/
def bucketStep (st : BucketState) : BucketCall → Option BucketState
  | .put n draw =>
    if n ∉ st.held ∧ draw < 8 then
      (nebRandomBucketPut draw n st.bucket st.mem).map (fun r => ⟨r.1, r.2, n :: st.held⟩)
    else none
  | .pick draw =>
    if draw < 8 then
      (nebRandomBucketPick draw st.bucket st.mem).map
        (fun r => ⟨r.2.1, r.2.2, st.held.filter (fun n => r.1 ≠ some n)⟩)
    else none

/-- `pick` stays inside `slices[0..9]` and returns a node of a bucket that has one, and returns
`NULL` only when there is none. -/
def PickProgress (draw : Nat) (b : NebRandomBucket) (m : NodeMem) : Prop :=
  (0 < b.count → ∃ n b' m', nebRandomBucketPick draw b m = some (some n, b', m') ∧
    b'.count + 1 = b.count) ∧
  ∀ b' m', nebRandomBucketPick draw b m = some (none, b', m') → b.count = 0

/-- The invariant of all states a bucket reaches. -/
private def BucketReachable (st : BucketState) : Prop :=
  ∃ L, Queues st.mem (sliceHeads st.bucket.addr) L ∧ BucketOk st.bucket L ∧
    ∀ s, ∀ n ∈ L (st.bucket.nlist s), n ∈ st.held

private theorem bucketInit_reachable (addr : Nat) (mem : NodeMem) :
    BucketReachable (bucketInit addr mem) := by
  have base : Queues mem (∅ : Set ListHead) (fun _ => []) :=
    ⟨fun _ hh => hh.elim, fun _ hh => hh.elim, fun _ hh => hh.elim⟩
  obtain ⟨Q, ok, -⟩ := nebRandomBucketCreate_spec addr base (fun _ h => h)
  exact ⟨fun _ => [], Q.mono (fun _ h => Or.inr h), ok, fun _ n hn => by simp at hn⟩

private theorem bucketStep_reachable (st : BucketState) (call : BucketCall) (st' : BucketState)
    (reach : BucketReachable st) (step : bucketStep st call = some st') : BucketReachable st' := by
  obtain ⟨L, Q, ok, held⟩ := reach
  have heads : ∀ s, st.bucket.nlist s ∈ sliceHeads st.bucket.addr := fun s => ⟨s, rfl⟩
  cases call with
  | put n draw =>
    simp only [bucketStep] at step
    split at step
    · rename_i guard
      have fresh : ∀ h ∈ sliceHeads st.bucket.addr, n ∉ L h := by
        rintro h ⟨s, rfl⟩ hn
        exact guard.1 (held s n hn)
      obtain ⟨s, b', m', hput, haddr, -, Q', ok'⟩ :=
        nebRandomBucketPut_spec Q ok heads guard.2 fresh
      rw [hput] at step
      obtain rfl := Option.some.inj step
      refine ⟨_, by rw [haddr]; exact Q', ok', ?_⟩
      intro t k hk
      simp only [NebRandomBucket.nlist, haddr] at hk
      by_cases heq : t = s
      · subst heq
        rw [show ListHead.slice st.bucket.addr t = st.bucket.nlist t from rfl,
          Function.update_self] at hk
        rcases List.mem_append.mp hk with hk | hk
        · exact List.mem_cons_of_mem n (held t k hk)
        · exact List.mem_singleton.mp hk ▸ List.mem_cons_self
      · rw [Function.update_of_ne (by simpa [NebRandomBucket.nlist] using heq)] at hk
        exact List.mem_cons_of_mem n (held t k hk)
    · cases step
  | pick draw =>
    simp only [bucketStep] at step
    split at step
    · rename_i hdraw
      rcases Nat.eq_zero_or_pos st.bucket.count with hzero | hpos
      · rw [nebRandomBucketPick_empty draw hzero] at step
        obtain rfl := Option.some.inj step
        exact ⟨L, Q, ok, fun s n hn => by simpa using held s n hn⟩
      · rcases Nat.lt_or_ge 5 draw with high | low
        · rw [nebRandomBucketPick_wild Q ok heads hpos high hdraw] at step
          cases step
        · obtain ⟨s, n, b', m', hpick, haddr, -, hn, Q', ok'⟩ :=
            nebRandomBucketPick_spec Q ok heads hpos low
          rw [hpick] at step
          obtain rfl := Option.some.inj step
          refine ⟨_, by rw [haddr]; exact Q', ok', ?_⟩
          intro t k hk
          simp only [NebRandomBucket.nlist, haddr] at hk
          by_cases heq : t = s
          · subst heq
            rw [show ListHead.slice st.bucket.addr t = st.bucket.nlist t from rfl,
              Function.update_self] at hk
            have hkn : k ≠ n := by
              rintro rfl
              exact (List.Nodup.mem_erase_iff (Q.nodup _ (heads t))).mp hk |>.1 rfl
            have hmem := held t k (List.mem_of_mem_erase hk)
            simpa [hmem] using Ne.symm hkn
          · rw [Function.update_of_ne (by simpa [NebRandomBucket.nlist] using heq)] at hk
            have hkn : k ≠ n := by
              rintro rfl
              exact Q.disjoint _ (heads t) _ (heads s) (fun e => heq (nlist_inj e)) hk hn
            have hmem := held t k hk
            simpa [hmem] using Ne.symm hkn
    · cases step

/-- In every state a bucket reaches, a pick makes progress exactly when the bucket is empty or
the value drawn is at most 5: slices 8 and 9 stay empty, so the draws 6 and 7 find no node. -/
theorem nebRandomBucketPick_progress_iff (addr : Nat) (mem : NodeMem) (calls : List BucketCall)
    (st : BucketState) (reached : run bucketStep (bucketInit addr mem) calls = some st)
    (draw : Nat) (hdraw : draw < 8) :
    PickProgress draw st.bucket st.mem ↔ st.bucket.count = 0 ∨ draw ≤ 5 := by
  obtain ⟨L, Q, ok, -⟩ := invariant_run (C := fun _ _ => True) (I := BucketReachable)
    (fun s a t hI _ hstep => bucketStep_reachable s a t hI hstep)
    (bucketInit_reachable addr mem) (StepsMeet.of_forall (fun _ _ => trivial) _ _) reached
  have heads : ∀ s, st.bucket.nlist s ∈ sliceHeads st.bucket.addr := fun s => ⟨s, rfl⟩
  rcases Nat.eq_zero_or_pos st.bucket.count with hzero | hpos
  · refine ⟨fun _ => Or.inl hzero, fun _ => ⟨fun hpos => ?_, fun _ _ _ => hzero⟩⟩
    omega
  · rcases Nat.lt_or_ge 5 draw with high | low
    · have wild := nebRandomBucketPick_wild Q ok heads hpos high hdraw
      constructor
      · intro progress
        obtain ⟨n, b', m', hpick, -⟩ := progress.1 hpos
        rw [wild] at hpick
        cases hpick
      · rintro (hzero | hle) <;> omega
    · obtain ⟨s, n, b', m', hpick, -, hcount, -⟩ := nebRandomBucketPick_spec Q ok heads hpos low
      refine ⟨fun _ => Or.inr low, fun _ => ⟨fun _ => ⟨n, b', m', hpick, hcount⟩, ?_⟩⟩
      intro b'' m'' hnull
      rw [hpick] at hnull
      cases hnull

/-- Memory with all pointers `NULL`, as `calloc` leaves it. -/
def blankMem : NodeMem :=
  ⟨fun _ => none, fun h => .first h, fun _ => none, fun _ => .first .tl⟩

theorem nebRandomBucketPick_progress_at_one_node :
    ∃ st, run bucketStep (bucketInit 0 blankMem) [.put 1 0] = some st ∧
      PickProgress 5 st.bucket st.mem ∧ ¬ PickProgress 6 st.bucket st.mem :=
  ⟨_, rfl,
    (nebRandomBucketPick_progress_iff 0 blankMem [.put 1 0] _ rfl 5 (by decide)).mpr
      (.inr (by decide)),
    fun progress => absurd ((nebRandomBucketPick_progress_iff 0 blankMem [.put 1 0] _ rfl 6
      (by decide)).mp progress) (by decide)⟩

/-- One node is put and the next pick draws 6. -/
theorem nebRandomBucketPick_progress_fails :
    ¬ ∀ (calls : List BucketCall) (st : BucketState),
      run bucketStep (bucketInit 0 blankMem) calls = some st →
      ∀ draw, draw < 8 → PickProgress draw st.bucket st.mem := by
  intro claim
  obtain ⟨n, b', m', hpick, -⟩ := (claim [.put 1 0] _ rfl 6 (by decide)).1 (by decide)
  exact Option.some_ne_none _ hpick.symm

end Nebase.Random
