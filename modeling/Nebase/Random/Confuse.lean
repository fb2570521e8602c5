/- neb_random_bucket_confuse: the reversed slices keep pointers to the dead local head. -/

import Nebase.Random.Bucket

set_option autoImplicit false
set_option relaxedAutoImplicit false

namespace Nebase.Random

open Nebase.Foundation
open Nebase.Foundation.Machine (run run_cons_eq_some invariant_run StepsMeet)
open Nebase.Foundation.TailQueue (Queues IsTailq Segment Cell)

/-- Every embedded slice of the bucket is a well-formed tail queue: its first node points back
to its own `tqh_first`, and its `tqh_last` designates its own `tqh_first` when it is empty and
the `tqe_next` of its last node otherwise. -/
def SlicesWellFormed (b : NebRandomBucket) (m : NodeMem) : Prop :=
  ∀ s, ∃ xs, IsTailq m (b.nlist s) xs

/-- What the loop of `neb_random_slice_reverse` keeps of the local head, whatever the list. -/
private def LocalHead (m : NodeMem) : Prop :=
  match m.first .tl with
  | none => m.last .tl = .first .tl
  | some n => m.prev n = .first .tl

private theorem localHead_init (m : NodeMem) : LocalHead (TailQueue.init .tl m) := by
  have hfirst : (TailQueue.init ListHead.tl m).first .tl = none := by
    simp [TailQueue.init, TailQueue.Mem.write, TailQueue.Mem.setLast]
  rw [LocalHead, hfirst]
  simp [TailQueue.init, TailQueue.setLast_last]

private theorem localHead_insertHead (n : NodeAddr) (m : NodeMem) :
    LocalHead (TailQueue.insertHead .tl n m) := by
  have hfirst : (TailQueue.insertHead ListHead.tl n m).first .tl = some n := by
    simp [TailQueue.insertHead, TailQueue.Mem.write, TailQueue.Mem.setPrev]
  rw [LocalHead, hfirst]
  simp [TailQueue.insertHead, TailQueue.setPrev_prev]

private theorem reverseLoop_localHead {h : ListHead} {fuel : Nat} {m m' : NodeMem}
    (start : LocalHead m) (done : reverseLoop h fuel m = some m') : LocalHead m' := by
  induction fuel generalizing m with
  | zero => cases done
  | succ fuel ih =>
    simp only [reverseLoop] at done
    split at done
    · exact Option.some.inj done ▸ start
    · exact ih (localHead_insertHead _ _) done

/-- A reversed slice is never well formed: the copied head still belongs to `tl`. -/
theorem nebRandomSliceReverse_breaks {h : ListHead} (ne : h ≠ .tl) {fuel : Nat}
    {m m' : NodeMem} (done : nebRandomSliceReverse fuel h m = some m') :
    ¬ ∃ xs, IsTailq m' h xs := by
  rintro ⟨xs, q⟩
  obtain ⟨m1, hloop, rfl⟩ := Option.map_eq_some_iff.mp done
  have hlocal := reverseLoop_localHead (localHead_init m) hloop
  have hfirst : (TailQueue.assignHead h .tl m1).first h = m1.first .tl := by
    simp [TailQueue.assignHead, TailQueue.Mem.write, TailQueue.Mem.setLast]
  have hlast : (TailQueue.assignHead h .tl m1).last h = m1.last .tl := by
    simp [TailQueue.assignHead, TailQueue.setLast_last]
  have hprev : (TailQueue.assignHead h .tl m1).prev = m1.prev := by
    simp [TailQueue.assignHead]
  have hhead := q.first_eq
  rw [hfirst] at hhead
  have other : Cell.first h ≠ (Cell.first .tl : Cell ListHead NodeAddr) :=
    fun e => ne (Cell.first.inj e)
  cases xs with
  | nil =>
    rw [LocalHead, hhead] at hlocal
    have hend : Cell.first h = (TailQueue.assignHead h .tl m1).last h := q.1
    exact other (hend.trans (hlast.trans hlocal))
  | cons n xs =>
    rw [LocalHead, hhead] at hlocal
    have hback : (TailQueue.assignHead h .tl m1).prev n = .first h := q.1.2.1
    rw [hprev] at hback
    exact other (hback.symm.trans hlocal)

private theorem confuseLoop_breaks {fuel : Nat} {draw : Nat → Nat} {b : NebRandomBucket}
    {k i : Nat} {indexes : List Nat} {m m' : NodeMem}
    (done : confuseLoop fuel draw b (k + 1) i indexes m = some m') : ¬ SlicesWellFormed b m' := by
  induction k generalizing i indexes m with
  | zero =>
    simp only [confuseLoop, Option.bind_eq_bind, Option.bind_eq_some_iff] at done
    obtain ⟨si, -, ii, -, s, -, m1, hrev, hm⟩ := done
    obtain rfl := Option.some.inj hm
    intro wf
    exact nebRandomSliceReverse_breaks (by simp [NebRandomBucket.nlist]) hrev (wf s)
  | succ k ih =>
    rw [confuseLoop] at done
    simp only [Option.bind_eq_bind, Option.bind_eq_some_iff] at done
    obtain ⟨si, -, ii, -, s, -, m1, -, hrest⟩ := done
    exact ih hrest

/-- Whatever the bucket held and whatever was drawn, confuse leaves a broken slice. -/
theorem nebRandomBucketConfuse_breaks {fuel : Nat} {draw : Nat → Nat} {b : NebRandomBucket}
    {m m' : NodeMem} (done : nebRandomBucketConfuse fuel draw b m = some m') :
    ¬ SlicesWellFormed b m' :=
  confuseLoop_breaks (k := 4) done

/-- The loop of the reversal ends when slice and local head represent lists. -/
private theorem reverseLoop_returns {h : ListHead} (ne : h ≠ .tl) {K : Set ListHead}
    (hh : h ∈ K) (hk : .tl ∈ K) (fuel : Nat) {m : NodeMem} {L : ListHead → List NodeAddr}
    (Q : Queues m K L) (enough : (L h).length < fuel) :
    ∃ m' L', reverseLoop h fuel m = some m' ∧ Queues m' K L' ∧
      ∀ l, l ≠ h → l ≠ .tl → L' l = L l := by
  induction fuel generalizing m L with
  | zero => omega
  | succ fuel ih =>
    have hfirst := (Q.repr h hh).first_eq
    cases hL : L h with
    | nil => exact ⟨m, L, by simp [reverseLoop, hfirst, hL], Q, fun _ _ _ => rfl⟩
    | cons n xs =>
      have hn : n ∈ L h := by rw [hL]; exact List.mem_cons_self
      have Q1 := Q.remove hh hn
      have fresh : ∀ l ∈ K, n ∉ Function.update L h ((L h).erase n) l := by
        intro l hl
        by_cases heq : l = h
        · rw [heq, Function.update_self]
          exact fun hmem => ((Q.nodup h hh).mem_erase_iff.mp hmem).1 rfl
        · rw [Function.update_of_ne heq]
          exact fun hmem => Q.disjoint l hl h hh heq hmem hn
      have Q2 := Q1.insertHead hk fresh
      obtain ⟨m', L', hrun, Q', keep⟩ := ih Q2 (by
        rw [Function.update_of_ne ne, Function.update_self, List.length_erase_of_mem hn]
        have hpos := List.length_pos_of_mem hn
        omega)
      refine ⟨m', L', by simpa [reverseLoop, hfirst, hL] using hrun, Q', ?_⟩
      intro l h1 h2
      rw [keep l h1 h2, Function.update_of_ne h2, Function.update_of_ne h1]

/-- On a well-formed slice the reversal returns and leaves the other queues as they are. -/
theorem nebRandomSliceReverse_returns {h : ListHead} (ne : h ≠ .tl) {K : Set ListHead}
    (hh : h ∈ K) (hk : .tl ∉ K) {m : NodeMem} {L : ListHead → List NodeAddr}
    (Q : Queues m K L) {fuel : Nat} (enough : (L h).length < fuel) :
    ∃ m', nebRandomSliceReverse fuel h m = some m' ∧ Queues m' (K \ {h}) L := by
  have Q0 := Q.init hk
  obtain ⟨m1, L', hrun, Q1, keep⟩ := reverseLoop_returns ne (Or.inr hh) (Or.inl rfl) fuel Q0 (by
    rw [Function.update_of_ne ne]
    exact enough)
  refine ⟨TailQueue.assignHead h .tl m1, by simp [nebRandomSliceReverse, hrun], ?_⟩
  have Q2 := (Q1.mono (fun l (hl : l ∈ K \ {h}) => Or.inr hl.1)).assignHead (fun hl => hl.2 rfl) .tl
  refine Q2.congr ?_
  intro l hl
  have htl : l ≠ .tl := fun e => hk (e ▸ hl.1)
  rw [keep l hl.2 htl, Function.update_of_ne htl]

/-- The draws of a confuse call are below the bounds given to `arc4random_uniform`. -/
def ConfuseDraws (draw : Nat → Nat) : Prop :=
  ∀ i, i < 5 → draw i < RANDOM_POOL_SLICE_TOTAL_NUMBER - i - 1

/-- The shuffled index array: ten entries, pairwise different and in range. -/
private def Shuffled (indexes : List Nat) : Prop :=
  indexes.length = 10 ∧ indexes.Nodup ∧ ∀ v ∈ indexes, v < 10

private theorem Shuffled.swap {indexes : List Nat} (sh : Shuffled indexes) {i j : Nat}
    (hi : i < indexes.length) (hj : j < indexes.length) :
    Shuffled ((indexes.set j indexes[i]).set i indexes[j]) := by
  obtain ⟨hlen, hnodup, hrange⟩ := sh
  refine ⟨by simpa using hlen, ?_, ?_⟩
  · rw [List.nodup_iff_injective_get] at hnodup ⊢
    intro p q hpq
    have hget : ∀ r : Fin ((indexes.set j indexes[i]).set i indexes[j]).length,
        ((indexes.set j indexes[i]).set i indexes[j]).get r =
          indexes.get ⟨if r.val = i then j else if r.val = j then i else r.val, by
            have := r.isLt
            simp only [List.length_set] at this
            split
            · exact hj
            · split
              · exact hi
              · exact this⟩ := by
      intro r
      simp only [List.get_eq_getElem, List.getElem_set]
      by_cases h1 : i = r.val
      · simp [h1]
      · by_cases h2 : j = r.val
        · simp [h1, h2, Ne.symm h1]
        · simp [h1, h2, Ne.symm h1, Ne.symm h2]
    rw [hget, hget] at hpq
    have hval := congrArg Fin.val (hnodup hpq)
    simp only at hval
    apply Fin.ext
    split at hval <;> split at hval <;> (try split at hval) <;> (try split at hval) <;> omega
  · intro v hv
    rcases List.mem_or_eq_of_mem_set hv with hv | rfl
    · rcases List.mem_or_eq_of_mem_set hv with hv | rfl
      · exact hrange v hv
      · exact hrange _ (List.getElem_mem hi)
    · exact hrange _ (List.getElem_mem hj)

private theorem confuseLoop_returns {fuel : Nat} {draw : Nat → Nat} (hdraw : ConfuseDraws draw)
    {b : NebRandomBucket} (d : Distinct b.slices) {L : ListHead → List NodeAddr}
    (enough : ∀ s, (L (b.nlist s)).length < fuel) (k i : Nat) (bound : i + k = 5)
    {indexes : List Nat} (sh : Shuffled indexes) {m : NodeMem} {K : Set ListHead}
    (hk : .tl ∉ K) (Q : Queues m K L)
    (left : ∀ p (hp : p < indexes.length), i ≤ p → b.nlist (b.slices indexes[p]) ∈ K) :
    ∃ m', confuseLoop fuel draw b k i indexes m = some m' ∧
      Queues m' {h | h ∈ K ∧ ∀ s, h ≠ b.nlist s} L := by
  induction k generalizing i indexes m K with
  | zero => exact ⟨m, rfl, Q.mono (fun _ h => h.1)⟩
  | succ k ih =>
    have hlen := sh.1
    have hlt := hdraw i (by omega)
    simp only [RANDOM_POOL_SLICE_TOTAL_NUMBER] at hlt
    have hj : draw i + i + 1 < indexes.length := by omega
    have hi : i < indexes.length := by omega
    have hslot : slot b.slices indexes[draw i + i + 1] =
        some (b.slices indexes[draw i + i + 1]) :=
      if_pos (sh.2.2 _ (List.getElem_mem hj))
    -- different positions of the index array designate different slices
    have apart : ∀ p q (hp : p < indexes.length) (hq : q < indexes.length), p ≠ q →
        b.nlist (b.slices indexes[p]) ≠ b.nlist (b.slices indexes[q]) := by
      intro p q hp hq hne heq
      have hs : b.slices indexes[p] = b.slices indexes[q] := by
        simpa [NebRandomBucket.nlist] using heq
      have hv := d (show indexes[p] < 10 from sh.2.2 _ (List.getElem_mem hp))
        (show indexes[q] < 10 from sh.2.2 _ (List.getElem_mem hq)) hs
      exact hne ((List.Nodup.getElem_inj_iff sh.2.1).mp hv)
    obtain ⟨m1, hrev, Q1⟩ := nebRandomSliceReverse_returns
      (by simp [NebRandomBucket.nlist]) (left _ hj (by omega)) hk Q
      (enough (b.slices indexes[draw i + i + 1]))
    obtain ⟨m', hrest, Q'⟩ := ih (i + 1) (by omega) (sh.swap hi hj) (fun h => hk h.1) Q1 (by
      intro p hp hip
      simp only [List.length_set] at hp
      rw [List.getElem_set_of_ne (by omega)]
      by_cases hpj : draw i + i + 1 = p
      · subst hpj
        rw [List.getElem_set_self]
        exact ⟨left i hi le_rfl, apart _ _ hi hj (by omega)⟩
      · rw [List.getElem_set_of_ne hpj]
        exact ⟨left p hp (by omega), apart _ _ hp hj (Ne.symm hpj)⟩)
    refine ⟨m', ?_, Q'.mono (fun h hh => ⟨⟨hh.1, hh.2 _⟩, hh.2⟩)⟩
    rw [← hrest]
    simp [confuseLoop, List.getElem?_eq_getElem hj, List.getElem?_eq_getElem hi, hslot, hrev]

/-- Confuse returns on a bucket that satisfies the invariant, and only touches its slices. -/
theorem nebRandomBucketConfuse_returns {draw : Nat → Nat} (hdraw : ConfuseDraws draw)
    {b : NebRandomBucket} {m : NodeMem} {H : Set ListHead} {L : ListHead → List NodeAddr}
    (Q : Queues m H L) (ok : BucketOk b L) (heads : ∀ s, b.nlist s ∈ H) (htl : .tl ∉ H)
    {fuel : Nat} (enough : b.count < fuel) :
    ∃ m', nebRandomBucketConfuse fuel draw b m = some m' ∧
      Queues m' {h | h ∈ H ∧ ∀ s, h ≠ b.nlist s} L := by
  refine confuseLoop_returns hdraw ok.distinct (fun s => ?_) 5 0 rfl
    ⟨by decide, by decide, by decide⟩ htl Q (fun _ _ _ => heads _)
  have hle : b.sliceCount s ≤ b.count := by
    rw [ok.total]
    exact Finset.single_le_sum (fun _ _ => Nat.zero_le _) (Finset.mem_univ s)
  rw [ok.counts] at hle
  omega

end Nebase.Random
