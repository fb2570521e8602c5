/- What a timer operation that fails for lack of memory leaves behind. -/

import Nebase.Evdp.Timer.Ops

set_option autoImplicit false
set_option relaxedAutoImplicit false

namespace Nebase.Evdp.Timer

open Nebase.Time

/-- The points in the list of the node for `d`, in order. -/
def NebEvdpTimer.linkedAt (t : NebEvdpTimer) (d : Timespec) : List PointAddr :=
  ((t.rbtree.find? (fun n => n.ts = d)).map (·.cblist)).getD []

/-- The deadline of the node a point refers to. -/
def NebEvdpTimer.deadline (t : NebEvdpTimer) (p : PointAddr) : Option Timespec := do
  let c ← t.points p
  let a ← c.refTnode
  let n ← t.tnode a
  some n.ts

/-- Nothing a caller can tell has changed. -/
structure Unchanged (t t' : NebEvdpTimer) : Prop where
  deadlines : ∀ d, (∃ a, NodeAt t' a d) ↔ ∃ a, NodeAt t a d
  linked : ∀ d, t'.linkedAt d = t.linkedAt d
  keeplist : t'.keeplist = t.keeplist
  deadline : ∀ p, t'.deadline p = t.deadline p

section Unchanged

variable {t t' : NebEvdpTimer}

theorem Unchanged.refl (t : NebEvdpTimer) : Unchanged t t :=
  ⟨fun _ => .rfl, fun _ => rfl, rfl, fun _ => rfl⟩

private theorem unchanged_of_tree (tree : t'.rbtree = t.rbtree)
    (keeplist : t'.keeplist = t.keeplist) (points : t'.points = t.points) : Unchanged t t' where
  deadlines := by simp [NodeAt, tree]
  linked := by simp [NebEvdpTimer.linkedAt, tree]
  keeplist := keeplist
  deadline := by simp [NebEvdpTimer.deadline, NebEvdpTimer.tnode, tree, points]

private theorem insert_tnode_keeplist {absTs : Timespec} {calloc : Option TnodeAddr}
    {tn : TnodeAddr} {existed : Bool}
    (h : evdpTimerInsertTnode absTs calloc t = some (tn, existed, t')) :
    t'.keeplist = t.keeplist := by
  unfold evdpTimerInsertTnode at h
  obtain ⟨⟨n, t1⟩, hnew, h⟩ := Option.bind_eq_some_iff.mp h
  have hkeep : t1.keeplist = t.keeplist := by
    unfold evdpTimerRbtreeNodeNew at hnew
    split at hnew
    · obtain ⟨-, rfl⟩ : _ = n ∧ _ = t1 := by simpa using hnew
      rfl
    · obtain ⟨a, -, heq⟩ := Option.map_eq_some_iff.mp hnew
      obtain ⟨-, rfl⟩ := Prod.mk.inj heq
      rfl
  dsimp only at h
  split at h
  · obtain ⟨-, -, rfl⟩ : _ = tn ∧ true = existed ∧ _ = t' := by simpa using h
    exact (rbtree_node_del_leaves n _).2.trans hkeep
  · obtain ⟨-, -, rfl⟩ : _ = tn ∧ false = existed ∧ _ = t' := by simpa using h
    exact hkeep

end Unchanged

/-- A call that fails changes nothing, except for a `new_point` that has put a node for a deadline
of its own into the tree when the allocation of the point fails: that node stays. -/
theorem nebEvdpTimer_failure_unchanged_iff {t : NebEvdpTimer} {active : Option TnodeAddr}
    {loose : Set PointAddr} (shape : Shape t active loose) :
    (∀ absTs cb udata tnode lnode t', t.tnodeFresh tnode = true →
      nebEvdpTimerNewPoint absTs cb udata tnode lnode t = some (none, t') →
      (Unchanged t t' ↔ t.OutOfTnodes tnode ∨ ∃ a, NodeAt t a absTs)) ∧
    ∀ p absTs tnode t', nebEvdpTimerPointReset p absTs tnode t = some (-1, t') →
      Unchanged t t' := by
  constructor
  · intro absTs cb udata tnode lnode t' fresh h
    obtain ⟨-, rfl, hnone⟩ | ⟨tn, existed, t1, hins, ⟨-, rfl, -⟩ | ⟨ln, t2, hr, -⟩⟩ :=
      new_point_cases h
    · exact iff_of_true (.refl t') (.inl (insert_tnode_none.mp hnone))
    · have hgot : ¬ t.OutOfTnodes tnode := by
        rw [← @insert_tnode_none t absTs tnode, hins]
        simp
      obtain ⟨-, hpoints, -, hcase⟩ := shape.insertTnode fresh hins
      rcases hcase with ⟨-, htree, hat⟩ | ⟨-, hnew, htree⟩
      · exact iff_of_true
          (unchanged_of_tree htree (insert_tnode_keeplist hins) hpoints) (.inr ⟨tn, hat⟩)
      · have hnone : ¬ ∃ a, NodeAt t a absTs := by
          rintro ⟨a, n, hn, -, hts⟩
          exact (hnew n hn).1 hts
        refine iff_of_false ?_ (fun hor => hor.elim hgot hnone)
        intro unchanged
        exact hnone ((unchanged.deadlines absTs).mp
          ⟨tn, _, (htree _).mpr (.inl rfl), rfl, rfl⟩)
    · cases hr
  · intro p absTs tnode t' h
    obtain ⟨-, rfl, -⟩ | ⟨tn, existed, t1, ln, -, hr, -⟩ := point_reset_cases h
    · exact .refl t'
    · cases hr

/-- Two points at one deadline and a third at a later one, with these nodes in the caches. -/
private def stocked (tnodes : List TnodeAddr) (lnodes : List PointAddr) : NebEvdpTimer where
  rbtree := [⟨10, ⟨1, 0⟩, [101, 100], false⟩, ⟨11, ⟨2, 0⟩, [102], false⟩]
  tcache := ⟨tnodes, 4⟩
  lcache := ⟨lnodes, 4⟩
  keeplist := []
  points := fun p =>
    if p = 100 ∨ p = 101 then some ⟨7, p, false, some 10⟩
    else if p = 102 then some ⟨7, p, false, some 11⟩
    else none
  tledger := ⟨[], []⟩
  lledger := ⟨[], []⟩

private theorem stocked_shape {tnodes : List TnodeAddr} {lnodes : List PointAddr}
    (tnodup : tnodes.Nodup) (tfree : ∀ a ∈ tnodes, 12 ≤ a) (lnodup : lnodes.Nodup)
    (lfree : ∀ p ∈ lnodes, 103 ≤ p) : Shape (stocked tnodes lnodes) none ∅ where
  sorted := by
    simp only [stocked, Sorted, List.pairwise_cons, List.mem_singleton, forall_eq]
    exact ⟨by decide, by simp, .nil⟩
  addrs := by simp [stocked]
  tcache := by
    have h10 : 10 ∉ tnodes := fun h => absurd (tfree 10 h) (by decide)
    have h11 : 11 ∉ tnodes := fun h => absurd (tfree 11 h) (by decide)
    simp [stocked, h10, h11]
  tcacheNodup := tnodup
  lcache := by
    intro p hp
    have hlow : 103 ≤ p := lfree p hp
    have hfirst : ¬ (p = 100 ∨ p = 101) := by omega
    have hthird : p ≠ 102 := by omega
    simp only [stocked, if_neg hfirst, if_neg hthird]
  lcacheNodup := lnodup
  autoDel := by simp [stocked]
  activeMem := by simp
  cblistNodup := by simp [stocked]
  keepNodup := .nil
  linked := by simp [stocked]
  kept := by simp [stocked]
  placed := by
    intro p c hp _
    simp only [stocked] at hp
    split_ifs at hp with h h'
    · obtain rfl := Option.some.inj hp
      simpa [stocked, or_comm] using h
    · obtain rfl := Option.some.inj hp
      simpa [stocked] using h'

/-- Without a point, a deadline that is in the tree is not changed, with a cached node; without a
node, a new deadline and a reset change nothing; with a cached node and no point, a new deadline
stays. -/
theorem nebEvdpTimer_failure_unchanged_iff_stocked :
    (∃ t', nebEvdpTimerNewPoint ⟨1, 0⟩ 7 8 none none (stocked [12, 13] []) = some (none, t') ∧
      Unchanged (stocked [12, 13] []) t') ∧
    (∃ t', nebEvdpTimerNewPoint ⟨5, 0⟩ 7 8 none none (stocked [] [103]) = some (none, t') ∧
      Unchanged (stocked [] [103]) t') ∧
    (∃ t', nebEvdpTimerPointReset 100 ⟨5, 0⟩ none (stocked [] [103]) = some (-1, t') ∧
      Unchanged (stocked [] [103]) t') ∧
    ∃ t', nebEvdpTimerNewPoint ⟨5, 0⟩ 7 8 none none (stocked [12, 13] []) = some (none, t') ∧
      ¬ Unchanged (stocked [12, 13] []) t' := by
  have nodes := nebEvdpTimer_failure_unchanged_iff
    (show Shape (stocked [12, 13] []) none ∅ from
      stocked_shape (by decide) (by decide) .nil (by simp))
  have points := nebEvdpTimer_failure_unchanged_iff
    (show Shape (stocked [] [103]) none ∅ from
      stocked_shape .nil (by simp) (by decide) (by decide))
  refine ⟨⟨_, rfl, ?_⟩, ⟨_, rfl, ?_⟩, ⟨_, rfl, ?_⟩, ⟨_, rfl, ?_⟩⟩
  · exact (nodes.1 ⟨1, 0⟩ 7 8 none none _ rfl rfl).mpr
      (.inr ⟨10, _, List.mem_cons_self, rfl, rfl⟩)
  · exact (points.1 ⟨5, 0⟩ 7 8 none none _ rfl rfl).mpr (.inl ⟨rfl, rfl⟩)
  · exact points.2 100 ⟨5, 0⟩ none _ rfl
  · rw [nodes.1 ⟨5, 0⟩ 7 8 none none _ rfl rfl]
    rintro (⟨h, -⟩ | ⟨a, n, hn, -, hts⟩)
    · cases h
    · simp only [stocked, List.mem_cons, List.not_mem_nil, or_false] at hn
      rcases hn with rfl | rfl
      · cases hts
      · cases hts

/-- The heap gives a node of the tree and then no point: the deadline stays in the tree. -/
theorem nebEvdpTimer_failure_unchanged_fails :
    ∃ t', nebEvdpTimerNewPoint ⟨1, 0⟩ 7 8 (some 10) none (nebEvdpTimerCreate 1 1) =
      some (none, t') ∧ ¬ Unchanged (nebEvdpTimerCreate 1 1) t' := by
  refine ⟨_, rfl, ?_⟩
  intro unchanged
  obtain ⟨a, n, hn, -⟩ := (unchanged.deadlines ⟨1, 0⟩).mp ⟨10, _, List.mem_cons_self, rfl, rfl⟩
  simp [nebEvdpTimerCreate] at hn

end Nebase.Evdp.Timer
