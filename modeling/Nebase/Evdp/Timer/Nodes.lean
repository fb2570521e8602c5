/- Where the nodes of the tree come from, and the node that run_until is draining. -/

import Nebase.Evdp.Timer.Reference

set_option autoImplicit false
set_option relaxedAutoImplicit false

namespace Nebase.Evdp.Timer

open Nebase.Time

section Functions

variable {t t' : NebEvdpTimer}

/-- The nodes of `t'` are nodes of `t`. -/
def NodesWithin (t t' : NebEvdpTimer) : Prop :=
  ∀ a d, NodeAt t' a d → NodeAt t a d

private theorem NodesWithin.of_tree (tree : ∀ n ∈ t'.rbtree, n ∈ t.rbtree) :
    NodesWithin t t' := by
  rintro a d ⟨n, hn, h⟩
  exact ⟨n, tree n hn, h⟩

private theorem list_remove_nodes {p : PointAddr} (h : listRemove p t = some t') :
    NodesWithin t t' := by
  unfold listRemove at h
  split_ifs at h
  obtain rfl := Option.some.inj h
  let unlink (n : EvdpTimerRbtreeNode) := { n with cblist := n.cblist.erase p }
  intro a d hat
  exact (node_at_map (g := unlink) (fun _ => rfl) (fun _ => rfl) rfl a d).mp hat

private theorem cblist_insert_head_nodes {p : PointAddr} {a : TnodeAddr}
    (h : cblistInsertHead a p t = some t') : NodesWithin t t' := by
  unfold cblistInsertHead at h
  split_ifs at h
  obtain rfl := Option.some.inj h
  intro b d hat
  exact (node_at_map (fun n => by split <;> rfl) (fun n => by split <;> rfl) rfl b d).mp hat

private theorem check_del_nodes {a : TnodeAddr} (h : evdpTimerRbtreeNodeCheckDel a t = some t') :
    NodesWithin t t' := by
  unfold evdpTimerRbtreeNodeCheckDel at h
  obtain ⟨n, -, h⟩ := Option.bind_eq_some_iff.mp h
  split_ifs at h
  · obtain rfl := Option.some.inj h
    exact fun _ _ => id
  · obtain rfl := Option.some.inj h
    apply NodesWithin.of_tree
    rw [(rbtree_node_del_leaves _ _).1]
    exact fun m hm => (List.mem_filter.mp hm).1
  · obtain rfl := Option.some.inj h
    exact fun _ _ => id

private theorem check_del_old_nodes {old : Option TnodeAddr}
    (h : checkDelOld old t = some t') : NodesWithin t t' := by
  cases old with
  | none =>
    obtain rfl := Option.some.inj h
    exact fun _ _ => id
  | some tn => exact check_del_nodes h

/-- The only node that may be new is one for `absTs`, where the tree had none. -/
def NewTnode (t : NebEvdpTimer) (absTs : Timespec) (tnode : Option TnodeAddr) : Prop :=
  ¬ t.OutOfTnodes tnode ∧ ∀ b, ¬ NodeAt t b absTs

variable {active : Option TnodeAddr} {loose : Set PointAddr}

private theorem Shape.insert_nodes (shape : Shape t active loose) {absTs : Timespec}
    {tnode : Option TnodeAddr} (fresh : t.tnodeFresh tnode = true) {tn : TnodeAddr}
    {existed : Bool} (h : evdpTimerInsertTnode absTs tnode t = some (tn, existed, t'))
    {a : TnodeAddr} {d : Timespec} (hat : NodeAt t' a d) :
    NodeAt t a d ∨ d = absTs ∧ NewTnode t absTs tnode := by
  obtain ⟨n, hn, hna, hnd⟩ := hat
  obtain ⟨-, -, -, ⟨-, htree, -⟩ | ⟨-, hnew, htree⟩⟩ := shape.insertTnode fresh h
  · exact .inl ⟨n, htree ▸ hn, hna, hnd⟩
  · rcases (htree n).mp hn with rfl | hn
    · right
      refine ⟨hnd.symm, ?_, ?_⟩
      · rw [← @insert_tnode_none t absTs tnode, h]
        simp
      · rintro b ⟨m, hm, -, hts⟩
        exact (hnew m hm).1 hts
    · exact .inl ⟨n, hn, hna, hnd⟩

theorem Shape.new_point_nodes (shape : Shape t active loose) {absTs : Timespec} {cb udata : Nat}
    {tnode lnode : Option Nat} (fresh : t.tnodeFresh tnode = true) {r : Option PointAddr}
    (h : nebEvdpTimerNewPoint absTs cb udata tnode lnode t = some (r, t')) {a : TnodeAddr}
    {d : Timespec} (hat : NodeAt t' a d) : NodeAt t a d ∨ d = absTs ∧ NewTnode t absTs tnode := by
  obtain ⟨-, rfl, -⟩ | ⟨tn, existed, t1, hins, hcase⟩ := new_point_cases h
  · exact .inl hat
  refine shape.insert_nodes fresh hins ?_
  rcases hcase with ⟨-, rfl, -⟩ | ⟨ln, t2, -, hnew, hhead⟩
  · exact hat
  · obtain ⟨n, hn, hnd⟩ := cblist_insert_head_nodes hhead a d hat
    have htree : t2.rbtree = t1.rbtree := by
      unfold evdpTimerCblistNodeNew at hnew
      split at hnew
      · obtain ⟨-, rfl⟩ : _ = ln ∧ _ = t2 := by simpa using hnew
        rfl
      · obtain ⟨q, -, hq⟩ := Option.map_eq_some_iff.mp hnew
        obtain ⟨-, rfl⟩ := Prod.mk.inj hq
        rfl
    exact ⟨n, htree ▸ hn, hnd⟩

theorem Shape.point_reset_nodes (shape : Shape t active loose) {p : PointAddr}
    {absTs : Timespec} {tnode : Option TnodeAddr} (fresh : t.tnodeFresh tnode = true) {r : Int}
    (h : nebEvdpTimerPointReset p absTs tnode t = some (r, t')) {a : TnodeAddr} {d : Timespec}
    (hat : NodeAt t' a d) : NodeAt t a d ∨ d = absTs ∧ NewTnode t absTs tnode := by
  obtain ⟨-, rfl, -⟩ | ⟨tn, existed, t1, ln, hins, -, -, hcase⟩ := point_reset_cases h
  · exact .inl hat
  refine shape.insert_nodes fresh hins ?_
  rcases hcase with ⟨-, -, rfl⟩ | ⟨-, rfl⟩ | ⟨-, t2, t3, hrem, hcheck, hhead⟩
  · exact hat
  · exact hat
  · have hchecked : NodeAt t3 a d := cblist_insert_head_nodes hhead a d hat
    exact list_remove_nodes hrem a d (check_del_old_nodes hcheck a d hchecked)

theorem del_point_nodes {p : PointAddr} (h : nebEvdpTimerDelPoint p t = some t') :
    NodesWithin t t' := by
  obtain ⟨ln, -, ⟨-, rfl⟩ | ⟨-, t1, hrem, hcheck⟩⟩ := del_point_cases h
  · exact fun _ _ => id
  · intro a d hat
    have hfreed : NodeAt t1 a d := check_del_old_nodes hcheck a d hat
    exact list_remove_nodes hrem a d hfreed

end Functions

section Steps

variable {s s' : State}

/-- Between two callbacks no node is added, and the drained one goes when it is done with. -/
theorem Inv.proceed_nodes (inv : Inv s) (h : step s .proceed = some s') {a : TnodeAddr}
    {d : Timespec} (hat : NodeAt s'.timer a d) :
    NodeAt s.timer a d ∧ (s.ctl.active = some a → s'.ctl.active = some a) := by
  obtain ⟨-, hproceeds⟩ := inv.proceed h
  cases hproceeds with
  | finished ctl => exact ⟨hat, by simp [ctl, Ctl.active]⟩
  | stopped ctl at_ past => exact ⟨hat, by simp [ctl, Ctl.active]⟩
  | opened ctl at_ within points nodes due =>
    exact ⟨(nodes a d).mp hat, by simp [ctl, Ctl.active]⟩
  | fired ctl at_ waits point ref points nodes due =>
    exact ⟨(nodes a d).mp hat, by simp [ctl, Ctl.active]⟩
  | @closed lim k b e nxt t' ctl at_ points due last next =>
    change proceedStep s = some _ at h
    simp only [proceedStep, ctl] at h
    split at h
    · cases h
    · split at h
      · have hctl := congrArg State.ctl (Option.some.inj h)
        unfold State.after at hctl
        split at hctl
        · cases hctl
        · cases hctl
      · obtain ⟨rfl, -⟩ := State.mk.inj (Option.some.inj h)
        obtain ⟨m, hm, rfl, rfl⟩ := hat
        rw [(rbtree_node_del_leaves _ _).1] at hm
        obtain ⟨hm, hne⟩ := List.mem_filter.mp hm
        have hold : NodeAt (s.timer.updateTnode b (fun n => { n with noAutoDel := false }))
            m.addr m.ts := ⟨m, hm, rfl, rfl⟩
        refine ⟨(node_at_auto_del b false m.addr m.ts).mp hold, ?_⟩
        intro hactive
        simp only [ctl, Ctl.active, Option.some.injEq] at hactive
        simp [hactive] at hne

end Steps

end Nebase.Evdp.Timer
