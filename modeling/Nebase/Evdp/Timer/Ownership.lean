/- The nodes of a timer are owned exactly once, in every state of a run, and neb_evdp_timer_destroy
   frees those that are left. -/

import Nebase.Evdp.Timer.Books
import Nebase.Evdp.Timer.Reference

set_option autoImplicit false
set_option relaxedAutoImplicit false

namespace Nebase.Evdp.Timer

open Nebase.Time Nebase.Foundation

section Operations

variable {t t' : NebEvdpTimer} {active : Option TnodeAddr} {loose : Set PointAddr}
  {lhand : List PointAddr}

theorem Books.newPoint (books : Books t [] lhand) (shape : Shape t active loose)
    {absTs : Timespec} {cb udata : Nat} {tnode lnode : Option Nat}
    (freshT : t.tnodeFresh tnode = true) (freshL : t.lnodeFresh lnode = true)
    {r : Option PointAddr}
    (h : nebEvdpTimerNewPoint absTs cb udata tnode lnode t = some (r, t')) : Books t' [] lhand := by
  obtain ⟨-, rfl, -⟩ | ⟨tn, existed, t1, hins, hcase⟩ := new_point_cases h
  · exact books
  have books1 := books.insertTnode shape.sorted freshT hins
  obtain ⟨-, hpoints, hlcache, -⟩ := shape.insertTnode freshT hins
  have freshL1 : t1.lnodeFresh lnode = true := by
    simpa [NebEvdpTimer.lnodeFresh, hpoints, hlcache] using freshL
  rcases hcase with ⟨-, rfl, -⟩ | ⟨ln, t2, -, hnew, hhead⟩
  · exact books1
  · obtain ⟨books2, -⟩ := books1.cblistNodeNew freshL1 hnew
    exact (books2.setPoint ln _).cblistInsertHead hhead

private theorem Books.checkDelOld {old : Option TnodeAddr} (books : Books t [] lhand)
    (h : Timer.checkDelOld old t = some t') : Books t' [] lhand := by
  cases old with
  | none =>
    obtain rfl := Option.some.inj h
    exact books
  | some tn => exact books.checkDel h

theorem Books.delPoint (books : Books t [] lhand) {p : PointAddr}
    (h : nebEvdpTimerDelPoint p t = some t') : Books t' [] lhand := by
  obtain ⟨ln, -, ⟨-, rfl⟩ | ⟨-, t1, hrem, hcheck⟩⟩ := del_point_cases h
  · exact books.setPoint p _
  · exact (books.listRemove hrem).1.cblistNodeFree.checkDelOld hcheck

theorem Books.pointReset (books : Books t [] lhand) (shape : Shape t active loose)
    {p : PointAddr} {absTs : Timespec} {tnode : Option TnodeAddr}
    (fresh : t.tnodeFresh tnode = true) {r : Int}
    (h : nebEvdpTimerPointReset p absTs tnode t = some (r, t')) : Books t' [] lhand := by
  obtain ⟨-, rfl, -⟩ | ⟨tn, existed, t1, ln, hins, -, -, hcase⟩ := point_reset_cases h
  · exact books
  have books1 := books.insertTnode shape.sorted fresh hins
  rcases hcase with ⟨-, -, rfl⟩ | ⟨-, rfl⟩ | ⟨-, t2, t3, hrem, hcheck, hhead⟩
  · exact books1
  · exact books1.setPoint p _
  · have books3 := (books1.listRemove hrem).1.checkDelOld hcheck
    exact (books3.setPoint p _).cblistInsertHead hhead

theorem Books.afterCallback {tn : TnodeAddr} {ln : PointAddr} (books : Books t [] (ln :: lhand))
    {tret : NebEvdpTimeoutRet} (h : Timer.afterCallback tn ln tret t = some t') :
    Books t' [] lhand := by
  unfold Timer.afterCallback at h
  obtain ⟨c, -, h⟩ := Option.bind_eq_some_iff.mp h
  cases href : c.refTnode with
  | none =>
    obtain rfl : _ = t' := by simpa [href] using h
    exact (books.setPoint ln _).cblistNodeFree
  | some ref =>
    simp only [href] at h
    cases tret with
    | free =>
      obtain rfl : _ = t' := by simpa using h
      exact (books.setPoint ln _).cblistNodeFree
    | keep =>
      simp only at h
      split_ifs at h with heq
      · obtain rfl := Option.some.inj h
        exact (books.setPoint ln _).keeplistInsertHead
      · exact (books.setPoint ln _).cblistInsertHead h

end Operations

/-- The point that runs is in the hand of `evdp_timer_run_until`. -/
def State.hand (s : State) : List PointAddr := s.ctl.runningPoint.toList

theorem Books.ofStep {s s' : State} {a : Action} (books : Books s.timer [] s.hand) (inv : Inv s)
    (h : step s a = some s') (defined : s'.ctl ≠ .undefined) : Books s'.timer [] s'.hand := by
  have hafter : ∀ {ctl : Ctl} {r : Option NebEvdpTimer}, s.after ctl r = s' →
      ∃ t', r = some t' ∧ s' = ⟨t', ctl⟩ := by
    intro ctl r hr
    cases r with
    | none =>
      obtain rfl := hr
      exact absurd rfl defined
    | some t' => exact ⟨t', rfl, hr.symm⟩
  cases a with
  | newPoint absTs cb udata tnode lnode =>
    simp only [step] at h
    split_ifs at h with hguard
    obtain ⟨t', heq, rfl⟩ := hafter (Option.some.inj h)
    obtain ⟨⟨r, t1⟩, hnew, rfl⟩ := Option.map_eq_some_iff.mp heq
    exact books.newPoint inv.shape hguard.2.1 hguard.2.2 hnew
  | delPoint p =>
    simp only [step] at h
    split_ifs at h with hguard
    obtain ⟨t', heq, rfl⟩ := hafter (Option.some.inj h)
    exact books.delPoint heq
  | pointReset p absTs tnode =>
    simp only [step] at h
    split_ifs at h with hguard
    obtain ⟨t', heq, rfl⟩ := hafter (Option.some.inj h)
    obtain ⟨⟨r, t1⟩, hreset, rfl⟩ := Option.map_eq_some_iff.mp heq
    exact books.pointReset inv.shape hguard.2.1 hreset
  | runUntil absTs =>
    obtain ⟨-, hidle, rfl⟩ := inv.runUntil h
    simpa [State.hand, hidle, Ctl.runningPoint] using books
  | proceed =>
    change proceedStep s = some s' at h
    unfold proceedStep at h
    split at h
    · rename_i hctl
      obtain rfl := Option.some.inj h
      simpa [State.hand, hctl, Ctl.runningPoint] using books
    · rename_i lim k tn hctl
      simp only [State.hand, hctl, Ctl.runningPoint, Option.toList_none] at books
      split at h
      · obtain rfl := Option.some.inj h
        exact absurd rfl defined
      · split_ifs at h with hpast
        · obtain rfl := Option.some.inj h
          exact books
        · obtain rfl := Option.some.inj h
          exact books.mapTree (fun n => by split <;> rfl) (fun n => by split <;> rfl)
    · rename_i lim k tn hctl
      simp only [State.hand, hctl, Ctl.runningPoint, Option.toList_none] at books
      split at h
      · obtain rfl := Option.some.inj h
        exact absurd rfl defined
      · rename_i n hn
        split at h
        · rename_i ln rest hlist
          obtain ⟨t', heq, rfl⟩ := hafter (Option.some.inj h)
          obtain ⟨t1, hrem, heq⟩ := Option.bind_eq_some_iff.mp heq
          obtain ⟨c, -, heq⟩ := Option.bind_eq_some_iff.mp heq
          obtain rfl := Option.some.inj heq
          exact (books.listRemove hrem).1.setPoint ln _
        · rename_i hlist
          obtain rfl := Option.some.inj h
          obtain ⟨hmem, rfl⟩ := tnode_mem hn
          let flag (m : EvdpTimerRbtreeNode) :=
            if m.addr = n.addr then { m with noAutoDel := false } else m
          have books1 : Books { s.timer with rbtree := s.timer.rbtree.map flag } [] [] :=
            books.mapTree (fun m => by dsimp only [flag]; split <;> rfl)
              (fun m => by dsimp only [flag]; split <;> rfl)
          have hmem1 : { n with noAutoDel := false } ∈ s.timer.rbtree.map flag :=
            List.mem_map.mpr ⟨n, hmem, by simp [flag]⟩
          exact (books1.removeTnode hmem1 hlist).rbtreeNodeDel hlist
    · cases h
  | cbReturn tret =>
    simp only [step] at h
    split at h
    · rename_i lim k tn ln hctl
      simp only [State.hand, hctl, Ctl.runningPoint, Option.toList_some] at books
      obtain ⟨t', heq, rfl⟩ := hafter (Option.some.inj h)
      exact books.afterCallback heq
    · cases h

/-! `neb_evdp_timer_destroy`. -/

/-- `evdp_timer_cblist_node_free(n, NULL)`: there is no cache to put the node into. -/
def freeCblistNode (p : PointAddr) (t : NebEvdpTimer) : NebEvdpTimer :=
  { t with points := Function.update t.points p none, lledger := t.lledger.free p }

/-- `evdp_timer_rbtree_node_del(n, NULL)`. -/
def freeRbtreeNode (n : EvdpTimerRbtreeNode) (t : NebEvdpTimer) : NebEvdpTimer :=
  let t := n.cblist.foldl (fun t p => freeCblistNode p t) t
  { t with tledger := t.tledger.free n.addr }

/-- The ledgers of the two kinds of nodes, once the timer is gone. -/
def nebEvdpTimerDestroy (t : NebEvdpTimer) : Ledger × Ledger :=
  let t := t.rbtree.foldl
    (fun t n => freeRbtreeNode n { t with rbtree := rbTreeRemoveNode n.addr t.rbtree }) t
  let t := t.keeplist.foldl (fun t p => evdpTimerCblistNodeFree p t) t
  (t.tcache.nodes.foldr (fun a l => l.free a) t.tledger,
    t.lcache.nodes.foldr (fun p l => l.free p) t.lledger)

/-- Each of these blocks has been freed once, and nothing has been allocated. -/
def Ledger.FreesOnce (l l' : Ledger) (blocks : List Nat) : Prop :=
  l'.calloced = l.calloced ∧ l'.freed.Perm (l.freed ++ blocks)

theorem Ledger.Balanced.freesOnce {l l' : Ledger} {places : List Nat} (before : l.Balanced places)
    (after : l'.Balanced []) (same : l'.calloced = l.calloced) : l.FreesOnce l' places := by
  refine ⟨same, ?_⟩
  have hall : l'.calloced.Perm l'.freed := by simpa using after.accounts
  exact hall.symm.trans (same ▸ before.accounts)

private theorem Ledger.Balanced.freeAll {l : Ledger} {blocks rest : List Nat}
    (balanced : l.Balanced (blocks ++ rest)) :
    (blocks.foldr (fun a l => l.free a) l).Balanced rest ∧
      (blocks.foldr (fun a l => l.free a) l).calloced = l.calloced := by
  induction blocks generalizing rest with
  | nil => exact ⟨balanced, rfl⟩
  | cons a blocks ih =>
    have hlast : l.Balanced (blocks ++ a :: rest) := by
      refine balanced.move ?_
      intro b
      simp only [List.cons_append, List.count_cons, List.count_append]
      omega
    obtain ⟨hbalanced, hsame⟩ := ih hlast
    exact ⟨hbalanced.free, hsame⟩

section Destroy

variable {t : NebEvdpTimer} {thand : List TnodeAddr} {lhand : List PointAddr}

private theorem Books.freeCblistNode {p : PointAddr} (books : Books t thand (p :: lhand)) :
    Books (Timer.freeCblistNode p t) thand lhand := by
  obtain ⟨hnot, -⟩ := List.nodup_cons.mp books.lnodes.once
  refine { books with lnodes := books.lnodes.free, alive := ?_ }
  intro q hq
  have hqp : q ≠ p := by
    rintro rfl
    apply hnot
    change q ∈ lhand ++ (t.cblists ++ (t.keeplist ++ t.lcache.nodes))
    change q ∈ lhand ++ (t.cblists ++ t.keeplist) at hq
    simp only [List.mem_append] at hq ⊢
    tauto
  change Function.update t.points p none q ≠ none
  rw [Function.update_of_ne hqp]
  exact books.alive q (List.mem_cons_of_mem p hq)

/-- What the loops of `destroy` keep, whatever else they free. -/
private def SameElsewhere (t t' : NebEvdpTimer) : Prop :=
  t'.keeplist = t.keeplist ∧ t'.tledger.calloced = t.tledger.calloced ∧
    t'.lledger.calloced = t.lledger.calloced

private theorem free_cblist (ps : List PointAddr) (books : Books t thand (ps ++ lhand)) :
    Books (ps.foldl (fun t p => Timer.freeCblistNode p t) t) thand lhand ∧
      (ps.foldl (fun t p => Timer.freeCblistNode p t) t).rbtree = t.rbtree ∧
      SameElsewhere t (ps.foldl (fun t p => Timer.freeCblistNode p t) t) := by
  induction ps generalizing t with
  | nil => exact ⟨books, rfl, rfl, rfl, rfl⟩
  | cons p ps ih => exact ih (t := Timer.freeCblistNode p t) books.freeCblistNode

private theorem free_tree (ns : List EvdpTimerRbtreeNode) (tree : t.rbtree = ns)
    (books : Books t [] []) :
    let t' := ns.foldl
      (fun t n => freeRbtreeNode n { t with rbtree := rbTreeRemoveNode n.addr t.rbtree }) t
    Books t' [] [] ∧ t'.rbtree = [] ∧ SameElsewhere t t' := by
  induction ns generalizing t with
  | nil => exact ⟨books, tree, rfl, rfl, rfl⟩
  | cons n ns ih =>
    have hrest : rbTreeRemoveNode n.addr t.rbtree = ns := by
      have hnodup := books.addrs_nodup
      rw [tree, List.map_cons] at hnodup
      rw [tree, rbTreeRemoveNode, List.filter_cons_of_neg (by simp), List.filter_eq_self]
      intro m hm
      simp only [decide_eq_true_eq]
      exact fun heq => (List.nodup_cons.mp hnodup).1 (heq ▸ List.mem_map_of_mem hm)
    have hheld : Books { t with rbtree := ns } [n.addr] (n.cblist ++ []) := by
      refine { books with
        tnodes := books.tnodes.move ?_, lnodes := books.lnodes.move ?_, alive := ?_ }
      · intro a
        simp only [NebEvdpTimer.tnodePlaces, tree, List.map_cons, List.count_append,
          List.count_cons, List.count_nil]
        omega
      · intro a
        simp only [NebEvdpTimer.lnodePlaces, NebEvdpTimer.cblists, tree, List.flatMap_cons,
          List.count_append, List.count_nil]
        omega
      · intro q hq
        refine books.alive q ?_
        simp only [NebEvdpTimer.cblists, tree, List.flatMap_cons, List.mem_append] at hq ⊢
        tauto
    obtain ⟨books1, htree1, hkeep1, ht1, hl1⟩ := free_cblist n.cblist hheld
    have books2 : Books (freeRbtreeNode n { t with rbtree := ns }) [] [] :=
      { books1 with tnodes := books1.tnodes.free }
    obtain ⟨books3, htree3, hkeep3, ht3, hl3⟩ := ih (t := freeRbtreeNode n _) htree1 books2
    simp only [List.foldl_cons, hrest]
    exact ⟨books3, htree3, hkeep3.trans hkeep1, ht3.trans ht1, hl3.trans hl1⟩

private theorem free_keeplist (ps : List PointAddr)
    (books : Books { t with keeplist := [] } [] (ps ++ [])) :
    let t' := ps.foldl (fun t p => evdpTimerCblistNodeFree p t) t
    Books { t' with keeplist := [] } [] [] ∧ t'.rbtree = t.rbtree ∧
      t'.tledger.calloced = t.tledger.calloced ∧ t'.lledger.calloced = t.lledger.calloced := by
  induction ps generalizing t with
  | nil => exact ⟨books, rfl, rfl, rfl⟩
  | cons p ps ih =>
    obtain ⟨books', htree, ht, hl⟩ := ih (t := evdpTimerCblistNodeFree p t) books.cblistNodeFree
    refine ⟨books', htree, ht, hl.trans ?_⟩
    unfold evdpTimerCblistNodeFree
    dsimp only
    split <;> rfl

theorem Books.destroy (books : Books t [] []) :
    t.tledger.FreesOnce (nebEvdpTimerDestroy t).1 (t.tnodePlaces []) ∧
      t.lledger.FreesOnce (nebEvdpTimerDestroy t).2 (t.lnodePlaces []) := by
  obtain ⟨books1, htree1, hkeep1, ht1, hl1⟩ := free_tree t.rbtree rfl books
  generalize ht' : t.rbtree.foldl
    (fun t n => freeRbtreeNode n { t with rbtree := rbTreeRemoveNode n.addr t.rbtree }) t = t1
    at books1 htree1 hkeep1 ht1 hl1
  have hheld : Books { t1 with keeplist := [] } [] (t1.keeplist ++ []) := by
    refine { books1 with lnodes := books1.lnodes.move ?_, alive := ?_ }
    · intro a
      simp only [NebEvdpTimer.lnodePlaces, NebEvdpTimer.cblists, List.count_append, List.count_nil]
      omega
    · intro q hq
      refine books1.alive q ?_
      simp only [NebEvdpTimer.cblists, List.mem_append, List.not_mem_nil, or_false,
        false_or] at hq ⊢
      tauto
  obtain ⟨books2, htree2, ht2, hl2⟩ := free_keeplist t1.keeplist hheld
  generalize ht'' : t1.keeplist.foldl (fun t p => evdpTimerCblistNodeFree p t) t1 = t2
    at books2 htree2 ht2 hl2
  have hdestroy : nebEvdpTimerDestroy t =
      (t2.tcache.nodes.foldr (fun a l => l.free a) t2.tledger,
        t2.lcache.nodes.foldr (fun p l => l.free p) t2.lledger) := by
    simp only [nebEvdpTimerDestroy, ht', ht'']
  have htree : t2.rbtree = [] := htree2.trans htree1
  have htnodes : t2.tledger.Balanced (t2.tcache.nodes ++ []) := by
    simpa [NebEvdpTimer.tnodePlaces, htree] using books2.tnodes
  have hlnodes : t2.lledger.Balanced (t2.lcache.nodes ++ []) := by
    simpa [NebEvdpTimer.lnodePlaces, NebEvdpTimer.cblists, htree] using books2.lnodes
  obtain ⟨htfree, htsame⟩ := htnodes.freeAll
  obtain ⟨hlfree, hlsame⟩ := hlnodes.freeAll
  rw [hdestroy]
  exact ⟨books.tnodes.freesOnce htfree (htsame.trans (ht2.trans ht1)),
    books.lnodes.freesOnce hlfree (hlsame.trans (hl2.trans hl1))⟩

end Destroy

/-- Every node that was allocated is freed or in exactly one place; the caches keep their bounds;
and `destroy`, outside `run_until`, frees each node that is left once. -/
structure OwnedOnce (s : State) : Prop where
  defined : s.ctl ≠ .undefined
  tnodes : s.timer.tledger.Balanced (s.timer.rbtree.map (·.addr) ++ s.timer.tcache.nodes)
  points : s.timer.lledger.Balanced (s.ctl.runningPoint.toList ++
    (s.timer.rbtree.flatMap (·.cblist) ++ (s.timer.keeplist ++ s.timer.lcache.nodes)))
  tcount : s.timer.tcache.nodes.length ≤ s.timer.tcache.size
  lcount : s.timer.lcache.nodes.length ≤ s.timer.lcache.size
  destroyed : s.ctl = .idle →
    s.timer.tledger.FreesOnce (nebEvdpTimerDestroy s.timer).1
      (s.timer.rbtree.map (·.addr) ++ s.timer.tcache.nodes) ∧
    s.timer.lledger.FreesOnce (nebEvdpTimerDestroy s.timer).2
      (s.timer.rbtree.flatMap (·.cblist) ++ (s.timer.keeplist ++ s.timer.lcache.nodes))

theorem Books.ownedOnce {s : State} (books : Books s.timer [] s.hand) (inv : Inv s) :
    OwnedOnce s where
  defined := inv.defined
  tnodes := books.tnodes
  points := books.lnodes
  tcount := books.tcached
  lcount := books.lcached
  destroyed := by
    intro hidle
    simp only [State.hand, hidle, Ctl.runningPoint, Option.toList_none] at books
    exact books.destroy

/-- In every run whose callbacks reset only other points, with any allocation failing. -/
theorem nebEvdpTimer_owns_once (tcacheSize lcacheSize : Nat) (as : List Action)
    (others : Machine.StepsMeet step (fun s a => ¬ ResetsRunning s a)
      (start tcacheSize lcacheSize) as) :
    Machine.AllStates step OwnedOnce (start tcacheSize lcacheSize) as := by
  let I (s : State) : Prop := Inv s ∧ OwnRef s ∧ Books s.timer [] s.hand
  refine Machine.AllStates.of_invariant (I := I) ?_ ?_ ?_ others
  · exact fun s ⟨inv, _, books⟩ => books.ownedOnce inv
  · intro s a s' ⟨inv, own, books⟩ other h
    have inv' := inv.ofStep (inv.not_strands own a) h
    exact ⟨inv', own.ofStep inv other h, books.ofStep inv h inv'.defined⟩
  · exact ⟨.start tcacheSize lcacheSize, by simp [OwnRef, Timer.start, Ctl.runningPoint],
      .create tcacheSize lcacheSize⟩

/-- A callback resets another point, whose old node goes to the cache, and deletes its own; the
next point takes a node from each cache. -/
theorem nebEvdpTimer_owns_once_reuse :
    let as : List Action :=
      [.newPoint ⟨1, 0⟩ 7 8 (some 10) (some 100), .newPoint ⟨2, 0⟩ 7 8 (some 11) (some 101),
        .runUntil ⟨1, 0⟩, .proceed, .proceed, .pointReset 101 ⟨4, 0⟩ (some 12), .delPoint 100,
        .cbReturn .keep, .proceed, .proceed, .newPoint ⟨3, 0⟩ 7 8 none none]
    (Machine.run step (start 1 1) as).isSome ∧ Machine.AllStates step OwnedOnce (start 1 1) as :=
  ⟨by decide, nebEvdpTimer_owns_once 1 1 _ (by decide)⟩

end Nebase.Evdp.Timer
