/- What the operations of the timer do to the shape, to the points and to who waits when. -/

import Nebase.Evdp.Timer.Shape

set_option autoImplicit false
set_option relaxedAutoImplicit false

namespace Nebase.Evdp.Timer

open Nebase.Time

/-- The point is the only one of a node that is deleted when its list gets empty. -/
def SoleUser (t : NebEvdpTimer) (p : PointAddr) (a : TnodeAddr) : Prop :=
  ∃ n ∈ t.rbtree, n.addr = a ∧ n.noAutoDel = false ∧ n.cblist = [p]

section Cases

variable {t t' : NebEvdpTimer}

/-- All that `neb_evdp_timer_new_point` can do. -/
theorem new_point_cases {absTs : Timespec} {cb udata : Nat} {tnode lnode : Option Nat}
    {r : Option PointAddr}
    (h : nebEvdpTimerNewPoint absTs cb udata tnode lnode t = some (r, t')) :
    (r = none ∧ t' = t ∧ evdpTimerInsertTnode absTs tnode t = none) ∨
    ∃ tn existed t1, evdpTimerInsertTnode absTs tnode t = some (tn, existed, t1) ∧
      ((r = none ∧ t' = t1 ∧ evdpTimerCblistNodeNew cb udata lnode t1 = none) ∨
        ∃ ln t2, r = some ln ∧ evdpTimerCblistNodeNew cb udata lnode t1 = some (ln, t2) ∧
          cblistInsertHead tn ln (t2.setPoint ln ⟨cb, udata, false, some tn⟩) = some t') := by
  unfold nebEvdpTimerNewPoint at h
  cases hins : evdpTimerInsertTnode absTs tnode t with
  | none =>
    obtain ⟨rfl, rfl⟩ : none = r ∧ t = t' := by simpa [hins] using h
    exact .inl ⟨rfl, rfl, rfl⟩
  | some r1 =>
    obtain ⟨tn, existed, t1⟩ := r1
    refine .inr ⟨tn, existed, t1, rfl, ?_⟩
    cases hnew : evdpTimerCblistNodeNew cb udata lnode t1 with
    | none =>
      obtain ⟨rfl, rfl⟩ : none = r ∧ t1 = t' := by simpa [hins, hnew] using h
      exact .inl ⟨rfl, rfl, rfl⟩
    | some r2 =>
      obtain ⟨ln, t2⟩ := r2
      simp only [hins, hnew] at h
      obtain ⟨t3, hhead, h⟩ := Option.bind_eq_some_iff.mp h
      obtain ⟨rfl, rfl⟩ : some ln = r ∧ t3 = t' := by simpa using h
      exact .inr ⟨ln, t2, rfl, rfl, hhead⟩

/-- The check of the node a point leaves, if it has one. -/
def checkDelOld (old : Option TnodeAddr) (t : NebEvdpTimer) : Option NebEvdpTimer :=
  match old with
  | none => some t
  | some tn => evdpTimerRbtreeNodeCheckDel tn t

/-- All that `neb_evdp_timer_del_point` can do. -/
theorem del_point_cases {p : PointAddr} (h : nebEvdpTimerDelPoint p t = some t') :
    ∃ ln, t.points p = some ln ∧
      ((ln.running = true ∧ t' = t.setPoint p { ln with refTnode := none }) ∨
        ln.running = false ∧ ∃ t1, listRemove p t = some t1 ∧
          checkDelOld ln.refTnode (evdpTimerCblistNodeFree p t1) = some t') := by
  unfold nebEvdpTimerDelPoint at h
  obtain ⟨ln, hln, h⟩ := Option.bind_eq_some_iff.mp h
  refine ⟨ln, hln, ?_⟩
  split_ifs at h with hrun
  · exact .inl ⟨hrun, (Option.some.inj h).symm⟩
  · obtain ⟨t1, hrem, h⟩ := Option.bind_eq_some_iff.mp h
    exact .inr ⟨by simpa using hrun, t1, hrem, h⟩

/-- All that `neb_evdp_timer_point_reset` can do. -/
theorem point_reset_cases {p : PointAddr} {absTs : Timespec} {tnode : Option TnodeAddr} {r : Int}
    (h : nebEvdpTimerPointReset p absTs tnode t = some (r, t')) :
    (r = -1 ∧ t' = t ∧ evdpTimerInsertTnode absTs tnode t = none) ∨
    ∃ tn existed t1 ln, evdpTimerInsertTnode absTs tnode t = some (tn, existed, t1) ∧ r = 0 ∧
      t1.points p = some ln ∧
      ((existed = true ∧ ln.refTnode = some tn ∧ t' = t1) ∨
        (ln.running = true ∧ t' = t1.setPoint p { ln with refTnode := some tn }) ∨
        ln.running = false ∧ ∃ t2 t3, listRemove p t1 = some t2 ∧
          checkDelOld ln.refTnode t2 = some t3 ∧
          cblistInsertHead tn p (t3.setPoint p { ln with refTnode := some tn }) = some t') := by
  unfold nebEvdpTimerPointReset at h
  cases hins : evdpTimerInsertTnode absTs tnode t with
  | none =>
    obtain ⟨rfl, rfl⟩ : -1 = r ∧ t = t' := by simpa [hins] using h
    exact .inl ⟨rfl, rfl, rfl⟩
  | some r1 =>
    obtain ⟨tn, existed, t1⟩ := r1
    simp only [hins] at h
    obtain ⟨ln, hln, h⟩ := Option.bind_eq_some_iff.mp h
    right
    split_ifs at h with hsame hrun
    · obtain ⟨rfl, rfl⟩ : 0 = r ∧ t1 = t' := by simpa using h
      exact ⟨tn, existed, t1, ln, rfl, rfl, hln, .inl ⟨hsame.1, hsame.2, rfl⟩⟩
    · obtain ⟨rfl, rfl⟩ : 0 = r ∧ t1.setPoint p _ = t' := by simpa using h
      exact ⟨tn, existed, t1, ln, rfl, rfl, hln, .inr (.inl ⟨hrun, rfl⟩)⟩
    · obtain ⟨t2, hrem, h⟩ := Option.bind_eq_some_iff.mp h
      have hinsert : ∀ t3 : NebEvdpTimer,
          ((cblistInsertHead tn p (t3.setPoint p { ln with refTnode := some tn })).bind
            fun t => some (0, t)) = some (r, t') →
          r = 0 ∧ cblistInsertHead tn p (t3.setPoint p { ln with refTnode := some tn }) =
            some t' := by
        intro t3 h3
        obtain ⟨t4, hhead, h4⟩ := Option.bind_eq_some_iff.mp h3
        obtain ⟨rfl, rfl⟩ : 0 = r ∧ t4 = t' := by simpa using h4
        exact ⟨rfl, hhead⟩
      have hidle : ln.running = false := by simpa using hrun
      cases href : ln.refTnode with
      | none =>
        simp only [href] at h
        obtain ⟨rfl, hhead⟩ := hinsert t2 h
        exact ⟨tn, existed, t1, ln, rfl, rfl, hln, .inr (.inr ⟨hidle, t2, t2, hrem,
          by rw [href]; rfl, hhead⟩)⟩
      | some old =>
        simp only [href] at h
        obtain ⟨t3, hcheck, h⟩ := Option.bind_eq_some_iff.mp h
        obtain ⟨rfl, hhead⟩ := hinsert t3 h
        exact ⟨tn, existed, t1, ln, rfl, rfl, hln, .inr (.inr ⟨hidle, t2, t3, hrem,
          by rw [href]; exact hcheck, hhead⟩)⟩

end Cases

section Effects

variable {t t' : NebEvdpTimer} {active : Option TnodeAddr} {loose : Set PointAddr}

private theorem due_erase (shape : Shape t active loose) {p : PointAddr}
    (tree : t'.rbtree = t.rbtree.map (fun n => { n with cblist := n.cblist.erase p }))
    (q : PointAddr) (d : Timespec) : Due t' q d ↔ q ≠ p ∧ Due t q d := by
  unfold Due
  rw [tree]
  constructor
  · rintro ⟨m, hm, hq, hd⟩
    obtain ⟨n, hn, rfl⟩ := List.mem_map.mp hm
    obtain ⟨hqp, hqn⟩ := (shape.cblistNodup n hn).mem_erase_iff.mp hq
    exact ⟨hqp, n, hn, hqn, hd⟩
  · rintro ⟨hqp, n, hn, hq, hd⟩
    exact ⟨_, List.mem_map_of_mem hn, (shape.cblistNodup n hn).mem_erase_iff.mpr ⟨hqp, hq⟩, hd⟩

private theorem due_insert_head {p : PointAddr} {a : TnodeAddr}
    (tree : t'.rbtree = t.rbtree.map
      (fun n => if n.addr = a then { n with cblist := p :: n.cblist } else n))
    (q : PointAddr) (d : Timespec) : Due t' q d ↔ q = p ∧ NodeAt t a d ∨ Due t q d := by
  unfold Due NodeAt
  rw [tree]
  constructor
  · rintro ⟨m, hm, hq, hd⟩
    obtain ⟨n, hn, rfl⟩ := List.mem_map.mp hm
    by_cases heq : n.addr = a
    · simp only [heq, if_true] at hq hd
      rcases List.mem_cons.mp hq with rfl | hq
      · exact .inl ⟨rfl, n, hn, heq, hd⟩
      · exact .inr ⟨n, hn, hq, hd⟩
    · simp only [heq, if_false] at hq hd
      exact .inr ⟨n, hn, hq, hd⟩
  · rintro (⟨rfl, n, hn, heq, hd⟩ | ⟨n, hn, hq, hd⟩)
    · exact ⟨_, List.mem_map_of_mem hn, by simp [heq], by simp [heq, hd]⟩
    · refine ⟨_, List.mem_map_of_mem hn, ?_, ?_⟩
      · split
        · exact List.mem_cons_of_mem p hq
        · exact hq
      · split <;> exact hd

private theorem node_at_insert_head {p : PointAddr} {a : TnodeAddr}
    (tree : t'.rbtree = t.rbtree.map
      (fun n => if n.addr = a then { n with cblist := p :: n.cblist } else n))
    (b : TnodeAddr) (d : Timespec) : NodeAt t' b d ↔ NodeAt t b d :=
  node_at_map (fun n => by split <;> rfl) (fun n => by split <;> rfl) tree b d

private theorem node_at_erase {p : PointAddr}
    (tree : t'.rbtree = t.rbtree.map (fun n => { n with cblist := n.cblist.erase p }))
    (a : TnodeAddr) (d : Timespec) : NodeAt t' a d ↔ NodeAt t a d :=
  node_at_map (g := fun n => { n with cblist := n.cblist.erase p }) (fun _ => rfl)
    (fun _ => rfl) tree a d

theorem due_congr (h : ∀ m, m ∈ t'.rbtree ↔ m ∈ t.rbtree) (q : PointAddr) (d : Timespec) :
    Due t' q d ↔ Due t q d := by
  unfold Due
  simp only [h]

theorem node_at_auto_del (a : TnodeAddr) (flag : Bool) (b : TnodeAddr) (d : Timespec) :
    NodeAt (t.updateTnode a (fun n => { n with noAutoDel := flag })) b d ↔ NodeAt t b d :=
  node_at_map (fun n => by split <;> rfl) (fun n => by split <;> rfl) rfl b d

theorem due_auto_del (a : TnodeAddr) (flag : Bool) (q : PointAddr) (d : Timespec) :
    Due (t.updateTnode a (fun n => { n with noAutoDel := flag })) q d ↔ Due t q d := by
  unfold Due
  constructor
  · rintro ⟨m, hm, hq, hd⟩
    obtain ⟨k, hk, rfl⟩ := List.mem_map.mp hm
    refine ⟨k, hk, ?_, ?_⟩
    · split at hq <;> exact hq
    · split at hd <;> exact hd
  · rintro ⟨k, hk, hq, hd⟩
    refine ⟨_, List.mem_map_of_mem hk, ?_, ?_⟩
    · split <;> exact hq
    · split <;> exact hd

theorem Shape.node_at_unique (shape : Shape t active loose) {a : TnodeAddr} {d e : Timespec}
    (hd : NodeAt t a d) (he : NodeAt t a e) : d = e := by
  obtain ⟨m, hm, hma, rfl⟩ := hd
  obtain ⟨n, hn, hna, rfl⟩ := he
  rw [shape.node_unique hm hn (hma.trans hna.symm)]

theorem Shape.due_unique (shape : Shape t active loose) {p : PointAddr} {d e : Timespec}
    (hd : Due t p d) (he : Due t p e) : d = e := by
  obtain ⟨-, c, a, hc, href, hnd⟩ := shape.due_ref hd
  obtain ⟨-, c', a', hc', href', hne⟩ := shape.due_ref he
  obtain rfl := Option.some.inj (hc.symm.trans hc')
  obtain rfl := Option.some.inj (href.symm.trans href')
  exact shape.node_at_unique hnd hne

/-- The opening of `new_point` and `point_reset`, seen from the waiting points. -/
theorem Shape.insertTnode_effect (shape : Shape t active loose) {calloc : Option TnodeAddr}
    (fresh : t.tnodeFresh calloc = true) {absTs : Timespec} {tn : TnodeAddr} {existed : Bool}
    (h : evdpTimerInsertTnode absTs calloc t = some (tn, existed, t')) :
    NodeAt t' tn absTs ∧ (∀ q d, Due t' q d ↔ Due t q d) ∧
      (∀ m ∈ t.rbtree, m ∈ t'.rbtree) ∧
      (existed = false → ∀ m ∈ t.rbtree, m.addr ≠ tn ∧ m.ts ≠ absTs) := by
  obtain ⟨-, -, -, hcase⟩ := shape.insertTnode fresh h
  rcases hcase with ⟨rfl, htree, hat⟩ | ⟨rfl, hnew, htree⟩
  · refine ⟨?_, due_congr (fun m => by rw [htree]), fun m hm => htree ▸ hm, by simp⟩
    unfold NodeAt at hat ⊢
    rwa [htree]
  · refine ⟨⟨_, (htree _).mpr (.inl rfl), rfl, rfl⟩, ?_, fun m hm => (htree m).mpr (.inr hm), ?_⟩
    · intro q d
      constructor
      · rintro ⟨m, hm, hq, hd⟩
        rcases (htree m).mp hm with rfl | hm
        · simp at hq
        · exact ⟨m, hm, hq, hd⟩
      · rintro ⟨m, hm, hq, hd⟩
        exact ⟨m, (htree m).mpr (.inr hm), hq, hd⟩
    · exact fun _ m hm => ⟨(hnew m hm).2, (hnew m hm).1⟩

/-- Neither the cache nor `calloc` has a node. -/
def NebEvdpTimer.OutOfTnodes (t : NebEvdpTimer) (calloc : Option TnodeAddr) : Prop :=
  t.tcache.nodes = [] ∧ calloc = none

theorem insert_tnode_none {absTs : Timespec} {calloc : Option TnodeAddr} :
    evdpTimerInsertTnode absTs calloc t = none ↔ t.OutOfTnodes calloc := by
  unfold evdpTimerInsertTnode evdpTimerRbtreeNodeNew NebEvdpTimer.OutOfTnodes
  cases hnodes : t.tcache.nodes with
  | cons a nodes =>
    simp only [Option.bind_eq_bind, Option.bind_some, reduceCtorEq, false_and, iff_false]
    split <;> simp
  | nil =>
    cases calloc with
    | none => simp
    | some a =>
      simp only [Option.map_some, Option.bind_eq_bind, Option.bind_some, reduceCtorEq, and_false,
        iff_false]
      split <;> simp

/-- `evdp_timer_rbtree_node_check_del` takes the node away when it is empty and not drained. -/
theorem Shape.checkDel (shape : Shape t active loose) {n : EvdpTimerRbtreeNode}
    (hn : n ∈ t.rbtree) :
    ∃ t', evdpTimerRbtreeNodeCheckDel n.addr t = some t' ∧ Shape t' active loose ∧
      t'.points = t.points ∧ t'.lcache = t.lcache ∧
      ∀ m, m ∈ t'.rbtree ↔
        m ∈ t.rbtree ∧ ¬ (m.addr = n.addr ∧ n.noAutoDel = false ∧ n.cblist = []) := by
  unfold evdpTimerRbtreeNodeCheckDel
  simp only [shape.tnode_eq hn, Option.bind_eq_bind, Option.bind_some]
  by_cases hauto : n.noAutoDel = true
  · exact ⟨t, by simp [hauto], shape, rfl, rfl, by simp [hauto]⟩
  by_cases hempty : n.cblist = []
  · obtain ⟨hshape, hpoints, hlcache, htree⟩ :=
      shape.removeTnode hn hempty (mt (shape.autoDel n hn).mpr hauto) _ rfl hempty
    refine ⟨_, by simp only [hauto, hempty]; rfl, hshape, hpoints, hlcache, ?_⟩
    simpa [hempty, hauto] using htree
  · exact ⟨t, by simp [hauto, hempty], shape, rfl, rfl, by simp [hempty]⟩

private theorem insert_diff_loose {p : PointAddr} (hp : p ∉ loose) :
    insert p loose \ {p} = loose := by
  ext q
  by_cases hqp : q = p
  · simp [hqp, hp]
  · simp [hqp]

theorem Shape.newPoint (shape : Shape t active loose)
    (allocated : ∀ q ∈ loose, t.points q ≠ none) {tnode lnode : Option Nat}
    (freshT : t.tnodeFresh tnode = true) (freshL : t.lnodeFresh lnode = true)
    (absTs : Timespec) (cb udata : Nat) :
    ∃ r t', nebEvdpTimerNewPoint absTs cb udata tnode lnode t = some (r, t') ∧
      Shape t' active loose ∧ (∀ a d, NodeAt t a d → NodeAt t' a d) ∧
      ((r = none ∧ t'.points = t.points ∧ (∀ q d, Due t' q d ↔ Due t q d) ∧
          (t.OutOfTnodes tnode ∨ t.lcache.nodes = [] ∧ lnode = none)) ∨
        ∃ p tn, r = some p ∧ t.points p = none ∧
          t'.points = Function.update t.points p (some ⟨cb, udata, false, some tn⟩) ∧
          ∀ q d, Due t' q d ↔ q = p ∧ d = absTs ∨ Due t q d) := by
  cases hins : evdpTimerInsertTnode absTs tnode t with
  | none =>
    exact ⟨none, t, by simp only [nebEvdpTimerNewPoint, hins], shape, fun _ _ h => h,
      .inl ⟨rfl, rfl, fun _ _ => .rfl, .inl (insert_tnode_none.mp hins)⟩⟩
  | some r1 =>
    obtain ⟨tn, existed, t1⟩ := r1
    obtain ⟨shape1, hpoints1, hlcache1, -⟩ := shape.insertTnode freshT hins
    obtain ⟨hat, hdue1, htree1, -⟩ := shape.insertTnode_effect freshT hins
    have hnode1 : ∀ a d, NodeAt t a d → NodeAt t1 a d := fun a d ⟨n, hn, h⟩ => ⟨n, htree1 n hn, h⟩
    have freshL1 : t1.lnodeFresh lnode = true := by
      simpa [NebEvdpTimer.lnodeFresh, hpoints1, hlcache1] using freshL
    cases hnew : evdpTimerCblistNodeNew cb udata lnode t1 with
    | none =>
      refine ⟨none, t1, by simp only [nebEvdpTimerNewPoint, hins, hnew], shape1, hnode1,
        .inl ⟨rfl, hpoints1, hdue1, .inr ?_⟩⟩
      unfold evdpTimerCblistNodeNew at hnew
      rw [hlcache1] at hnew
      cases hnodes : t.lcache.nodes with
      | cons p nodes => simp [hnodes] at hnew
      | nil => exact ⟨rfl, by simpa [hnodes] using hnew⟩
    | some r2 =>
      obtain ⟨p, t2⟩ := r2
      obtain ⟨hfree, hcached, shape2, hpoints2, htree2⟩ := shape1.cblistNodeNew freshL1 hnew
      have hfree' : t.points p = none := hpoints1 ▸ hfree
      have hpl : p ∉ loose := fun h => allocated p h hfree'
      have hpin : p ∈ insert p loose := Set.mem_insert p loose
      have shape3 := shape2.setPoint hpin hcached ⟨cb, udata, false, some tn⟩
      obtain ⟨k, hk, hka, hkd⟩ := hat
      obtain ⟨t4, heq, shape4, hpoints4, -, htree4⟩ := shape3.cblistInsertHead (a := tn) hpin
        (Function.update_self ..) rfl ⟨k, (htree2.symm ▸ hk : k ∈ t2.rbtree), hka⟩
      have htree4' : t4.rbtree = t1.rbtree.map
          (fun n => if n.addr = tn then { n with cblist := p :: n.cblist } else n) := by
        rw [htree4]
        exact congrArg _ htree2
      refine ⟨some p, t4, by simp [nebEvdpTimerNewPoint, hins, hnew, heq], ?_, ?_,
        .inr ⟨p, tn, rfl, hfree', ?_, ?_⟩⟩
      · rwa [insert_diff_loose hpl] at shape4
      · exact fun a d h => (node_at_insert_head htree4' a d).mpr (hnode1 a d h)
      · rw [hpoints4]
        simp [NebEvdpTimer.setPoint, hpoints2, hpoints1]
      · intro q d
        rw [due_insert_head htree4', hdue1]
        have hts : NodeAt t1 tn d ↔ d = absTs := by
          constructor
          · exact fun h => shape1.node_at_unique h ⟨k, hk, hka, hkd⟩
          · rintro rfl
            exact ⟨k, hk, hka, hkd⟩
        rw [hts]

/-- `LIST_REMOVE` of a point followed by the check of the node it was waiting in. -/
private theorem Shape.unlink (shape : Shape t active loose) {p : PointAddr}
    {c : EvdpTimerCblistNode} (hc : t.points p = some c) (hp : p ∉ loose) :
    ∃ t1, Timer.listRemove p t = some t1 ∧ Shape t1 active (insert p loose) ∧
      t1.points = t.points ∧ t1.lcache = t.lcache ∧
      (∀ a d, NodeAt t1 a d ↔ NodeAt t a d) ∧
      ∀ t2 : NebEvdpTimer, ∀ loose2, Shape t2 active loose2 → t2.rbtree = t1.rbtree →
        ∃ t3, (match c.refTnode with
            | none => some t2
            | some tn => evdpTimerRbtreeNodeCheckDel tn t2) = some t3 ∧
          Shape t3 active loose2 ∧ t3.points = t2.points ∧ t3.lcache = t2.lcache ∧
          (∀ q d, Due t3 q d ↔ q ≠ p ∧ Due t q d) ∧
          (∀ a d, NodeAt t a d → ¬ SoleUser t p a → NodeAt t3 a d) ∧
          ∀ a d, SoleUser t p a → ¬ NodeAt t3 a d := by
  obtain ⟨t1, hrem, shape1, hpoints1, hlcache1, htree1⟩ := shape.listRemove hc hp
  have hnode1 : ∀ a d, NodeAt t1 a d ↔ NodeAt t a d := node_at_erase htree1
  refine ⟨t1, hrem, shape1, hpoints1, hlcache1, hnode1, ?_⟩
  intro t2 loose2 shape2 htree2
  have hdue2 : ∀ q d, Due t2 q d ↔ q ≠ p ∧ Due t q d := due_erase shape (htree2.trans htree1)
  have hnode2 : ∀ a d, NodeAt t2 a d ↔ NodeAt t a d := node_at_erase (htree2.trans htree1)
  cases href : c.refTnode with
  | none =>
    refine ⟨t2, rfl, shape2, rfl, rfl, hdue2, fun a d h _ => (hnode2 a d).mpr h, ?_⟩
    rintro a d ⟨n, hn, -, -, hlist⟩
    obtain ⟨-, c', hc', href'⟩ := shape.linked n hn p (by simp [hlist])
    obtain rfl := Option.some.inj (hc.symm.trans hc')
    exact absurd (href.symm.trans href') (by simp)
  | some tn =>
    obtain ⟨n, hn, rfl, hpn⟩ := (shape.placed p c hc hp).1 tn href
    have hn2 : { n with cblist := n.cblist.erase p } ∈ t2.rbtree := by
      rw [htree2, htree1]
      exact List.mem_map_of_mem hn
    obtain ⟨t3, hcheck, shape3, hpoints3, hlcache3, htree3⟩ := shape2.checkDel hn2
    refine ⟨t3, hcheck, shape3, hpoints3, hlcache3, ?_, ?_, ?_⟩
    · intro q d
      rw [← hdue2]
      constructor
      · rintro ⟨m, hm, h⟩
        exact ⟨m, ((htree3 m).mp hm).1, h⟩
      · rintro ⟨m, hm, hq, hd⟩
        refine ⟨m, (htree3 m).mpr ⟨hm, ?_⟩, hq, hd⟩
        rintro ⟨haddr, -, hempty⟩
        rw [shape2.node_unique hm hn2 haddr] at hq
        rw [hempty] at hq
        simp at hq
    · intro a d h hsole
      obtain ⟨m, hm, hma, hmd⟩ := (hnode2 a d).mpr h
      refine ⟨m, (htree3 m).mpr ⟨hm, ?_⟩, hma, hmd⟩
      rintro ⟨haddr, hauto, hempty⟩
      have hsingle : n.cblist = [p] := by
        have hnodup := shape.cblistNodup n hn
        have hempty' : n.cblist.erase p = [] := hempty
        have hperm := List.perm_cons_erase hpn
        rw [hempty'] at hperm
        exact List.perm_singleton.mp hperm
      exact hsole ⟨n, hn, haddr.symm.trans hma, hauto, hsingle⟩
    · rintro a d ⟨k, hk, rfl, hauto, hlist⟩ ⟨m, hm, hma, -⟩
      obtain ⟨-, c', hc', href'⟩ := shape.linked k hk p (by simp [hlist])
      obtain rfl := Option.some.inj (hc.symm.trans hc')
      have hkn : k.addr = n.addr := Option.some.inj (href'.symm.trans href)
      obtain rfl := shape.node_unique hk hn hkn
      exact ((htree3 m).mp hm).2 ⟨hma, hauto, by simp [hlist]⟩

theorem Shape.delPoint (shape : Shape t active loose) {p : PointAddr}
    {c : EvdpTimerCblistNode} (hc : t.points p = some c) (hp : p ∉ loose)
    (hrun : c.running = false) :
    ∃ t', nebEvdpTimerDelPoint p t = some t' ∧ Shape t' active loose ∧
      t'.points = Function.update t.points p none ∧
      (∀ q d, Due t' q d ↔ q ≠ p ∧ Due t q d) ∧
      (∀ a d, NodeAt t a d → ¬ SoleUser t p a → NodeAt t' a d) ∧
      ∀ a d, SoleUser t p a → ¬ NodeAt t' a d := by
  obtain ⟨t1, hrem, shape1, hpoints1, hlcache1, -, hcheck⟩ := shape.unlink hc hp
  have hcached : p ∉ t1.lcache.nodes := hlcache1 ▸ shape.notMem_lcache hc
  have shape2 := shape1.cblistNodeFree (Set.mem_insert p loose) hcached
  rw [insert_diff_loose hp] at shape2
  obtain ⟨t3, heq, shape3, hpoints3, -, hdue3, hnode3⟩ := hcheck _ loose shape2 rfl
  refine ⟨t3, ?_, shape3, ?_, hdue3, hnode3.1, hnode3.2⟩
  · unfold nebEvdpTimerDelPoint
    simp only [hc, Option.bind_eq_bind, Option.bind_some, hrun, Bool.false_eq_true, if_false, hrem]
    cases href : c.refTnode <;> simpa [href] using heq
  · rw [hpoints3]
    exact congrArg (fun f => Function.update f p none) hpoints1

theorem Shape.delPoint_running (shape : Shape t active loose) {p : PointAddr}
    {c : EvdpTimerCblistNode} (hc : t.points p = some c) (hp : p ∈ loose)
    (hrun : c.running = true) :
    ∃ t', nebEvdpTimerDelPoint p t = some t' ∧ Shape t' active loose ∧
      t'.rbtree = t.rbtree ∧
      t'.points = Function.update t.points p (some { c with refTnode := none }) := by
  refine ⟨_, ?_, shape.setPoint hp (shape.notMem_lcache hc) { c with refTnode := none }, rfl, rfl⟩
  simp [nebEvdpTimerDelPoint, hc, hrun]

private theorem sole_user_insert {tn : TnodeAddr} {absTs : Timespec} {existed : Bool}
    {calloc : Option TnodeAddr} (shape : Shape t active loose)
    (fresh : t.tnodeFresh calloc = true)
    (h : evdpTimerInsertTnode absTs calloc t = some (tn, existed, t')) {p : PointAddr}
    {a : TnodeAddr} (sole : SoleUser t' p a) : SoleUser t p a := by
  obtain ⟨m, hm, hma, hauto, hlist⟩ := sole
  obtain ⟨-, -, -, ⟨-, htree, -⟩ | ⟨-, -, htree⟩⟩ := shape.insertTnode fresh h
  · exact ⟨m, htree ▸ hm, hma, hauto, hlist⟩
  · rcases (htree m).mp hm with rfl | hm
    · simp at hlist
    · exact ⟨m, hm, hma, hauto, hlist⟩

theorem Shape.pointReset (shape : Shape t active loose) {p : PointAddr}
    {c : EvdpTimerCblistNode} (hc : t.points p = some c) (hp : p ∉ loose)
    (hrun : c.running = false) {tnode : Option TnodeAddr}
    (fresh : t.tnodeFresh tnode = true) (absTs : Timespec) :
    ∃ r t', nebEvdpTimerPointReset p absTs tnode t = some (r, t') ∧ Shape t' active loose ∧
      ((r = -1 ∧ t' = t ∧ t.OutOfTnodes tnode) ∨
        r = 0 ∧ ¬ t.OutOfTnodes tnode ∧
          (∃ tn, t'.points = Function.update t.points p (some { c with refTnode := some tn })) ∧
          (∀ q d, Due t' q d ↔ q = p ∧ d = absTs ∨ q ≠ p ∧ Due t q d) ∧
          (∀ a d, NodeAt t a d → (SoleUser t p a → d = absTs) → NodeAt t' a d) ∧
          ∀ a, SoleUser t p a → ¬ NodeAt t a absTs → ∀ d, ¬ NodeAt t' a d) := by
  cases hins : evdpTimerInsertTnode absTs tnode t with
  | none =>
    exact ⟨-1, t, by simp only [nebEvdpTimerPointReset, hins], shape,
      .inl ⟨rfl, rfl, insert_tnode_none.mp hins⟩⟩
  | some r1 =>
    obtain ⟨tn, existed, t1⟩ := r1
    obtain ⟨shape1, hpoints1, hlcache1, -⟩ := shape.insertTnode fresh hins
    obtain ⟨hat, hdue1, htree1, hnew⟩ := shape.insertTnode_effect fresh hins
    have hnode1 : ∀ a d, NodeAt t a d → NodeAt t1 a d := fun a d ⟨n, hn, h⟩ => ⟨n, htree1 n hn, h⟩
    have hc1 : t1.points p = some c := hpoints1 ▸ hc
    have hgot : ¬ t.OutOfTnodes tnode := by
      rw [← @insert_tnode_none t absTs tnode, hins]
      simp
    by_cases hsame : existed = true ∧ c.refTnode = some tn
    · -- the deadline is the one the point has: nothing moves
      refine ⟨0, t1, by simp [nebEvdpTimerPointReset, hins, hc1, hsame], shape1,
        .inr ⟨rfl, hgot, ⟨tn, ?_⟩, ?_, fun a d h _ => hnode1 a d h, ?_⟩⟩
      · rw [hpoints1, ← hsame.2]
        exact (Function.update_eq_self_iff.mpr hc.symm).symm
      · have hpdue : Due t1 p absTs := by
          obtain ⟨n, hn, hna, hpn⟩ := (shape1.placed p c hc1 hp).1 tn hsame.2
          obtain ⟨k, hk, hka, hkd⟩ := hat
          exact ⟨n, hn, hpn, shape1.node_unique hn hk (hna.trans hka.symm) ▸ hkd⟩
        intro q d
        rw [← hdue1]
        by_cases hqp : q = p
        · subst hqp
          simp only [true_and, ne_eq, not_true_eq_false, false_and, or_false]
          constructor
          · exact fun h => shape1.due_unique h hpdue
          · rintro rfl
            exact hpdue
        · simp [hqp]
      · rintro a ⟨n, hn, hna, -, hlist⟩ hnot
        obtain ⟨-, c', hc', href⟩ := shape.linked n hn p (by simp [hlist])
        obtain rfl := Option.some.inj (hc.symm.trans hc')
        obtain rfl : n.addr = tn := Option.some.inj (href.symm.trans hsame.2)
        have hts := shape1.node_at_unique ⟨n, htree1 n hn, rfl, rfl⟩ hat
        exact absurd ⟨n, hn, hna, hts⟩ hnot
    · obtain ⟨t2, hrem, shape2, hpoints2, hlcache2, -, hcheck⟩ := shape1.unlink hc1 hp
      obtain ⟨t3, hdel, shape3, hpoints3, hlcache3, hdue3, hnode3, hgone3⟩ :=
        hcheck t2 _ shape2 rfl
      have hpin : p ∈ insert p loose := Set.mem_insert p loose
      have hcached : p ∉ t3.lcache.nodes := by
        rw [hlcache3, hlcache2]
        exact shape1.notMem_lcache hc1
      have shape4 := shape3.setPoint hpin hcached { c with refTnode := some tn }
      -- the new node is not the one the point leaves, so it is still there
      have hat3 : NodeAt t3 tn absTs := by
        refine hnode3 tn absTs hat ?_
        rintro ⟨n, hn, hna, -, hlist⟩
        have hpn : p ∈ n.cblist := by simp [hlist]
        have href : c.refTnode = some tn := by
          obtain ⟨-, c', hc', href⟩ := shape1.linked n hn p hpn
          obtain rfl := Option.some.inj (hc1.symm.trans hc')
          rw [href, hna]
        cases existed with
        | true => exact hsame ⟨rfl, href⟩
        | false =>
          obtain ⟨m, hm, hma, -⟩ := (shape.placed p c hc hp).1 tn href
          exact (hnew rfl m hm).1 hma
      obtain ⟨k, hk, hka, hkd⟩ := hat3
      obtain ⟨t5, heq, shape5, hpoints5, -, htree5⟩ := shape4.cblistInsertHead (a := tn) hpin
        (Function.update_self ..) rfl ⟨k, hk, hka⟩
      have htree5' : t5.rbtree = t3.rbtree.map
          (fun n => if n.addr = tn then { n with cblist := p :: n.cblist } else n) := htree5
      rw [insert_diff_loose hp] at shape5
      refine ⟨0, t5, ?_, shape5, .inr ⟨rfl, hgot, ⟨tn, ?_⟩, ?_, ?_, ?_⟩⟩
      · have hidle : ¬ c.running = true := by simp [hrun]
        simp only [nebEvdpTimerPointReset, hins, hc1, Option.bind_eq_bind, Option.bind_some,
          if_neg hidle, hrem, if_neg hsame]
        cases href : c.refTnode with
        | none =>
          obtain rfl : t2 = t3 := by simpa [href] using hdel
          simp [heq]
        | some old =>
          have hdel' : evdpTimerRbtreeNodeCheckDel old t2 = some t3 := by simpa [href] using hdel
          simp [hdel', heq]
      · rw [hpoints5]
        simp [NebEvdpTimer.setPoint, hpoints3, hpoints2, hpoints1]
      · intro q d
        rw [due_insert_head htree5', hdue3, hdue1]
        have hts : NodeAt t3 tn d ↔ d = absTs := by
          constructor
          · exact fun h => shape3.node_at_unique h ⟨k, hk, hka, hkd⟩
          · rintro rfl
            exact ⟨k, hk, hka, hkd⟩
        rw [hts]
      · intro a d h hsole
        refine (node_at_insert_head htree5' a d).mpr ?_
        by_cases hpa : SoleUser t1 p a
        · obtain rfl := hsole (sole_user_insert shape fresh hins hpa)
          obtain ⟨m, hm, hma, hmd⟩ := hnode1 a d h
          obtain ⟨m', hm', hma', hmd'⟩ := hat
          have heq' : m = m' := shape1.ts_unique hm hm' (hmd.trans hmd'.symm)
          subst heq'
          rw [← hma, hma']
          exact ⟨k, hk, hka, hkd⟩
        · exact hnode3 a d (hnode1 a d h) hpa
      · rintro a ⟨n, hn, hna, hauto, hlist⟩ - d h
        refine hgone3 a d ?_ ((node_at_insert_head htree5' a d).mp h)
        exact ⟨n, htree1 n hn, hna, hauto, hlist⟩

theorem Shape.pointReset_running (shape : Shape t active loose) {p : PointAddr}
    {c : EvdpTimerCblistNode} (hc : t.points p = some c) (hp : p ∈ loose)
    (hrun : c.running = true) {tnode : Option TnodeAddr}
    (fresh : t.tnodeFresh tnode = true) (absTs : Timespec) :
    ∃ r t', nebEvdpTimerPointReset p absTs tnode t = some (r, t') ∧ Shape t' active loose ∧
      ((r = -1 ∧ t' = t ∧ t.OutOfTnodes tnode) ∨
        r = 0 ∧ ¬ t.OutOfTnodes tnode ∧
          (∃ tn, t'.points = Function.update t.points p (some { c with refTnode := some tn }) ∧
            NodeAt t' tn absTs) ∧
          (∀ a d, NodeAt t a d → NodeAt t' a d) ∧ ∀ q d, Due t' q d ↔ Due t q d) := by
  cases hins : evdpTimerInsertTnode absTs tnode t with
  | none =>
    exact ⟨-1, t, by simp only [nebEvdpTimerPointReset, hins], shape,
      .inl ⟨rfl, rfl, insert_tnode_none.mp hins⟩⟩
  | some r1 =>
    obtain ⟨tn, existed, t1⟩ := r1
    obtain ⟨shape1, hpoints1, hlcache1, -⟩ := shape.insertTnode fresh hins
    obtain ⟨hat, hdue1, htree1, -⟩ := shape.insertTnode_effect fresh hins
    have hnode1 : ∀ a d, NodeAt t a d → NodeAt t1 a d := fun a d ⟨n, hn, h⟩ => ⟨n, htree1 n hn, h⟩
    have hc1 : t1.points p = some c := hpoints1 ▸ hc
    have hgot : ¬ t.OutOfTnodes tnode := by
      rw [← @insert_tnode_none t absTs tnode, hins]
      simp
    by_cases hsame : existed = true ∧ c.refTnode = some tn
    · refine ⟨0, t1, by simp [nebEvdpTimerPointReset, hins, hc1, hsame], shape1,
        .inr ⟨rfl, hgot, ⟨tn, ?_, hat⟩, hnode1, hdue1⟩⟩
      rw [hpoints1, ← hsame.2]
      exact (Function.update_eq_self_iff.mpr hc.symm).symm
    · refine ⟨0, t1.setPoint p { c with refTnode := some tn }, ?_,
        shape1.setPoint hp (hlcache1 ▸ shape.notMem_lcache hc) _,
        .inr ⟨rfl, hgot, ⟨tn, ?_, hat⟩, hnode1, hdue1⟩⟩
      · simp only [nebEvdpTimerPointReset, hins, hc1, Option.bind_eq_bind, Option.bind_some,
          if_pos hrun, if_neg hsame]
      · simp [NebEvdpTimer.setPoint, hpoints1]

/-- Taking the first point of the drained node off its list and marking it as running. -/
theorem Shape.enterCallback (shape : Shape t active loose) {ln : PointAddr}
    {c : EvdpTimerCblistNode} (hc : t.points ln = some c) (hp : ln ∉ loose) :
    ∃ t', (do
        let t ← Timer.listRemove ln t
        let c ← t.points ln
        some (t.setPoint ln { c with running := true })) = some t' ∧
      Shape t' active (insert ln loose) ∧
      t'.points = Function.update t.points ln (some { c with running := true }) ∧
      (∀ a d, NodeAt t' a d ↔ NodeAt t a d) ∧ ∀ q d, Due t' q d ↔ q ≠ ln ∧ Due t q d := by
  obtain ⟨t1, hrem, shape1, hpoints1, hlcache1, htree1⟩ := shape.listRemove hc hp
  refine ⟨t1.setPoint ln { c with running := true }, by simp [hrem, hpoints1, hc],
    shape1.setPoint (Set.mem_insert ln loose) (hlcache1 ▸ shape.notMem_lcache hc) _, ?_, ?_, ?_⟩
  · simp [NebEvdpTimer.setPoint, hpoints1]
  · exact node_at_erase htree1
  · exact due_erase shape htree1

/-- What is left of a point after its callback. -/
def returnedPoint (tn : TnodeAddr) (tret : NebEvdpTimeoutRet) (c : EvdpTimerCblistNode) :
    Option EvdpTimerCblistNode :=
  match c.refTnode, tret with
  | none, _ => none
  | some _, .free => none
  | some ref, .keep =>
    some { c with running := false, refTnode := if ref = tn then none else some ref }

/-- The placement of the point whose callback has returned. -/
theorem Shape.afterCallback (shape : Shape t active loose) (tn : TnodeAddr) {ln : PointAddr}
    {c : EvdpTimerCblistNode} (hc : t.points ln = some c) (hp : ln ∈ loose)
    (href : ∀ a, c.refTnode = some a → ∃ n ∈ t.rbtree, n.addr = a) (tret : NebEvdpTimeoutRet) :
    ∃ t', Timer.afterCallback tn ln tret t = some t' ∧ Shape t' active (loose \ {ln}) ∧
      t'.points = Function.update t.points ln (returnedPoint tn tret c) ∧
      (∀ a d, NodeAt t' a d ↔ NodeAt t a d) ∧
      ∀ q d, Due t' q d ↔
        (q = ln ∧ tret = .keep ∧ ∃ a, c.refTnode = some a ∧ a ≠ tn ∧ NodeAt t a d) ∨ Due t q d := by
  have hcached := shape.notMem_lcache hc
  have hfree : ∀ c' : EvdpTimerCblistNode,
      Shape (evdpTimerCblistNodeFree ln (t.setPoint ln c')) active (loose \ {ln}) ∧
      (evdpTimerCblistNodeFree ln (t.setPoint ln c')).points = Function.update t.points ln none :=
    fun c' => ⟨(shape.setPoint hp hcached c').cblistNodeFree hp hcached,
      Function.update_idem _ _ _⟩
  cases hr : c.refTnode with
  | none =>
    refine ⟨_, by simp [Timer.afterCallback, hc, hr]; rfl, (hfree _).1, ?_, fun _ _ => .rfl, ?_⟩
    · simp [(hfree _).2, returnedPoint, hr]
    · intro q d
      simp only [reduceCtorEq, false_and, exists_false, and_false, false_or]
      exact .rfl
  | some ref =>
    cases tret with
    | free =>
      refine ⟨_, by simp [Timer.afterCallback, hc, hr]; rfl, (hfree _).1, ?_, fun _ _ => .rfl, ?_⟩
      · simp [(hfree _).2, returnedPoint, hr]
      · intro q d
        simp only [reduceCtorEq, false_and, and_false, false_or]
        exact .rfl
    | keep =>
      by_cases htn : ref = tn
      · let c' : EvdpTimerCblistNode := { c with running := false, refTnode := none }
        refine ⟨_, by
            simp only [Timer.afterCallback, hc, hr, Option.bind_eq_bind, Option.bind_some,
              if_pos htn]
            rfl,
          (shape.setPoint hp hcached c').keeplistInsertHead hp (Function.update_self ..) rfl, ?_,
          fun _ _ => .rfl, ?_⟩
        · simp [NebEvdpTimer.setPoint, returnedPoint, hr, htn, c']
        · intro q d
          have hno : ¬ (q = ln ∧ NebEvdpTimeoutRet.keep = .keep ∧
              ∃ a, some ref = some a ∧ a ≠ tn ∧ NodeAt t a d) := by
            rintro ⟨-, -, a, ha, hne, -⟩
            exact hne ((Option.some.inj ha).symm.trans htn)
          rw [or_iff_right hno]
          exact .rfl
      · let c' : EvdpTimerCblistNode := { c with running := false }
        obtain ⟨t', heq, shape', hpoints, -, htree⟩ :=
          (shape.setPoint hp hcached c').cblistInsertHead (a := ref) hp
            (Function.update_self ..) hr (href ref hr)
        refine ⟨t', by simp [Timer.afterCallback, hc, hr, htn, ← heq, c'], shape', ?_,
          node_at_insert_head htree, ?_⟩
        · rw [hpoints]
          simp [NebEvdpTimer.setPoint, returnedPoint, hr, htn, c']
        · intro q d
          rw [due_insert_head htree]
          apply or_congr_left
          constructor
          · rintro ⟨rfl, hat⟩
            exact ⟨rfl, rfl, ref, rfl, htn, hat⟩
          · rintro ⟨rfl, -, a, ha, -, hat⟩
            obtain rfl := Option.some.inj ha
            exact ⟨rfl, hat⟩

/-- The end of a drained node: nothing waits in it, and it is taken out of the tree. -/
theorem Shape.finishTnode {n : EvdpTimerRbtreeNode} (shape : Shape t (some n.addr) loose)
    (hn : n ∈ t.rbtree) (empty : n.cblist = []) :
    let t1 := t.updateTnode n.addr (fun n => { n with noAutoDel := false })
    let t2 := evdpTimerRbtreeNodeDel n { t1 with rbtree := rbTreeRemoveNode n.addr t1.rbtree }
    Shape t2 none loose ∧ t2.points = t.points ∧ (∀ q d, Due t2 q d ↔ Due t q d) ∧
      (rbTreeNext n.addr t1.rbtree = none → ∀ q d, Due t q d → d < n.ts) ∧
      ∀ b, rbTreeNext n.addr t1.rbtree = some b →
        ∃ e, NodeAt t2 b e ∧ n.ts < e ∧ ∀ q d, Due t q d → d < e → d < n.ts := by
  intro t1 t2
  have shape1 : Shape t1 none loose := shape.deactivate
  let n1 : EvdpTimerRbtreeNode := { n with noAutoDel := false }
  have hn1 : n1 ∈ t1.rbtree := List.mem_map.mpr ⟨n, hn, by simp [n1]⟩
  obtain ⟨shape2, hpoints2, -, htree2⟩ :=
    shape1.removeTnode hn1 empty (by simp) n rfl empty
  have hdue1 : ∀ q d, Due t1 q d ↔ Due t q d := due_auto_del n.addr false
  have hne : ∀ m ∈ t1.rbtree, ∀ q ∈ m.cblist, m ≠ n1 := by
    rintro m hm q hq rfl
    rw [show n1.cblist = [] from empty] at hq
    simp at hq
  obtain ⟨hnone, hsome⟩ := rb_tree_next_spec shape1.sorted hn1 shape1.addrs
  have hbefore : ∀ q d, Due t q d → d ≤ n.ts → d < n.ts := by
    intro q d h hle
    obtain ⟨m, hm, hq, rfl⟩ := (hdue1 q d).mpr h
    refine lt_of_le_of_ne hle ?_
    intro heq
    exact hne m hm q hq (shape1.ts_unique hm hn1 heq)
  refine ⟨shape2, hpoints2, ?_, ?_, ?_⟩
  · intro q d
    rw [← hdue1]
    constructor
    · rintro ⟨m, hm, h⟩
      exact ⟨m, ((htree2 m).mp hm).1, h⟩
    · rintro ⟨m, hm, hq, hd⟩
      refine ⟨m, (htree2 m).mpr ⟨hm, ?_⟩, hq, hd⟩
      exact fun heq => hne m hm q hq (shape1.node_unique hm hn1 heq)
  · intro hnxt q d h
    obtain ⟨m, hm, -, rfl⟩ := (hdue1 q d).mpr h
    exact hbefore q _ h (hnone hnxt m hm)
  · intro b hb
    obtain ⟨k, hk, rfl, hlt, hbetween⟩ := hsome b hb
    refine ⟨k.ts, ⟨k, (htree2 k).mpr ⟨hk, ?_⟩, rfl, rfl⟩, hlt, ?_⟩
    · intro heq
      obtain rfl := shape1.node_unique hk hn1 heq
      exact lt_irrefl _ hlt
    · intro q d h hde
      obtain ⟨m, hm, -, rfl⟩ := (hdue1 q d).mpr h
      exact hbefore q _ h (hbetween m hm hde)

end Effects

end Nebase.Evdp.Timer
