/- The shape of a timer between two operations, and what each primitive does to it. -/

import Nebase.Evdp.Timer.Model
import Mathlib.Data.Set.Insert
import Mathlib.Data.List.Nodup

set_option autoImplicit false
set_option relaxedAutoImplicit false

namespace Nebase.Evdp.Timer

open Nebase.Time

/-! The order of the tree. -/

private theorem cmp_node_neg (e p : EvdpTimerRbtreeNode) :
    evdpTimerRbtreeCmpNode e p < 0 ↔ e.ts < p.ts := by
  rw [Timespec.lt_iff]
  unfold evdpTimerRbtreeCmpNode
  split_ifs <;> omega

private theorem cmp_node_zero (e p : EvdpTimerRbtreeNode) :
    evdpTimerRbtreeCmpNode e p = 0 ↔ e.ts = p.ts := by
  rw [Timespec.ext_iff]
  unfold evdpTimerRbtreeCmpNode
  split_ifs <;> simp_all
  omega

abbrev Sorted (tree : List EvdpTimerRbtreeNode) : Prop :=
  tree.Pairwise (fun m n => m.ts < n.ts)

/-- Insertion gives back the node of the same deadline, or adds the new one in its place. -/
theorem rb_tree_insert_node_cases (n : EvdpTimerRbtreeNode) {tree : List EvdpTimerRbtreeNode}
    (sorted : Sorted tree) :
    (∃ m ∈ tree, m.ts = n.ts ∧ rbTreeInsertNode n tree = (tree, m.addr)) ∨
    ((rbTreeInsertNode n tree).2 = n.addr ∧ (∀ m ∈ tree, m.ts ≠ n.ts) ∧
      (rbTreeInsertNode n tree).1.Perm (n :: tree) ∧ Sorted (rbTreeInsertNode n tree).1) := by
  induction tree with
  | nil => right; simp [rbTreeInsertNode]
  | cons m ms ih =>
    obtain ⟨hm, hms⟩ := List.pairwise_cons.mp sorted
    unfold rbTreeInsertNode
    by_cases hlt : n.ts < m.ts
    · have hall : ∀ k ∈ m :: ms, n.ts < k.ts := by
        intro k hk
        rcases List.mem_cons.mp hk with rfl | hk
        · exact hlt
        · exact hlt.trans (hm k hk)
      rw [if_pos ((cmp_node_neg n m).mpr hlt)]
      exact .inr ⟨rfl, fun k hk => (hall k hk).ne', .rfl,
        List.pairwise_cons.mpr ⟨hall, sorted⟩⟩
    rw [if_neg (mt (cmp_node_neg n m).mp hlt)]
    by_cases heq : n.ts = m.ts
    · rw [if_pos ((cmp_node_zero n m).mpr heq)]
      exact .inl ⟨m, List.mem_cons_self, heq.symm, rfl⟩
    rw [if_neg (mt (cmp_node_zero n m).mp heq)]
    rcases ih hms with ⟨k, hk, hts, hins⟩ | ⟨haddr, hne, hperm, hsorted⟩
    · exact .inl ⟨k, List.mem_cons_of_mem m hk, hts, by rw [hins]⟩
    · refine .inr ⟨haddr, ?_, (hperm.cons m).trans (List.Perm.swap n m ms), ?_⟩
      · intro k hk
        rcases List.mem_cons.mp hk with rfl | hk
        · exact Ne.symm heq
        · exact hne k hk
      · refine List.pairwise_cons.mpr ⟨?_, hsorted⟩
        intro k hk
        rcases List.mem_cons.mp (hperm.mem_iff.mp hk) with rfl | hk
        · exact lt_of_le_of_ne (not_lt.mp hlt) (Ne.symm heq)
        · exact hm k hk

/-- The successor in the tree: everything else is before it or at the node itself. -/
theorem rb_tree_next_spec {n : EvdpTimerRbtreeNode} {tree : List EvdpTimerRbtreeNode}
    (sorted : Sorted tree) (hn : n ∈ tree) (addrs : (tree.map (·.addr)).Nodup) :
    (rbTreeNext n.addr tree = none → ∀ m ∈ tree, m.ts ≤ n.ts) ∧
    (∀ b, rbTreeNext n.addr tree = some b →
      ∃ k ∈ tree, k.addr = b ∧ n.ts < k.ts ∧ ∀ m ∈ tree, m.ts < k.ts → m.ts ≤ n.ts) := by
  induction tree with
  | nil => simp at hn
  | cons h ns ih =>
    obtain ⟨hh, hns⟩ := List.pairwise_cons.mp sorted
    have haddrs : h.addr ∉ ns.map (·.addr) ∧ (ns.map (·.addr)).Nodup := by simpa using addrs
    rcases List.mem_cons.mp hn with rfl | hmem
    · simp only [rbTreeNext, if_true]
      cases ns with
      | nil => simp [rbTreeMin]
      | cons k ks =>
        refine ⟨by simp [rbTreeMin], ?_⟩
        intro b hb
        obtain rfl : k.addr = b := by simpa [rbTreeMin] using hb
        refine ⟨k, by simp, rfl, hh k List.mem_cons_self, ?_⟩
        intro m hm hlt
        rcases List.mem_cons.mp hm with rfl | hm
        · exact le_rfl
        rcases List.mem_cons.mp hm with rfl | hm
        · exact absurd hlt (lt_irrefl _)
        · exact absurd hlt (not_lt.mpr ((List.pairwise_cons.mp hns).1 m hm).le)
    · have hne : h.addr ≠ n.addr := by
        intro heq
        exact haddrs.1 (heq ▸ List.mem_map_of_mem hmem)
      simp only [rbTreeNext, if_neg hne]
      obtain ⟨hnone, hsome⟩ := ih hns hmem haddrs.2
      have hfirst : h.ts ≤ n.ts := (hh n hmem).le
      constructor
      · intro hnxt m hm
        rcases List.mem_cons.mp hm with rfl | hm
        · exact hfirst
        · exact hnone hnxt m hm
      · intro b hb
        obtain ⟨k, hk, hkb, hlt, hbetween⟩ := hsome b hb
        refine ⟨k, List.mem_cons_of_mem h hk, hkb, hlt, ?_⟩
        intro m hm hmk
        rcases List.mem_cons.mp hm with rfl | hm
        · exact hfirst
        · exact hbetween m hm hmk

theorem rb_tree_min_spec {tree : List EvdpTimerRbtreeNode} (sorted : Sorted tree) :
    (rbTreeMin tree = none → tree = []) ∧
    (∀ b, rbTreeMin tree = some b → ∃ k ∈ tree, k.addr = b ∧ ∀ m ∈ tree, k.ts ≤ m.ts) := by
  cases tree with
  | nil => simp [rbTreeMin]
  | cons k ks =>
    refine ⟨by simp [rbTreeMin], ?_⟩
    intro b hb
    refine ⟨k, List.mem_cons_self, by simpa [rbTreeMin] using hb, ?_⟩
    intro m hm
    rcases List.mem_cons.mp hm with rfl | hm
    · exact le_rfl
    · exact ((List.pairwise_cons.mp sorted).1 m hm).le

/-! The shape. `active` is the node `run_until` is draining, `loose` the set of allocated points
that are on no list: the running one, and the one an operation has just unlinked. -/

structure Shape (t : NebEvdpTimer) (active : Option TnodeAddr) (loose : Set PointAddr) :
    Prop where
  sorted : Sorted t.rbtree
  addrs : (t.rbtree.map (·.addr)).Nodup
  tcache : ∀ n ∈ t.rbtree, n.addr ∉ t.tcache.nodes
  tcacheNodup : t.tcache.nodes.Nodup
  lcache : ∀ p ∈ t.lcache.nodes, t.points p = none
  lcacheNodup : t.lcache.nodes.Nodup
  autoDel : ∀ n ∈ t.rbtree, n.noAutoDel = true ↔ active = some n.addr
  activeMem : ∀ a, active = some a → ∃ n ∈ t.rbtree, n.addr = a
  cblistNodup : ∀ n ∈ t.rbtree, n.cblist.Nodup
  keepNodup : t.keeplist.Nodup
  linked : ∀ n ∈ t.rbtree, ∀ p ∈ n.cblist,
    p ∉ loose ∧ ∃ c, t.points p = some c ∧ c.refTnode = some n.addr
  kept : ∀ p ∈ t.keeplist, p ∉ loose ∧ ∃ c, t.points p = some c ∧ c.refTnode = none
  placed : ∀ p c, t.points p = some c → p ∉ loose →
    (∀ a, c.refTnode = some a → ∃ n ∈ t.rbtree, n.addr = a ∧ p ∈ n.cblist) ∧
    (c.refTnode = none → p ∈ t.keeplist)

/-- The node at address `a` is in the tree, for the deadline `d`. -/
def NodeAt (t : NebEvdpTimer) (a : TnodeAddr) (d : Timespec) : Prop :=
  ∃ n ∈ t.rbtree, n.addr = a ∧ n.ts = d

/-- The point waits in the tree for the deadline `d`. -/
def Due (t : NebEvdpTimer) (p : PointAddr) (d : Timespec) : Prop :=
  ∃ n ∈ t.rbtree, p ∈ n.cblist ∧ n.ts = d

theorem Shape.create (tcacheSize lcacheSize : Nat) :
    Shape (nebEvdpTimerCreate tcacheSize lcacheSize) none ∅ where
  sorted := .nil
  addrs := .nil
  tcache := by simp [nebEvdpTimerCreate]
  tcacheNodup := .nil
  lcache := by simp [nebEvdpTimerCreate]
  lcacheNodup := .nil
  autoDel := by simp [nebEvdpTimerCreate]
  activeMem := by simp
  cblistNodup := by simp [nebEvdpTimerCreate]
  keepNodup := .nil
  linked := by simp [nebEvdpTimerCreate]
  kept := by simp [nebEvdpTimerCreate]
  placed := by simp [nebEvdpTimerCreate]

section Shape

variable {t : NebEvdpTimer} {active : Option TnodeAddr} {loose : Set PointAddr}

theorem Shape.node_unique (shape : Shape t active loose) {m n : EvdpTimerRbtreeNode}
    (hm : m ∈ t.rbtree) (hn : n ∈ t.rbtree) (h : m.addr = n.addr) : m = n :=
  List.inj_on_of_nodup_map shape.addrs hm hn h

theorem Shape.ts_unique (shape : Shape t active loose) {m n : EvdpTimerRbtreeNode}
    (hm : m ∈ t.rbtree) (hn : n ∈ t.rbtree) (h : m.ts = n.ts) : m = n := by
  have hnodup : (t.rbtree.map (·.ts)).Nodup :=
    List.pairwise_map.mpr (shape.sorted.imp (fun h => ne_of_lt h))
  exact List.inj_on_of_nodup_map hnodup hm hn h

theorem Shape.tnode_eq (shape : Shape t active loose) {n : EvdpTimerRbtreeNode}
    (hn : n ∈ t.rbtree) : t.tnode n.addr = some n := by
  unfold NebEvdpTimer.tnode
  cases hfind : t.rbtree.find? (fun m => m.addr = n.addr) with
  | none =>
    have := List.find?_eq_none.mp hfind n hn
    simp at this
  | some m =>
    have haddr : m.addr = n.addr := by simpa using List.find?_some hfind
    rw [shape.node_unique (List.mem_of_find?_eq_some hfind) hn haddr]

theorem tnode_mem {a : TnodeAddr} {n : EvdpTimerRbtreeNode} (h : t.tnode a = some n) :
    n ∈ t.rbtree ∧ n.addr = a :=
  ⟨List.mem_of_find?_eq_some h, by simpa using List.find?_some h⟩

theorem Shape.due_ref (shape : Shape t active loose) {p : PointAddr} {d : Timespec}
    (h : Due t p d) :
    p ∉ loose ∧ ∃ c a, t.points p = some c ∧ c.refTnode = some a ∧ NodeAt t a d := by
  obtain ⟨n, hn, hp, hd⟩ := h
  obtain ⟨hl, c, hc, href⟩ := shape.linked n hn p hp
  exact ⟨hl, c, n.addr, hc, href, n, hn, rfl, hd⟩

theorem Shape.loose_congr (shape : Shape t active loose) (loose' : Set PointAddr)
    (h : ∀ p c, t.points p = some c → (p ∈ loose ↔ p ∈ loose')) : Shape t active loose' :=
  { shape with
    linked := by
      intro n hn p hp
      obtain ⟨hl, c, hc, href⟩ := shape.linked n hn p hp
      exact ⟨mt (h p c hc).mpr hl, c, hc, href⟩
    kept := by
      intro p hp
      obtain ⟨hl, c, hc, href⟩ := shape.kept p hp
      exact ⟨mt (h p c hc).mpr hl, c, hc, href⟩
    placed := fun p c hc hp => shape.placed p c hc (mt (h p c hc).mp hp) }

theorem Shape.notMem_lcache (shape : Shape t active loose) {p : PointAddr}
    {c : EvdpTimerCblistNode} (hc : t.points p = some c) : p ∉ t.lcache.nodes := by
  intro hp
  rw [shape.lcache p hp] at hc
  cases hc

/-! Changes of the tree. -/

private theorem Shape.withTcache (shape : Shape t active loose) {cache : NodeCache}
    {ledger : Ledger} (nodup : cache.nodes.Nodup)
    (disjoint : ∀ n ∈ t.rbtree, n.addr ∉ cache.nodes) :
    Shape { t with tcache := cache, tledger := ledger } active loose :=
  { shape with tcache := disjoint, tcacheNodup := nodup }

private theorem Shape.addTnode (shape : Shape t active loose) {a : TnodeAddr} {d : Timespec}
    {tree : List EvdpTimerRbtreeNode} (sorted : Sorted tree)
    (perm : tree.Perm (⟨a, d, [], false⟩ :: t.rbtree)) (fresh : ∀ n ∈ t.rbtree, n.addr ≠ a)
    (uncached : a ∉ t.tcache.nodes) : Shape { t with rbtree := tree } active loose := by
  have hmem : ∀ m, m ∈ tree ↔ m = ⟨a, d, [], false⟩ ∨ m ∈ t.rbtree := by
    intro m
    rw [perm.mem_iff, List.mem_cons]
  refine
    { shape with
      sorted := sorted
      addrs := ?_
      tcache := ?_
      autoDel := ?_
      activeMem := ?_
      cblistNodup := ?_
      linked := ?_
      placed := ?_ }
  · refine (perm.map (·.addr)).nodup_iff.mpr (List.nodup_cons.mpr ⟨?_, shape.addrs⟩)
    rw [List.mem_map]
    rintro ⟨n, hn, rfl⟩
    exact fresh n hn rfl
  · intro m hm
    rcases (hmem m).mp hm with rfl | hm
    · exact uncached
    · exact shape.tcache m hm
  · intro m hm
    rcases (hmem m).mp hm with rfl | hm
    · simp only [Bool.false_eq_true, false_iff]
      intro ha
      obtain ⟨n, hn, hna⟩ := shape.activeMem a ha
      exact fresh n hn hna
    · exact shape.autoDel m hm
  · intro b hb
    obtain ⟨n, hn, hnb⟩ := shape.activeMem b hb
    exact ⟨n, (hmem n).mpr (.inr hn), hnb⟩
  · intro m hm
    rcases (hmem m).mp hm with rfl | hm
    · exact .nil
    · exact shape.cblistNodup m hm
  · intro m hm p hp
    rcases (hmem m).mp hm with rfl | hm
    · simp at hp
    · exact shape.linked m hm p hp
  · intro p c hc hp
    refine ⟨?_, (shape.placed p c hc hp).2⟩
    intro b hb
    obtain ⟨n, hn, hnb⟩ := (shape.placed p c hc hp).1 b hb
    exact ⟨n, (hmem n).mpr (.inr hn), hnb⟩

private theorem rbtree_node_new_cases (shape : Shape t active loose) {calloc : Option TnodeAddr}
    (fresh : t.tnodeFresh calloc = true) {absTs : Timespec} {n : EvdpTimerRbtreeNode}
    {t' : NebEvdpTimer} (h : evdpTimerRbtreeNodeNew absTs calloc t = some (n, t')) :
    ∃ a nodes ledger, n = ⟨a, absTs, [], false⟩ ∧
      t' = { t with tcache := { t.tcache with nodes := nodes }, tledger := ledger } ∧
      (a :: nodes).Nodup ∧
      ∀ m ∈ t.rbtree, m.addr ∉ a :: nodes := by
  unfold evdpTimerRbtreeNodeNew at h
  cases hnodes : t.tcache.nodes with
  | cons a nodes =>
    rw [hnodes] at h
    obtain ⟨rfl, rfl⟩ : ⟨a, absTs, [], false⟩ = n ∧ _ = t' := by simpa using h
    exact ⟨a, nodes, _, rfl, rfl, hnodes ▸ shape.tcacheNodup, hnodes ▸ shape.tcache⟩
  | nil =>
    rw [hnodes] at h
    obtain ⟨a, rfl, hn⟩ := Option.map_eq_some_iff.mp h
    obtain ⟨rfl, rfl⟩ := Prod.mk.inj hn
    refine ⟨a, [], _, rfl, by rw [← hnodes], by simp, ?_⟩
    intro m hm heq
    have hnone : t.tnode a = none := by
      simpa [NebEvdpTimer.tnodeFresh, hnodes] using fresh
    rw [List.mem_singleton] at heq
    rw [← heq, shape.tnode_eq hm] at hnone
    cases hnone

/-- A node that is put back or freed is out of the tree already, and its points are not kept. -/
theorem rbtree_node_del_leaves (n : EvdpTimerRbtreeNode) (t : NebEvdpTimer) :
    (evdpTimerRbtreeNodeDel n t).rbtree = t.rbtree ∧
      (evdpTimerRbtreeNodeDel n t).keeplist = t.keeplist := by
  have hlist : ∀ (ps : List PointAddr) (t : NebEvdpTimer),
      (ps.foldl (fun t p => evdpTimerCblistNodeFree p t) t).rbtree = t.rbtree ∧
        (ps.foldl (fun t p => evdpTimerCblistNodeFree p t) t).keeplist = t.keeplist := by
    intro ps
    induction ps with
    | nil => exact fun _ => ⟨rfl, rfl⟩
    | cons p ps ih => exact fun t => ih (evdpTimerCblistNodeFree p t)
  unfold evdpTimerRbtreeNodeDel
  dsimp only
  split
  · exact hlist n.cblist t
  · exact hlist n.cblist t

/-- An empty node is put back to the cache or freed. -/
private theorem rbtree_node_del_cases (n : EvdpTimerRbtreeNode) (empty : n.cblist = [])
    (t : NebEvdpTimer) :
    ∃ nodes ledger, evdpTimerRbtreeNodeDel n t =
        { t with tcache := { t.tcache with nodes := nodes }, tledger := ledger } ∧
      (nodes = t.tcache.nodes ∨ nodes = n.addr :: t.tcache.nodes) := by
  unfold evdpTimerRbtreeNodeDel
  rw [empty, List.foldl_nil]
  dsimp only
  split
  · exact ⟨_, _, rfl, .inr rfl⟩
  · exact ⟨_, _, rfl, .inl rfl⟩

theorem Shape.rbtreeNodeDel (shape : Shape t active loose) {n : EvdpTimerRbtreeNode}
    (empty : n.cblist = []) (out : ∀ m ∈ t.rbtree, m.addr ≠ n.addr)
    (uncached : n.addr ∉ t.tcache.nodes) :
    Shape (evdpTimerRbtreeNodeDel n t) active loose ∧
      (evdpTimerRbtreeNodeDel n t).rbtree = t.rbtree ∧
      (evdpTimerRbtreeNodeDel n t).points = t.points ∧
      (evdpTimerRbtreeNodeDel n t).lcache = t.lcache := by
  obtain ⟨nodes, ledger, hdel, hnodes⟩ := rbtree_node_del_cases n empty t
  rw [hdel]
  refine ⟨shape.withTcache ?_ ?_, rfl, rfl, rfl⟩
  · rcases hnodes with rfl | rfl
    · exact shape.tcacheNodup
    · exact List.nodup_cons.mpr ⟨uncached, shape.tcacheNodup⟩
  · intro m hm
    rcases hnodes with rfl | rfl
    · exact shape.tcache m hm
    · intro hmem
      rcases List.mem_cons.mp hmem with heq | hmem
      · exact out m hm heq
      · exact shape.tcache m hm hmem

/-- What the opening of `new_point` and `point_reset` does: the tree has a node for `absTs`. -/
theorem Shape.insertTnode (shape : Shape t active loose) {calloc : Option TnodeAddr}
    (fresh : t.tnodeFresh calloc = true) {absTs : Timespec} {tn : TnodeAddr} {existed : Bool}
    {t' : NebEvdpTimer} (h : evdpTimerInsertTnode absTs calloc t = some (tn, existed, t')) :
    Shape t' active loose ∧ t'.points = t.points ∧ t'.lcache = t.lcache ∧
      (existed = true ∧ t'.rbtree = t.rbtree ∧ NodeAt t tn absTs ∨
        existed = false ∧ (∀ m ∈ t.rbtree, m.ts ≠ absTs ∧ m.addr ≠ tn) ∧
        ∀ m, m ∈ t'.rbtree ↔ m = ⟨tn, absTs, [], false⟩ ∨ m ∈ t.rbtree) := by
  unfold evdpTimerInsertTnode at h
  obtain ⟨⟨n, t1⟩, hnew, h⟩ := Option.bind_eq_some_iff.mp h
  obtain ⟨a, nodes, ledger, rfl, rfl, hnodup, hfresh⟩ := rbtree_node_new_cases shape fresh hnew
  obtain ⟨hanodes, hnodup⟩ := List.nodup_cons.mp hnodup
  have hout : ∀ m ∈ t.rbtree, m.addr ≠ a := fun m hm heq =>
    hfresh m hm (heq ▸ List.mem_cons_self)
  have shape1 : Shape { t with
      tcache := { t.tcache with nodes := nodes }, tledger := ledger } active loose :=
    shape.withTcache hnodup (fun m hm hmem => hfresh m hm (List.mem_cons_of_mem a hmem))
  rcases rb_tree_insert_node_cases ⟨a, absTs, [], false⟩ shape.sorted with
    ⟨m, hm, hts, hins⟩ | ⟨haddr, hne, hperm, hsorted⟩
  · simp only [hins, ne_eq, hout m hm, not_false_eq_true, if_true] at h
    obtain ⟨rfl, rfl, rfl⟩ : m.addr = tn ∧ true = existed ∧ _ = t' := by simpa using h
    obtain ⟨hshape, htree, hpoints, hlcache⟩ :=
      shape1.rbtreeNodeDel (n := ⟨a, absTs, [], false⟩) rfl hout hanodes
    exact ⟨hshape, hpoints, hlcache, .inl ⟨rfl, htree, m, hm, rfl, hts⟩⟩
  · simp only [haddr, ne_eq, not_true_eq_false, if_false] at h
    obtain ⟨rfl, rfl, rfl⟩ : a = tn ∧ false = existed ∧ _ = t' := by simpa using h
    refine ⟨shape1.addTnode hsorted hperm hout hanodes, rfl, rfl, .inr ⟨rfl, ?_, ?_⟩⟩
    · exact fun m hm => ⟨hne m hm, hout m hm⟩
    · intro m
      change m ∈ (rbTreeInsertNode _ _).1 ↔ _
      rw [hperm.mem_iff, List.mem_cons]

/-- Taking an empty node that is not being drained out of the tree. -/
theorem Shape.removeTnode (shape : Shape t active loose) {n : EvdpTimerRbtreeNode}
    (hn : n ∈ t.rbtree) (empty : n.cblist = []) (idle : active ≠ some n.addr)
    (n' : EvdpTimerRbtreeNode) (haddr : n'.addr = n.addr) (empty' : n'.cblist = []) :
    let t' := evdpTimerRbtreeNodeDel n' { t with rbtree := rbTreeRemoveNode n.addr t.rbtree }
    Shape t' active loose ∧ t'.points = t.points ∧ t'.lcache = t.lcache ∧
      ∀ m, m ∈ t'.rbtree ↔ m ∈ t.rbtree ∧ m.addr ≠ n.addr := by
  have hmem : ∀ m, m ∈ rbTreeRemoveNode n.addr t.rbtree ↔ m ∈ t.rbtree ∧ m.addr ≠ n.addr := by
    intro m
    simp [rbTreeRemoveNode]
  have hsub : (rbTreeRemoveNode n.addr t.rbtree).Sublist t.rbtree := List.filter_sublist
  have shape1 : Shape { t with rbtree := rbTreeRemoveNode n.addr t.rbtree } active loose := by
    refine
      { shape with
        sorted := shape.sorted.sublist hsub
        addrs := shape.addrs.sublist (hsub.map _)
        tcache := fun m hm => shape.tcache m (hsub.subset hm)
        autoDel := fun m hm => shape.autoDel m (hsub.subset hm)
        activeMem := ?_
        cblistNodup := fun m hm => shape.cblistNodup m (hsub.subset hm)
        linked := fun m hm => shape.linked m (hsub.subset hm)
        placed := ?_ }
    · intro b hb
      obtain ⟨m, hm, rfl⟩ := shape.activeMem b hb
      exact ⟨m, (hmem m).mpr ⟨hm, fun heq => idle (heq ▸ hb)⟩, rfl⟩
    · intro p c hc hp
      refine ⟨?_, (shape.placed p c hc hp).2⟩
      intro b hb
      obtain ⟨m, hm, rfl, hpm⟩ := (shape.placed p c hc hp).1 b hb
      refine ⟨m, (hmem m).mpr ⟨hm, fun heq => ?_⟩, rfl, hpm⟩
      rw [shape.node_unique hm hn heq, empty] at hpm
      simp at hpm
  obtain ⟨hshape, htree, hpoints, hlcache⟩ := shape1.rbtreeNodeDel (n := n') empty'
    (fun m hm => haddr ▸ ((hmem m).mp hm).2) (haddr ▸ shape.tcache n hn)
  exact ⟨hshape, hpoints, hlcache, fun m => by rw [htree, hmem m]⟩

/-! Changes that keep the nodes and their deadlines. -/

private theorem sorted_map {g : EvdpTimerRbtreeNode → EvdpTimerRbtreeNode}
    (hts : ∀ n, (g n).ts = n.ts) {tree : List EvdpTimerRbtreeNode} (sorted : Sorted tree) :
    Sorted (tree.map g) := by
  rw [Sorted, List.pairwise_map]
  simpa only [hts] using sorted

private theorem addrs_map {g : EvdpTimerRbtreeNode → EvdpTimerRbtreeNode}
    (haddr : ∀ n, (g n).addr = n.addr) (tree : List EvdpTimerRbtreeNode) :
    (tree.map g).map (·.addr) = tree.map (·.addr) := by
  simp [haddr]

theorem node_at_map {g : EvdpTimerRbtreeNode → EvdpTimerRbtreeNode}
    (haddr : ∀ n, (g n).addr = n.addr) (hts : ∀ n, (g n).ts = n.ts) {t' : NebEvdpTimer}
    (tree : t'.rbtree = t.rbtree.map g) (a : TnodeAddr) (d : Timespec) :
    NodeAt t' a d ↔ NodeAt t a d := by
  unfold NodeAt
  simp [tree, haddr, hts]

private theorem Shape.setAutoDel (shape : Shape t active loose) (a : TnodeAddr) (b : Bool)
    {active' : Option TnodeAddr} (mem : ∀ a', active' = some a' → ∃ n ∈ t.rbtree, n.addr = a')
    (flag : ∀ n ∈ t.rbtree, (if n.addr = a then b else n.noAutoDel) = true ↔
      active' = some n.addr) :
    Shape (t.updateTnode a (fun n => { n with noAutoDel := b })) active' loose := by
  have hfield : ∀ {α : Type} (f : EvdpTimerRbtreeNode → α) (n : EvdpTimerRbtreeNode),
      (∀ n : EvdpTimerRbtreeNode, f { n with noAutoDel := b } = f n) →
      f (if n.addr = a then { n with noAutoDel := b } else n) = f n := by
    intro α f n hf
    split
    · exact hf n
    · rfl
  have haddr := fun n => hfield (·.addr) n (fun _ => rfl)
  have hlist := fun n => hfield (·.cblist) n (fun _ => rfl)
  refine
    { sorted := sorted_map (fun n => hfield (·.ts) n (fun _ => rfl)) shape.sorted
      addrs := (addrs_map haddr t.rbtree).symm ▸ shape.addrs
      tcache := ?_
      tcacheNodup := shape.tcacheNodup
      lcache := shape.lcache
      lcacheNodup := shape.lcacheNodup
      autoDel := ?_
      activeMem := ?_
      cblistNodup := ?_
      keepNodup := shape.keepNodup
      linked := ?_
      kept := shape.kept
      placed := ?_ }
  · intro m hm
    obtain ⟨n, hn, rfl⟩ := List.mem_map.mp hm
    exact (haddr n).symm ▸ shape.tcache n hn
  · intro m hm
    obtain ⟨n, hn, rfl⟩ := List.mem_map.mp hm
    rw [haddr n, ← flag n hn]
    split <;> rfl
  · intro a' ha'
    obtain ⟨n, hn, hna⟩ := mem a' ha'
    exact ⟨_, List.mem_map_of_mem hn, (haddr n).trans hna⟩
  · intro m hm
    obtain ⟨n, hn, rfl⟩ := List.mem_map.mp hm
    exact (hlist n).symm ▸ shape.cblistNodup n hn
  · intro m hm p hp
    obtain ⟨n, hn, rfl⟩ := List.mem_map.mp hm
    rw [haddr n]
    exact shape.linked n hn p ((hlist n) ▸ hp)
  · intro p c hc hp
    refine ⟨?_, (shape.placed p c hc hp).2⟩
    intro a' ha'
    obtain ⟨n, hn, hna, hpn⟩ := (shape.placed p c hc hp).1 a' ha'
    exact ⟨_, List.mem_map_of_mem hn, (haddr n).trans hna, (hlist n).symm ▸ hpn⟩

theorem Shape.activate (shape : Shape t none loose) {n : EvdpTimerRbtreeNode}
    (hn : n ∈ t.rbtree) :
    Shape (t.updateTnode n.addr (fun n => { n with noAutoDel := true })) (some n.addr) loose := by
  refine shape.setAutoDel n.addr true ?_ ?_
  · intro a ha
    obtain rfl := Option.some.inj ha
    exact ⟨n, hn, rfl⟩
  · intro m hm
    have hflag : m.noAutoDel = false := by
      simpa using (shape.autoDel m hm)
    by_cases heq : m.addr = n.addr
    · simp [heq]
    · simp [heq, hflag, Ne.symm heq]

theorem Shape.deactivate {a : TnodeAddr} (shape : Shape t (some a) loose) :
    Shape (t.updateTnode a (fun n => { n with noAutoDel := false })) none loose := by
  refine shape.setAutoDel a false (by simp) ?_
  intro m hm
  by_cases heq : m.addr = a
  · simp [heq]
  · have hflag : ¬ m.noAutoDel = true := by
      rw [shape.autoDel m hm]
      simpa using Ne.symm heq
    simp [heq, hflag]

/-! Changes of the lists and of the points. -/

theorem Shape.linked_of_placed (shape : Shape t active loose) {p : PointAddr}
    {c : EvdpTimerCblistNode} (hc : t.points p = some c) (hp : p ∉ loose) :
    t.linked p = true := by
  obtain ⟨htree, hkeep⟩ := shape.placed p c hc hp
  unfold NebEvdpTimer.linked
  cases href : c.refTnode with
  | none => simp [hkeep href]
  | some a =>
    obtain ⟨n, hn, -, hpn⟩ := htree a href
    simp only [Bool.or_eq_true, List.any_eq_true, decide_eq_true_eq]
    exact .inr ⟨n, hn, hpn⟩

/-- `LIST_REMOVE` of a linked point leaves it loose. -/
theorem Shape.listRemove (shape : Shape t active loose) {p : PointAddr}
    {c : EvdpTimerCblistNode} (hc : t.points p = some c) (hp : p ∉ loose) :
    ∃ t', Timer.listRemove p t = some t' ∧ Shape t' active (insert p loose) ∧
      t'.points = t.points ∧ t'.lcache = t.lcache ∧
      t'.rbtree = t.rbtree.map (fun n => { n with cblist := n.cblist.erase p }) := by
  refine ⟨_, if_pos (shape.linked_of_placed hc hp), ?_, rfl, rfl, rfl⟩
  let unlink (n : EvdpTimerRbtreeNode) := { n with cblist := n.cblist.erase p }
  have herase : ∀ n ∈ t.rbtree, ∀ q, q ∈ n.cblist.erase p ↔ q ≠ p ∧ q ∈ n.cblist :=
    fun n hn q => (shape.cblistNodup n hn).mem_erase_iff
  have hkerase : ∀ q, q ∈ t.keeplist.erase p ↔ q ≠ p ∧ q ∈ t.keeplist :=
    fun q => shape.keepNodup.mem_erase_iff
  refine
    { sorted := sorted_map (g := unlink) (fun _ => rfl) shape.sorted
      addrs := (addrs_map (g := unlink) (fun _ => rfl) t.rbtree).symm ▸ shape.addrs
      tcache := ?_
      tcacheNodup := shape.tcacheNodup
      lcache := shape.lcache
      lcacheNodup := shape.lcacheNodup
      autoDel := ?_
      activeMem := ?_
      cblistNodup := ?_
      keepNodup := shape.keepNodup.erase p
      linked := ?_
      kept := ?_
      placed := ?_ }
  · intro m hm
    obtain ⟨n, hn, rfl⟩ := List.mem_map.mp hm
    exact shape.tcache n hn
  · intro m hm
    obtain ⟨n, hn, rfl⟩ := List.mem_map.mp hm
    exact shape.autoDel n hn
  · intro a ha
    obtain ⟨n, hn, hna⟩ := shape.activeMem a ha
    exact ⟨_, List.mem_map_of_mem hn, hna⟩
  · intro m hm
    obtain ⟨n, hn, rfl⟩ := List.mem_map.mp hm
    exact (shape.cblistNodup n hn).erase p
  · intro m hm q hq
    obtain ⟨n, hn, rfl⟩ := List.mem_map.mp hm
    obtain ⟨hqp, hq⟩ := (herase n hn q).mp hq
    obtain ⟨hl, hrest⟩ := shape.linked n hn q hq
    exact ⟨by simp [hqp, hl], hrest⟩
  · intro q hq
    obtain ⟨hqp, hq⟩ := (hkerase q).mp hq
    obtain ⟨hl, hrest⟩ := shape.kept q hq
    exact ⟨by simp [hqp, hl], hrest⟩
  · intro q d hd hq
    obtain ⟨hqp, hql⟩ : q ≠ p ∧ q ∉ loose := by simpa using hq
    obtain ⟨htree, hkeep⟩ := shape.placed q d hd hql
    constructor
    · intro a ha
      obtain ⟨n, hn, hna, hqn⟩ := htree a ha
      exact ⟨_, List.mem_map_of_mem hn, hna, (herase n hn q).mpr ⟨hqp, hqn⟩⟩
    · exact fun hnone => (hkerase q).mpr ⟨hqp, hkeep hnone⟩

theorem Shape.setPoint (shape : Shape t active loose) {p : PointAddr} (hp : p ∈ loose)
    (uncached : p ∉ t.lcache.nodes) (c : EvdpTimerCblistNode) :
    Shape (t.setPoint p c) active loose := by
  have hother : ∀ q, q ∉ loose → (t.setPoint p c).points q = t.points q := by
    intro q hq
    have hqp : q ≠ p := by
      rintro rfl
      exact hq hp
    exact Function.update_of_ne hqp _ _
  refine
    { shape with
      lcache := ?_
      linked := ?_
      kept := ?_
      placed := ?_ }
  · intro q hq
    have hqp : q ≠ p := fun h => uncached (h ▸ hq)
    exact (Function.update_of_ne hqp _ _).trans (shape.lcache q hq)
  · intro n hn q hq
    obtain ⟨hl, hrest⟩ := shape.linked n hn q hq
    exact ⟨hl, (hother q hl).symm ▸ hrest⟩
  · intro q hq
    obtain ⟨hl, hrest⟩ := shape.kept q hq
    exact ⟨hl, (hother q hl).symm ▸ hrest⟩
  · intro q d hd hq
    exact shape.placed q d ((hother q hq) ▸ hd) hq

theorem Shape.cblistNodeFree (shape : Shape t active loose) {p : PointAddr} (hp : p ∈ loose)
    (uncached : p ∉ t.lcache.nodes) :
    Shape (evdpTimerCblistNodeFree p t) active (loose \ {p}) := by
  have hother : ∀ q, q ≠ p → (evdpTimerCblistNodeFree p t).points q = t.points q :=
    fun q hq => Function.update_of_ne hq _ _
  have hfreed : (evdpTimerCblistNodeFree p t).points p = none := Function.update_self ..
  have hne : ∀ q, q ∉ loose → q ≠ p := fun q hq h => hq (h ▸ hp)
  refine
    { shape with
      lcache := ?_
      lcacheNodup := ?_
      linked := ?_
      kept := ?_
      placed := ?_ }
  · have hold : ∀ q ∈ t.lcache.nodes, (evdpTimerCblistNodeFree p t).points q = none := by
      intro q hq
      rw [hother q (fun h => uncached (h ▸ hq))]
      exact shape.lcache q hq
    intro q hq
    by_cases hqp : q = p
    · rw [hqp, hfreed]
    · apply hold
      unfold evdpTimerCblistNodeFree at hq
      dsimp only at hq
      split at hq
      · exact List.mem_of_ne_of_mem hqp hq
      · exact hq
  · unfold evdpTimerCblistNodeFree
    dsimp only
    split
    · exact List.nodup_cons.mpr ⟨uncached, shape.lcacheNodup⟩
    · exact shape.lcacheNodup
  · intro n hn q hq
    obtain ⟨hl, hrest⟩ := shape.linked n hn q hq
    exact ⟨fun h => hl h.1, (hother q (hne q hl)).symm ▸ hrest⟩
  · intro q hq
    obtain ⟨hl, hrest⟩ := shape.kept q hq
    exact ⟨fun h => hl h.1, (hother q (hne q hl)).symm ▸ hrest⟩
  · intro q d hd hq
    have hqp : q ≠ p := by
      rintro rfl
      rw [hfreed] at hd
      cases hd
    exact shape.placed q d (hother q hqp ▸ hd) (fun h => hq ⟨h, hqp⟩)

/-- The allocation of a point: it was not allocated before, and is loose for now. -/
theorem Shape.cblistNodeNew (shape : Shape t active loose) {cb udata : Nat}
    {calloc : Option PointAddr} (fresh : t.lnodeFresh calloc = true) {p : PointAddr}
    {t' : NebEvdpTimer} (h : evdpTimerCblistNodeNew cb udata calloc t = some (p, t')) :
    t.points p = none ∧ p ∉ t'.lcache.nodes ∧ Shape t' active (insert p loose) ∧
      t'.points = Function.update t.points p (some ⟨cb, udata, false, none⟩) ∧
      t'.rbtree = t.rbtree := by
  have hgrow : ∀ {q}, t.points q = none → ∀ {nodes : List PointAddr} (ledger : Ledger), q ∉ nodes →
      nodes.Nodup → (∀ r ∈ nodes, t.points r = none) →
      Shape ({ t with
        lcache := { t.lcache with nodes := nodes }, lledger := ledger }.setPoint q
        ⟨cb, udata, false, none⟩) active (insert q loose) := by
    intro q hq nodes ledger hnodes hnodup hfree
    refine Shape.setPoint ?_ (Set.mem_insert q loose) hnodes _
    refine { shape.loose_congr (insert q loose) ?_ with
      lcache := hfree, lcacheNodup := hnodup }
    intro r c hr
    have hrq : r ≠ q := by
      rintro rfl
      rw [hq] at hr
      cases hr
    simp [hrq]
  unfold evdpTimerCblistNodeNew at h
  cases hnodes : t.lcache.nodes with
  | cons q nodes =>
    rw [hnodes] at h
    obtain ⟨rfl, rfl⟩ : q = p ∧ _ = t' := by simpa using h
    obtain ⟨hq, hnodup⟩ := List.nodup_cons.mp (hnodes ▸ shape.lcacheNodup)
    have hfree := shape.lcache
    rw [hnodes] at hfree
    have hpq := hfree q List.mem_cons_self
    exact ⟨hpq, hq, hgrow hpq _ hq hnodup (fun r hr => hfree r (List.mem_cons_of_mem q hr)),
      rfl, rfl⟩
  | nil =>
    rw [hnodes] at h
    obtain ⟨q, rfl, hq⟩ := Option.map_eq_some_iff.mp h
    obtain ⟨rfl, rfl⟩ := Prod.mk.inj hq
    have hpq : t.points q = none := by
      simpa [NebEvdpTimer.lnodeFresh, hnodes] using fresh
    refine ⟨hpq, by simp [NebEvdpTimer.setPoint, hnodes], ?_, rfl, rfl⟩
    have hshape := @hgrow _ hpq [] (t.lledger.calloc q) (by simp) .nil (by simp)
    rwa [← hnodes] at hshape

/-- `LIST_INSERT_HEAD` of a loose point into the list of the node it refers to. -/
theorem Shape.cblistInsertHead (shape : Shape t active loose) {p : PointAddr}
    {c : EvdpTimerCblistNode} {a : TnodeAddr} (hp : p ∈ loose) (hc : t.points p = some c)
    (href : c.refTnode = some a) (ha : ∃ n ∈ t.rbtree, n.addr = a) :
    ∃ t', Timer.cblistInsertHead a p t = some t' ∧ Shape t' active (loose \ {p}) ∧
      t'.points = t.points ∧ t'.lcache = t.lcache ∧
      t'.rbtree = t.rbtree.map
        (fun n => if n.addr = a then { n with cblist := p :: n.cblist } else n) := by
  obtain ⟨k, hk, rfl⟩ := ha
  have hsome : (t.tnode k.addr).isSome := by simp [shape.tnode_eq hk]
  refine ⟨_, if_pos hsome, ?_, rfl, rfl, rfl⟩
  have hmem : ∀ m ∈ (t.updateTnode k.addr (fun n => { n with cblist := p :: n.cblist })).rbtree,
      ∃ n ∈ t.rbtree, m.addr = n.addr ∧ m.ts = n.ts ∧ m.noAutoDel = n.noAutoDel ∧
        (m.cblist = n.cblist ∨ n = k ∧ m.cblist = p :: n.cblist) := by
    intro m hm
    obtain ⟨n, hn, rfl⟩ := List.mem_map.mp hm
    refine ⟨n, hn, ?_⟩
    split
    · rename_i heq
      exact ⟨rfl, rfl, rfl, .inr ⟨shape.node_unique hn hk heq, rfl⟩⟩
    · exact ⟨rfl, rfl, rfl, .inl rfl⟩
  have hkeep : ∀ n ∈ t.rbtree,
      ∃ m ∈ (t.updateTnode k.addr (fun n => { n with cblist := p :: n.cblist })).rbtree,
        m.addr = n.addr ∧ ∀ q ∈ n.cblist, q ∈ m.cblist := by
    intro n hn
    refine ⟨_, List.mem_map_of_mem hn, ?_⟩
    split
    · exact ⟨rfl, fun q hq => List.mem_cons_of_mem p hq⟩
    · exact ⟨rfl, fun q hq => hq⟩
  have hnot : ∀ n ∈ t.rbtree, p ∉ n.cblist := fun n hn h => (shape.linked n hn p h).1 hp
  let link (n : EvdpTimerRbtreeNode) :=
    if n.addr = k.addr then { n with cblist := p :: n.cblist } else n
  have hlink : ∀ n, (link n).addr = n.addr ∧ (link n).ts = n.ts := by
    intro n
    dsimp only [link]
    split <;> exact ⟨rfl, rfl⟩
  refine
    { shape with
      sorted := sorted_map (g := link) (fun n => (hlink n).2) shape.sorted
      addrs := (addrs_map (g := link) (fun n => (hlink n).1) t.rbtree).symm ▸ shape.addrs
      tcache := ?_
      autoDel := ?_
      activeMem := ?_
      cblistNodup := ?_
      linked := ?_
      kept := ?_
      placed := ?_ }
  · intro m hm
    obtain ⟨n, hn, haddr, -⟩ := hmem m hm
    exact haddr ▸ shape.tcache n hn
  · intro m hm
    obtain ⟨n, hn, haddr, -, hauto, -⟩ := hmem m hm
    rw [haddr, hauto]
    exact shape.autoDel n hn
  · intro b hb
    obtain ⟨n, hn, hnb⟩ := shape.activeMem b hb
    obtain ⟨m, hm, haddr, -⟩ := hkeep n hn
    exact ⟨m, hm, haddr.trans hnb⟩
  · intro m hm
    obtain ⟨n, hn, -, -, -, hlist | ⟨-, hlist⟩⟩ := hmem m hm
    · exact hlist ▸ shape.cblistNodup n hn
    · exact hlist ▸ List.nodup_cons.mpr ⟨hnot n hn, shape.cblistNodup n hn⟩
  · intro m hm q hq
    obtain ⟨n, hn, haddr, -, -, hlist⟩ := hmem m hm
    have hold : q ∈ n.cblist → q ∉ loose \ {p} ∧
        ∃ c, t.points q = some c ∧ c.refTnode = some m.addr := by
      intro hq
      obtain ⟨hl, hrest⟩ := shape.linked n hn q hq
      exact ⟨fun h => hl h.1, haddr.symm ▸ hrest⟩
    rcases hlist with hlist | ⟨rfl, hlist⟩
    · exact hold (hlist ▸ hq)
    · rcases List.mem_cons.mp (hlist ▸ hq) with rfl | hq
      · exact ⟨by simp, c, hc, haddr.symm ▸ href⟩
      · exact hold hq
  · intro q hq
    obtain ⟨hl, hrest⟩ := shape.kept q hq
    exact ⟨fun h => hl h.1, hrest⟩
  · intro q d hd hq
    by_cases hqp : q = p
    · obtain rfl := hqp
      obtain rfl := Option.some.inj (hc.symm.trans hd)
      refine ⟨?_, fun hnone => absurd (hnone.symm.trans href) (by simp)⟩
      intro b hb
      obtain rfl := Option.some.inj (href.symm.trans hb)
      exact ⟨_, List.mem_map_of_mem hk, by simp, by simp⟩
    · obtain ⟨htree, hkept⟩ := shape.placed q d hd (fun h => hq ⟨h, hqp⟩)
      refine ⟨?_, hkept⟩
      intro b hb
      obtain ⟨n, hn, hnb, hqn⟩ := htree b hb
      obtain ⟨m, hm, haddr, hsub⟩ := hkeep n hn
      exact ⟨m, hm, haddr.trans hnb, hsub q hqn⟩

theorem Shape.keeplistInsertHead (shape : Shape t active loose) {p : PointAddr}
    {c : EvdpTimerCblistNode} (hp : p ∈ loose) (hc : t.points p = some c)
    (href : c.refTnode = none) :
    Shape { t with keeplist := p :: t.keeplist } active (loose \ {p}) := by
  have hnot : p ∉ t.keeplist := fun h => (shape.kept p h).1 hp
  refine
    { shape with
      keepNodup := List.nodup_cons.mpr ⟨hnot, shape.keepNodup⟩
      linked := ?_
      kept := ?_
      placed := ?_ }
  · intro n hn q hq
    obtain ⟨hl, hrest⟩ := shape.linked n hn q hq
    exact ⟨fun h => hl h.1, hrest⟩
  · intro q hq
    rcases List.mem_cons.mp hq with rfl | hq
    · exact ⟨by simp, c, hc, href⟩
    · obtain ⟨hl, hrest⟩ := shape.kept q hq
      exact ⟨fun h => hl h.1, hrest⟩
  · intro q d hd hq
    by_cases hqp : q = p
    · obtain rfl := hqp
      obtain rfl := Option.some.inj (hc.symm.trans hd)
      exact ⟨fun b hb => absurd (href.symm.trans hb) (by simp), fun _ => List.mem_cons_self⟩
    · obtain ⟨htree, hkept⟩ := shape.placed q d hd (fun h => hq ⟨h, hqp⟩)
      exact ⟨htree, fun hnone => List.mem_cons_of_mem p (hkept hnone)⟩

end Shape

end Nebase.Evdp.Timer
