/- What the timer does on its tree is what it does on the ordered list of the nodes. -/

import Nebase.Evdp.Timer.OnTree
import Nebase.Evdp.Timer.Ops
import Nebase.Compat.Rbtree.Foreach
import Nebase.Foundation.SortedKeys

set_option autoImplicit false
set_option relaxedAutoImplicit false

namespace Nebase.Evdp.Timer.OnTree

open Nebase.Time Nebase.Foundation
open Nebase.Compat.Rbtree (Holds turns toPtr endOf)

/-- The nodes in memory are those of the list, and the tree holds them in its order. -/
structure Mirrors (t : NebEvdpTimer) (h : TreeTimer) : Prop where
  memory : ∃ ns : List EvdpTimerRbtreeNode, h.timer = { t with rbtree := ns } ∧ ns.Perm t.rbtree
  holds : Holds h.rbtree (t.rbtree.map (·.addr))
  sorted : Sorted t.rbtree
  spare : ∀ n ∈ t.rbtree, n.addr ∉ t.tcache.nodes
  spareNodup : t.tcache.nodes.Nodup

theorem Mirrors.addrs {t : NebEvdpTimer} {h : TreeTimer} (mirrors : Mirrors t h) :
    (t.rbtree.map (·.addr)).Nodup := mirrors.holds.nodup

theorem mirrors_create (tcacheSize lcacheSize : Nat) :
    Mirrors (Timer.nebEvdpTimerCreate tcacheSize lcacheSize)
      (nebEvdpTimerCreate tcacheSize lcacheSize) :=
  ⟨⟨[], rfl, List.Perm.refl []⟩, Compat.Rbtree.rb_tree_init_holds _, List.Pairwise.nil,
    fun _ h => absurd h List.not_mem_nil, List.nodup_nil⟩

section Memory

variable {t t' : NebEvdpTimer} {ns ms : List EvdpTimerRbtreeNode} {a : TnodeAddr} {p : PointAddr}

/-- A node is found by its address, whatever the order. -/
theorem find_addr_of_mem {n : EvdpTimerRbtreeNode} (addrs : (ns.map (·.addr)).Nodup) (hn : n ∈ ns) :
    ns.find? (fun m => m.addr = n.addr) = some n := by
  cases found : ns.find? (fun m => m.addr = n.addr) with
  | none =>
    have := List.find?_eq_none.mp found n hn
    simp at this
  | some m =>
    have same : m.addr = n.addr := by simpa using List.find?_some found
    rw [List.inj_on_of_nodup_map addrs (List.mem_of_find?_eq_some found) hn same]

theorem find_addr_perm (perm : ns.Perm ms) (addrs : (ms.map (·.addr)).Nodup) (a : TnodeAddr) :
    ns.find? (fun m => m.addr = a) = ms.find? (fun m => m.addr = a) := by
  cases found : ms.find? (fun m => m.addr = a) with
  | none =>
    rw [List.find?_eq_none] at found ⊢
    exact fun m hm => found m (perm.mem_iff.mp hm)
  | some m =>
    obtain rfl : m.addr = a := by simpa using List.find?_some found
    exact find_addr_of_mem ((perm.map (·.addr)).nodup_iff.mpr addrs)
      (perm.mem_iff.mpr (List.mem_of_find?_eq_some found))

theorem node_of_mem {n : EvdpTimerRbtreeNode} (addrs : (ns.map (·.addr)).Nodup) (hn : n ∈ ns) :
    nodeOf ns n.addr = n := by
  rw [nodeOf, find_addr_of_mem addrs hn]
  rfl

theorem list_remove_memory (perm : ns.Perm t.rbtree) (eval : Timer.listRemove p t = some t') :
    ∃ ms, Timer.listRemove p { t with rbtree := ns } = some { t' with rbtree := ms } ∧
      ms.Perm t'.rbtree ∧ t'.rbtree.map (·.addr) = t.rbtree.map (·.addr) ∧
      t'.rbtree.map (·.ts) = t.rbtree.map (·.ts) ∧ t'.tcache = t.tcache := by
  unfold Timer.listRemove at eval
  split_ifs at eval with linked
  obtain rfl := Option.some.inj eval
  have linked' : ({ t with rbtree := ns } : NebEvdpTimer).linked p = true := by
    rw [NebEvdpTimer.linked, perm.any_eq]
    exact linked
  refine ⟨ns.map (fun n => { n with cblist := n.cblist.erase p }), ?_, perm.map _, ?_, ?_, rfl⟩
  · rw [Timer.listRemove, if_pos linked']
  · rw [List.map_map]
    rfl
  · rw [List.map_map]
    rfl

theorem update_tnode_map {f : EvdpTimerRbtreeNode → EvdpTimerRbtreeNode}
    (addr : ∀ n, (f n).addr = n.addr) (ts : ∀ n, (f n).ts = n.ts) :
    (t.updateTnode a f).rbtree.map (·.addr) = t.rbtree.map (·.addr) ∧
      (t.updateTnode a f).rbtree.map (·.ts) = t.rbtree.map (·.ts) := by
  constructor
  · rw [NebEvdpTimer.updateTnode, List.map_map]
    exact List.map_congr_left (fun n _ => by simp only [Function.comp]; split_ifs <;> simp [addr])
  · rw [NebEvdpTimer.updateTnode, List.map_map]
    exact List.map_congr_left (fun n _ => by simp only [Function.comp]; split_ifs <;> simp [ts])

theorem cblist_insert_head_memory (perm : ns.Perm t.rbtree)
    (addrs : (t.rbtree.map (·.addr)).Nodup)
    (eval : Timer.cblistInsertHead a p t = some t') :
    ∃ ms, Timer.cblistInsertHead a p { t with rbtree := ns } = some { t' with rbtree := ms } ∧
      ms.Perm t'.rbtree ∧ t'.rbtree.map (·.addr) = t.rbtree.map (·.addr) ∧
      t'.rbtree.map (·.ts) = t.rbtree.map (·.ts) ∧ t'.tcache = t.tcache := by
  unfold Timer.cblistInsertHead at eval
  split_ifs at eval with found
  obtain rfl := Option.some.inj eval
  have found' : (({ t with rbtree := ns } : NebEvdpTimer).tnode a).isSome = true := by
    rw [NebEvdpTimer.tnode, find_addr_perm perm addrs]
    exact found
  obtain ⟨haddr, hts⟩ := update_tnode_map (t := t) (a := a)
    (f := fun n => { n with cblist := p :: n.cblist }) (fun _ => rfl) (fun _ => rfl)
  refine ⟨_, ?_, perm.map _, haddr, hts, rfl⟩
  rw [Timer.cblistInsertHead, if_pos found']
  rfl

theorem rbtree_node_del_memory (t : NebEvdpTimer) (ns : List EvdpTimerRbtreeNode)
    {n : EvdpTimerRbtreeNode} (empty : n.cblist = []) :
    Timer.evdpTimerRbtreeNodeDel n { t with rbtree := ns } =
      { Timer.evdpTimerRbtreeNodeDel n t with rbtree := ns } ∧
    (Timer.evdpTimerRbtreeNodeDel n t).rbtree = t.rbtree ∧
    (∀ a, a ∈ (Timer.evdpTimerRbtreeNodeDel n t).tcache.nodes → a = n.addr ∨ a ∈ t.tcache.nodes) ∧
    (n.addr ∉ t.tcache.nodes → t.tcache.nodes.Nodup →
      (Timer.evdpTimerRbtreeNodeDel n t).tcache.nodes.Nodup) := by
  unfold Timer.evdpTimerRbtreeNodeDel
  simp only [empty, List.foldl_nil]
  split_ifs with room
  · exact ⟨rfl, rfl, fun a ha => List.mem_cons.mp ha,
      fun out nodup => List.nodup_cons.mpr ⟨out, nodup⟩⟩
  · exact ⟨rfl, rfl, fun a ha => .inr ha, fun _ nodup => nodup⟩

theorem sorted_of_map_ts (sorted : Sorted t.rbtree)
    (same : t'.rbtree.map (·.ts) = t.rbtree.map (·.ts)) : Sorted t'.rbtree := by
  have h : (t'.rbtree.map (·.ts)).Pairwise (· < ·) := by
    rw [same]
    exact List.pairwise_map.mpr sorted
  exact List.pairwise_map.mp h

end Memory

section Frames

variable {t t' : NebEvdpTimer} {h : TreeTimer} {p : PointAddr} {a : TnodeAddr}

/-- The nodes keep their addresses and deadlines. -/
theorem Mirrors.relabel (mirrors : Mirrors t h) {ms : List EvdpTimerRbtreeNode}
    (perm : ms.Perm t'.rbtree) (addr : t'.rbtree.map (·.addr) = t.rbtree.map (·.addr))
    (ts : t'.rbtree.map (·.ts) = t.rbtree.map (·.ts)) (tcache : t'.tcache = t.tcache) :
    Mirrors t' ⟨{ t' with rbtree := ms }, h.rbtree⟩ := by
  refine ⟨⟨ms, rfl, perm⟩, ?_, sorted_of_map_ts mirrors.sorted ts, ?_, ?_⟩
  · rw [addr]
    exact mirrors.holds
  · intro n hn
    have mem : n.addr ∈ t.rbtree.map (·.addr) := addr ▸ List.mem_map_of_mem hn
    obtain ⟨m, hm, same⟩ := List.mem_map.mp mem
    rw [tcache, ← same]
    exact mirrors.spare m hm
  · rw [tcache]
    exact mirrors.spareNodup

/-- What does not touch the nodes. -/
theorem Mirrors.frame (mirrors : Mirrors t h) (f : NebEvdpTimer → NebEvdpTimer)
    (alike : ∀ ns, f { t with rbtree := ns } = { f t with rbtree := ns })
    (tree : (f t).rbtree = t.rbtree) (tcache : (f t).tcache = t.tcache) :
    Mirrors (f t) ⟨f h.timer, h.rbtree⟩ := by
  obtain ⟨ns, hmem, perm⟩ := mirrors.memory
  rw [hmem, alike ns]
  exact mirrors.relabel (by rwa [tree]) (by rw [tree]) (by rw [tree]) tcache

theorem Mirrors.setPoint (mirrors : Mirrors t h) (p : PointAddr) (c : EvdpTimerCblistNode) :
    Mirrors (t.setPoint p c) ⟨h.timer.setPoint p c, h.rbtree⟩ :=
  mirrors.frame (fun t => t.setPoint p c) (fun _ => rfl) rfl rfl

theorem Mirrors.cblistNodeFree (mirrors : Mirrors t h) (p : PointAddr) :
    Mirrors (evdpTimerCblistNodeFree p t) ⟨evdpTimerCblistNodeFree p h.timer, h.rbtree⟩ :=
  mirrors.frame (evdpTimerCblistNodeFree p) (fun _ => rfl) rfl rfl

theorem Mirrors.keep (mirrors : Mirrors t h) (p : PointAddr) :
    Mirrors { t with keeplist := p :: t.keeplist }
      ⟨{ h.timer with keeplist := p :: h.timer.keeplist }, h.rbtree⟩ :=
  mirrors.frame (fun t => { t with keeplist := p :: t.keeplist }) (fun _ => rfl) rfl rfl

theorem Mirrors.points (mirrors : Mirrors t h) : h.timer.points = t.points := by
  obtain ⟨ns, hmem, -⟩ := mirrors.memory
  rw [hmem]

theorem Mirrors.tnode (mirrors : Mirrors t h) (a : TnodeAddr) : h.timer.tnode a = t.tnode a := by
  obtain ⟨ns, hmem, perm⟩ := mirrors.memory
  rw [hmem, NebEvdpTimer.tnode, find_addr_perm perm mirrors.addrs]
  rfl

theorem Mirrors.tcache (mirrors : Mirrors t h) : h.timer.tcache = t.tcache := by
  obtain ⟨ns, hmem, -⟩ := mirrors.memory
  rw [hmem]

theorem Mirrors.fresh (mirrors : Mirrors t h) (tnode : Option TnodeAddr)
    (lnode : Option PointAddr) :
    h.timer.tnodeFresh tnode = t.tnodeFresh tnode ∧
      h.timer.lnodeFresh lnode = t.lnodeFresh lnode := by
  constructor
  · simp only [NebEvdpTimer.tnodeFresh, mirrors.tcache, mirrors.tnode]
  · obtain ⟨ns, hmem, -⟩ := mirrors.memory
    rw [hmem]
    rfl

theorem Mirrors.listRemove (mirrors : Mirrors t h) (eval : Timer.listRemove p t = some t') :
    ∃ timer', Timer.listRemove p h.timer = some timer' ∧ Mirrors t' ⟨timer', h.rbtree⟩ := by
  obtain ⟨ns, hmem, perm⟩ := mirrors.memory
  obtain ⟨ms, eval', perm', addr, ts, tcache⟩ := list_remove_memory perm eval
  exact ⟨_, by rw [hmem, eval'], mirrors.relabel perm' addr ts tcache⟩

theorem Mirrors.cblistInsertHead (mirrors : Mirrors t h)
    (eval : Timer.cblistInsertHead a p t = some t') :
    ∃ timer', Timer.cblistInsertHead a p h.timer = some timer' ∧
      Mirrors t' ⟨timer', h.rbtree⟩ := by
  obtain ⟨ns, hmem, perm⟩ := mirrors.memory
  obtain ⟨ms, eval', perm', addr, ts, tcache⟩ := cblist_insert_head_memory perm mirrors.addrs eval
  exact ⟨_, by rw [hmem, eval'], mirrors.relabel perm' addr ts tcache⟩

theorem Mirrors.setAutoDel (mirrors : Mirrors t h) (a : TnodeAddr) (b : Bool) :
    Mirrors (t.updateTnode a (fun n => { n with noAutoDel := b }))
      ⟨h.timer.updateTnode a (fun n => { n with noAutoDel := b }), h.rbtree⟩ := by
  obtain ⟨ns, hmem, perm⟩ := mirrors.memory
  obtain ⟨haddr, hts⟩ := update_tnode_map (t := t) (a := a)
    (f := fun n => { n with noAutoDel := b }) (fun _ => rfl) (fun _ => rfl)
  rw [hmem]
  exact mirrors.relabel (perm.map _) haddr hts rfl

theorem Mirrors.cblistNodeNew (mirrors : Mirrors t h) (cb udata : Nat)
    (lnode : Option PointAddr) :
    (evdpTimerCblistNodeNew cb udata lnode t = none →
      evdpTimerCblistNodeNew cb udata lnode h.timer = none) ∧
    ∀ ln t', evdpTimerCblistNodeNew cb udata lnode t = some (ln, t') →
      ∃ timer', evdpTimerCblistNodeNew cb udata lnode h.timer = some (ln, timer') ∧
        Mirrors t' ⟨timer', h.rbtree⟩ := by
  obtain ⟨ns, hmem, perm⟩ := mirrors.memory
  rw [hmem]
  unfold evdpTimerCblistNodeNew
  cases hnodes : t.lcache.nodes with
  | cons n nodes =>
    refine ⟨by simp, ?_⟩
    intro ln t' eval
    obtain ⟨rfl, rfl⟩ := Prod.mk.inj (Option.some.inj eval)
    exact ⟨_, rfl, mirrors.relabel perm rfl rfl rfl⟩
  | nil =>
    cases lnode with
    | none => exact ⟨fun _ => rfl, fun ln t' eval => by cases eval⟩
    | some n =>
      refine ⟨by simp, ?_⟩
      intro ln t' eval
      obtain ⟨rfl, rfl⟩ := Prod.mk.inj (Option.some.inj eval)
      exact ⟨_, rfl, mirrors.relabel perm rfl rfl rfl⟩

end Frames

section Nodes

variable {t t' : NebEvdpTimer} {h : TreeTimer} {ns : List EvdpTimerRbtreeNode}
  {calloc : Option TnodeAddr} {fuel : Nat}

theorem cmp_node_signs (e p : EvdpTimerRbtreeNode) :
    (evdpTimerRbtreeCmpNode e p < 0 ↔ e.ts < p.ts) ∧
      (0 < evdpTimerRbtreeCmpNode e p ↔ p.ts < e.ts) ∧
      (evdpTimerRbtreeCmpNode e p = 0 ↔ e.ts = p.ts) := by
  rw [Timespec.lt_iff, Timespec.lt_iff, Timespec.ext_iff]
  unfold evdpTimerRbtreeCmpNode
  refine ⟨?_, ?_, ?_⟩
  · split_ifs <;> omega
  · split_ifs <;> omega
  · split_ifs <;> simp_all
    omega

/-- A new node comes from the cache or from `calloc`; it is neither in the tree nor left in the
cache. -/
theorem rbtree_node_new_memory (absTs : Timespec) (mirrors : Mirrors t h)
    (fresh : t.tnodeFresh calloc = true) (hmem : h.timer = { t with rbtree := ns }) :
    (evdpTimerRbtreeNodeNew absTs calloc t = none ∧
      evdpTimerRbtreeNodeNew absTs calloc h.timer = none) ∨
    ∃ n t1, evdpTimerRbtreeNodeNew absTs calloc t = some (n, t1) ∧
      evdpTimerRbtreeNodeNew absTs calloc h.timer = some (n, { t1 with rbtree := ns }) ∧
      n.cblist = [] ∧ t1.rbtree = t.rbtree ∧ (n.addr :: t1.tcache.nodes).Nodup ∧
      ∀ m ∈ t.rbtree, m.addr ∉ n.addr :: t1.tcache.nodes := by
  rw [hmem]
  unfold evdpTimerRbtreeNodeNew
  cases hnodes : t.tcache.nodes with
  | cons a nodes =>
    refine .inr ⟨⟨a, absTs, [], false⟩, _, rfl, rfl, rfl, rfl, ?_, ?_⟩
    · exact hnodes ▸ mirrors.spareNodup
    · intro m hm
      exact hnodes ▸ mirrors.spare m hm
  | nil =>
    cases calloc with
    | none => exact .inl ⟨rfl, rfl⟩
    | some a =>
      refine .inr ⟨⟨a, absTs, [], false⟩, _, rfl, rfl, rfl, rfl, by simp [hnodes], ?_⟩
      intro m hm heq
      obtain rfl : m.addr = a := by simpa [hnodes] using heq
      have hnone : t.tnode m.addr = none := by
        simpa [NebEvdpTimer.tnodeFresh, hnodes] using fresh
      rw [NebEvdpTimer.tnode, find_addr_of_mem mirrors.addrs hm] at hnone
      cases hnone

/-- A node that is out of the tree is put back or freed. -/
theorem Mirrors.rbtreeNodeDel (mirrors : Mirrors t h) {n : EvdpTimerRbtreeNode}
    (empty : n.cblist = []) (out : n.addr ∉ t.rbtree.map (·.addr))
    (uncached : n.addr ∉ t.tcache.nodes) :
    Mirrors (Timer.evdpTimerRbtreeNodeDel n t) (evdpTimerRbtreeNodeDel n h) := by
  obtain ⟨ns, hmem, perm⟩ := mirrors.memory
  obtain ⟨alike, tree, cached, nodup⟩ := rbtree_node_del_memory t ns empty
  refine ⟨⟨ns, ?_, by rwa [tree]⟩, ?_, by rw [tree]; exact mirrors.sorted, ?_,
    nodup uncached mirrors.spareNodup⟩
  · exact (congrArg _ hmem).trans alike
  · rw [tree]
    unfold evdpTimerRbtreeNodeDel
    dsimp only
    split_ifs
    · exact mirrors.holds
    · refine mirrors.holds.congr rfl rfl (fun a ha => Function.update_of_ne ?_ ..)
      rintro rfl
      exact out ha
  · intro m hm hcached
    rw [tree] at hm
    rcases cached _ hcached with same | hcached
    · exact out (same ▸ List.mem_map_of_mem hm)
    · exact mirrors.spare m hm hcached

/-- The node goes to the same place in the tree and in the list, or both have one already. -/
theorem Mirrors.insertTnode (mirrors : Mirrors t h) (absTs : Timespec)
    (fresh : t.tnodeFresh calloc = true)
    (enough : turns t.rbtree.length ≤ fuel) :
    (Timer.evdpTimerInsertTnode absTs calloc t = none ∧
      evdpTimerInsertTnode fuel absTs calloc h = some none) ∨
    ∃ tn existed t' h', Timer.evdpTimerInsertTnode absTs calloc t = some (tn, existed, t') ∧
      evdpTimerInsertTnode fuel absTs calloc h = some (some (tn, existed, h')) ∧
      Mirrors t' h' ∧ t'.rbtree.length ≤ t.rbtree.length + 1 := by
  obtain ⟨ns, hmem, perm⟩ := mirrors.memory
  rcases rbtree_node_new_memory absTs mirrors fresh hmem with
    ⟨eval, eval'⟩ | ⟨n, t1, eval, eval', empty, tree, nodup, apart⟩
  · exact .inl ⟨by rw [Timer.evdpTimerInsertTnode, eval]; rfl, by rw [evdpTimerInsertTnode, eval']⟩
  right
  have out : n.addr ∉ t.rbtree.map (·.addr) := by
    intro hout
    obtain ⟨m, hm, same⟩ := List.mem_map.mp hout
    exact apart m hm (same ▸ List.mem_cons_self)
  -- the comparisons read the nodes from memory
  have addrs' : ((n :: ns).map (·.addr)).Nodup := by
    rw [List.map_cons, List.nodup_cons]
    exact ⟨fun hout => out ((perm.map _).mem_iff.mp hout), (perm.map _).nodup_iff.mpr mirrors.addrs⟩
  have read : ∀ m ∈ t.rbtree, nodeOf (n :: ns) m.addr = m := fun m hm =>
    node_of_mem addrs' (List.mem_cons_of_mem n (perm.mem_iff.mpr hm))
  have readN : nodeOf (n :: ns) n.addr = n := node_of_mem addrs' List.mem_cons_self
  have compare : ∀ m ∈ t.rbtree, (evdpTimerRbtreeOps (n :: ns)).compareNodes m.addr n.addr =
      evdpTimerRbtreeCmpNode m n := fun m hm => by
    change evdpTimerRbtreeCmpNode (nodeOf (n :: ns) m.addr) (nodeOf (n :: ns) n.addr) = _
    rw [read m hm, readN]
  have graded : RedBlack.Graded
      (fun b => (evdpTimerRbtreeOps (n :: ns)).compareNodes b n.addr) (t.rbtree.map (·.addr)) := by
    rw [RedBlack.Graded, List.pairwise_map]
    refine List.Pairwise.imp_of_mem (fun {l m} hl hm less h0 => ?_) mirrors.sorted
    rw [compare l hl] at h0
    rw [compare m hm, (cmp_node_signs m n).2.1]
    refine lt_of_le_of_lt (not_lt.mp (fun hlt => ?_)) less
    have := (cmp_node_signs l n).1.mpr hlt
    omega
  obtain ⟨tree0, htree0⟩ : ∃ tree0, tree0 = h.rbtree.store n.addr
      ⟨.null, .null, .null, .left, .black⟩ := ⟨_, rfl⟩
  have holds0 : Holds tree0 (t.rbtree.map (·.addr)) := by
    rw [htree0]
    refine mirrors.holds.congr rfl rfl (fun a ha => Compat.Rbtree.store_nodes_of_ne _ _ ?_)
    rintro rfl
    exact out ha
  have alloc0 : (tree0.nodes n.addr).isSome = true := by
    rw [htree0, Compat.Rbtree.store_nodes_self]
    rfl
  have mirrors0 : Mirrors t1 ⟨{ t1 with rbtree := ns }, tree0⟩ := by
    refine ⟨⟨ns, rfl, by rwa [tree]⟩, by rwa [tree], by rw [tree]; exact mirrors.sorted, ?_,
      (List.nodup_cons.mp nodup).2⟩
    intro m hm hcached
    rw [tree] at hm
    exact apart m hm (List.mem_cons_of_mem _ hcached)
  have uncached : n.addr ∉ t1.tcache.nodes := (List.nodup_cons.mp nodup).1
  have enough' : turns (t.rbtree.map (·.addr)).length ≤ fuel := by rwa [List.length_map]
  have sorted : SortedKeys.Sorted EvdpTimerRbtreeNode.ts t.rbtree := mirrors.sorted
  rcases Compat.Rbtree.rb_tree_insert_node_spec _ holds0 graded alloc0 out enough' with
    ⟨b, hb, same, evalTree⟩ | ⟨ys, zs, tree1, split, less, greater, evalTree, holds1, -⟩
  · obtain ⟨m, hm, rfl⟩ := List.mem_map.mp hb
    rw [compare m hm, (cmp_node_signs m n).2.2] at same
    have hne : m.addr ≠ n.addr := fun heq => out (heq ▸ hb)
    have evalList : rbTreeInsertNode n t1.rbtree = (t1.rbtree, m.addr) := by
      rw [tree]
      rcases rb_tree_insert_node_cases n mirrors.sorted with ⟨k, hk, hts, hins⟩ | ⟨-, hnew, -⟩
      · rw [hins, sorted.injective hk hm (hts.trans same.symm)]
      · exact absurd same (hnew m hm)
    refine ⟨m.addr, true, Timer.evdpTimerRbtreeNodeDel n t1,
      evdpTimerRbtreeNodeDel n ⟨{ t1 with rbtree := ns }, tree0⟩, ?_, ?_, ?_, ?_⟩
    · simp only [Timer.evdpTimerInsertTnode, eval, evalList, Option.bind_eq_bind, Option.bind_some,
        if_pos hne]
    · simp only [evdpTimerInsertTnode, eval', ← htree0, evalTree, Option.bind_eq_bind,
        Option.bind_some, if_pos hne]
    · exact mirrors0.rbtreeNodeDel empty (by rwa [tree]) uncached
    · rw [(rbtree_node_del_memory t1 ns empty).2.1, tree]
      omega
  · obtain ⟨ls, rs, htree, rfl, rfl⟩ := List.map_eq_append_iff.mp split
    have memL : ∀ m ∈ ls, m ∈ t.rbtree := fun m hm => htree ▸ List.mem_append_left _ hm
    have memR : ∀ m ∈ rs, m ∈ t.rbtree := fun m hm => htree ▸ List.mem_append_right _ hm
    have below : ∀ m ∈ ls, m.ts < n.ts := fun m hm => by
      rw [← (cmp_node_signs m n).1, ← compare m (memL m hm)]
      exact less _ (List.mem_map_of_mem hm)
    have above : ∀ m ∈ rs, n.ts < m.ts := fun m hm => by
      rw [← (cmp_node_signs m n).2.1, ← compare m (memR m hm)]
      exact greater _ (List.mem_map_of_mem hm)
    have sorted1 : SortedKeys.Sorted EvdpTimerRbtreeNode.ts (ls ++ n :: rs) :=
      SortedKeys.Sorted.insert (htree ▸ sorted) below above
    have evalList : rbTreeInsertNode n t1.rbtree = (ls ++ n :: rs, n.addr) := by
      rw [tree]
      rcases rb_tree_insert_node_cases n mirrors.sorted with ⟨m, hm, hts, -⟩ |
        ⟨haddr, -, hperm, hsorted⟩
      · rw [htree, List.mem_append] at hm
        rcases hm with hm | hm
        · exact absurd hts (ne_of_lt (below m hm))
        · exact absurd hts.symm (ne_of_lt (above m hm))
      · have same : (rbTreeInsertNode n t.rbtree).1 = ls ++ n :: rs := by
          refine List.Perm.eq_of_pairwise ?_ hsorted sorted1 (hperm.trans ?_)
          · intro l m _ _ hlm hml
            exact absurd (lt_trans hlm hml) (lt_irrefl _)
          · rw [htree]
            exact List.perm_middle.symm
        rw [← same, ← haddr]
    refine ⟨n.addr, false, { t1 with rbtree := ls ++ n :: rs },
      ⟨{ t1 with rbtree := n :: ns }, tree1⟩, ?_, ?_, ⟨⟨n :: ns, rfl, ?_⟩, ?_, sorted1, ?_, ?_⟩, ?_⟩
    · simp only [Timer.evdpTimerInsertTnode, eval, evalList, Option.bind_eq_bind, Option.bind_some,
        ne_eq, not_true, if_false]
    · simp only [evdpTimerInsertTnode, eval', ← htree0, evalTree, Option.bind_eq_bind,
        Option.bind_some, ne_eq, not_true, if_false]
    · refine (perm.cons n).trans ?_
      rw [htree]
      exact List.perm_middle.symm
    · rw [List.map_append, List.map_cons]
      exact holds1
    · intro m hm
      rcases List.mem_append.mp hm with hm | hm
      · exact fun hc => apart m (memL m hm) (List.mem_cons_of_mem _ hc)
      · rcases List.mem_cons.mp hm with rfl | hm
        · exact uncached
        · exact fun hc => apart m (memR m hm) (List.mem_cons_of_mem _ hc)
    · exact (List.nodup_cons.mp nodup).2
    · rw [htree]
      simp only [List.length_append, List.length_cons]
      omega

/-- A node leaves the tree and the list. -/
theorem Mirrors.remove (mirrors : Mirrors t h) {n : EvdpTimerRbtreeNode} (hn : n ∈ t.rbtree)
    (enough : turns t.rbtree.length ≤ fuel) :
    ∃ rbtree, Compat.Rbtree.rbTreeRemoveNode fuel h.rbtree n.addr = some rbtree ∧
      Mirrors { t with rbtree := rbTreeRemoveNode n.addr t.rbtree }
        ⟨{ h.timer with rbtree := rbTreeRemoveNode n.addr h.timer.rbtree }, rbtree⟩ ∧
      n.addr ∉ (rbTreeRemoveNode n.addr t.rbtree).map (·.addr) ∧
      (rbTreeRemoveNode n.addr t.rbtree).length < t.rbtree.length := by
  obtain ⟨ns, hmem, perm⟩ := mirrors.memory
  obtain ⟨ls, rs, htree⟩ := List.append_of_mem hn
  have holds := mirrors.holds
  have addrs := mirrors.addrs
  rw [htree, List.map_append, List.map_cons] at holds addrs
  have gone : ∀ m ∈ ls ++ rs, m.addr ≠ n.addr := by
    intro m hm heq
    rw [List.nodup_middle, List.nodup_cons, ← List.map_append] at addrs
    exact addrs.1 (heq ▸ List.mem_map_of_mem hm)
  have remove : rbTreeRemoveNode n.addr t.rbtree = ls ++ rs := by
    rw [rbTreeRemoveNode, htree, List.filter_append, List.filter_cons_of_neg (by simp),
      ← List.filter_append, List.filter_eq_self]
    exact fun m hm => decide_eq_true (gone m hm)
  have sorted : SortedKeys.Sorted EvdpTimerRbtreeNode.ts (ls ++ n :: rs) := htree ▸ mirrors.sorted
  have mem : ∀ m ∈ ls ++ rs, m ∈ t.rbtree := fun m hm => by
    rw [htree]
    simp only [List.mem_append, List.mem_cons] at hm ⊢
    tauto
  obtain ⟨rbtree, eval, holds', -, -⟩ := Compat.Rbtree.rb_tree_remove_node_spec holds (by
    rw [← List.map_cons, ← List.map_append, ← htree, List.length_map]
    exact enough : turns _ ≤ fuel)
  refine ⟨rbtree, eval, ⟨⟨rbTreeRemoveNode n.addr ns, ?_, ?_⟩, ?_, ?_, ?_, ?_⟩, ?_, ?_⟩
  · simp only [hmem]
  · exact perm.filter _
  · rw [remove, List.map_append]
    exact holds'
  · rw [remove]
    exact sorted.remove
  · rw [remove]
    exact fun m hm => mirrors.spare m (mem m hm)
  · exact mirrors.spareNodup
  · rw [remove]
    intro hout
    obtain ⟨m, hm, same⟩ := List.mem_map.mp hout
    exact gone m hm same
  · rw [remove, htree]
    simp

theorem tnode_mem_addr {a : TnodeAddr} {n : EvdpTimerRbtreeNode} (found : t.tnode a = some n) :
    n ∈ t.rbtree ∧ n.addr = a :=
  ⟨List.mem_of_find?_eq_some found, by simpa using List.find?_some found⟩

theorem Mirrors.checkDel (mirrors : Mirrors t h) {a : TnodeAddr}
    (eval : Timer.evdpTimerRbtreeNodeCheckDel a t = some t')
    (enough : turns t.rbtree.length ≤ fuel) :
    ∃ h', evdpTimerRbtreeNodeCheckDel fuel a h = some h' ∧ Mirrors t' h' := by
  unfold Timer.evdpTimerRbtreeNodeCheckDel at eval
  obtain ⟨n, found, eval⟩ := Option.bind_eq_some_iff.mp eval
  have found' := (mirrors.tnode a).trans found
  obtain ⟨hn, rfl⟩ := tnode_mem_addr found
  simp only [evdpTimerRbtreeNodeCheckDel, found', Option.bind_eq_bind, Option.bind_some]
  split_ifs at eval ⊢ with auto empty
  · obtain rfl := Option.some.inj eval
    exact ⟨h, rfl, mirrors⟩
  · obtain rfl := Option.some.inj eval
    obtain ⟨rbtree, remove, mirrors', out, -⟩ := mirrors.remove hn enough
    refine ⟨_, by rw [remove]; rfl, mirrors'.rbtreeNodeDel empty out (mirrors.spare n hn)⟩
  · obtain rfl := Option.some.inj eval
    exact ⟨h, rfl, mirrors⟩

/-- `RB_TREE_MIN` and `RB_TREE_NEXT`. -/
theorem Mirrors.min (mirrors : Mirrors t h) (fuel : Nat) :
    ∃ p, Compat.Rbtree.rbTreeIterate fuel h.rbtree .null .left = some p ∧
      tnodePtr p = rbTreeMin t.rbtree := by
  refine ⟨_, Compat.Rbtree.rb_tree_iterate_null mirrors.holds fuel .left, ?_⟩
  cases t.rbtree with
  | nil => rfl
  | cons n ns => rfl

theorem rb_tree_next_append {ls rs : List EvdpTimerRbtreeNode} {n : EvdpTimerRbtreeNode}
    (apart : ∀ m ∈ ls, m.addr ≠ n.addr) :
    rbTreeNext n.addr (ls ++ n :: rs) = rbTreeMin rs := by
  induction ls with
  | nil => exact if_pos rfl
  | cons m ls ih =>
    rw [List.cons_append, rbTreeNext, if_neg (apart m List.mem_cons_self)]
    exact ih (fun k hk => apart k (List.mem_cons_of_mem m hk))

theorem Mirrors.next (mirrors : Mirrors t h) {n : EvdpTimerRbtreeNode} (hn : n ∈ t.rbtree)
    (enough : turns t.rbtree.length ≤ fuel) :
    ∃ p, Compat.Rbtree.rbTreeIterate fuel h.rbtree (.node n.addr) .right = some p ∧
      tnodePtr p = rbTreeNext n.addr t.rbtree := by
  obtain ⟨ls, rs, htree⟩ := List.append_of_mem hn
  have holds := mirrors.holds
  have addrs := mirrors.addrs
  rw [htree, List.map_append, List.map_cons] at holds addrs
  have apart : ∀ m ∈ ls, m.addr ≠ n.addr := by
    intro m hm heq
    rw [List.nodup_append] at addrs
    exact addrs.2.2 _ (List.mem_map_of_mem hm) _ List.mem_cons_self heq
  obtain ⟨next, -⟩ := Compat.Rbtree.rb_tree_iterate_spec holds (by
    rw [← List.map_cons, ← List.map_append, ← htree, List.length_map]
    exact enough : turns _ ≤ fuel)
  refine ⟨_, next, ?_⟩
  rw [htree, rb_tree_next_append apart]
  cases rs with
  | nil => rfl
  | cons m rs => rfl

end Nodes

end Nebase.Evdp.Timer.OnTree
