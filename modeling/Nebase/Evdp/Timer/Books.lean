/- The books of a timer: each node that was allocated is in one place, and what the functions of
   the timer move from place to place. -/

import Nebase.Evdp.Timer.Shape
import Mathlib.Data.List.Perm.Basic

set_option autoImplicit false
set_option relaxedAutoImplicit false

namespace Nebase.Evdp.Timer

open Nebase.Time

/-- Every block that was allocated is freed or in exactly one of the places. -/
structure Ledger.Balanced (l : Ledger) (places : List Nat) : Prop where
  once : places.Nodup
  accounts : l.calloced.Perm (l.freed ++ places)

section Balanced

variable {l : Ledger} {places places' : List Nat} {a : Nat}

theorem Ledger.Balanced.move (balanced : l.Balanced places)
    (moved : ∀ a, places.count a = places'.count a) : l.Balanced places' := by
  have hperm : places.Perm places' := List.perm_iff_count.mpr moved
  exact ⟨hperm.nodup_iff.mp balanced.once, balanced.accounts.trans (hperm.append_left _)⟩

theorem Ledger.Balanced.calloc (balanced : l.Balanced places) (fresh : a ∉ places) :
    (l.calloc a).Balanced (a :: places) where
  once := List.nodup_cons.mpr ⟨fresh, balanced.once⟩
  accounts := (balanced.accounts.cons a).trans List.perm_middle.symm

theorem Ledger.Balanced.free (balanced : l.Balanced (a :: places)) :
    (l.free a).Balanced places where
  once := (List.nodup_cons.mp balanced.once).2
  accounts := balanced.accounts.trans List.perm_middle

end Balanced

/-- The points in the lists of the tree. -/
def NebEvdpTimer.cblists (t : NebEvdpTimer) : List PointAddr :=
  t.rbtree.flatMap (·.cblist)

/-- The places of the tree nodes; `hand` are those a function holds. -/
def NebEvdpTimer.tnodePlaces (t : NebEvdpTimer) (hand : List TnodeAddr) : List TnodeAddr :=
  hand ++ (t.rbtree.map (·.addr) ++ t.tcache.nodes)

/-- The places of the points; `hand` are those on no list, as the running one is. -/
def NebEvdpTimer.lnodePlaces (t : NebEvdpTimer) (hand : List PointAddr) : List PointAddr :=
  hand ++ (t.cblists ++ (t.keeplist ++ t.lcache.nodes))

structure Books (t : NebEvdpTimer) (thand : List TnodeAddr) (lhand : List PointAddr) : Prop where
  tnodes : t.tledger.Balanced (t.tnodePlaces thand)
  lnodes : t.lledger.Balanced (t.lnodePlaces lhand)
  alive : ∀ p ∈ lhand ++ (t.cblists ++ t.keeplist), t.points p ≠ none
  tcached : t.tcache.nodes.length ≤ t.tcache.size
  lcached : t.lcache.nodes.length ≤ t.lcache.size

theorem Books.create (tcacheSize lcacheSize : Nat) :
    Books (nebEvdpTimerCreate tcacheSize lcacheSize) [] [] where
  tnodes := ⟨.nil, .nil⟩
  lnodes := ⟨.nil, .nil⟩
  alive := by simp [nebEvdpTimerCreate, NebEvdpTimer.cblists]
  tcached := Nat.zero_le _
  lcached := Nat.zero_le _

section Books

variable {t t' : NebEvdpTimer} {thand : List TnodeAddr} {lhand : List PointAddr}

theorem Books.addrs_nodup (books : Books t thand lhand) : (t.rbtree.map (·.addr)).Nodup :=
  (List.nodup_append.mp (List.nodup_append.mp books.tnodes.once).2.1).1

theorem Books.setPoint (books : Books t thand lhand) (p : PointAddr) (c : EvdpTimerCblistNode) :
    Books (t.setPoint p c) thand lhand :=
  { books with
    alive := by
      intro q hq
      have hold := books.alive q hq
      change Function.update t.points p (some c) q ≠ none
      by_cases hqp : q = p
      · simp [hqp]
      · rwa [Function.update_of_ne hqp] }

/-- A change of the nodes that keeps their addresses and lists. -/
theorem Books.mapTree (books : Books t thand lhand)
    {g : EvdpTimerRbtreeNode → EvdpTimerRbtreeNode} (addr : ∀ n, (g n).addr = n.addr)
    (cblist : ∀ n, (g n).cblist = n.cblist) :
    Books { t with rbtree := t.rbtree.map g } thand lhand := by
  have hlists : ({ t with rbtree := t.rbtree.map g } : NebEvdpTimer).cblists = t.cblists := by
    simp [NebEvdpTimer.cblists, List.flatMap_map, cblist]
  refine { books with tnodes := ?_, lnodes := ?_, alive := ?_ }
  · have haddrs : (t.rbtree.map g).map (·.addr) = t.rbtree.map (·.addr) := by simp [addr]
    simpa only [NebEvdpTimer.tnodePlaces, haddrs] using books.tnodes
  · simpa only [NebEvdpTimer.lnodePlaces, hlists] using books.lnodes
  · simpa only [hlists] using books.alive

/-! The caches and the heap. -/

theorem Books.cblistNodeNew (books : Books t thand lhand) {cb udata : Nat}
    {calloc : Option PointAddr} (fresh : t.lnodeFresh calloc = true) {p : PointAddr}
    (h : evdpTimerCblistNodeNew cb udata calloc t = some (p, t')) :
    Books t' thand (p :: lhand) ∧ t'.rbtree = t.rbtree := by
  have hpoint : ∀ {t1 : NebEvdpTimer} {q : PointAddr},
      t1.tledger.Balanced (t1.tnodePlaces thand) →
      t1.lledger.Balanced (t1.lnodePlaces (q :: lhand)) →
      (∀ r ∈ lhand ++ (t1.cblists ++ t1.keeplist), t1.points r ≠ none) →
      t1.tcache.nodes.length ≤ t1.tcache.size → t1.lcache.nodes.length ≤ t1.lcache.size →
      Books (t1.setPoint q ⟨cb, udata, false, none⟩) thand (q :: lhand) := by
    intro t1 q ht hl halive htc hlc
    refine ⟨ht, hl, ?_, htc, hlc⟩
    intro r hr
    change Function.update t1.points q _ r ≠ none
    by_cases hrq : r = q
    · simp [hrq]
    · rw [Function.update_of_ne hrq]
      exact halive r ((List.mem_cons.mp hr).resolve_left hrq)
  unfold evdpTimerCblistNodeNew at h
  cases hnodes : t.lcache.nodes with
  | cons q nodes =>
    rw [hnodes] at h
    obtain ⟨rfl, rfl⟩ : q = p ∧ _ = t' := by simpa using h
    refine ⟨hpoint books.tnodes (books.lnodes.move ?_) books.alive books.tcached ?_, rfl⟩
    · intro a
      simp only [NebEvdpTimer.lnodePlaces, NebEvdpTimer.cblists, hnodes, List.count_append,
        List.count_cons, List.cons_append]
      omega
    · have hle := books.lcached
      rw [hnodes, List.length_cons] at hle
      exact Nat.le_of_succ_le hle
  | nil =>
    rw [hnodes] at h
    obtain ⟨q, rfl, hq⟩ := Option.map_eq_some_iff.mp h
    obtain ⟨rfl, rfl⟩ := Prod.mk.inj hq
    have hfree : t.points q = none := by
      simpa [NebEvdpTimer.lnodeFresh, hnodes] using fresh
    have hnot : q ∉ t.lnodePlaces lhand := by
      intro hmem
      refine books.alive q ?_ hfree
      simpa [NebEvdpTimer.lnodePlaces, hnodes] using hmem
    exact ⟨hpoint books.tnodes (books.lnodes.calloc hnot) books.alive books.tcached
      books.lcached, rfl⟩

theorem Books.cblistNodeFree {p : PointAddr} (books : Books t thand (p :: lhand)) :
    Books (evdpTimerCblistNodeFree p t) thand lhand := by
  obtain ⟨hnot, -⟩ := List.nodup_cons.mp books.lnodes.once
  have halive : ∀ q ∈ lhand ++ (t.cblists ++ t.keeplist),
      Function.update t.points p none q ≠ none := by
    intro q hq
    have hqp : q ≠ p := by
      rintro rfl
      apply hnot
      change q ∈ lhand ++ (t.cblists ++ (t.keeplist ++ t.lcache.nodes))
      simp only [List.mem_append] at hq ⊢
      tauto
    rw [Function.update_of_ne hqp]
    exact books.alive q (List.mem_cons_of_mem p hq)
  unfold evdpTimerCblistNodeFree
  by_cases hroom : t.lcache.nodes.length < t.lcache.size
  · simp only [hroom, if_true]
    refine ⟨books.tnodes, books.lnodes.move ?_, halive, books.tcached, hroom⟩
    intro a
    simp only [NebEvdpTimer.lnodePlaces, NebEvdpTimer.cblists, List.count_append, List.count_cons,
      List.cons_append]
    omega
  · simp only [hroom, if_false]
    exact ⟨books.tnodes, books.lnodes.free, halive, books.tcached, books.lcached⟩

theorem Books.rbtreeNodeNew (books : Books t [] lhand) {absTs : Timespec}
    {calloc : Option TnodeAddr} (fresh : t.tnodeFresh calloc = true) {n : EvdpTimerRbtreeNode}
    (h : evdpTimerRbtreeNodeNew absTs calloc t = some (n, t')) :
    Books t' [n.addr] lhand ∧ n.cblist = [] ∧ n.ts = absTs ∧ t'.rbtree = t.rbtree := by
  unfold evdpTimerRbtreeNodeNew at h
  cases hnodes : t.tcache.nodes with
  | cons a nodes =>
    rw [hnodes] at h
    obtain ⟨rfl, rfl⟩ : ⟨a, absTs, [], false⟩ = n ∧ _ = t' := by simpa using h
    refine ⟨{ books with tnodes := books.tnodes.move ?_, tcached := ?_ }, rfl, rfl, rfl⟩
    · intro b
      simp only [NebEvdpTimer.tnodePlaces, hnodes, List.count_append, List.count_cons,
        List.count_nil]
      omega
    · have hle := books.tcached
      rw [hnodes, List.length_cons] at hle
      exact Nat.le_of_succ_le hle
  | nil =>
    rw [hnodes] at h
    obtain ⟨a, rfl, hn⟩ := Option.map_eq_some_iff.mp h
    obtain ⟨rfl, rfl⟩ := Prod.mk.inj hn
    have hnone : t.tnode a = none := by
      simpa [NebEvdpTimer.tnodeFresh, hnodes] using fresh
    have hnot : a ∉ t.tnodePlaces [] := by
      simp only [NebEvdpTimer.tnodePlaces, hnodes, List.append_nil, List.nil_append, List.mem_map]
      rintro ⟨m, hm, rfl⟩
      have hfind := List.find?_eq_none.mp hnone m hm
      simp at hfind
    exact ⟨{ books with tnodes := books.tnodes.calloc hnot }, rfl, rfl, rfl⟩

theorem Books.rbtreeNodeDel {n : EvdpTimerRbtreeNode} (books : Books t (n.addr :: thand) lhand)
    (empty : n.cblist = []) : Books (evdpTimerRbtreeNodeDel n t) thand lhand := by
  unfold evdpTimerRbtreeNodeDel
  rw [empty, List.foldl_nil]
  by_cases hroom : t.tcache.nodes.length < t.tcache.size
  · simp only [hroom, if_true]
    refine { books with tnodes := books.tnodes.move ?_, tcached := hroom }
    intro a
    simp only [NebEvdpTimer.tnodePlaces, List.count_append, List.count_cons, List.cons_append]
    omega
  · simp only [hroom, if_false]
    exact { books with tnodes := books.tnodes.free }

/-! The tree and the lists. -/

/-- A node of the tree with what stands before and after it. -/
private theorem Books.split_at (books : Books t thand lhand) {n : EvdpTimerRbtreeNode}
    (hn : n ∈ t.rbtree) :
    ∃ before after, t.rbtree = before ++ n :: after ∧ (∀ m ∈ before, m.addr ≠ n.addr) ∧
      ∀ m ∈ after, m.addr ≠ n.addr := by
  obtain ⟨before, after, htree⟩ := List.append_of_mem hn
  have hnodup := books.addrs_nodup
  rw [htree, List.map_append, List.map_cons] at hnodup
  obtain ⟨-, hafter, hapart⟩ := List.nodup_append.mp hnodup
  refine ⟨before, after, htree, ?_, ?_⟩
  · intro m hm
    exact hapart m.addr (List.mem_map_of_mem hm) n.addr List.mem_cons_self
  · intro m hm heq
    exact (List.nodup_cons.mp hafter).1 (heq ▸ List.mem_map_of_mem hm)

/-- `rb_tree_remove_node` of an empty node puts it into the hand. -/
theorem Books.removeTnode (books : Books t thand lhand) {n : EvdpTimerRbtreeNode}
    (hn : n ∈ t.rbtree) (empty : n.cblist = []) :
    Books { t with rbtree := rbTreeRemoveNode n.addr t.rbtree } (n.addr :: thand) lhand := by
  obtain ⟨before, after, htree, hbefore, hafter⟩ := books.split_at hn
  have hrest : rbTreeRemoveNode n.addr t.rbtree = before ++ after := by
    rw [rbTreeRemoveNode, htree, List.filter_append, List.filter_cons_of_neg (by simp),
      List.filter_eq_self.mpr (by simpa using hbefore),
      List.filter_eq_self.mpr (by simpa using hafter)]
  have hlists : ({ t with rbtree := rbTreeRemoveNode n.addr t.rbtree } : NebEvdpTimer).cblists =
      t.cblists := by
    simp only [NebEvdpTimer.cblists, hrest]
    simp [htree, empty]
  refine { books with tnodes := books.tnodes.move ?_, lnodes := ?_, alive := ?_ }
  · intro a
    simp only [NebEvdpTimer.tnodePlaces, hrest]
    simp only [htree, List.map_append, List.map_cons, List.count_append, List.count_cons,
      List.cons_append]
    omega
  · simpa only [NebEvdpTimer.lnodePlaces, hlists] using books.lnodes
  · simpa only [hlists] using books.alive

theorem Books.insertTnode (books : Books t [] lhand) (sorted : Sorted t.rbtree)
    {absTs : Timespec} {calloc : Option TnodeAddr} (fresh : t.tnodeFresh calloc = true)
    {tn : TnodeAddr} {existed : Bool}
    (h : evdpTimerInsertTnode absTs calloc t = some (tn, existed, t')) : Books t' [] lhand := by
  unfold evdpTimerInsertTnode at h
  obtain ⟨⟨n, t1⟩, hnew, h⟩ := Option.bind_eq_some_iff.mp h
  obtain ⟨books1, hempty, -, htree⟩ := books.rbtreeNodeNew fresh hnew
  have hout : n.addr ∉ t1.rbtree.map (·.addr) := by
    intro hmem
    refine (List.nodup_cons.mp books1.tnodes.once).1 ?_
    exact List.mem_append_right _ (List.mem_append_left _ hmem)
  rcases rb_tree_insert_node_cases n (htree ▸ sorted) with
    ⟨m, hm, -, hins⟩ | ⟨haddr, -, hperm, -⟩
  · have hne : m.addr ≠ n.addr := fun heq => hout (heq ▸ List.mem_map_of_mem hm)
    simp only [hins, ne_eq, hne, not_false_eq_true, if_true] at h
    obtain ⟨-, -, rfl⟩ : m.addr = tn ∧ true = existed ∧ _ = t' := by simpa using h
    exact Books.rbtreeNodeDel books1 hempty
  · simp only [haddr, ne_eq, not_true_eq_false, if_false] at h
    obtain ⟨-, -, rfl⟩ : n.addr = tn ∧ false = existed ∧ _ = t' := by simpa using h
    have hlists : ((rbTreeInsertNode n t1.rbtree).1.flatMap (·.cblist)).Perm t1.cblists := by
      have hflat := hperm.flatMap_right (·.cblist)
      rwa [List.flatMap_cons, hempty, List.nil_append] at hflat
    refine { books1 with
      tnodes := books1.tnodes.move ?_, lnodes := books1.lnodes.move ?_, alive := ?_ }
    · intro a
      have hcount := (hperm.map (·.addr)).count_eq a
      rw [List.map_cons, List.count_cons] at hcount
      simp only [NebEvdpTimer.tnodePlaces, List.count_append, List.count_cons, List.count_nil]
      omega
    · intro a
      have hcount := hlists.count_eq a
      simp only [NebEvdpTimer.lnodePlaces, NebEvdpTimer.cblists, List.count_append] at hcount ⊢
      omega
    · intro p hp
      refine books1.alive p ?_
      simp only [List.mem_append] at hp ⊢
      rwa [← hlists.mem_iff]

theorem Books.checkDel (books : Books t thand lhand) {a : TnodeAddr}
    (h : evdpTimerRbtreeNodeCheckDel a t = some t') : Books t' thand lhand := by
  unfold evdpTimerRbtreeNodeCheckDel at h
  obtain ⟨n, hn, h⟩ := Option.bind_eq_some_iff.mp h
  obtain ⟨hmem, rfl⟩ := tnode_mem hn
  split_ifs at h with hauto hempty
  · obtain rfl := Option.some.inj h
    exact books
  · obtain rfl := Option.some.inj h
    exact (books.removeTnode hmem hempty).rbtreeNodeDel hempty
  · obtain rfl := Option.some.inj h
    exact books

/-- `LIST_REMOVE` puts the point into the hand. -/
theorem Books.listRemove (books : Books t thand lhand) {p : PointAddr}
    (h : Timer.listRemove p t = some t') :
    Books t' thand (p :: lhand) ∧ t'.points = t.points := by
  unfold Timer.listRemove at h
  split_ifs at h with hlinked
  obtain rfl := Option.some.inj h
  have hnodup : (t.cblists ++ t.keeplist).Nodup := by
    have honce := (List.nodup_append.mp books.lnodes.once).2.1
    rw [← List.append_assoc] at honce
    exact (List.nodup_append.mp honce).1
  have hmem : p ∈ t.cblists ++ t.keeplist := by
    simpa [NebEvdpTimer.linked, NebEvdpTimer.cblists, or_comm] using hlinked
  -- the point is in one list only, so to take it out of all of them is to take it out once
  have herase : ∀ tree : List EvdpTimerRbtreeNode, (tree.flatMap (·.cblist)).Nodup →
      (tree.map (fun n => { n with cblist := n.cblist.erase p })).flatMap (·.cblist) =
        (tree.flatMap (·.cblist)).erase p := by
    intro tree
    induction tree with
    | nil => exact fun _ => rfl
    | cons n tree ih =>
      intro hn
      rw [List.flatMap_cons] at hn
      obtain ⟨hfirst, hrest, hapart⟩ := List.nodup_append.mp hn
      rw [List.map_cons, List.flatMap_cons, List.flatMap_cons, ih hrest]
      by_cases hp : p ∈ n.cblist
      · rw [List.erase_append_left _ hp, List.erase_of_not_mem (l := tree.flatMap (·.cblist))]
        exact fun hpt => hapart p hp p hpt rfl
      · rw [List.erase_append_right _ hp, List.erase_of_not_mem hp]
  have hlists : (t.rbtree.map (fun n => { n with cblist := n.cblist.erase p })).flatMap (·.cblist) =
      t.cblists.erase p := herase t.rbtree (List.nodup_append.mp hnodup).1
  have hcount : ∀ a, (t.cblists.erase p).count a + (t.keeplist.erase p).count a +
      (if p = a then 1 else 0) = t.cblists.count a + t.keeplist.count a := by
    intro a
    have hone := List.nodup_iff_count_le_one.mp hnodup p
    have hpos := List.count_pos_iff.mpr hmem
    rw [List.count_append] at hone hpos
    rw [List.count_erase, List.count_erase]
    by_cases hpa : p = a
    · subst hpa
      simp only [beq_self_eq_true, if_true]
      omega
    · simp [hpa]
  refine ⟨{ books with tnodes := ?_, lnodes := books.lnodes.move ?_, alive := ?_ }, rfl⟩
  · simpa [NebEvdpTimer.tnodePlaces, Function.comp_def] using books.tnodes
  · intro a
    have ha := hcount a
    simp only [NebEvdpTimer.lnodePlaces, List.count_append, List.count_cons, List.cons_append,
      beq_iff_eq]
    simp only [NebEvdpTimer.cblists] at hlists ha ⊢
    rw [hlists]
    omega
  · intro q hq
    have hsub : q = p ∨ q ∈ lhand ++ (t.cblists ++ t.keeplist) := by
      simp only [List.mem_cons, List.mem_append, List.cons_append, NebEvdpTimer.cblists] at hq ⊢
      rw [hlists] at hq
      rcases hq with hq | hq | hq | hq
      · exact .inl hq
      · exact .inr (.inl hq)
      · exact .inr (.inr (.inl (List.mem_of_mem_erase hq)))
      · exact .inr (.inr (.inr (List.mem_of_mem_erase hq)))
    rcases hsub with rfl | hold
    · exact books.alive q (List.mem_append_right _ hmem)
    · exact books.alive q hold

/-- `LIST_INSERT_HEAD` takes the point out of the hand. -/
theorem Books.cblistInsertHead {p : PointAddr} (books : Books t thand (p :: lhand))
    {a : TnodeAddr} (h : Timer.cblistInsertHead a p t = some t') : Books t' thand lhand := by
  unfold Timer.cblistInsertHead at h
  split_ifs at h with hsome
  obtain rfl := Option.some.inj h
  obtain ⟨n, hn⟩ := Option.isSome_iff_exists.mp hsome
  obtain ⟨hmem, rfl⟩ := tnode_mem hn
  obtain ⟨before, after, htree, hbefore, hafter⟩ := books.split_at hmem
  let link (m : EvdpTimerRbtreeNode) :=
    if m.addr = n.addr then { m with cblist := p :: m.cblist } else m
  have hmap : t.rbtree.map link = before ++ { n with cblist := p :: n.cblist } :: after := by
    have hsame : ∀ part : List EvdpTimerRbtreeNode, (∀ m ∈ part, m.addr ≠ n.addr) →
        part.map link = part := by
      intro part hpart
      refine (List.map_congr_left ?_).trans (List.map_id part)
      intro m hm
      exact if_neg (hpart m hm)
    rw [htree, List.map_append, List.map_cons, hsame before hbefore, hsame after hafter]
    simp [link]
  change Books { t with rbtree := t.rbtree.map link } thand lhand
  rw [hmap]
  refine { books with tnodes := ?_, lnodes := books.lnodes.move ?_, alive := ?_ }
  · have htnodes := books.tnodes
    rw [NebEvdpTimer.tnodePlaces, htree] at htnodes
    simpa [NebEvdpTimer.tnodePlaces] using htnodes
  · intro b
    simp only [NebEvdpTimer.lnodePlaces, NebEvdpTimer.cblists, htree, List.flatMap_append,
      List.flatMap_cons, List.count_append, List.count_cons, List.cons_append]
    omega
  · intro q hq
    refine books.alive q ?_
    simp only [NebEvdpTimer.cblists, htree, List.flatMap_append, List.flatMap_cons,
      List.mem_append, List.mem_cons] at hq ⊢
    tauto

theorem Books.keeplistInsertHead {p : PointAddr} (books : Books t thand (p :: lhand)) :
    Books { t with keeplist := p :: t.keeplist } thand lhand := by
  refine { books with lnodes := books.lnodes.move ?_, alive := ?_ }
  · intro a
    simp only [NebEvdpTimer.lnodePlaces, NebEvdpTimer.cblists, List.count_append, List.count_cons,
      List.cons_append]
    omega
  · intro q hq
    refine books.alive q ?_
    simp only [NebEvdpTimer.cblists, List.mem_append, List.mem_cons] at hq ⊢
    tauto

end Books

end Nebase.Evdp.Timer
