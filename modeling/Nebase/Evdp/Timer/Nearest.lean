/- The timeout until the nearest deadline, and the nodes of the tree that no point waits in. -/

import Nebase.Evdp.Timer.Nodes

set_option autoImplicit false
set_option relaxedAutoImplicit false

namespace Nebase.Evdp.Timer

open Nebase.Time Nebase.Foundation

/-- `NULL`, or what is left in `cur_ts`. -/
def evdpTimerFetchNeareastTs (curTs : Timespec) (t : NebEvdpTimer) : Option Timespec :=
  match (rbTreeMin t.rbtree).bind t.tnode with
  | none => none
  | some minNode =>
    if !pastLimit minNode curTs then
      some ⟨0, 0⟩
    else
      some (nebTimespecsub minNode.ts curTs)

def Earliest (t : NebEvdpTimer) (d : Timespec) : Prop :=
  (∃ q, Due t q d) ∧ ∀ q e, Due t q e → d ≤ e

/-- Every node of the tree has a point, and the nearest timeout is what it should be. -/
structure NearestExact (t : NebEvdpTimer) : Prop where
  nonempty : ∀ n ∈ t.rbtree, n.cblist ≠ []
  null : ∀ cur, evdpTimerFetchNeareastTs cur t = none ↔ ∀ q d, ¬ Due t q d
  zero : ∀ cur, cur.Normalised → (∀ q d, Due t q d → d.Normalised) →
    (evdpTimerFetchNeareastTs cur t = some ⟨0, 0⟩ ↔ ∃ d, Earliest t d ∧ d ≤ cur)
  later : ∀ cur d, cur.Normalised → d.Normalised → Earliest t d → cur < d →
    ∃ r, evdpTimerFetchNeareastTs cur t = some r ∧ r.Normalised ∧ nebTimespecadd cur r = d

section Fetch

variable {t : NebEvdpTimer} {active : Option TnodeAddr} {loose : Set PointAddr}

/-- Where no node is empty, the first one is that of the earliest deadline. -/
private theorem Shape.first_node (shape : Shape t active loose)
    (nonempty : ∀ n ∈ t.rbtree, n.cblist ≠ []) :
    (t.rbtree = [] ∧ ∀ cur, evdpTimerFetchNeareastTs cur t = none) ∨
    ∃ d, Earliest t d ∧ ∀ cur, evdpTimerFetchNeareastTs cur t =
      if cur < d then some (nebTimespecsub d cur) else some ⟨0, 0⟩ := by
  obtain ⟨hnone, hsome⟩ := rb_tree_min_spec shape.sorted
  unfold evdpTimerFetchNeareastTs
  cases hmin : rbTreeMin t.rbtree with
  | none => exact .inl ⟨hnone hmin, fun _ => rfl⟩
  | some a =>
    obtain ⟨k, hk, rfl, hle⟩ := hsome a hmin
    right
    refine ⟨k.ts, ⟨?_, ?_⟩, ?_⟩
    · obtain ⟨q, hq⟩ := List.exists_mem_of_ne_nil _ (nonempty k hk)
      exact ⟨q, k, hk, hq, rfl⟩
    · rintro q e ⟨n, hn, -, rfl⟩
      exact hle n hn
    · intro cur
      simp only [Option.bind_some, shape.tnode_eq hk]
      by_cases hlt : cur < k.ts
      · have hpast : pastLimit k cur = true := (nebTimespeccmp_gt _ _).mpr hlt
        simp [hpast, hlt]
      · have hpast : ¬ pastLimit k cur = true := mt (nebTimespeccmp_gt _ _).mp hlt
        simp [hpast, hlt]

private theorem Earliest.unique {d e : Timespec} (hd : Earliest t d) (he : Earliest t e) :
    d = e := by
  obtain ⟨⟨q, hq⟩, hdle⟩ := hd
  obtain ⟨⟨r, hr⟩, hele⟩ := he
  exact le_antisymm (hdle r e hr) (hele q d hq)

private theorem sub_ne_zero {cur d : Timespec} (hcur : cur.Normalised) (hd : d.Normalised)
    (hlt : cur < d) : nebTimespecsub d cur ≠ ⟨0, 0⟩ := by
  intro hzero
  have hns := nebTimespecsub_ns d cur
  rw [hzero] at hns
  have hbefore := (Timespec.lt_iff_ns hcur hd).mp hlt
  simp only [Timespec.ns] at hns hbefore
  omega

private theorem add_sub_eq {cur d : Timespec} (hcur : cur.Normalised) (hd : d.Normalised) :
    nebTimespecadd cur (nebTimespecsub d cur) = d := by
  have hsub := nebTimespecsub_normalised hd hcur
  have hadd : (nebTimespecadd cur (nebTimespecsub d cur)).Normalised := by
    rw [nebTimespecadd_normalised_iff hcur hsub.1]
    obtain ⟨-, hc⟩ := hcur
    obtain ⟨-, hs⟩ := hsub
    omega
  rw [Timespec.eq_iff_ns hadd hd, nebTimespecadd_ns, nebTimespecsub_ns]
  omega

theorem Shape.nearestExact (shape : Shape t active loose)
    (nonempty : ∀ n ∈ t.rbtree, n.cblist ≠ []) : NearestExact t := by
  rcases shape.first_node nonempty with ⟨hempty, hfetch⟩ | ⟨d, hearliest, hfetch⟩
  · have hnone : ∀ q d, ¬ Due t q d := by
      rintro q d ⟨n, hn, -⟩
      simp [hempty] at hn
    refine ⟨nonempty, fun cur => iff_of_true (hfetch cur) hnone, ?_, ?_⟩
    · intro cur hcur hall
      refine iff_of_false (by simp [hfetch]) ?_
      rintro ⟨d, ⟨⟨q, hq⟩, -⟩, -⟩
      exact hnone q d hq
    · rintro cur d hcur hd ⟨⟨q, hq⟩, -⟩ hlt
      exact absurd hq (hnone q d)
  · obtain ⟨q, hq⟩ := hearliest.1
    refine ⟨nonempty, ?_, ?_, ?_⟩
    · intro cur
      refine iff_of_false ?_ (fun hnone => hnone q d hq)
      rw [hfetch]
      split <;> simp
    · intro cur hcur hall
      rw [hfetch]
      constructor
      · intro hzero
        refine ⟨d, hearliest, not_lt.mp ?_⟩
        intro hlt
        rw [if_pos hlt] at hzero
        exact sub_ne_zero hcur (hall q d hq) hlt (Option.some.inj hzero)
      · rintro ⟨e, he, hle⟩
        obtain rfl := hearliest.unique he
        rw [if_neg (not_lt.mpr hle)]
    · intro cur e hcur he hearliest' hlt
      obtain rfl := hearliest.unique hearliest'
      refine ⟨nebTimespecsub d cur, by rw [hfetch, if_pos hlt], ?_, add_sub_eq hcur he⟩
      exact nebTimespecsub_normalised he hcur

end Fetch

/-- The running point has been reset to a node for `d` in which no other point waits. -/
def Reserves (s : State) (d : Timespec) : Prop :=
  ∃ a, RunningRef s a ∧ s.ctl.active ≠ some a ∧ NodeAt s.timer a d ∧ ∀ q, ¬ Due s.timer q d

/-- The call puts a node into the tree and then finds no memory for its point; or it takes the
running point away from the node it was reset to, where no other point waits. -/
def LeavesEmpty (s : State) : Action → Prop
  | .newPoint absTs _ _ tnode lnode =>
    NewTnode s.timer absTs tnode ∧ s.timer.lcache.nodes = [] ∧ lnode = none
  | .delPoint p => s.ctl.runningPoint = some p ∧ ∃ d, Reserves s d
  | .pointReset p absTs tnode =>
    s.ctl.runningPoint = some p ∧ ¬ s.timer.OutOfTnodes tnode ∧ ∃ d, Reserves s d ∧ d ≠ absTs
  | .cbReturn tret => tret = .free ∧ ∃ d, Reserves s d
  | _ => False

private theorem reserves_iff (s : State) (d : Timespec) :
    Reserves s d ↔ ∃ n ∈ s.timer.rbtree, n.ts = d ∧ RunningRef s n.addr ∧
      s.ctl.active ≠ some n.addr ∧ ∀ m ∈ s.timer.rbtree, m.ts = d → m.cblist = [] := by
  constructor
  · rintro ⟨a, href, hactive, ⟨n, hn, rfl, rfl⟩, hnone⟩
    refine ⟨n, hn, rfl, href, hactive, ?_⟩
    intro m hm hts
    refine List.eq_nil_iff_forall_not_mem.mpr ?_
    exact fun q hq => hnone q ⟨m, hm, hq, hts⟩
  · rintro ⟨n, hn, rfl, href, hactive, hnone⟩
    refine ⟨n.addr, href, hactive, ⟨n, hn, rfl, rfl⟩, ?_⟩
    rintro q ⟨m, hm, hq, hts⟩
    simp [hnone m hm hts] at hq

instance (s : State) (d : Timespec) : Decidable (Reserves s d) :=
  decidable_of_iff _ (reserves_iff s d).symm

private theorem reserves_mem {s : State} {Q : Timespec → Prop} :
    (∃ n ∈ s.timer.rbtree, Reserves s n.ts ∧ Q n.ts) ↔ ∃ d, Reserves s d ∧ Q d := by
  constructor
  · rintro ⟨n, -, h⟩
    exact ⟨n.ts, h⟩
  · rintro ⟨d, hres, hQ⟩
    obtain ⟨n, hn, rfl, -⟩ := (reserves_iff s d).mp hres
    exact ⟨n, hn, hres, hQ⟩

instance (t : NebEvdpTimer) (absTs : Timespec) (tnode : Option TnodeAddr) :
    Decidable (NewTnode t absTs tnode) :=
  decidable_of_iff (¬ t.OutOfTnodes tnode ∧ ∀ n ∈ t.rbtree, n.ts ≠ absTs) (by
    refine and_congr_right fun _ => ?_
    constructor
    · rintro h b ⟨n, hn, -, hts⟩
      exact h n hn hts
    · exact fun h n hn hts => h n.addr ⟨n, hn, rfl, hts⟩)

instance (s : State) : ∀ a, Decidable (LeavesEmpty s a)
  | .newPoint absTs _ _ tnode lnode =>
    inferInstanceAs (Decidable (NewTnode s.timer absTs tnode ∧ s.timer.lcache.nodes = [] ∧
      lnode = none))
  | .delPoint p =>
    decidable_of_iff (s.ctl.runningPoint = some p ∧
        ∃ n ∈ s.timer.rbtree, Reserves s n.ts ∧ True)
      (and_congr_right fun _ => reserves_mem.trans (exists_congr fun _ => and_iff_left trivial))
  | .pointReset p absTs tnode =>
    decidable_of_iff (s.ctl.runningPoint = some p ∧ ¬ s.timer.OutOfTnodes tnode ∧
        ∃ n ∈ s.timer.rbtree, Reserves s n.ts ∧ n.ts ≠ absTs)
      (and_congr_right fun _ => and_congr_right fun _ => reserves_mem (Q := fun d => d ≠ absTs))
  | .cbReturn tret =>
    decidable_of_iff (tret = .free ∧ ∃ n ∈ s.timer.rbtree, Reserves s n.ts ∧ True)
      (and_congr_right fun _ => reserves_mem.trans (exists_congr fun _ => and_iff_left trivial))
  | .runUntil _ => isFalse id
  | .proceed => isFalse id

/-- A point waits in the node at `a` for `d`, or one will: it is drained now, or the running point
has been reset to it. -/
def Used (s : State) (a : TnodeAddr) (d : Timespec) : Prop :=
  (∃ q, Due s.timer q d) ∨ s.ctl.active = some a ∨ RunningRef s a

def AllUsed (s : State) : Prop :=
  ∀ a d, NodeAt s.timer a d → Used s a d

section Steps

variable {s s' : State}

/-- What keeps a use: the waiting points, the drained node and the running point's reference. -/
private theorem Used.mono {a : TnodeAddr} {d : Timespec} (used : Used s a d)
    (ctl : s'.ctl = s.ctl) (due : ∀ q, Due s.timer q d → Due s'.timer q d)
    (points : ∀ r, s.ctl.runningPoint = some r → s'.timer.points r = s.timer.points r) :
    Used s' a d := by
  rcases used with ⟨q, hq⟩ | hactive | ⟨r, c, hr, hc, ha⟩
  · exact .inl ⟨q, due q hq⟩
  · exact .inr (.inl (ctl ▸ hactive))
  · exact .inr (.inr ⟨r, c, ctl ▸ hr, points r hr ▸ hc, ha⟩)

/-- The last waiting point of a node is its sole user, unless the node is drained. -/
private theorem Inv.shared_or_sole (inv : Inv s) {p : PointAddr} {a : TnodeAddr} {d : Timespec}
    (hat : NodeAt s.timer a d) (hp : Due s.timer p d) :
    (∃ q, q ≠ p ∧ Due s.timer q d) ∨ s.ctl.active = some a ∨ SoleUser s.timer p a := by
  obtain ⟨n, hn, rfl, rfl⟩ := hat
  obtain ⟨m, hm, hpm, hts⟩ := hp
  obtain rfl := inv.shape.ts_unique hm hn hts
  by_cases hother : ∃ q ∈ m.cblist, q ≠ p
  · obtain ⟨q, hq, hqp⟩ := hother
    exact .inl ⟨q, hqp, m, hm, hq, rfl⟩
  · right
    have hall : ∀ q ∈ m.cblist, q = p := by
      intro q hq
      by_contra hqp
      exact hother ⟨q, hq, hqp⟩
    by_cases hauto : m.noAutoDel = true
    · exact .inl ((inv.shape.autoDel m hm).mp hauto)
    · right
      refine ⟨m, hm, rfl, by simpa using hauto, ?_⟩
      exact List.perm_singleton.mp ((List.perm_ext_iff_of_nodup (inv.shape.cblistNodup m hm)
        (List.nodup_singleton p)).mpr (fun q => by
          rw [List.mem_singleton]
          exact ⟨hall q, fun heq => heq ▸ hpm⟩))

private theorem AllUsed.newPoint (used : AllUsed s) (inv : Inv s) {absTs : Timespec}
    {cb udata : Nat} {tnode lnode : Option Nat}
    (keeps : ¬ LeavesEmpty s (.newPoint absTs cb udata tnode lnode))
    (h : step s (.newPoint absTs cb udata tnode lnode) = some s') : AllUsed s' := by
  have fresh : s.timer.tnodeFresh tnode = true := by
    simp only [step] at h
    split_ifs at h with hguard
    exact hguard.2.1
  obtain ⟨-, hctl, -, r, heq, hcase⟩ := inv.newPoint h
  intro a d hat
  have hfrom := inv.shape.new_point_nodes fresh heq hat
  rcases hcase with ⟨-, hpoints, hdue, hout⟩ | ⟨p, tn, -, hfree, hpoints, hdue⟩
  · rcases hfrom with hold | ⟨rfl, hnew⟩
    · exact (used a d hold).mono hctl (fun q hq => (hdue q d).mpr hq) (fun r _ => by rw [hpoints])
    · exact absurd ⟨hnew, hout.resolve_left hnew.1⟩ keeps
  · rcases hfrom with hold | ⟨rfl, -⟩
    · refine (used a d hold).mono hctl (fun q hq => (hdue q d).mpr (.inr hq)) ?_
      intro r hr
      obtain ⟨c, hc, -⟩ := inv.runningAlloc r hr
      have hrp : r ≠ p := by
        rintro rfl
        rw [hfree] at hc
        cases hc
      rw [hpoints, Function.update_of_ne hrp]
    · exact .inl ⟨p, (hdue p d).mpr (.inl ⟨rfl, rfl⟩)⟩

private theorem AllUsed.delPoint (used : AllUsed s) (inv : Inv s) {p : PointAddr}
    (keeps : ¬ LeavesEmpty s (.delPoint p)) (h : step s (.delPoint p) = some s') :
    AllUsed s' := by
  by_cases hp : s.ctl.runningPoint = some p
  · obtain ⟨-, hctl, htree, c, hc, -⟩ := inv.delPoint_running hp h
    intro a d hat
    have hold : NodeAt s.timer a d := by
      unfold NodeAt at hat ⊢
      rwa [htree] at hat
    have hdue : ∀ q, Due s.timer q d → Due s'.timer q d :=
      fun q hq => (due_congr (fun m => by rw [htree]) q d).mpr hq
    by_cases hnone : ∃ q, Due s.timer q d
    · obtain ⟨q, hq⟩ := hnone
      exact .inl ⟨q, hdue q hq⟩
    by_cases hactive : s.ctl.active = some a
    · exact .inr (.inl (hctl ▸ hactive))
    · rcases used a d hold with hq | ha | href
      · exact absurd hq hnone
      · exact absurd ha hactive
      · exact absurd ⟨hp, d, a, href, hactive, hold, fun q hq => hnone ⟨q, hq⟩⟩ keeps
  · obtain ⟨hctl, -, hpoints, hdue, -, hgone⟩ := inv.delPoint_effect hp h
    intro a d hat
    have hstep := h
    simp only [step] at hstep
    split_ifs at hstep with hguard
    have hold : NodeAt s.timer a d := by
      cases hdel : nebEvdpTimerDelPoint p s.timer with
      | none =>
        obtain rfl : (⟨s.timer, .undefined⟩ : State) = s' := by
          simpa [State.after, hdel] using hstep
        exact hat
      | some t' =>
        obtain rfl : (⟨t', s.ctl⟩ : State) = s' := by simpa [State.after, hdel] using hstep
        exact del_point_nodes hdel a d hat
    rcases used a d hold with ⟨q, hq⟩ | hactive | ⟨r, c, hr, hc, ha⟩
    · by_cases hqp : q = p
      · rcases inv.shared_or_sole hold (hqp ▸ hq) with ⟨q', hne, hq'⟩ | hactive | hsole
        · exact .inl ⟨q', (hdue q' d).mpr ⟨hne, hq'⟩⟩
        · exact .inr (.inl (hctl ▸ hactive))
        · exact absurd hat (hgone a d hsole)
      · exact .inl ⟨q, (hdue q d).mpr ⟨hqp, hq⟩⟩
    · exact .inr (.inl (hctl ▸ hactive))
    · have hrp : r ≠ p := fun heq => hp (heq ▸ hr)
      exact .inr (.inr ⟨r, c, hctl ▸ hr, by rw [hpoints, Function.update_of_ne hrp, hc], ha⟩)

private theorem AllUsed.pointReset (used : AllUsed s) (inv : Inv s) {p : PointAddr}
    {absTs : Timespec} {tnode : Option TnodeAddr}
    (keeps : ¬ LeavesEmpty s (.pointReset p absTs tnode))
    (h : step s (.pointReset p absTs tnode) = some s') : AllUsed s' := by
  have fresh : s.timer.tnodeFresh tnode = true := by
    simp only [step] at h
    split_ifs at h with hguard
    exact hguard.2.1
  by_cases hp : s.ctl.runningPoint = some p
  · obtain ⟨inv', hctl, c, r, hc, heq, hcase⟩ := inv.pointReset_running hp h
    intro a d hat
    rcases hcase with ⟨-, htimer, -⟩ | ⟨-, hgot, ⟨tn, hpoints, hat'⟩, hnodes, hdue⟩
    · refine (used a d (htimer ▸ hat)).mono hctl ?_ (fun r _ => by rw [htimer])
      exact fun q hq => htimer ▸ hq
    · have hnew : NodeAt s'.timer a absTs → Used s' a absTs := by
        rintro ⟨n, hn, rfl, hts⟩
        obtain ⟨m, hm, rfl, hts'⟩ := hat'
        obtain rfl := inv'.shape.ts_unique hn hm (hts.trans hts'.symm)
        exact .inr (.inr ⟨p, _, hctl ▸ hp, by rw [hpoints, Function.update_self], rfl⟩)
      by_cases hd : d = absTs
      · obtain rfl := hd
        exact hnew hat
      have hold := (inv.shape.point_reset_nodes fresh heq hat).resolve_right (fun hn => hd hn.1)
      by_cases hnone : ∃ q, Due s.timer q d
      · obtain ⟨q, hq⟩ := hnone
        exact .inl ⟨q, (hdue q d).mpr hq⟩
      by_cases hactive : s.ctl.active = some a
      · exact .inr (.inl (hctl ▸ hactive))
      · rcases used a d hold with hq | ha | href
        · exact absurd hq hnone
        · exact absurd ha hactive
        · exact absurd ⟨hp, hgot, d, ⟨a, href, hactive, hold, fun q hq => hnone ⟨q, hq⟩⟩, hd⟩ keeps
  · obtain ⟨hctl, -, c, r, -, -, heq, hcase⟩ := inv.pointReset_effect hp h
    intro a d hat
    rcases hcase with ⟨-, htimer, -⟩ | ⟨-, -, ⟨tn, hpoints⟩, hdue, -, hgone⟩
    · refine (used a d (htimer ▸ hat)).mono hctl ?_ (fun r _ => by rw [htimer])
      exact fun q hq => htimer ▸ hq
    · by_cases hd : d = absTs
      · exact .inl ⟨p, (hdue p d).mpr (.inl ⟨rfl, hd⟩)⟩
      have hold := (inv.shape.point_reset_nodes fresh heq hat).resolve_right (fun hn => hd hn.1)
      rcases used a d hold with ⟨q, hq⟩ | hactive | ⟨r, c, hr, hc, ha⟩
      · by_cases hqp : q = p
        · rcases inv.shared_or_sole hold (hqp ▸ hq) with ⟨q', hne, hq'⟩ | hactive | hsole
          · exact .inl ⟨q', (hdue q' d).mpr (.inr ⟨hne, hq'⟩)⟩
          · exact .inr (.inl (hctl ▸ hactive))
          · refine absurd hat (hgone a hsole ?_ d)
            exact fun hat' => hd (inv.shape.node_at_unique hold hat')
        · exact .inl ⟨q, (hdue q d).mpr (.inr ⟨hqp, hq⟩)⟩
      · exact .inr (.inl (hctl ▸ hactive))
      · have hrp : r ≠ p := fun heq => hp (heq ▸ hr)
        exact .inr (.inr ⟨r, c, hctl ▸ hr, by rw [hpoints, Function.update_of_ne hrp, hc], ha⟩)

private theorem AllUsed.proceed (used : AllUsed s) (inv : Inv s)
    (h : step s .proceed = some s') : AllUsed s' := by
  intro a d hat
  obtain ⟨hold, hactive⟩ := inv.proceed_nodes h hat
  have hrun : s.ctl.runningPoint = none := by
    change proceedStep s = some s' at h
    cases hctl : s.ctl <;> simp_all [proceedStep, Ctl.runningPoint]
  rcases used a d hold with ⟨q, hq⟩ | ha | ⟨r, c, hr, -⟩
  · obtain ⟨-, hproceeds⟩ := inv.proceed h
    cases hproceeds with
    | finished ctl => exact .inl ⟨q, hq⟩
    | stopped ctl at_ past => exact .inl ⟨q, hq⟩
    | opened ctl at_ within points nodes due => exact .inl ⟨q, (due q d).mpr hq⟩
    | @fired lim k b e ln c t' ctl at_ waits point ref points nodes due =>
      by_cases hqln : q = ln
      · -- the point taken was waiting in the drained node
        obtain rfl := inv.shape.due_unique (hqln ▸ hq) waits
        obtain ⟨n, hn, rfl, hts⟩ := hold
        obtain ⟨m, hm, rfl, hts'⟩ := at_
        obtain rfl := inv.shape.ts_unique hn hm (hts.trans hts'.symm)
        exact .inr (.inl (hactive (by rw [ctl]; rfl)))
      · exact .inl ⟨q, (due q d).mpr ⟨hqln, hq⟩⟩
    | closed ctl at_ points due last next => exact .inl ⟨q, (due q d).mpr hq⟩
  · exact .inr (.inl (hactive ha))
  · rw [hrun] at hr
    cases hr

private theorem AllUsed.cbReturn (used : AllUsed s) (inv : Inv s) {tret : NebEvdpTimeoutRet}
    (keeps : ¬ LeavesEmpty s (.cbReturn tret)) (h : step s (.cbReturn tret) = some s') :
    AllUsed s' := by
  obtain ⟨-, lim, k, tn, ln, c, hctl, hc, hctl', -, hnodes, hdue⟩ := inv.cbReturn h
  intro a d hat
  have hold := (hnodes a d).mp hat
  have hsame : ∀ {b}, s.ctl.active = some b → s'.ctl.active = some b := by
    intro b hb
    rw [hctl] at hb
    rw [hctl']
    exact hb
  by_cases hnone : ∃ q, Due s.timer q d
  · obtain ⟨q, hq⟩ := hnone
    exact .inl ⟨q, (hdue q d).mpr (.inr hq)⟩
  by_cases hactive : s.ctl.active = some a
  · exact .inr (.inl (hsame hactive))
  rcases used a d hold with hq | ha | href
  · exact absurd hq hnone
  · exact absurd ha hactive
  · cases tret with
    | free =>
      exact absurd ⟨rfl, d, a, href, hactive, hold, fun q hq => hnone ⟨q, hq⟩⟩ keeps
    | keep =>
      obtain ⟨r, c', hr, hc', ha⟩ := href
      obtain rfl : ln = r := by simpa [hctl, Ctl.runningPoint] using hr
      obtain rfl := Option.some.inj (hc.symm.trans hc')
      have hne : a ≠ tn := by
        rintro rfl
        exact hactive (by rw [hctl]; rfl)
      exact .inl ⟨ln, (hdue ln d).mpr (.inl ⟨rfl, rfl, a, ha, hne, hold⟩)⟩

theorem AllUsed.ofStep {x : Action} (used : AllUsed s) (inv : Inv s) (keeps : ¬ LeavesEmpty s x)
    (h : step s x = some s') : AllUsed s' := by
  cases x with
  | newPoint absTs cb udata tnode lnode => exact used.newPoint inv keeps h
  | delPoint p => exact used.delPoint inv keeps h
  | pointReset p absTs tnode => exact used.pointReset inv keeps h
  | runUntil absTs =>
    obtain ⟨-, hidle, rfl⟩ := inv.runUntil h
    intro a d hat
    rcases used a d hat with hq | ha | ⟨r, c, hr, -⟩
    · exact .inl hq
    · rw [hidle] at ha
      cases ha
    · rw [hidle] at hr
      cases hr
  | proceed => exact used.proceed inv h
  | cbReturn tret => exact used.cbReturn inv keeps h

theorem AllUsed.nonempty (used : AllUsed s) (inv : Inv s) (idle : s.ctl = .idle) :
    ∀ n ∈ s.timer.rbtree, n.cblist ≠ [] := by
  intro n hn hempty
  rcases used n.addr n.ts ⟨n, hn, rfl, rfl⟩ with ⟨q, m, hm, hq, hts⟩ | ha | ⟨r, c, hr, -⟩
  · rw [inv.shape.ts_unique hm hn hts, hempty] at hq
    simp at hq
  · rw [idle] at ha
    cases ha
  · rw [idle] at hr
    cases hr

end Steps

/-- In a run in which no call strands the running point or leaves an empty node, with any calls
inside the callbacks and any allocation failing, the nearest timeout is exact whenever no
`run_until` is under way. -/
theorem nebEvdpTimer_nearest_exact (tcacheSize lcacheSize : Nat) (as : List Action)
    (meets : Machine.StepsMeet step (fun s a => ¬ Strands s a ∧ ¬ LeavesEmpty s a)
      (start tcacheSize lcacheSize) as) :
    Machine.AllStates step (fun s => s.ctl = .idle → NearestExact s.timer)
      (start tcacheSize lcacheSize) as := by
  refine Machine.AllStates.of_invariant (I := fun s => Inv s ∧ AllUsed s) ?_ ?_ ?_ meets
  · exact fun s ⟨inv, used⟩ idle => inv.shape.nearestExact (used.nonempty inv idle)
  · exact fun s a s' ⟨inv, used⟩ keeps h => ⟨inv.ofStep keeps.1 h, used.ofStep inv keeps.2 h⟩
  · refine ⟨.start tcacheSize lcacheSize, ?_⟩
    rintro a d ⟨n, hn, -⟩
    simp [start, nebEvdpTimerCreate] at hn

/-- A callback resets its own point to a later deadline and returns KEEP. -/
theorem nebEvdpTimer_nearest_exact_own_reset :
    let as : List Action :=
      [.newPoint ⟨1, 0⟩ 7 8 (some 10) (some 100), .runUntil ⟨1, 0⟩, .proceed, .proceed,
        .pointReset 100 ⟨5, 0⟩ (some 11), .cbReturn .keep, .proceed, .proceed]
    Machine.AllStates step (fun s => s.ctl = .idle → NearestExact s.timer) (start 1 1) as :=
  nebEvdpTimer_nearest_exact 1 1 _ (by decide)

/-- The callback returns FREE after the reset: the node for the new deadline stays in the tree, and
the timer that has no point left gives a timeout. -/
theorem nebEvdpTimer_nearest_exact_fails :
    ∃ s, Machine.run step (start 1 1)
      [.newPoint ⟨1, 0⟩ 7 8 (some 10) (some 100), .runUntil ⟨1, 0⟩, .proceed, .proceed,
        .pointReset 100 ⟨5, 0⟩ (some 11), .cbReturn .free, .proceed, .proceed] = some s ∧
      s.ctl = .idle ∧ (∀ q d, ¬ Due s.timer q d) ∧
      evdpTimerFetchNeareastTs ⟨2, 0⟩ s.timer = some ⟨3, 0⟩ := by
  refine ⟨_, rfl, rfl, ?_, by decide⟩
  rintro q d ⟨n, hn, hq, -⟩
  obtain rfl := List.mem_singleton.mp hn
  simp at hq

end Nebase.Evdp.Timer
