/- The timer refines an abstract schedule of its points. -/

import Nebase.Evdp.Timer.Reference
import Nebase.Foundation.Schedule

set_option autoImplicit false
set_option relaxedAutoImplicit false

namespace Nebase.Evdp.Timer

open Nebase.Time Nebase.Foundation
open Nebase.Foundation.Machine (Accepts)

/-- The schedule of a timer: points, deadlines, and the `on_timeout` and `udata` of a point. -/
abbrev TimerPlan := Schedule.Plan PointAddr Timespec (Nat × Nat)

abbrev TimerEvent := Schedule.Event PointAddr Timespec (Nat × Nat)

/-- What a step shows of itself: the calls of the program that succeed, the callbacks invoked and
returned, and the result of `evdp_timer_run_until`. -/
def observe (s : State) : Action → List TimerEvent
  | .newPoint absTs cb udata tnode lnode =>
    match nebEvdpTimerNewPoint absTs cb udata tnode lnode s.timer with
    | some (some p, _) => [.created p absTs (cb, udata)]
    | _ => []
  | .delPoint p => [.deleted p]
  | .pointReset p absTs tnode =>
    match nebEvdpTimerPointReset p absTs tnode s.timer with
    | some (r, _) => if r = 0 then [.reset p absTs] else []
    | none => []
  | .runUntil absTs => [.opened absTs]
  | .proceed =>
    match s.ctl, step s .proceed with
    | .scan _ count _, some ⟨_, .idle⟩ => [.closed count]
    | .drain _ _ _, some ⟨_, .callback _ _ _ ln⟩ =>
      match s.timer.points ln with
      | some c => [.fired ln (c.onTimeout, c.udata)]
      | none => []
    | _, _ => []
  | .cbReturn tret =>
    match s.ctl with
    | .callback _ _ _ ln => [.finished ln (tret = .keep)]
    | _ => []

/-- All allocations succeed, and no point is reset inside its own callback. -/
def Admissible (s : State) : Action → Prop
  | .newPoint _ _ _ tnode lnode =>
    ¬ s.timer.OutOfTnodes tnode ∧ ¬ (s.timer.lcache.nodes = [] ∧ lnode = none)
  | .pointReset p _ tnode =>
    ¬ s.timer.OutOfTnodes tnode ∧ s.ctl.runningPoint ≠ some p
  | _ => True

/-- What a point would run. A point deleted inside its own callback is gone already. -/
def NebEvdpTimer.handler (t : NebEvdpTimer) (p : PointAddr) : Option (Nat × Nat) :=
  (t.points p).bind fun c =>
    if c.running ∧ c.refTnode = none then none else some (c.onTimeout, c.udata)

/-- The schedule has the points of the timer, each with its deadline. -/
structure Represents (t : NebEvdpTimer) (σ : TimerPlan) : Prop where
  handler : ∀ p, σ.handler p = t.handler p
  entry : ∀ p d, (∃ e, σ.entry p = some e ∧ e.due = d) ↔ Due t p d

/-- A call of the schedule has come to the deadline `d`. -/
structure ReachedDeadline (c : Schedule.Call PointAddr Timespec) (σ : TimerPlan)
    (d : Timespec) : Prop where
  fired : ∀ f ∈ c.fired, f.2.due ≤ d
  behind : ∀ p e, σ.entry p = some e → e.due < d → c.Behind e

/-- The call of the schedule at each point of `evdp_timer_run_until`. -/
def Progress (s : State) (σ : TimerPlan) : Prop :=
  match s.ctl with
  | .idle => σ.call = none
  | .scan lim k tn =>
    ∃ c, σ.call = some c ∧ c.limit = lim ∧ c.running = none ∧ c.fired.length = k ∧
      c.opened ≤ σ.next ∧ (tn = none → ∀ p e, σ.entry p = some e → c.Behind e) ∧
      ∀ a, tn = some a → ∃ d, NodeAt s.timer a d ∧ ReachedDeadline c σ d
  | .drain lim k a =>
    ∃ c d, σ.call = some c ∧ c.limit = lim ∧ c.running = none ∧ c.fired.length = k ∧
      c.opened ≤ σ.next ∧ NodeAt s.timer a d ∧ d ≤ lim ∧ ReachedDeadline c σ d
  | .callback lim k a ln =>
    ∃ c d, σ.call = some c ∧ c.limit = lim ∧ c.running = some (ln, d) ∧
      c.fired.length = k + 1 ∧ c.opened ≤ σ.next ∧ NodeAt s.timer a d ∧ d ≤ lim ∧
      ReachedDeadline c σ d
  | .undefined => False

structure Rel (s : State) (σ : TimerPlan) : Prop where
  inv : Inv s
  ownRef : ∀ p c a, s.ctl.runningPoint = some p → s.timer.points p = some c →
    c.refTnode = some a → s.ctl.active = some a
  represents : Represents s.timer σ
  progress : Progress s σ

theorem Rel.start (tcacheSize lcacheSize : Nat) :
    Rel (start tcacheSize lcacheSize) Schedule.empty where
  inv := .start tcacheSize lcacheSize
  ownRef := by simp [Timer.start, Ctl.runningPoint]
  represents :=
    { handler := by simp [Schedule.empty, Timer.start, nebEvdpTimerCreate, NebEvdpTimer.handler]
      entry := by simp [Schedule.empty, Timer.start, nebEvdpTimerCreate, Due] }
  progress := by simp [Progress, Timer.start, Schedule.empty]

section Simulation

variable {s s' : State} {σ : TimerPlan}

private theorem Progress.running (progress : Progress s σ) : σ.running = s.ctl.runningPoint := by
  unfold Progress at progress
  unfold Schedule.Plan.running
  cases hctl : s.ctl with
  | idle =>
    rw [hctl] at progress
    simp [show σ.call = none from progress, Ctl.runningPoint]
  | scan lim k tn =>
    rw [hctl] at progress
    obtain ⟨c, hcall, -, hrun, -⟩ := progress
    simp [hcall, hrun, Ctl.runningPoint]
  | drain lim k a =>
    rw [hctl] at progress
    obtain ⟨c, d, hcall, -, hrun, -⟩ := progress
    simp [hcall, hrun, Ctl.runningPoint]
  | callback lim k a ln =>
    rw [hctl] at progress
    obtain ⟨c, d, hcall, -, hrun, -⟩ := progress
    simp [hcall, hrun, Ctl.runningPoint]
  | undefined =>
    rw [hctl] at progress
    exact progress.elim

/-- A call of the program leaves the progress of `run_until` alone: what it schedules, it schedules
at the deadline being processed. -/
private theorem Progress.userOp (progress : Progress s σ) (turn : s.userTurn = true)
    {σ' : TimerPlan} (ctl : s'.ctl = s.ctl) (call : σ'.call = σ.call) (next : σ.next ≤ σ'.next)
    (nodes : ∀ a d, s.ctl.active = some a → NodeAt s.timer a d → NodeAt s'.timer a d)
    (entry : ∀ p e, σ'.entry p = some e →
      σ.entry p = some e ∨ e.ticket = σ.next ∧ e.during = σ.now) : Progress s' σ' := by
  unfold Progress at progress ⊢
  rw [ctl]
  cases hctl : s.ctl with
  | idle =>
    rw [hctl] at progress
    exact call.trans progress
  | callback lim k a ln =>
    rw [hctl] at progress
    obtain ⟨c, d, hcall, hlim, hrun, hlen, hopened, hat, hle, hreached⟩ := progress
    refine ⟨c, d, call.trans hcall, hlim, hrun, hlen, hopened.trans next,
      nodes a d (by rw [hctl]; rfl) hat, hle, hreached.fired, ?_⟩
    intro p e he hlt
    rcases entry p e he with hold | ⟨hticket, hduring⟩
    · exact hreached.behind p e hold hlt
    · refine ⟨hticket ▸ hopened, d, ?_, hlt⟩
      simp [hduring, Schedule.Plan.now, hcall, hrun]
  | scan lim k tn => simp [State.userTurn, hctl] at turn
  | drain lim k a => simp [State.userTurn, hctl] at turn
  | undefined => simp [State.userTurn, hctl] at turn

private theorem handler_update {t' : NebEvdpTimer} {p : PointAddr}
    {oc : Option EvdpTimerCblistNode}
    (points : t'.points = Function.update s.timer.points p oc) {q : PointAddr} (hq : q ≠ p) :
    t'.handler q = s.timer.handler q := by
  unfold NebEvdpTimer.handler
  rw [points, Function.update_of_ne hq]

private theorem Rel.newPoint (rel : Rel s σ) {absTs : Timespec} {cb udata : Nat}
    {tnode lnode : Option Nat} (admissible : Admissible s (.newPoint absTs cb udata tnode lnode))
    (h : step s (.newPoint absTs cb udata tnode lnode) = some s') :
    ∃ σ', Accepts Schedule.Step σ (observe s (.newPoint absTs cb udata tnode lnode)) σ' ∧
      Rel s' σ' := by
  obtain ⟨inv', hctl, hnodes, r, heq, hcase⟩ := rel.inv.newPoint h
  rcases hcase with ⟨-, -, -, hout⟩ | ⟨p, tn, rfl, hfree, hpoints, hdue⟩
  · exact (hout.elim admissible.1 admissible.2).elim
  have hnot : s.ctl.runningPoint ≠ some p := by
    intro hp
    obtain ⟨c, hc, -⟩ := rel.inv.runningAlloc p hp
    exact absurd (hfree.symm.trans hc) (by simp)
  have hnew : σ.handler p = none := by
    simp [rel.represents.handler p, NebEvdpTimer.handler, hfree]
  let σ' := { σ with handler := Function.update σ.handler p (some (cb, udata)) }.put p absTs
  have hstep : Schedule.Step σ (.created p absTs (cb, udata)) σ' :=
    .created hnew (by rwa [rel.progress.running])
  refine ⟨σ', ?_, inv', OwnRef.ofStep rel.ownRef rel.inv id h, ⟨?_, ?_⟩, ?_⟩
  · simpa [observe, heq] using Accepts.single hstep
  · intro q
    by_cases hqp : q = p
    · subst hqp
      simp [σ', Schedule.Plan.put, NebEvdpTimer.handler, hpoints]
    · rw [handler_update hpoints hqp, ← rel.represents.handler q]
      simp [σ', Schedule.Plan.put, hqp]
  · intro q d
    rw [hdue]
    by_cases hqp : q = p
    · subst hqp
      have hnone : ¬ Due s.timer q d := by
        intro hd
        obtain ⟨-, c, a, hc, -⟩ := rel.inv.shape.due_ref hd
        exact absurd (hfree.symm.trans hc) (by simp)
      simp [σ', Schedule.Plan.put, hnone, eq_comm]
    · rw [← rel.represents.entry q d]
      simp [σ', Schedule.Plan.put, hqp]
  · refine rel.progress.userOp (step_new_point_turn h) hctl rfl (Nat.le_succ _)
      (fun a d _ hat => hnodes a d hat) ?_
    intro q e he
    by_cases hqp : q = p
    · subst hqp
      right
      obtain rfl : _ = e := by simpa [σ', Schedule.Plan.put] using he
      exact ⟨rfl, rfl⟩
    · left
      simpa [σ', Schedule.Plan.put, hqp] using he

private theorem entry_drop (represents : Represents s.timer σ) {t' : NebEvdpTimer} {p : PointAddr}
    (due : ∀ q d, Due t' q d ↔ q ≠ p ∧ Due s.timer q d) (q : PointAddr) (d : Timespec) :
    (∃ e, (σ.drop p).entry q = some e ∧ e.due = d) ↔ Due t' q d := by
  rw [due]
  by_cases hqp : q = p
  · simp [Schedule.Plan.drop, hqp]
  · rw [← represents.entry q d]
    simp [Schedule.Plan.drop, hqp]

private theorem Rel.delPoint (rel : Rel s σ) {p : PointAddr}
    (h : step s (.delPoint p) = some s') :
    ∃ σ', Accepts Schedule.Step σ (observe s (.delPoint p)) σ' ∧ Rel s' σ' := by
  have inv' := rel.inv.ofStep (rel.inv.not_strands rel.ownRef _) h
  have own' : OwnRef s' := OwnRef.ofStep rel.ownRef rel.inv id h
  have hsub : ∀ q e, (σ.drop p).entry q = some e → σ.entry q = some e := by
    intro q e he
    by_cases hqp : q = p
    · simp [Schedule.Plan.drop, hqp] at he
    · simpa [Schedule.Plan.drop, hqp] using he
  refine ⟨σ.drop p, .single .deleted, ?_⟩
  by_cases hp : s.ctl.runningPoint = some p
  · obtain ⟨-, hctl, htree, c, hc, hpoints⟩ := rel.inv.delPoint_running hp h
    have hrun := (rel.inv.running p c hc).mpr hp
    refine ⟨inv', own', ⟨?_, ?_⟩, ?_⟩
    · intro q
      by_cases hqp : q = p
      · subst hqp
        simp [Schedule.Plan.drop, NebEvdpTimer.handler, hpoints, hrun]
      · rw [handler_update hpoints hqp, ← rel.represents.handler q]
        simp [Schedule.Plan.drop, hqp]
    · refine entry_drop rel.represents ?_
      intro q d
      have hsame : Due s'.timer q d ↔ Due s.timer q d := due_congr (fun m => by rw [htree]) q d
      rw [hsame]
      refine ⟨fun hd => ⟨?_, hd⟩, fun hd => hd.2⟩
      rintro rfl
      exact (rel.inv.shape.due_ref hd).1 hp
    · refine rel.progress.userOp (step_del_point_turn h) hctl rfl le_rfl ?_
        (fun q e he => .inl (hsub q e he))
      intro a d _ hat
      unfold NodeAt at hat ⊢
      rwa [htree]
  · obtain ⟨hctl, -, hpoints, hdue, hnodes, -⟩ := rel.inv.delPoint_effect hp h
    refine ⟨inv', own', ⟨?_, ?_⟩, ?_⟩
    · intro q
      by_cases hqp : q = p
      · subst hqp
        simp [Schedule.Plan.drop, NebEvdpTimer.handler, hpoints]
      · rw [handler_update hpoints hqp, ← rel.represents.handler q]
        simp [Schedule.Plan.drop, hqp]
    · exact entry_drop rel.represents hdue
    · refine rel.progress.userOp (step_del_point_turn h) hctl rfl le_rfl ?_
        (fun q e he => .inl (hsub q e he))
      intro a d hactive hat
      exact hnodes a d hat (rel.inv.active_not_sole hactive p)

private theorem Rel.pointReset (rel : Rel s σ) {p : PointAddr} {absTs : Timespec}
    {tnode : Option TnodeAddr} (admissible : Admissible s (.pointReset p absTs tnode))
    (h : step s (.pointReset p absTs tnode) = some s') :
    ∃ σ', Accepts Schedule.Step σ (observe s (.pointReset p absTs tnode)) σ' ∧ Rel s' σ' := by
  have inv' := rel.inv.ofStep (rel.inv.not_strands rel.ownRef _) h
  obtain ⟨hgot, hp⟩ := admissible
  have hother : ¬ ResetsRunning s (.pointReset p absTs tnode) := hp
  have own' : OwnRef s' := OwnRef.ofStep rel.ownRef rel.inv hother h
  obtain ⟨hctl, -, c, r, hc, hrun, heq, hcase⟩ := rel.inv.pointReset_effect hp h
  rcases hcase with ⟨-, -, hout⟩ | ⟨rfl, -, ⟨tn, hpoints⟩, hdue, hnodes, -⟩
  · exact absurd hout hgot
  have halive : σ.handler p = some (c.onTimeout, c.udata) := by
    simp [rel.represents.handler p, NebEvdpTimer.handler, hc, hrun]
  have hstep : Schedule.Step σ (.reset p absTs) (σ.put p absTs) :=
    .reset halive (by rwa [rel.progress.running])
  refine ⟨σ.put p absTs, ?_, inv', own', ⟨?_, ?_⟩, ?_⟩
  · simpa [observe, heq] using Accepts.single hstep
  · intro q
    by_cases hqp : q = p
    · subst hqp
      simp [Schedule.Plan.put, NebEvdpTimer.handler, hpoints, hrun, halive]
    · rw [handler_update hpoints hqp, ← rel.represents.handler q]
      rfl
  · intro q d
    rw [hdue]
    by_cases hqp : q = p
    · subst hqp
      simp [Schedule.Plan.put, eq_comm]
    · rw [← rel.represents.entry q d]
      simp [Schedule.Plan.put, hqp]
  · refine rel.progress.userOp (step_point_reset_turn h) hctl rfl (Nat.le_succ _) ?_ ?_
    · intro a d hactive hat
      exact hnodes a d hat (fun hsole => absurd hsole (rel.inv.active_not_sole hactive p))
    · intro q e he
      by_cases hqp : q = p
      · subst hqp
        right
        obtain rfl : _ = e := by simpa [Schedule.Plan.put] using he
        exact ⟨rfl, rfl⟩
      · left
        simpa [Schedule.Plan.put, hqp] using he

private theorem min_due (inv : Inv s) :
    (rbTreeMin s.timer.rbtree = none → ∀ q e, ¬ Due s.timer q e) ∧
    ∀ b, rbTreeMin s.timer.rbtree = some b →
      ∃ d, NodeAt s.timer b d ∧ ∀ q e, Due s.timer q e → d ≤ e := by
  obtain ⟨hnone, hsome⟩ := rb_tree_min_spec inv.shape.sorted
  constructor
  · rintro hmin q e ⟨n, hn, -⟩
    simp [hnone hmin] at hn
  · intro b hb
    obtain ⟨k, hk, hkb, hle⟩ := hsome b hb
    refine ⟨k.ts, ⟨k, hk, hkb, rfl⟩, ?_⟩
    rintro q e ⟨n, hn, -, rfl⟩
    exact hle n hn

private theorem Rel.runUntil (rel : Rel s σ) {absTs : Timespec}
    (h : step s (.runUntil absTs) = some s') :
    ∃ σ', Accepts Schedule.Step σ (observe s (.runUntil absTs)) σ' ∧ Rel s' σ' := by
  obtain ⟨inv', hidle, rfl⟩ := rel.inv.runUntil h
  obtain ⟨hnone, hsome⟩ := min_due rel.inv
  have hcall : σ.call = none := by simpa [Progress, hidle] using rel.progress
  refine ⟨_, .single (.opened hcall), inv', by simp [Ctl.runningPoint],
    ⟨rel.represents.handler, rel.represents.entry⟩, ?_⟩
  refine ⟨_, rfl, rfl, rfl, rfl, le_rfl, ?_, ?_⟩
  · intro hmin q e he
    exact absurd ((rel.represents.entry q e.due).mp ⟨e, he, rfl⟩) (hnone hmin q e.due)
  · intro b hb
    obtain ⟨d, hat, hle⟩ := hsome b hb
    refine ⟨d, hat, by simp, ?_⟩
    intro q e he hlt
    exact absurd hlt (not_lt.mpr (hle q e.due ((rel.represents.entry q e.due).mp ⟨e, he, rfl⟩)))

private theorem Rel.fired (rel : Rel s σ) {lim : Timespec} {k : Nat} {a : TnodeAddr}
    {d : Timespec} {ln : PointAddr} {c : EvdpTimerCblistNode} {t' : NebEvdpTimer}
    (inv' : Inv ⟨t', .callback lim k a ln⟩) (own' : OwnRef ⟨t', .callback lim k a ln⟩)
    (ctl : s.ctl = .drain lim k a)
    (hat : NodeAt s.timer a d) (waits : Due s.timer ln d) (point : s.timer.points ln = some c)
    (ref : c.refTnode = some a)
    (points : t'.points = Function.update s.timer.points ln (some { c with running := true }))
    (nodes : ∀ b e, NodeAt t' b e ↔ NodeAt s.timer b e)
    (due : ∀ q e, Due t' q e ↔ q ≠ ln ∧ Due s.timer q e) :
    ∃ σ', Schedule.Step σ (.fired ln (c.onTimeout, c.udata)) σ' ∧
      Rel ⟨t', .callback lim k a ln⟩ σ' := by
  have hprogress := rel.progress
  simp only [Progress, ctl] at hprogress
  obtain ⟨call, d', hcall, hlim, hrun, hlen, hopened, hat', hle, hreached⟩ := hprogress
  obtain rfl := rel.inv.shape.node_at_unique hat hat'
  obtain ⟨e, he, rfl⟩ := (rel.represents.entry ln d).mpr waits
  have halive : σ.handler ln = some (c.onTimeout, c.udata) := by
    simp [rel.represents.handler ln, NebEvdpTimer.handler, point, ref]
  refine ⟨_, .fired hcall hrun halive he (hlim ▸ hle) hreached.fired, inv', own', ⟨?_, ?_⟩, ?_⟩
  · intro q
    by_cases hql : q = ln
    · subst hql
      simp [halive, NebEvdpTimer.handler, points, ref]
    · exact (rel.represents.handler q).trans (handler_update points hql).symm
  · intro q f
    rw [due]
    by_cases hql : q = ln
    · simp [hql]
    · rw [← rel.represents.entry q f]
      simp [hql]
  · refine ⟨_, e.due, rfl, hlim, rfl, by simp [hlen], hopened, (nodes _ _).mpr hat, hle, ?_, ?_⟩
    · intro f hf
      rcases List.mem_append.mp hf with hf | hf
      · exact hreached.fired f hf
      · obtain rfl := List.mem_singleton.mp hf
        exact le_rfl
    · intro q f hq hlt
      by_cases hql : q = ln
      · simp [hql] at hq
      · exact hreached.behind q f (by simpa [hql] using hq) hlt

private theorem Rel.closed (rel : Rel s σ) (inv' : Inv ⟨s.timer, .idle⟩)
    (c : Schedule.Call PointAddr Timespec) (k : Nat) :
    Rel ⟨s.timer, .idle⟩
      { σ with call := none, returned := ⟨c, k, σ.entry⟩ :: σ.returned } where
  inv := inv'
  ownRef := by simp [Ctl.runningPoint]
  represents := ⟨rel.represents.handler, rel.represents.entry⟩
  progress := rfl

private theorem Rel.proceed (rel : Rel s σ) (h : step s .proceed = some s') :
    ∃ σ', Accepts Schedule.Step σ (observe s .proceed) σ' ∧ Rel s' σ' := by
  obtain ⟨inv', hproceeds⟩ := rel.inv.proceed h
  have own' : OwnRef s' := OwnRef.ofStep rel.ownRef rel.inv id h
  have hprogress := rel.progress
  have hentry : ∀ {q e}, σ.entry q = some e → Due s.timer q e.due :=
    fun he => (rel.represents.entry _ _).mp ⟨_, he, rfl⟩
  cases hproceeds with
  | @finished lim k ctl =>
    simp only [Progress, ctl] at hprogress
    obtain ⟨c, hcall, -, hrun, hlen, -, hbehind, -⟩ := hprogress
    have hstep := Schedule.Step.closed hcall hrun hlen.symm
      (fun p e he _ => hbehind trivial p e he)
    refine ⟨_, ?_, rel.closed inv' c k⟩
    simpa only [observe, ctl, h] using Accepts.single hstep
  | @stopped lim k a d ctl hat past =>
    simp only [Progress, ctl] at hprogress
    obtain ⟨c, hcall, rfl, hrun, hlen, -, -, hnode⟩ := hprogress
    obtain ⟨d', hat', hreached⟩ := hnode a rfl
    obtain rfl := rel.inv.shape.node_at_unique hat hat'
    have hstep := Schedule.Step.closed hcall hrun hlen.symm
      (fun p e he hle => hreached.behind p e he (hle.trans_lt past))
    refine ⟨_, ?_, rel.closed inv' c k⟩
    simpa only [observe, ctl, h] using Accepts.single hstep
  | @opened lim k a d t' ctl hat within points nodes due =>
    simp only [Progress, ctl] at hprogress
    obtain ⟨c, hcall, hlim, hrun, hlen, hopened, -, hnode⟩ := hprogress
    obtain ⟨d', hat', hreached⟩ := hnode a rfl
    obtain rfl := rel.inv.shape.node_at_unique hat hat'
    refine ⟨σ, by simpa [observe, ctl, h] using Accepts.nil σ, inv', by simp [Ctl.runningPoint],
      ⟨?_, ?_⟩, ?_⟩
    · intro p
      rw [rel.represents.handler p]
      simp [NebEvdpTimer.handler, points]
    · exact fun p e => (rel.represents.entry p e).trans (due p e).symm
    · exact ⟨c, d, hcall, hlim, hrun, hlen, hopened, (nodes a d).mpr hat, within, hreached⟩
  | @fired lim k a d ln c t' ctl hat waits point ref points nodes due =>
    obtain ⟨σ', hstep, rel'⟩ := rel.fired inv' own' ctl hat waits point ref points nodes due
    refine ⟨σ', ?_, rel'⟩
    simpa [observe, ctl, h, point] using Accepts.single hstep
  | @closed lim k a d nxt t' ctl hat points due last next =>
    simp only [Progress, ctl] at hprogress
    obtain ⟨c, d', hcall, hlim, hrun, hlen, hopened, hat', -, hreached⟩ := hprogress
    obtain rfl := rel.inv.shape.node_at_unique hat hat'
    refine ⟨σ, by simpa [observe, ctl, h] using Accepts.nil σ, inv', by simp [Ctl.runningPoint],
      ⟨?_, ?_⟩, ?_⟩
    · intro p
      rw [rel.represents.handler p]
      simp [NebEvdpTimer.handler, points]
    · exact fun p e => (rel.represents.entry p e).trans (due p e).symm
    · refine ⟨c, hcall, hlim, hrun, hlen, hopened, ?_, ?_⟩
      · exact fun hnone p e he => hreached.behind p e he (last hnone p e.due (hentry he))
      · intro b hb
        obtain ⟨e, hbe, hlt, hbetween⟩ := next b hb
        refine ⟨e, hbe, fun f hf => (hreached.fired f hf).trans hlt.le, ?_⟩
        exact fun p f hf hfe => hreached.behind p f hf (hbetween p f.due (hentry hf) hfe)

private theorem Rel.cbReturn (rel : Rel s σ) {tret : NebEvdpTimeoutRet}
    (h : step s (.cbReturn tret) = some s') :
    ∃ σ', Accepts Schedule.Step σ (observe s (.cbReturn tret)) σ' ∧ Rel s' σ' := by
  obtain ⟨inv', lim, k, tn, ln, c, hctl, hc, hctl', hpoints, hnodes, hdue⟩ := rel.inv.cbReturn h
  have hprogress := rel.progress
  simp only [Progress, hctl] at hprogress
  obtain ⟨call, d, hcall, hlim, hrun, hlen, hopened, hat, hle, hreached⟩ := hprogress
  have hown : ∀ a, c.refTnode = some a → a = tn := by
    intro a ha
    have hactive := rel.ownRef ln c a (by rw [hctl]; rfl) hc ha
    rw [hctl] at hactive
    exact (Option.some.inj hactive).symm
  have hrunning : c.running = true := (rel.inv.running ln c hc).mpr (by rw [hctl]; rfl)
  refine ⟨_, by simpa [observe, hctl] using Accepts.single (.finished hcall hrun), inv', ?_,
    ⟨?_, ?_⟩, ?_⟩
  · simp [hctl', Ctl.runningPoint]
  · intro q
    by_cases hql : q = ln
    · subst hql
      have hold := rel.represents.handler q
      simp only [NebEvdpTimer.handler, hc, Option.bind_some, hrunning, true_and] at hold
      simp only [NebEvdpTimer.handler, hpoints, Function.update_self]
      cases href : c.refTnode with
      | none => cases tret <;> simp [returnedPoint, href, hold]
      | some a => cases tret <;> simp [returnedPoint, href, hold]
    · rw [handler_update hpoints hql, ← rel.represents.handler q]
      cases tret <;> simp [hql]
  · intro q e
    refine (rel.represents.entry q e).trans ?_
    rw [hdue q e, or_iff_right]
    rintro ⟨-, -, a, ha, hne, -⟩
    exact hne (hown a ha)
  · unfold Progress
    rw [hctl']
    exact ⟨_, d, rfl, hlim, rfl, hlen, hopened, (hnodes tn d).mpr hat, hle, hreached.fired,
      hreached.behind⟩

theorem Rel.ofStep (rel : Rel s σ) {a : Action} (admissible : Admissible s a)
    (h : step s a = some s') :
    ∃ σ', Accepts Schedule.Step σ (observe s a) σ' ∧ Rel s' σ' := by
  cases a with
  | newPoint absTs cb udata tnode lnode => exact rel.newPoint admissible h
  | delPoint p => exact rel.delPoint h
  | pointReset p absTs tnode => exact rel.pointReset admissible h
  | runUntil absTs => exact rel.runUntil h
  | proceed => exact rel.proceed h
  | cbReturn tret => exact rel.cbReturn h

/-- After its callback a point is unscheduled; it is still there if the callback returned KEEP and
had not deleted it. -/
private theorem Rel.finished (rel : Rel s σ) {tret : NebEvdpTimeoutRet} {ln : PointAddr}
    (running : s.ctl.runningPoint = some ln) (h : step s (.cbReturn tret) = some s') :
    (∀ d, ¬ Due s'.timer ln d) ∧
      ((s'.timer.points ln).isSome ↔ tret = .keep ∧ (s.timer.handler ln).isSome) := by
  obtain ⟨inv', lim, k, tn, ln', c, hctl, hc, -, hpoints, -, hdue⟩ := rel.inv.cbReturn h
  obtain rfl : ln' = ln := by simpa [hctl, Ctl.runningPoint] using running
  have hown : ∀ a, c.refTnode = some a → a = tn := by
    intro a ha
    have hactive := rel.ownRef ln' c a running hc ha
    rw [hctl] at hactive
    exact (Option.some.inj hactive).symm
  have hrunning : c.running = true := (rel.inv.running ln' c hc).mpr running
  constructor
  · intro d hd
    rcases (hdue ln' d).mp hd with ⟨-, -, a, ha, hne, -⟩ | hold
    · exact hne (hown a ha)
    · exact (rel.inv.shape.due_ref hold).1 running
  · rw [hpoints, Function.update_self]
    cases href : c.refTnode with
    | none => cases tret <;> simp [returnedPoint, NebEvdpTimer.handler, hc, href, hrunning]
    | some a => cases tret <;> simp [returnedPoint, NebEvdpTimer.handler, hc, href]

end Simulation

/-- In every admissible run nothing undefined happens; what the run shows of itself is accepted by
the abstract schedule, which has the points of the timer with their deadlines at the end; every
call of `run_until` that has returned was correct; and a point whose callback returns is left
unscheduled, and alive exactly when the callback said KEEP and had not deleted it. -/
theorem nebEvdpTimer_refines_schedule (tcacheSize lcacheSize : Nat) (as : List Action)
    (s : State)
    (admissible : Machine.StepsMeet step Admissible (start tcacheSize lcacheSize) as)
    (reached : Machine.run step (start tcacheSize lcacheSize) as = some s) :
    s.ctl ≠ .undefined ∧
    (∃ σ, Accepts Schedule.Step Schedule.empty
        (Machine.trace step observe (start tcacheSize lcacheSize) as) σ ∧
      Represents s.timer σ ∧ ∀ r ∈ σ.returned, r.Correct) ∧
    ∀ tret ln s', s.ctl.runningPoint = some ln → step s (.cbReturn tret) = some s' →
      (∀ d, ¬ Due s'.timer ln d) ∧
      ((s'.timer.points ln).isSome ↔ tret = .keep ∧ (s.timer.handler ln).isSome) := by
  obtain ⟨σ, haccepts, rel⟩ := Machine.simulation_run (R := Rel)
    (fun s a t σ rel ok h => rel.ofStep ok h) (.start tcacheSize lcacheSize) admissible reached
  refine ⟨rel.inv.defined, ⟨σ, haccepts, rel.represents, Schedule.Accepts.correct haccepts⟩, ?_⟩
  exact fun tret ln s' running h => rel.finished running h

/-- A callback deletes its own point and creates two others, one before and one after the node
being processed. -/
theorem nebEvdpTimer_refines_schedule_callback :
    let as : List Action :=
      [.newPoint ⟨2, 0⟩ 7 8 (some 10) (some 100), .runUntil ⟨5, 0⟩, .proceed, .proceed,
        .delPoint 100, .newPoint ⟨1, 0⟩ 7 8 (some 11) (some 101),
        .newPoint ⟨3, 0⟩ 7 8 (some 12) (some 102), .cbReturn .keep, .proceed, .proceed,
        .proceed]
    ∃ s, Machine.run step (start 4 4) as = some s ∧ s.ctl ≠ .undefined ∧
    (∃ σ, Accepts Schedule.Step Schedule.empty (Machine.trace step observe (start 4 4) as) σ ∧
      Represents s.timer σ ∧ ∀ r ∈ σ.returned, r.Correct) ∧
    ∀ tret ln s', s.ctl.runningPoint = some ln → step s (.cbReturn tret) = some s' →
      (∀ d, ¬ Due s'.timer ln d) ∧
      ((s'.timer.points ln).isSome ↔ tret = .keep ∧ (s.timer.handler ln).isSome) := by
  intro as
  refine ⟨_, rfl, nebEvdpTimer_refines_schedule 4 4 as _ ?_ rfl⟩
  simp [as, Machine.StepsMeet, Admissible, NebEvdpTimer.OutOfTnodes]

end Nebase.Evdp.Timer
