/- Reference integrity of a timer, in every state of a run: which calls made inside a callback
   keep it, and that any other call breaks it at once. -/

import Nebase.Evdp.Timer.Ops

set_option autoImplicit false
set_option relaxedAutoImplicit false

namespace Nebase.Evdp.Timer

open Nebase.Time Nebase.Foundation

def Ctl.active : Ctl → Option TnodeAddr
  | .drain _ _ tn => some tn
  | .callback _ _ tn _ => some tn
  | _ => none

def Ctl.runningPoint : Ctl → Option PointAddr
  | .callback _ _ _ ln => some ln
  | _ => none

structure Inv (s : State) : Prop where
  defined : s.ctl ≠ .undefined
  shape : Shape s.timer s.ctl.active {p | s.ctl.runningPoint = some p}
  running : ∀ p c, s.timer.points p = some c →
    (c.running = true ↔ s.ctl.runningPoint = some p)
  runningAlloc : ∀ p, s.ctl.runningPoint = some p → ∃ c, s.timer.points p = some c ∧
    ∀ a, c.refTnode = some a → ∃ d, NodeAt s.timer a d
  scanMem : ∀ l k a, s.ctl = .scan l k (some a) → ∃ d, NodeAt s.timer a d

theorem Inv.start (tcacheSize lcacheSize : Nat) : Inv (start tcacheSize lcacheSize) where
  defined := by simp [Timer.start]
  shape := by simpa [Timer.start, Ctl.active, Ctl.runningPoint] using
    Shape.create tcacheSize lcacheSize
  running := by simp [Timer.start, nebEvdpTimerCreate]
  runningAlloc := by simp [Timer.start, Ctl.runningPoint]
  scanMem := by simp [Timer.start]

/-- The running point refers to the node at `a`. -/
def RunningRef (s : State) (a : TnodeAddr) : Prop :=
  ∃ r c, s.ctl.runningPoint = some r ∧ s.timer.points r = some c ∧ c.refTnode = some a

/-- The call takes the only waiting point away from a node the running point has been reset to,
so that the node is deleted under it. -/
def Strands (s : State) : Action → Prop
  | .delPoint p => ∃ a, RunningRef s a ∧ SoleUser s.timer p a
  | .pointReset p absTs tnode =>
    ¬ s.timer.OutOfTnodes tnode ∧
      ∃ a, RunningRef s a ∧ SoleUser s.timer p a ∧ ¬ NodeAt s.timer a absTs
  | _ => False

/-! Whether a call strands the running point can be computed. -/

instance (t : NebEvdpTimer) (a : TnodeAddr) (d : Timespec) : Decidable (NodeAt t a d) :=
  inferInstanceAs (Decidable (∃ n ∈ t.rbtree, n.addr = a ∧ n.ts = d))

instance (t : NebEvdpTimer) (p : PointAddr) (d : Timespec) : Decidable (Due t p d) :=
  inferInstanceAs (Decidable (∃ n ∈ t.rbtree, p ∈ n.cblist ∧ n.ts = d))

instance (t : NebEvdpTimer) (p : PointAddr) (a : TnodeAddr) : Decidable (SoleUser t p a) :=
  inferInstanceAs (Decidable (∃ n ∈ t.rbtree, n.addr = a ∧ n.noAutoDel = false ∧ n.cblist = [p]))

instance (t : NebEvdpTimer) (calloc : Option TnodeAddr) : Decidable (t.OutOfTnodes calloc) :=
  inferInstanceAs (Decidable (t.tcache.nodes = [] ∧ calloc = none))

theorem runningRef_iff (s : State) (a : TnodeAddr) :
    RunningRef s a ↔ ((s.ctl.runningPoint.bind s.timer.points).bind (·.refTnode)) = some a := by
  simp only [RunningRef, Option.bind_eq_some_iff]
  constructor
  · rintro ⟨r, c, hr, hc, ha⟩
    exact ⟨c, ⟨r, hr, hc⟩, ha⟩
  · rintro ⟨c, ⟨r, hr, hc⟩, ha⟩
    exact ⟨r, c, hr, hc, ha⟩

instance (s : State) (a : TnodeAddr) : Decidable (RunningRef s a) :=
  decidable_of_iff _ (runningRef_iff s a).symm

private theorem soleUser_mem {s : State} {p : PointAddr} {Q : TnodeAddr → Prop} :
    (∃ n ∈ s.timer.rbtree, SoleUser s.timer p n.addr ∧ Q n.addr) ↔
      ∃ a, SoleUser s.timer p a ∧ Q a := by
  constructor
  · rintro ⟨n, -, h⟩
    exact ⟨n.addr, h⟩
  · rintro ⟨a, ⟨n, hn, rfl, h⟩, hQ⟩
    exact ⟨n, hn, ⟨n, hn, rfl, h⟩, hQ⟩

instance (s : State) : ∀ a, Decidable (Strands s a)
  | .delPoint p =>
    decidable_of_iff (∃ n ∈ s.timer.rbtree, SoleUser s.timer p n.addr ∧ RunningRef s n.addr)
      (soleUser_mem.trans (exists_congr fun _ => and_comm))
  | .pointReset p absTs tnode =>
    decidable_of_iff (¬ s.timer.OutOfTnodes tnode ∧ ∃ n ∈ s.timer.rbtree,
        SoleUser s.timer p n.addr ∧ RunningRef s n.addr ∧ ¬ NodeAt s.timer n.addr absTs)
      (and_congr_right fun _ =>
        (soleUser_mem (Q := fun a => RunningRef s a ∧ ¬ NodeAt s.timer a absTs)).trans
          (exists_congr fun _ => and_left_comm))
  | .newPoint .. => isFalse id
  | .runUntil _ => isFalse id
  | .proceed => isFalse id
  | .cbReturn _ => isFalse id

section Steps

variable {s s' : State}

private theorem Inv.userOp (turn : s.userTurn = true) {t' : NebEvdpTimer}
    (shape : Shape t' s.ctl.active {p | s.ctl.runningPoint = some p})
    (running : ∀ p c, t'.points p = some c → (c.running = true ↔ s.ctl.runningPoint = some p))
    (runningAlloc : ∀ p, s.ctl.runningPoint = some p → ∃ c, t'.points p = some c ∧
      ∀ a, c.refTnode = some a → ∃ d, NodeAt t' a d) : Inv ⟨t', s.ctl⟩ where
  defined := by
    intro h
    change s.ctl = .undefined at h
    simp [State.userTurn, h] at turn
  shape := shape
  running := running
  runningAlloc := runningAlloc
  scanMem := by
    intro l k a h
    change s.ctl = .scan l k (some a) at h
    simp [State.userTurn, h] at turn

private theorem running_update {points : PointAddr → Option EvdpTimerCblistNode}
    {r : Option PointAddr} (running : ∀ p c, points p = some c → (c.running = true ↔ r = some p))
    {p : PointAddr} {oc : Option EvdpTimerCblistNode}
    (new : ∀ c, oc = some c → (c.running = true ↔ r = some p)) :
    ∀ q c, Function.update points p oc q = some c → (c.running = true ↔ r = some q) := by
  intro q c hq
  by_cases hqp : q = p
  · obtain rfl := hqp
    exact new c (by simpa using hq)
  · rw [Function.update_of_ne hqp] at hq
    exact running q c hq

theorem step_new_point_turn {absTs : Timespec} {cb udata : Nat} {tnode lnode : Option Nat}
    (h : step s (.newPoint absTs cb udata tnode lnode) = some s') : s.userTurn = true := by
  simp only [step] at h
  split_ifs at h with hguard
  exact hguard.1

theorem Inv.newPoint (inv : Inv s) {absTs : Timespec} {cb udata : Nat} {tnode lnode : Option Nat}
    (h : step s (.newPoint absTs cb udata tnode lnode) = some s') :
    Inv s' ∧ s'.ctl = s.ctl ∧ (∀ a d, NodeAt s.timer a d → NodeAt s'.timer a d) ∧
      ∃ r, nebEvdpTimerNewPoint absTs cb udata tnode lnode s.timer = some (r, s'.timer) ∧
        ((r = none ∧ s'.timer.points = s.timer.points ∧
            (∀ q d, Due s'.timer q d ↔ Due s.timer q d) ∧
            (s.timer.OutOfTnodes tnode ∨ s.timer.lcache.nodes = [] ∧ lnode = none)) ∨
          ∃ p tn, r = some p ∧ s.timer.points p = none ∧
            s'.timer.points =
              Function.update s.timer.points p (some ⟨cb, udata, false, some tn⟩) ∧
            ∀ q d, Due s'.timer q d ↔ q = p ∧ d = absTs ∨ Due s.timer q d) := by
  simp only [step] at h
  split_ifs at h with hguard
  obtain ⟨turn, freshT, freshL⟩ := hguard
  have allocated : ∀ q ∈ {p | s.ctl.runningPoint = some p}, s.timer.points q ≠ none := by
    intro q hq
    obtain ⟨c, hc, -⟩ := inv.runningAlloc q hq
    simp [hc]
  obtain ⟨r, t', heq, shape', hnode, hcase⟩ :=
    inv.shape.newPoint allocated freshT freshL absTs cb udata
  rw [heq] at h
  obtain rfl : (⟨t', s.ctl⟩ : State) = s' := by simpa [State.after] using h
  have hold : ∀ q c, s.timer.points q = some c → t'.points q = some c := by
    intro q c hq
    rcases hcase with ⟨-, hpoints, -⟩ | ⟨p, tn, -, hfree, hpoints, -⟩
    · rw [hpoints, hq]
    · have hqp : q ≠ p := by
        rintro rfl
        rw [hfree] at hq
        cases hq
      rw [hpoints, Function.update_of_ne hqp, hq]
  refine ⟨Inv.userOp turn shape' ?_ ?_, rfl, hnode, r, heq, hcase⟩
  · rcases hcase with ⟨-, hpoints, -⟩ | ⟨p, tn, -, hfree, hpoints, -⟩
    · rw [hpoints]
      exact inv.running
    · rw [hpoints]
      refine running_update inv.running ?_
      intro c hc
      obtain rfl := Option.some.inj hc
      simp only [Bool.false_eq_true, false_iff]
      exact fun hr => allocated p hr hfree
  · intro q hq
    obtain ⟨c, hc, href⟩ := inv.runningAlloc q hq
    refine ⟨c, hold q c hc, ?_⟩
    intro a ha
    obtain ⟨d, hd⟩ := href a ha
    exact ⟨d, hnode a d hd⟩

/-- Deleting the running point only marks it. -/
theorem Inv.delPoint_running (inv : Inv s) {p : PointAddr} (hp : s.ctl.runningPoint = some p)
    (h : step s (.delPoint p) = some s') :
    Inv s' ∧ s'.ctl = s.ctl ∧ s'.timer.rbtree = s.timer.rbtree ∧
      ∃ c, s.timer.points p = some c ∧
        s'.timer.points = Function.update s.timer.points p (some { c with refTnode := none }) := by
  simp only [step] at h
  split_ifs at h with hguard
  obtain ⟨c, hc, -⟩ := inv.runningAlloc p hp
  have hrun := (inv.running p c hc).mpr hp
  obtain ⟨t', heq, shape', htree, hpoints⟩ := inv.shape.delPoint_running hc hp hrun
  rw [heq] at h
  obtain rfl : (⟨t', s.ctl⟩ : State) = s' := by simpa [State.after] using h
  refine ⟨Inv.userOp hguard.1 shape' ?_ ?_, rfl, htree, c, hc, hpoints⟩
  · rw [hpoints]
    refine running_update inv.running ?_
    intro c' hc'
    obtain rfl := Option.some.inj hc'
    simp [hrun, hp]
  · intro q hq
    obtain rfl : p = q := Option.some.inj (hp.symm.trans hq)
    exact ⟨_, by rw [hpoints, Function.update_self], by simp⟩

/-- What deleting a point that is not running does, whether or not it strands the running one. -/
theorem Inv.delPoint_effect (inv : Inv s) {p : PointAddr} (hp : s.ctl.runningPoint ≠ some p)
    (h : step s (.delPoint p) = some s') :
    s'.ctl = s.ctl ∧ Shape s'.timer s.ctl.active {q | s.ctl.runningPoint = some q} ∧
      s'.timer.points = Function.update s.timer.points p none ∧
      (∀ q d, Due s'.timer q d ↔ q ≠ p ∧ Due s.timer q d) ∧
      (∀ a d, NodeAt s.timer a d → ¬ SoleUser s.timer p a → NodeAt s'.timer a d) ∧
      ∀ a d, SoleUser s.timer p a → ¬ NodeAt s'.timer a d := by
  simp only [step] at h
  split_ifs at h with hguard
  obtain ⟨c, hc⟩ := Option.isSome_iff_exists.mp hguard.2
  have hrun : c.running = false := by
    simpa using mt (inv.running p c hc).mp hp
  obtain ⟨t', heq, hrest⟩ := inv.shape.delPoint hc hp hrun
  rw [heq] at h
  obtain rfl : (⟨t', s.ctl⟩ : State) = s' := by simpa [State.after] using h
  exact ⟨rfl, hrest⟩

theorem step_del_point_turn {p : PointAddr} (h : step s (.delPoint p) = some s') :
    s.userTurn = true := by
  simp only [step] at h
  split_ifs at h with hguard
  exact hguard.1

theorem Inv.delPoint (inv : Inv s) {p : PointAddr} (hp : s.ctl.runningPoint ≠ some p)
    (keeps : ¬ Strands s (.delPoint p)) (h : step s (.delPoint p) = some s') : Inv s' := by
  obtain ⟨hctl, shape', hpoints, -, hnode, -⟩ := inv.delPoint_effect hp h
  obtain ⟨t', ctl'⟩ := s'
  obtain rfl : ctl' = s.ctl := hctl
  refine Inv.userOp (step_del_point_turn h) shape' ?_ ?_
  · change ∀ q c, t'.points q = some c → _
    rw [show t'.points = _ from hpoints]
    exact running_update inv.running (by simp)
  · intro q hq
    obtain ⟨c, hc, href⟩ := inv.runningAlloc q hq
    have hqp : q ≠ p := fun heq => hp (heq ▸ hq)
    refine ⟨c, ?_, ?_⟩
    · rw [show t'.points = _ from hpoints, Function.update_of_ne hqp, hc]
    · intro a ha
      obtain ⟨d, hd⟩ := href a ha
      exact ⟨d, hnode a d hd (fun hsole => keeps ⟨a, ⟨q, c, hq, hc, ha⟩, hsole⟩)⟩

theorem Inv.pointReset_running (inv : Inv s) {p : PointAddr}
    (hp : s.ctl.runningPoint = some p) {absTs : Timespec} {tnode : Option TnodeAddr}
    (h : step s (.pointReset p absTs tnode) = some s') :
    Inv s' ∧ s'.ctl = s.ctl ∧ ∃ c r, s.timer.points p = some c ∧
      nebEvdpTimerPointReset p absTs tnode s.timer = some (r, s'.timer) ∧
      ((r = -1 ∧ s'.timer = s.timer ∧ s.timer.OutOfTnodes tnode) ∨
        r = 0 ∧ ¬ s.timer.OutOfTnodes tnode ∧
          (∃ tn, s'.timer.points =
              Function.update s.timer.points p (some { c with refTnode := some tn }) ∧
            NodeAt s'.timer tn absTs) ∧
          (∀ a d, NodeAt s.timer a d → NodeAt s'.timer a d) ∧
          ∀ q d, Due s'.timer q d ↔ Due s.timer q d) := by
  simp only [step] at h
  split_ifs at h with hguard
  obtain ⟨turn, fresh, -⟩ := hguard
  obtain ⟨c, hc, href⟩ := inv.runningAlloc p hp
  have hrun := (inv.running p c hc).mpr hp
  obtain ⟨r, t', heq, shape', hcase⟩ := inv.shape.pointReset_running hc hp hrun fresh absTs
  rw [heq] at h
  obtain rfl : (⟨t', s.ctl⟩ : State) = s' := by simpa [State.after] using h
  refine ⟨?_, rfl, c, r, hc, heq, hcase⟩
  rcases hcase with ⟨-, rfl, -⟩ | ⟨-, -, ⟨tn, hpoints, hat⟩, hnode, -⟩
  · exact inv
  · refine Inv.userOp turn shape' ?_ ?_
    · rw [hpoints]
      refine running_update inv.running ?_
      intro c' hc'
      obtain rfl := Option.some.inj hc'
      simp [hrun, hp]
    · intro q hq
      obtain rfl : p = q := Option.some.inj (hp.symm.trans hq)
      refine ⟨_, by rw [hpoints, Function.update_self], ?_⟩
      intro a ha
      obtain rfl : tn = a := Option.some.inj ha
      exact ⟨absTs, hat⟩

theorem Inv.pointReset_effect (inv : Inv s) {p : PointAddr}
    (hp : s.ctl.runningPoint ≠ some p) {absTs : Timespec} {tnode : Option TnodeAddr}
    (h : step s (.pointReset p absTs tnode) = some s') :
    s'.ctl = s.ctl ∧ Shape s'.timer s.ctl.active {q | s.ctl.runningPoint = some q} ∧
      ∃ c r, s.timer.points p = some c ∧ c.running = false ∧
        nebEvdpTimerPointReset p absTs tnode s.timer = some (r, s'.timer) ∧
        ((r = -1 ∧ s'.timer = s.timer ∧ s.timer.OutOfTnodes tnode) ∨
          r = 0 ∧ ¬ s.timer.OutOfTnodes tnode ∧
            (∃ tn, s'.timer.points =
              Function.update s.timer.points p (some { c with refTnode := some tn })) ∧
            (∀ q d, Due s'.timer q d ↔ q = p ∧ d = absTs ∨ q ≠ p ∧ Due s.timer q d) ∧
            (∀ a d, NodeAt s.timer a d → (SoleUser s.timer p a → d = absTs) →
              NodeAt s'.timer a d) ∧
            ∀ a, SoleUser s.timer p a → ¬ NodeAt s.timer a absTs →
              ∀ d, ¬ NodeAt s'.timer a d) := by
  simp only [step] at h
  split_ifs at h with hguard
  obtain ⟨c, hc⟩ := Option.isSome_iff_exists.mp hguard.2.2
  have hrun : c.running = false := by
    simpa using mt (inv.running p c hc).mp hp
  obtain ⟨r, t', heq, shape', hcase⟩ := inv.shape.pointReset hc hp hrun hguard.2.1 absTs
  rw [heq] at h
  obtain rfl : (⟨t', s.ctl⟩ : State) = s' := by simpa [State.after] using h
  exact ⟨rfl, shape', c, r, hc, hrun, heq, hcase⟩

theorem step_point_reset_turn {p : PointAddr} {absTs : Timespec} {tnode : Option TnodeAddr}
    (h : step s (.pointReset p absTs tnode) = some s') : s.userTurn = true := by
  simp only [step] at h
  split_ifs at h with hguard
  exact hguard.1

theorem Inv.pointReset (inv : Inv s) {p : PointAddr} (hp : s.ctl.runningPoint ≠ some p)
    {absTs : Timespec} {tnode : Option TnodeAddr}
    (keeps : ¬ Strands s (.pointReset p absTs tnode))
    (h : step s (.pointReset p absTs tnode) = some s') : Inv s' := by
  have turn := step_point_reset_turn h
  obtain ⟨hctl, shape', c, r, hc, hrun, -, hcase⟩ := inv.pointReset_effect hp h
  obtain ⟨t', ctl'⟩ := s'
  obtain rfl : ctl' = s.ctl := hctl
  rcases hcase with ⟨-, heq, -⟩ | ⟨-, hgot, ⟨tn, hpoints⟩, -, hnode, -⟩
  · obtain rfl : t' = s.timer := heq
    exact inv
  · change t'.points = _ at hpoints
    refine Inv.userOp turn shape' ?_ ?_
    · rw [hpoints]
      refine running_update inv.running ?_
      intro c' hc'
      obtain rfl := Option.some.inj hc'
      simp [hrun, hp]
    · intro q hq
      obtain ⟨cq, hcq, href⟩ := inv.runningAlloc q hq
      have hqp : q ≠ p := fun heq => hp (heq ▸ hq)
      refine ⟨cq, by rw [hpoints, Function.update_of_ne hqp, hcq], ?_⟩
      intro a ha
      obtain ⟨d, hd⟩ := href a ha
      refine ⟨d, hnode a d hd ?_⟩
      intro hsole
      by_contra hne
      refine keeps ⟨hgot, a, ⟨q, cq, hq, hcq, ha⟩, hsole, ?_⟩
      exact fun hat => hne (inv.shape.node_at_unique hd hat)

theorem Inv.runUntil (inv : Inv s) {absTs : Timespec} (h : step s (.runUntil absTs) = some s') :
    Inv s' ∧ s.ctl = .idle ∧ s' = ⟨s.timer, .scan absTs 0 (rbTreeMin s.timer.rbtree)⟩ := by
  simp only [step] at h
  split at h
  · rename_i hidle
    obtain rfl := Option.some.inj h
    refine ⟨?_, hidle, rfl⟩
    have hshape := inv.shape
    have hrunning := inv.running
    rw [hidle] at hshape hrunning
    refine ⟨by simp, hshape, hrunning, by simp [Ctl.runningPoint], ?_⟩
    intro l k a heq
    obtain ⟨-, -, hmin⟩ : absTs = l ∧ 0 = k ∧ rbTreeMin s.timer.rbtree = some a := by
      simpa using heq
    obtain ⟨n, hn, hna, -⟩ := (rb_tree_min_spec inv.shape.sorted).2 a hmin
    exact ⟨n.ts, n, hn, hna, rfl⟩
  · cases h

/-- What a step of `evdp_timer_run_until` between two callbacks does. -/
inductive Proceeds (s : State) : State → Prop
  | finished {lim : Timespec} {k : Nat} (ctl : s.ctl = .scan lim k none) :
      Proceeds s ⟨s.timer, .idle⟩
  | stopped {lim : Timespec} {k : Nat} {a : TnodeAddr} {d : Timespec}
      (ctl : s.ctl = .scan lim k (some a)) (at_ : NodeAt s.timer a d) (past : lim < d) :
      Proceeds s ⟨s.timer, .idle⟩
  | opened {lim : Timespec} {k : Nat} {a : TnodeAddr} {d : Timespec} {t' : NebEvdpTimer}
      (ctl : s.ctl = .scan lim k (some a)) (at_ : NodeAt s.timer a d) (within : d ≤ lim)
      (points : t'.points = s.timer.points) (nodes : ∀ b e, NodeAt t' b e ↔ NodeAt s.timer b e)
      (due : ∀ q e, Due t' q e ↔ Due s.timer q e) : Proceeds s ⟨t', .drain lim k a⟩
  | fired {lim : Timespec} {k : Nat} {a : TnodeAddr} {d : Timespec} {ln : PointAddr}
      {c : EvdpTimerCblistNode} {t' : NebEvdpTimer} (ctl : s.ctl = .drain lim k a)
      (at_ : NodeAt s.timer a d) (waits : Due s.timer ln d) (point : s.timer.points ln = some c)
      (ref : c.refTnode = some a)
      (points : t'.points = Function.update s.timer.points ln (some { c with running := true }))
      (nodes : ∀ b e, NodeAt t' b e ↔ NodeAt s.timer b e)
      (due : ∀ q e, Due t' q e ↔ q ≠ ln ∧ Due s.timer q e) :
      Proceeds s ⟨t', .callback lim k a ln⟩
  | closed {lim : Timespec} {k : Nat} {a : TnodeAddr} {d : Timespec} {nxt : Option TnodeAddr}
      {t' : NebEvdpTimer} (ctl : s.ctl = .drain lim k a) (at_ : NodeAt s.timer a d)
      (points : t'.points = s.timer.points) (due : ∀ q e, Due t' q e ↔ Due s.timer q e)
      (last : nxt = none → ∀ q e, Due s.timer q e → e < d)
      (next : ∀ b, nxt = some b → ∃ e, NodeAt t' b e ∧ d < e ∧
        ∀ q f, Due s.timer q f → f < e → f < d) : Proceeds s ⟨t', .scan lim k nxt⟩

private theorem Inv.open_tnode (inv : Inv s) {lim : Timespec} {k : Nat} {a : TnodeAddr}
    (hctl : s.ctl = .scan lim k (some a)) (h : proceedStep s = some s') :
    Inv s' ∧ Proceeds s s' := by
  have hshape := inv.shape
  have hrunning := inv.running
  rw [hctl] at hshape hrunning
  obtain ⟨d, n, hn, rfl, rfl⟩ := inv.scanMem lim k a hctl
  simp only [proceedStep, hctl, inv.shape.tnode_eq hn] at h
  by_cases hpast : lim < n.ts
  · rw [if_pos (show pastLimit n lim = true from (nebTimespeccmp_gt _ _).mpr hpast)] at h
    obtain rfl := Option.some.inj h
    exact ⟨⟨by simp, hshape, hrunning, by simp [Ctl.runningPoint], by simp⟩,
      .stopped hctl ⟨n, hn, rfl, rfl⟩ hpast⟩
  · have hnot : ¬ pastLimit n lim = true := mt (nebTimespeccmp_gt _ _).mp hpast
    rw [if_neg hnot] at h
    obtain rfl := Option.some.inj h
    exact ⟨⟨by simp, hshape.activate hn, hrunning, by simp [Ctl.runningPoint], by simp⟩,
      .opened hctl ⟨n, hn, rfl, rfl⟩ (not_lt.mp hpast) rfl (node_at_auto_del _ _)
        (due_auto_del _ _)⟩

private theorem Inv.drain_tnode (inv : Inv s) {lim : Timespec} {k : Nat} {a : TnodeAddr}
    (hctl : s.ctl = .drain lim k a) (h : proceedStep s = some s') :
    Inv s' ∧ Proceeds s s' := by
  have hshape := inv.shape
  have hrunning := inv.running
  rw [hctl] at hshape hrunning
  obtain ⟨n, hn, rfl⟩ := hshape.activeMem a rfl
  simp only [proceedStep, hctl, inv.shape.tnode_eq hn] at h
  split at h
  · rename_i ln rest hlist
    have hmem : ln ∈ n.cblist := by simp [hlist]
    obtain ⟨hloose, c, hc, href⟩ := hshape.linked n hn ln hmem
    obtain ⟨t', heq, shape', hpoints, hnodes, hdue⟩ := hshape.enterCallback hc hloose
    rw [heq] at h
    obtain rfl := Option.some.inj h
    have hset : insert ln {p | (Ctl.drain lim k n.addr).runningPoint = some p} =
        {p | (Ctl.callback lim k n.addr ln).runningPoint = some p} := by
      ext q
      simp [Ctl.runningPoint]
    rw [hset] at shape'
    refine ⟨⟨by simp [State.after], shape', ?_, ?_, by simp [State.after]⟩,
      .fired hctl ⟨n, hn, rfl, rfl⟩ ⟨n, hn, hmem, rfl⟩ hc href hpoints hnodes hdue⟩
    · intro q cq hq
      change t'.points q = some cq at hq
      change _ ↔ some ln = some q
      by_cases hql : q = ln
      · obtain rfl := hql
        rw [hpoints, Function.update_self] at hq
        obtain rfl := Option.some.inj hq
        simp
      · rw [hpoints, Function.update_of_ne hql] at hq
        have hold := hrunning q cq hq
        simp only [Ctl.runningPoint, reduceCtorEq, iff_false] at hold
        simp [hold, Ne.symm hql]
    · intro q hq
      obtain rfl : ln = q := Option.some.inj hq
      refine ⟨_, by change t'.points ln = _; rw [hpoints, Function.update_self], ?_⟩
      intro b hb
      obtain rfl : n.addr = b := Option.some.inj (href.symm.trans hb)
      exact ⟨n.ts, (hnodes _ _).mpr ⟨n, hn, rfl, rfl⟩⟩
  · rename_i hlist
    obtain rfl := Option.some.inj h
    obtain ⟨shape', hpoints, hdue, hlast, hnext⟩ := hshape.finishTnode hn hlist
    refine ⟨⟨by simp, shape', ?_, by simp [Ctl.runningPoint], ?_⟩,
      .closed hctl ⟨n, hn, rfl, rfl⟩ hpoints hdue hlast hnext⟩
    · intro q cq hq
      exact hrunning q cq (hpoints ▸ hq)
    · intro l k' b hscan
      obtain ⟨-, -, hnxt⟩ : lim = l ∧ k = k' ∧ _ = some b := by simpa using hscan
      obtain ⟨e, he, -⟩ := hnext b hnxt
      exact ⟨e, he⟩

theorem Inv.proceed (inv : Inv s) (h : step s .proceed = some s') : Inv s' ∧ Proceeds s s' := by
  change proceedStep s = some s' at h
  cases hctl : s.ctl with
  | scan lim k tn =>
    cases tn with
    | none =>
      have hshape := inv.shape
      have hrunning := inv.running
      rw [hctl] at hshape hrunning
      simp only [proceedStep, hctl] at h
      obtain rfl := Option.some.inj h
      exact ⟨⟨by simp, hshape, hrunning, by simp [Ctl.runningPoint], by simp⟩, .finished hctl⟩
    | some a => exact inv.open_tnode hctl h
  | drain lim k a => exact inv.drain_tnode hctl h
  | idle => simp [proceedStep, hctl] at h
  | callback lim k a ln => simp [proceedStep, hctl] at h
  | undefined => simp [proceedStep, hctl] at h

theorem Inv.cbReturn (inv : Inv s) {tret : NebEvdpTimeoutRet}
    (h : step s (.cbReturn tret) = some s') :
    Inv s' ∧ ∃ lim k tn ln c, s.ctl = .callback lim k tn ln ∧ s.timer.points ln = some c ∧
      s'.ctl = .drain lim (k + 1) tn ∧
      s'.timer.points = Function.update s.timer.points ln (returnedPoint tn tret c) ∧
      (∀ a d, NodeAt s'.timer a d ↔ NodeAt s.timer a d) ∧
      ∀ q d, Due s'.timer q d ↔
        (q = ln ∧ tret = .keep ∧ ∃ a, c.refTnode = some a ∧ a ≠ tn ∧ NodeAt s.timer a d) ∨
          Due s.timer q d := by
  simp only [step] at h
  split at h
  · rename_i lim k tn ln hctl
    have hshape := inv.shape
    have hrunning := inv.running
    rw [hctl] at hshape hrunning
    obtain ⟨c, hc, href⟩ := inv.runningAlloc ln (by rw [hctl]; rfl)
    have href' : ∀ a, c.refTnode = some a → ∃ n ∈ s.timer.rbtree, n.addr = a := by
      intro a ha
      obtain ⟨d, n, hn, hna, -⟩ := href a ha
      exact ⟨n, hn, hna⟩
    obtain ⟨t', heq, shape', hpoints, hnodes, hdue⟩ :=
      hshape.afterCallback tn hc rfl href' tret
    rw [heq] at h
    obtain rfl := Option.some.inj h
    have hset : ({p | (Ctl.callback lim k tn ln).runningPoint = some p} \ {ln} : Set PointAddr) =
        {p | (Ctl.drain lim (k + 1) tn).runningPoint = some p} := by
      ext q
      simp [Ctl.runningPoint]
    rw [hset] at shape'
    refine ⟨⟨by simp [State.after], shape', ?_, by simp [State.after, Ctl.runningPoint],
      by simp [State.after]⟩, lim, k, tn, ln, c, hctl, hc, rfl, hpoints, hnodes, hdue⟩
    intro q cq hq
    change t'.points q = some cq at hq
    simp only [State.after, Ctl.runningPoint, reduceCtorEq, iff_false]
    by_cases hql : q = ln
    · obtain rfl := hql
      rw [hpoints, Function.update_self] at hq
      unfold returnedPoint at hq
      split at hq
      · cases hq
      · cases hq
      · obtain rfl := Option.some.inj hq
        simp
    · rw [hpoints, Function.update_of_ne hql] at hq
      have hold := hrunning q cq hq
      simp only [Ctl.runningPoint, Option.some.injEq, Ne.symm hql, iff_false] at hold
      exact hold
  · cases h

end Steps

/-- Every `ref_tnode` is NULL or designates a node of the tree, and every point that is not
running is linked exactly once: in the list of its node, or in `keeplist`. -/
structure RefIntegrity (t : NebEvdpTimer) : Prop where
  ref : ∀ p c a, t.points p = some c → c.refTnode = some a → ∃ n ∈ t.rbtree, n.addr = a
  linkedOnce : ∀ p c, t.points p = some c → c.running = false →
    t.keeplist.count p = (if c.refTnode = none then 1 else 0) ∧
    ∀ n ∈ t.rbtree, n.cblist.count p = (if c.refTnode = some n.addr then 1 else 0)

theorem Inv.refIntegrity {s : State} (inv : Inv s) : RefIntegrity s.timer := by
  constructor
  · intro p c a hc ha
    by_cases hp : s.ctl.runningPoint = some p
    · obtain ⟨c', hc', href⟩ := inv.runningAlloc p hp
      obtain rfl := Option.some.inj (hc.symm.trans hc')
      obtain ⟨d, n, hn, hna, -⟩ := href a ha
      exact ⟨n, hn, hna⟩
    · obtain ⟨n, hn, hna, -⟩ := (inv.shape.placed p c hc hp).1 a ha
      exact ⟨n, hn, hna⟩
  · intro p c hc hrun
    have hp : p ∉ {q | s.ctl.runningPoint = some q} := by
      intro h
      simp [(inv.running p c hc).mpr h] at hrun
    obtain ⟨htree, hkeep⟩ := inv.shape.placed p c hc hp
    constructor
    · split_ifs with href
      · exact List.count_eq_one_of_mem inv.shape.keepNodup (hkeep href)
      · refine List.count_eq_zero_of_not_mem ?_
        intro hmem
        obtain ⟨-, c', hc', href'⟩ := inv.shape.kept p hmem
        obtain rfl := Option.some.inj (hc.symm.trans hc')
        exact href href'
    · intro n hn
      split_ifs with href
      · obtain ⟨m, hm, hma, hpm⟩ := htree n.addr href
        obtain rfl := inv.shape.node_unique hm hn hma
        exact List.count_eq_one_of_mem (inv.shape.cblistNodup m hm) hpm
      · refine List.count_eq_zero_of_not_mem ?_
        intro hmem
        obtain ⟨-, c', hc', href'⟩ := inv.shape.linked n hn p hmem
        obtain rfl := Option.some.inj (hc.symm.trans hc')
        exact href href'

theorem Inv.ofStep {s s' : State} {a : Action} (inv : Inv s) (keeps : ¬ Strands s a)
    (h : step s a = some s') : Inv s' := by
  cases a with
  | newPoint absTs cb udata tnode lnode => exact (inv.newPoint h).1
  | delPoint p =>
    by_cases hp : s.ctl.runningPoint = some p
    · exact (inv.delPoint_running hp h).1
    · exact inv.delPoint hp keeps h
  | pointReset p absTs tnode =>
    by_cases hp : s.ctl.runningPoint = some p
    · exact (inv.pointReset_running hp h).1
    · exact inv.pointReset hp keeps h
  | runUntil absTs => exact (inv.runUntil h).1
  | proceed => exact (inv.proceed h).1
  | cbReturn tret => exact (inv.cbReturn h).1

/-- The drained node is not deleted when its list gets empty. -/
theorem Inv.active_not_sole {s : State} (inv : Inv s) {a : TnodeAddr}
    (active : s.ctl.active = some a) (p : PointAddr) : ¬ SoleUser s.timer p a := by
  rintro ⟨n, hn, rfl, hauto, -⟩
  rw [(inv.shape.autoDel n hn).mpr active] at hauto
  cases hauto

/-- The running point refers to no node but the drained one. -/
def OwnRef (s : State) : Prop :=
  ∀ p c a, s.ctl.runningPoint = some p → s.timer.points p = some c → c.refTnode = some a →
    s.ctl.active = some a

def ResetsRunning (s : State) : Action → Prop
  | .pointReset p _ _ => s.ctl.runningPoint = some p
  | _ => False

instance (s : State) : ∀ a, Decidable (ResetsRunning s a)
  | .pointReset p _ _ => inferInstanceAs (Decidable (s.ctl.runningPoint = some p))
  | .newPoint .. => isFalse id
  | .delPoint _ => isFalse id
  | .runUntil _ => isFalse id
  | .proceed => isFalse id
  | .cbReturn _ => isFalse id

/-- Such a reference cannot be stranded. -/
theorem Inv.not_strands {s : State} (inv : Inv s) (own : OwnRef s) (a : Action) :
    ¬ Strands s a := by
  have hsole : ∀ {p b}, RunningRef s b → ¬ SoleUser s.timer p b := by
    rintro p b ⟨r, c, hr, hc, hb⟩
    exact inv.active_not_sole (own r c b hr hc hb) p
  cases a with
  | delPoint p =>
    rintro ⟨b, href, h⟩
    exact hsole href h
  | pointReset p absTs tnode =>
    rintro ⟨-, b, href, h, -⟩
    exact hsole href h
  | newPoint absTs cb udata tnode lnode => exact id
  | runUntil absTs => exact id
  | proceed => exact id
  | cbReturn tret => exact id

private theorem OwnRef.frame {s s' : State} (own : OwnRef s) (ctl : s'.ctl = s.ctl)
    (points : ∀ r, s.ctl.runningPoint = some r → s'.timer.points r = s.timer.points r) :
    OwnRef s' := by
  intro r c a hr hc ha
  rw [ctl] at hr ⊢
  exact own r c a hr (points r hr ▸ hc) ha

private theorem OwnRef.of_none {s : State} (h : s.ctl.runningPoint = none) : OwnRef s := by
  intro r c a hr
  rw [h] at hr
  cases hr

theorem OwnRef.ofStep {s s' : State} {a : Action} (own : OwnRef s) (inv : Inv s)
    (other : ¬ ResetsRunning s a) (h : step s a = some s') : OwnRef s' := by
  cases a with
  | newPoint absTs cb udata tnode lnode =>
    obtain ⟨-, hctl, -, r, -, ⟨-, hpoints, -⟩ | ⟨p, tn, -, hfree, hpoints, -⟩⟩ := inv.newPoint h
    · exact own.frame hctl (fun r _ => by rw [hpoints])
    · refine own.frame hctl ?_
      intro r hr
      obtain ⟨c, hc, -⟩ := inv.runningAlloc r hr
      have hrp : r ≠ p := by
        rintro rfl
        rw [hfree] at hc
        cases hc
      rw [hpoints, Function.update_of_ne hrp]
  | delPoint p =>
    by_cases hp : s.ctl.runningPoint = some p
    · obtain ⟨-, hctl, -, c, -, hpoints⟩ := inv.delPoint_running hp h
      intro r c' a hr hc' ha
      rw [hctl] at hr
      obtain rfl := Option.some.inj (hp.symm.trans hr)
      rw [hpoints, Function.update_self] at hc'
      obtain rfl := Option.some.inj hc'
      cases ha
    · obtain ⟨hctl, -, hpoints, -⟩ := inv.delPoint_effect hp h
      refine own.frame hctl ?_
      intro r hr
      have hrp : r ≠ p := fun heq => hp (heq ▸ hr)
      rw [hpoints, Function.update_of_ne hrp]
  | pointReset p absTs tnode =>
    have hp : s.ctl.runningPoint ≠ some p := other
    obtain ⟨hctl, -, c, r, -, -, -, hcase⟩ := inv.pointReset_effect hp h
    refine own.frame hctl ?_
    intro q hq
    have hqp : q ≠ p := fun heq => hp (heq ▸ hq)
    rcases hcase with ⟨-, heq, -⟩ | ⟨-, -, ⟨tn, hpoints⟩, -⟩
    · rw [heq]
    · rw [hpoints, Function.update_of_ne hqp]
  | runUntil absTs =>
    obtain ⟨-, -, rfl⟩ := inv.runUntil h
    exact .of_none rfl
  | proceed =>
    obtain ⟨-, hproceeds⟩ := inv.proceed h
    cases hproceeds with
    | finished ctl => exact .of_none rfl
    | stopped ctl at_ past => exact .of_none rfl
    | opened ctl at_ within points nodes due => exact .of_none rfl
    | @fired lim k a d ln c t' ctl at_ waits point ref points nodes due =>
      intro r c' b hr hc' hb
      obtain rfl : ln = r := Option.some.inj hr
      rw [show t'.points = _ from points, Function.update_self] at hc'
      obtain rfl := Option.some.inj hc'
      exact ref.symm.trans hb
    | closed ctl at_ points due last next => exact .of_none rfl
  | cbReturn tret =>
    obtain ⟨-, lim, k, tn, ln, c, -, -, hctl, -⟩ := inv.cbReturn h
    exact .of_none (by rw [hctl]; rfl)

/-- A call that strands the running point leaves its `ref_tnode` dangling at once. -/
theorem Inv.stranded {s s' : State} {a : Action} (inv : Inv s) (strands : Strands s a)
    (h : step s a = some s') : ¬ RefIntegrity s'.timer := by
  have hloose : ∀ {p b}, SoleUser s.timer p b → s.ctl.runningPoint ≠ some p := by
    rintro p b ⟨n, hn, -, -, hlist⟩
    exact (inv.shape.linked n hn p (by simp [hlist])).1
  have hdangling : ∀ {p b}, RunningRef s b → s.ctl.runningPoint ≠ some p →
      (∀ q, q ≠ p → s'.timer.points q = s.timer.points q) → (∀ d, ¬ NodeAt s'.timer b d) →
      ¬ RefIntegrity s'.timer := by
    rintro p b ⟨r, c, hr, hc, hb⟩ hp hother hgone integrity
    have hrp : r ≠ p := fun heq => hp (heq ▸ hr)
    obtain ⟨n, hn, hna⟩ := integrity.ref r c b (hother r hrp ▸ hc) hb
    exact hgone n.ts ⟨n, hn, hna, rfl⟩
  cases a with
  | delPoint p =>
    obtain ⟨b, href, hsole⟩ := strands
    have hp := hloose hsole
    obtain ⟨-, -, hpoints, -, -, hgone⟩ := inv.delPoint_effect hp h
    exact hdangling href hp (fun q hq => by rw [hpoints, Function.update_of_ne hq])
      (fun d => hgone b d hsole)
  | pointReset p absTs tnode =>
    obtain ⟨hgot, b, href, hsole, hts⟩ := strands
    have hp := hloose hsole
    obtain ⟨-, -, c, r, -, -, -, ⟨-, -, hout⟩ | ⟨-, -, ⟨tn, hpoints⟩, -, -, hgone⟩⟩ :=
      inv.pointReset_effect hp h
    · exact absurd hout hgot
    · exact hdangling href hp (fun q hq => by rw [hpoints, Function.update_of_ne hq])
        (hgone b hsole hts)
  | newPoint absTs cb udata tnode lnode => exact strands.elim
  | runUntil absTs => exact strands.elim
  | proceed => exact strands.elim
  | cbReturn tret => exact strands.elim

/-- Nothing undefined has happened, and every reference is sound. -/
def Sound (s : State) : Prop :=
  s.ctl ≠ .undefined ∧ RefIntegrity s.timer

/-- In every run, with any calls made inside the callbacks and any allocation failing, all states
are sound if and only if no call strands the running point. -/
theorem nebEvdpTimer_ref_integrity_iff (tcacheSize lcacheSize : Nat) (as : List Action)
    (s : State) (reached : Machine.run step (start tcacheSize lcacheSize) as = some s) :
    Machine.AllStates step Sound (start tcacheSize lcacheSize) as ↔
      Machine.StepsMeet step (fun s a => ¬ Strands s a) (start tcacheSize lcacheSize) as := by
  refine Machine.all_states_iff_steps_meet (I := Inv) ?_ ?_ ?_ (.start _ _) reached
  · exact fun s inv => ⟨inv.defined, inv.refIntegrity⟩
  · exact fun s a t inv keeps h => inv.ofStep keeps h
  · exact fun s a t inv strands h sound => inv.stranded (not_not.mp strands) h sound.2

/-- A callback resets its own point and returns. -/
theorem nebEvdpTimer_ref_integrity_iff_own_reset :
    let as : List Action :=
      [.newPoint ⟨1, 0⟩ 7 8 (some 10) (some 100), .runUntil ⟨1, 0⟩, .proceed, .proceed,
        .pointReset 100 ⟨5, 0⟩ (some 11), .cbReturn .keep]
    Machine.AllStates step Sound (start 0 0) as ↔
      Machine.StepsMeet step (fun s a => ¬ Strands s a) (start 0 0) as :=
  nebEvdpTimer_ref_integrity_iff 0 0 _ _ rfl

/-- The callback of point 100 resets it to a deadline of its own, then creates and deletes point
101 for the same deadline: the node 11 that point 100 refers to is freed. -/
theorem nebEvdpTimer_ref_integrity_fails :
    ∃ s, Machine.run step (start 0 0)
      [.newPoint ⟨1, 0⟩ 7 8 (some 10) (some 100), .runUntil ⟨1, 0⟩, .proceed, .proceed,
        .pointReset 100 ⟨5, 0⟩ (some 11), .newPoint ⟨5, 0⟩ 7 8 (some 12) (some 101),
        .delPoint 101] = some s ∧ ¬ RefIntegrity s.timer := by
  refine ⟨_, rfl, ?_⟩
  intro integrity
  obtain ⟨n, hn, hna⟩ := integrity.ref 100 ⟨7, 8, true, some 11⟩ 11 rfl rfl
  revert n
  decide

end Nebase.Evdp.Timer
