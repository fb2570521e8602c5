/- A point reset inside its own callback: whether it is scheduled once the callback has returned,
   and that a scheduled point is invoked before a run_until past its deadline returns. -/

import Nebase.Evdp.Timer.Nodes

set_option autoImplicit false
set_option relaxedAutoImplicit false

namespace Nebase.Evdp.Timer

open Nebase.Time Nebase.Foundation

/-- A call of the program that is not about `p`. -/
def Action.OnOther (p : PointAddr) : Action → Prop
  | .newPoint .. => True
  | .delPoint q => q ≠ p
  | .pointReset q _ _ => q ≠ p
  | _ => False

/-- Anything but a call about `p`. -/
def Action.Leaves (p : PointAddr) : Action → Prop
  | .delPoint q => q ≠ p
  | .pointReset q _ _ => q ≠ p
  | _ => True

instance (p : PointAddr) : ∀ a : Action, Decidable (a.OnOther p)
  | .newPoint .. => isTrue trivial
  | .delPoint q => inferInstanceAs (Decidable (q ≠ p))
  | .pointReset q _ _ => inferInstanceAs (Decidable (q ≠ p))
  | .runUntil _ => isFalse id
  | .proceed => isFalse id
  | .cbReturn _ => isFalse id

instance (p : PointAddr) : ∀ a : Action, Decidable (a.Leaves p)
  | .newPoint .. => isTrue trivial
  | .delPoint q => inferInstanceAs (Decidable (q ≠ p))
  | .pointReset q _ _ => inferInstanceAs (Decidable (q ≠ p))
  | .runUntil _ => isTrue trivial
  | .proceed => isTrue trivial
  | .cbReturn _ => isTrue trivial

/-- The running point has been reset to `absTs`, and `run_until` is at `processed`. -/
structure ResetTo (s : State) (p : PointAddr) (tn a : TnodeAddr) (absTs processed : Timespec) :
    Prop where
  inv : Inv s
  running : s.ctl.runningPoint = some p
  active : s.ctl.active = some tn
  ref : RunningRef s a
  target : NodeAt s.timer a absTs
  current : NodeAt s.timer tn processed

section InCallback

variable {s s' : State} {p : PointAddr} {tn a : TnodeAddr} {absTs processed : Timespec}

theorem ResetTo.ofReset (inv : Inv s) (running : s.ctl.runningPoint = some p)
    (active : s.ctl.active = some tn) (current : NodeAt s.timer tn processed)
    {tnode : Option TnodeAddr} (h : step s (.pointReset p absTs tnode) = some s')
    (ok : nebEvdpTimerPointReset p absTs tnode s.timer = some (0, s'.timer)) :
    ∃ a, s'.ctl = s.ctl ∧ ResetTo s' p tn a absTs processed := by
  obtain ⟨inv', hctl, c, r, hc, heq, hcase⟩ := inv.pointReset_running running h
  obtain rfl : 0 = r := (Prod.mk.inj (Option.some.inj (ok.symm.trans heq))).1
  obtain ⟨hr, -⟩ | ⟨-, -, ⟨a, hpoints, hat⟩, hnodes, -⟩ := hcase
  · cases hr
  · refine ⟨a, hctl, inv', hctl ▸ running, hctl ▸ active, ?_, hat, hnodes tn processed current⟩
    exact ⟨p, _, hctl ▸ running, by rw [hpoints, Function.update_self], rfl⟩

/-- A call about another point that does not strand the running one keeps both nodes. -/
theorem ResetTo.ofCall (resetTo : ResetTo s p tn a absTs processed) {x : Action}
    (other : x.OnOther p) (keeps : ¬ Strands s x) (h : step s x = some s') :
    s'.ctl = s.ctl ∧ ResetTo s' p tn a absTs processed := by
  obtain ⟨r, c, hr, hc, ha⟩ := resetTo.ref
  obtain rfl : p = r := Option.some.inj (resetTo.running.symm.trans hr)
  have inv' := resetTo.inv.ofStep keeps h
  have hbuild : s'.ctl = s.ctl → s'.timer.points p = s.timer.points p →
      (NodeAt s'.timer a absTs) → NodeAt s'.timer tn processed →
      s'.ctl = s.ctl ∧ ResetTo s' p tn a absTs processed := by
    intro hctl hp hta hcu
    exact ⟨hctl, inv', hctl ▸ resetTo.running, hctl ▸ resetTo.active,
      ⟨p, c, hctl ▸ resetTo.running, hp ▸ hc, ha⟩, hta, hcu⟩
  cases x with
  | newPoint d cb udata tnode lnode =>
    obtain ⟨-, hctl, hnodes, r, -, hcase⟩ := resetTo.inv.newPoint h
    refine hbuild hctl ?_ (hnodes a absTs resetTo.target) (hnodes tn processed resetTo.current)
    rcases hcase with ⟨-, hpoints, -⟩ | ⟨q, tn', -, hfree, hpoints, -⟩
    · rw [hpoints]
    · have hpq : p ≠ q := by
        rintro rfl
        rw [hfree] at hc
        cases hc
      rw [hpoints, Function.update_of_ne hpq]
  | delPoint q =>
    have hqp : p ≠ q := Ne.symm other
    have hq : s.ctl.runningPoint ≠ some q := fun hq => hqp (Option.some.inj (hr.symm.trans hq))
    obtain ⟨hctl, -, hpoints, -, hnodes, -⟩ := resetTo.inv.delPoint_effect hq h
    refine hbuild hctl (by rw [hpoints, Function.update_of_ne hqp]) ?_ ?_
    · exact hnodes a absTs resetTo.target (fun hsole => keeps ⟨a, resetTo.ref, hsole⟩)
    · exact hnodes tn processed resetTo.current (resetTo.inv.active_not_sole resetTo.active q)
  | pointReset q d tnode =>
    have hqp : p ≠ q := Ne.symm other
    have hq : s.ctl.runningPoint ≠ some q := fun hq => hqp (Option.some.inj (hr.symm.trans hq))
    obtain ⟨hctl, -, c', r, -, -, -, hcase⟩ := resetTo.inv.pointReset_effect hq h
    rcases hcase with ⟨-, htimer, -⟩ | ⟨-, hgot, ⟨tn', hpoints⟩, -, hnodes, -⟩
    · exact hbuild hctl (by rw [htimer]) (htimer ▸ resetTo.target) (htimer ▸ resetTo.current)
    · refine hbuild hctl (by rw [hpoints, Function.update_of_ne hqp]) ?_ ?_
      · refine hnodes a absTs resetTo.target ?_
        intro hsole
        by_contra hne
        refine keeps ⟨hgot, a, resetTo.ref, hsole, ?_⟩
        exact fun hat => hne (resetTo.inv.shape.node_at_unique resetTo.target hat)
      · refine hnodes tn processed resetTo.current ?_
        exact fun hsole => absurd hsole (resetTo.inv.active_not_sole resetTo.active q)
  | runUntil d => exact other.elim
  | proceed => exact other.elim
  | cbReturn tret => exact other.elim

theorem ResetTo.ofCalls (resetTo : ResetTo s p tn a absTs processed) {bs : List Action}
    (others : ∀ b ∈ bs, b.OnOther p)
    (keeps : Machine.StepsMeet step (fun s x => ¬ Strands s x) s bs)
    (h : Machine.run step s bs = some s') :
    s'.ctl = s.ctl ∧ ResetTo s' p tn a absTs processed := by
  have hmeets := keeps.and (.of_labels others s)
  refine Machine.invariant_run
    (I := fun u => u.ctl = s.ctl ∧ ResetTo u p tn a absTs processed) ?_ ⟨rfl, resetTo⟩ hmeets h
  rintro u b v ⟨hctl, hto⟩ ⟨hkeeps, hother⟩ hstep
  obtain ⟨hctl', hto'⟩ := hto.ofCall hother hkeeps hstep
  exact ⟨hctl'.trans hctl, hto'⟩

/-- The callback returns KEEP: the point is put into its new node unless that is the drained one. -/
theorem ResetTo.ofReturn (resetTo : ResetTo s p tn a absTs processed)
    (h : step s (.cbReturn .keep) = some s') :
    Inv s' ∧ (Due s'.timer p absTs ↔ absTs ≠ processed) ∧ NodeAt s'.timer tn processed ∧
      ∃ lim k, s.ctl = .callback lim k tn p ∧ s'.ctl = .drain lim (k + 1) tn := by
  obtain ⟨inv', lim, k, tn', ln, c, hctl, hc, hctl', -, hnodes, hdue⟩ := resetTo.inv.cbReturn h
  obtain rfl : ln = p := by simpa [hctl, Ctl.runningPoint] using resetTo.running
  obtain rfl : tn' = tn := by simpa [hctl, Ctl.active] using resetTo.active
  obtain ⟨r, c', hr, hc', ha⟩ := resetTo.ref
  obtain rfl := Option.some.inj (resetTo.running.symm.trans hr)
  obtain rfl := Option.some.inj (hc.symm.trans hc')
  refine ⟨inv', ?_, (hnodes _ _).mpr resetTo.current, lim, k, hctl, hctl'⟩
  have hloose : ¬ Due s.timer ln absTs := fun hd => (resetTo.inv.shape.due_ref hd).1 resetTo.running
  have hapart : a ≠ tn' ↔ absTs ≠ processed := by
    refine not_congr ⟨?_, ?_⟩
    · rintro rfl
      exact resetTo.inv.shape.node_at_unique resetTo.target resetTo.current
    · rintro rfl
      obtain ⟨m, hm, rfl, hts⟩ := resetTo.target
      obtain ⟨n, hn, rfl, hts'⟩ := resetTo.current
      rw [resetTo.inv.shape.ts_unique hm hn (hts.trans hts'.symm)]
  rw [hdue, or_iff_left hloose, ← hapart]
  constructor
  · rintro ⟨-, -, b, hb, hne, -⟩
    obtain rfl := Option.some.inj (ha.symm.trans hb)
    exact hne
  · exact fun hne => ⟨rfl, rfl, a, ha, hne, resetTo.target⟩

end InCallback

/-! A scheduled point is invoked. -/

/-- `run_until` is at a deadline that is not after `d`, and goes on at least to `d`. -/
def Comes (s : State) (d : Timespec) : Prop :=
  ∃ lim a e, d ≤ lim ∧ NodeAt s.timer a e ∧ e ≤ d ∧
    ((∃ k, s.ctl = .scan lim k (some a)) ∨ (∃ k, s.ctl = .drain lim k a) ∨
      ∃ k ln, s.ctl = .callback lim k a ln)

section Invocation

variable {s s' : State} {p : PointAddr} {d : Timespec}

theorem Inv.keeps_due (inv : Inv s) {x : Action} (leaves : x.Leaves p)
    (h : step s x = some s') (due : Due s.timer p d) :
    Due s'.timer p d ∨ s'.ctl.runningPoint = some p := by
  cases x with
  | newPoint absTs cb udata tnode lnode =>
    obtain ⟨-, -, -, r, -, ⟨-, -, hdue, -⟩ | ⟨q, tn, -, -, -, hdue⟩⟩ := inv.newPoint h
    · exact .inl ((hdue p d).mpr due)
    · exact .inl ((hdue p d).mpr (.inr due))
  | delPoint q =>
    left
    by_cases hq : s.ctl.runningPoint = some q
    · obtain ⟨-, -, htree, -⟩ := inv.delPoint_running hq h
      exact (due_congr (fun m => by rw [htree]) p d).mpr due
    · obtain ⟨-, -, -, hdue, -⟩ := inv.delPoint_effect hq h
      exact (hdue p d).mpr ⟨Ne.symm leaves, due⟩
  | pointReset q absTs tnode =>
    left
    by_cases hq : s.ctl.runningPoint = some q
    · obtain ⟨-, -, c, r, -, -, ⟨-, htimer, -⟩ | ⟨-, -, -, -, hdue⟩⟩ := inv.pointReset_running hq h
      · exact htimer ▸ due
      · exact (hdue p d).mpr due
    · obtain ⟨-, -, c, r, -, -, -, ⟨-, htimer, -⟩ | ⟨-, -, -, hdue, -⟩⟩ :=
        inv.pointReset_effect hq h
      · exact htimer ▸ due
      · exact (hdue p d).mpr (.inr ⟨Ne.symm leaves, due⟩)
  | runUntil absTs =>
    obtain ⟨-, -, rfl⟩ := inv.runUntil h
    exact .inl due
  | proceed =>
    obtain ⟨-, hproceeds⟩ := inv.proceed h
    cases hproceeds with
    | finished ctl => exact .inl due
    | stopped ctl at_ past => exact .inl due
    | opened ctl at_ within points nodes hdue => exact .inl ((hdue p d).mpr due)
    | @fired lim k a e ln c t' ctl at_ waits point ref points nodes hdue =>
      by_cases hpl : p = ln
      · exact .inr (by rw [hpl]; rfl)
      · exact .inl ((hdue p d).mpr ⟨hpl, due⟩)
    | closed ctl at_ points hdue last next => exact .inl ((hdue p d).mpr due)
  | cbReturn tret =>
    obtain ⟨-, lim, k, tn, ln, c, -, -, -, -, -, hdue⟩ := inv.cbReturn h
    exact .inl ((hdue p d).mpr (.inr due))

theorem Comes.ofRunUntil (inv : Inv s) {lim : Timespec} (h : step s (.runUntil lim) = some s')
    (due : Due s.timer p d) (within : d ≤ lim) : Comes s' d := by
  obtain ⟨-, -, rfl⟩ := inv.runUntil h
  obtain ⟨hnone, hsome⟩ := rb_tree_min_spec inv.shape.sorted
  obtain ⟨n, hn, -, rfl⟩ := due
  cases hmin : rbTreeMin s.timer.rbtree with
  | none => simp [hnone hmin] at hn
  | some a =>
    obtain ⟨k, hk, rfl, hle⟩ := hsome a hmin
    exact ⟨lim, k.addr, k.ts, within, ⟨k, hk, rfl, rfl⟩, hle n hn, .inl ⟨0, rfl⟩⟩

/-- A call of the program keeps the node that `run_until` is draining. -/
theorem Inv.call_keeps_active (inv : Inv s) {x : Action} (turn : s.userTurn = true)
    (h : step s x = some s') (call : ∀ l tret, x ≠ .runUntil l ∧ x ≠ .cbReturn tret) :
    s'.ctl = s.ctl ∧
      ∀ a e, s.ctl.active = some a → NodeAt s.timer a e → NodeAt s'.timer a e := by
  cases x with
  | newPoint absTs cb udata tnode lnode =>
    obtain ⟨-, hctl, hnodes, -⟩ := inv.newPoint h
    exact ⟨hctl, fun a e _ hat => hnodes a e hat⟩
  | delPoint q =>
    by_cases hq : s.ctl.runningPoint = some q
    · obtain ⟨-, hctl, htree, -⟩ := inv.delPoint_running hq h
      refine ⟨hctl, fun a e _ hat => ?_⟩
      unfold NodeAt at hat ⊢
      rwa [htree]
    · obtain ⟨hctl, -, -, -, hnodes, -⟩ := inv.delPoint_effect hq h
      exact ⟨hctl, fun a e hactive hat => hnodes a e hat (inv.active_not_sole hactive q)⟩
  | pointReset q absTs tnode =>
    by_cases hq : s.ctl.runningPoint = some q
    · obtain ⟨-, hctl, c, r, -, -, ⟨-, htimer, -⟩ | ⟨-, -, -, hnodes, -⟩⟩ :=
        inv.pointReset_running hq h
      · exact ⟨hctl, fun a e _ hat => htimer ▸ hat⟩
      · exact ⟨hctl, fun a e _ hat => hnodes a e hat⟩
    · obtain ⟨hctl, -, c, r, -, -, -, ⟨-, htimer, -⟩ | ⟨-, -, -, -, hnodes, -⟩⟩ :=
        inv.pointReset_effect hq h
      · exact ⟨hctl, fun a e _ hat => htimer ▸ hat⟩
      · refine ⟨hctl, fun a e hactive hat => hnodes a e hat ?_⟩
        exact fun hsole => absurd hsole (inv.active_not_sole hactive q)
  | runUntil absTs => exact absurd rfl (call absTs .keep).1
  | proceed =>
    change proceedStep s = some s' at h
    cases hctl : s.ctl <;> simp_all [proceedStep, State.userTurn]
  | cbReturn tret => exact absurd rfl (call ⟨0, 0⟩ tret).2

private theorem Comes.proceed (inv : Inv s) (comes : Comes s d) (due : Due s.timer p d)
    (h : step s .proceed = some s') : Comes s' d := by
  obtain ⟨lim, a, e, within, hat, hle, hctl⟩ := comes
  obtain ⟨-, hproceeds⟩ := inv.proceed h
  cases hproceeds with
  | finished ctl => simp [ctl] at hctl
  | @stopped l k b e' ctl at_ past =>
    obtain ⟨rfl, rfl⟩ : l = lim ∧ b = a := by simpa [ctl] using hctl
    obtain rfl := inv.shape.node_at_unique hat at_
    exact absurd (past.trans_le (hle.trans within)) (lt_irrefl _)
  | @opened l k b e' t' ctl at_ _ points nodes hdue =>
    obtain ⟨rfl, rfl⟩ : l = lim ∧ b = a := by simpa [ctl] using hctl
    exact ⟨l, b, e, within, (nodes b e).mpr hat, hle, .inr (.inl ⟨k, rfl⟩)⟩
  | @fired l k b e' ln c t' ctl at_ waits point ref points nodes hdue =>
    obtain ⟨rfl, rfl⟩ : l = lim ∧ b = a := by simpa [ctl] using hctl
    exact ⟨l, b, e, within, (nodes b e).mpr hat, hle, .inr (.inr ⟨k, ln, rfl⟩)⟩
  | @closed l k b e' nxt t' ctl at_ points hdue last next =>
    obtain ⟨rfl, rfl⟩ : l = lim ∧ b = a := by simpa [ctl] using hctl
    obtain rfl := inv.shape.node_at_unique hat at_
    -- the point waits after the node that is done with, so there is a next one, up to its deadline
    cases hnxt : nxt with
    | none => exact absurd ((last hnxt p d due).trans_le hle) (lt_irrefl _)
    | some n =>
      obtain ⟨f, hat', -, hbetween⟩ := next n hnxt
      refine ⟨l, n, f, within, hat', not_lt.mp ?_, .inl ⟨k, rfl⟩⟩
      exact fun hlt => absurd ((hbetween p d due hlt).trans_le hle) (lt_irrefl _)

theorem Comes.ofStep (inv : Inv s) (comes : Comes s d) (due : Due s.timer p d) {x : Action}
    (h : step s x = some s') : Comes s' d := by
  have hcall : (∀ l tret, x ≠ .runUntil l ∧ x ≠ .cbReturn tret) → s.userTurn = true →
      Comes s' d := by
    intro call turn
    obtain ⟨hctl', hnodes⟩ := inv.call_keeps_active turn h call
    obtain ⟨lim, a, e, within, hat, hle, hctl⟩ := comes
    refine ⟨lim, a, e, within, hnodes a e ?_ hat, hle, hctl' ▸ hctl⟩
    rcases hctl with ⟨k, hk⟩ | ⟨k, hk⟩ | ⟨k, ln, hk⟩
    · simp [hk, State.userTurn] at turn
    · simp [hk, State.userTurn] at turn
    · rw [hk]
      rfl
  cases x with
  | newPoint absTs cb udata tnode lnode => exact hcall (by simp) (step_new_point_turn h)
  | delPoint q => exact hcall (by simp) (step_del_point_turn h)
  | pointReset q absTs tnode => exact hcall (by simp) (step_point_reset_turn h)
  | runUntil absTs =>
    obtain ⟨-, hidle, -⟩ := inv.runUntil h
    obtain ⟨lim, a, e, -, -, -, hctl⟩ := comes
    simp [hidle] at hctl
  | proceed => exact comes.proceed inv due h
  | cbReturn tret =>
    obtain ⟨-, l, k, tn, ln, c, hcb, -, hctl', -, hnodes, -⟩ := inv.cbReturn h
    obtain ⟨lim, a, e, within, hat, hle, hctl⟩ := comes
    obtain ⟨rfl, rfl⟩ : l = lim ∧ tn = a := by simpa [hcb] using hctl
    exact ⟨l, tn, e, within, (hnodes tn e).mpr hat, hle, .inr (.inl ⟨k + 1, hctl'⟩)⟩

/-- Somewhere on the way the callback of `p` is running. -/
def Invoked (s : State) (cs : List Action) (p : PointAddr) : Prop :=
  ∃ first rest t, cs = first ++ rest ∧ Machine.run step s first = some t ∧
    t.ctl.runningPoint = some p

theorem Invoked.cons {x : Action} {cs : List Action} (h : step s x = some s')
    (invoked : Invoked s' cs p) : Invoked s (x :: cs) p := by
  obtain ⟨first, rest, t, rfl, hrun, hp⟩ := invoked
  exact ⟨x :: first, rest, t, rfl, Machine.run_cons_eq_some.mpr ⟨s', h, hrun⟩, hp⟩

theorem Invoked.ofStep {x : Action} (h : step s x = some s') (hp : s'.ctl.runningPoint = some p)
    (cs : List Action) : Invoked s (x :: cs) p :=
  .cons h ⟨[], cs, s', rfl, rfl, hp⟩

/-- A `run_until` that comes to `d` invokes the point before it returns, and so does one that is
started later with a limit from `d` on. -/
theorem Inv.invoked (inv : Inv s) (due : Due s.timer p d) {cs : List Action} {t : State}
    (leaves : ∀ c ∈ cs, c.Leaves p)
    (keeps : Machine.StepsMeet step (fun s x => ¬ Strands s x) s cs)
    (h : Machine.run step s cs = some t) (idle : t.ctl = .idle)
    (past : Comes s d ∨ ∃ l, .runUntil l ∈ cs ∧ d ≤ l) : Invoked s cs p := by
  induction cs generalizing s with
  | nil =>
    obtain rfl : s = t := by simpa using h
    rcases past with ⟨lim, a, e, -, -, -, hctl⟩ | ⟨l, hl, -⟩
    · simp [idle] at hctl
    · simp at hl
  | cons x cs ih =>
    obtain ⟨s', hstep, hrest⟩ := Machine.run_cons_eq_some.mp h
    rcases inv.keeps_due (leaves x List.mem_cons_self) hstep due with due' | hp
    · refine .cons hstep (ih (inv.ofStep keeps.1 hstep) due'
        (fun c hc => leaves c (List.mem_cons_of_mem x hc)) (keeps.2 s' hstep) hrest ?_)
      rcases past with comes | ⟨l, hl, hle⟩
      · exact .inl (comes.ofStep inv due hstep)
      · rcases List.mem_cons.mp hl with rfl | hl
        · exact .inl (.ofRunUntil inv hstep due hle)
        · exact .inr ⟨l, hl, hle⟩
    · exact .ofStep hstep hp cs

end Invocation

/-- The last call on `p` in its callback is a reset to `absTs` that returns 0, and the callback
returns KEEP. Then `p` is scheduled at `absTs` if and only if that is not the deadline being
processed; and it is then invoked by this `run_until`, if its limit and `absTs` are still ahead,
or by a later one with a limit from `absTs` on. -/
theorem nebEvdpTimer_own_reset_schedules_iff (tcacheSize lcacheSize : Nat) (as bs : List Action)
    (s s₁ s₂ s₃ : State) (p : PointAddr) (absTs lim processed : Timespec) (k : Nat)
    (tn : TnodeAddr) (tnode : Option TnodeAddr)
    (sound : Machine.StepsMeet step (fun s x => ¬ Strands s x) (start tcacheSize lcacheSize)
      (as ++ .pointReset p absTs tnode :: bs))
    (reached : Machine.run step (start tcacheSize lcacheSize) as = some s)
    (running : s.ctl = .callback lim k tn p) (current : NodeAt s.timer tn processed)
    (reset : step s (.pointReset p absTs tnode) = some s₁)
    (ok : nebEvdpTimerPointReset p absTs tnode s.timer = some (0, s₁.timer))
    (others : ∀ b ∈ bs, b.OnOther p) (calls : Machine.run step s₁ bs = some s₂)
    (returned : step s₂ (.cbReturn .keep) = some s₃) :
    (Due s₃.timer p absTs ↔ absTs ≠ processed) ∧
    (absTs ≠ processed → ∀ cs t, (∀ c ∈ cs, c.Leaves p) →
      Machine.StepsMeet step (fun s x => ¬ Strands s x) s₃ cs →
      Machine.run step s₃ cs = some t → t.ctl = .idle →
      (processed < absTs ∧ absTs ≤ lim ∨ ∃ l, .runUntil l ∈ cs ∧ absTs ≤ l) →
      Invoked s₃ cs p) := by
  obtain ⟨before, after⟩ := sound.append_inv reached
  have inv : Inv s := Machine.invariant_run (fun s a t inv keeps h => inv.ofStep keeps h)
    (.start tcacheSize lcacheSize) before reached
  obtain ⟨a, hctl₁, to₁⟩ := ResetTo.ofReset inv (by rw [running]; rfl) (by rw [running]; rfl)
    current reset ok
  obtain ⟨hctl₂, to₂⟩ := to₁.ofCalls others (after.2 s₁ reset) calls
  obtain ⟨inv₃, hdue, hcurrent, lim', k', hcb, hdrain⟩ := to₂.ofReturn returned
  obtain ⟨rfl, -⟩ : lim' = lim ∧ k' = k := by
    have hsame := hcb.symm.trans (hctl₂.trans (hctl₁.trans running))
    simpa using hsame
  refine ⟨hdue, ?_⟩
  intro hne cs t leaves keeps hrun idle past
  refine inv₃.invoked (hdue.mpr hne) leaves keeps hrun idle ?_
  rcases past with ⟨hlt, hle⟩ | hlater
  · exact .inl ⟨lim', tn, processed, hle, hcurrent, hlt.le, .inr (.inl ⟨k' + 1, hdrain⟩)⟩
  · exact .inr hlater

/-- The callback of point 100 resets it to a later deadline, deletes point 101 and returns KEEP. -/
theorem nebEvdpTimer_own_reset_schedules_iff_later :
    ∃ s₃, Machine.run step (start 1 1)
        [.newPoint ⟨1, 0⟩ 7 8 (some 10) (some 100), .newPoint ⟨2, 0⟩ 7 8 (some 11) (some 101),
          .runUntil ⟨1, 0⟩, .proceed, .proceed, .pointReset 100 ⟨5, 0⟩ (some 12), .delPoint 101,
          .cbReturn .keep] = some s₃ ∧ Due s₃.timer 100 ⟨5, 0⟩ := by
  refine ⟨_, rfl, (nebEvdpTimer_own_reset_schedules_iff 1 1
    [.newPoint ⟨1, 0⟩ 7 8 (some 10) (some 100), .newPoint ⟨2, 0⟩ 7 8 (some 11) (some 101),
      .runUntil ⟨1, 0⟩, .proceed, .proceed] [.delPoint 101] _ _ _ _ 100 ⟨5, 0⟩ ⟨1, 0⟩ ⟨1, 0⟩ 0 10
    (some 12) (by decide) rfl rfl ?_ rfl rfl (by decide) rfl rfl).1.mpr (by decide)⟩
  exact ⟨_, List.mem_cons_self, rfl, rfl⟩

/-- The callback resets its point to the deadline being processed, which returns 0, and returns
KEEP: the point is not scheduled. -/
theorem nebEvdpTimer_own_reset_schedules_fails :
    ∃ s s₁ s₃ : State, Machine.run step (start 1 1)
        [.newPoint ⟨1, 0⟩ 7 8 (some 10) (some 100), .runUntil ⟨1, 0⟩, .proceed, .proceed] =
          some s ∧
      nebEvdpTimerPointReset 100 ⟨1, 0⟩ (some 11) s.timer = some (0, s₁.timer) ∧
      step s (.pointReset 100 ⟨1, 0⟩ (some 11)) = some s₁ ∧
      step s₁ (.cbReturn .keep) = some s₃ ∧ ¬ Due s₃.timer 100 ⟨1, 0⟩ :=
  ⟨_, _, _, rfl, rfl, rfl, rfl, by decide⟩

end Nebase.Evdp.Timer
