/- What a destruction does to the sources of its queue, whatever their `on_remove` callbacks do, and
   when it reaches all of them. -/

import Nebase.Evdp.Destroy.Loops

set_option autoImplicit false
set_option relaxedAutoImplicit false

namespace Nebase.Evdp.Destroy

open Nebase.Foundation SentinelList Nebase.Evdp.Epoll

/-- What holds at any time of a destruction of `q`: no source is detached twice, and those that were
are not attached any more while the others still are; each of them has had one call of its
`on_remove`, with `q_in_use` cleared, and there were no other calls; every attach was refused; and
the destruction is over or can go on. -/
structure Notifies (q : State) (onRemove : Ptr → Option Handler) (d : Destroying) : Prop where
  once : d.detached.Nodup
  cleared : ∀ p, p ∈ d.detached ↔ q.Attached p ∧ ¬ d.base.Attached p
  called : d.removals = onRemoveCalls onRemove d.detached
  refused : ∀ r ∈ d.attaches, r = -1
  goesOn : d.phase = .done ∨ ∃ a d', a.own = true ∧ step d a = some d'

/-- `neb_evdp_queue_destroy` on `q`, whatever the `on_remove` callbacks are and do: the number of
its own steps and of the callbacks' returns is bounded, it notifies the sources that it detaches,
and at its end has detached all. -/
structure DestroysAll (q : Foreach.Queue) : Prop where
  terminates : ∃ n, ∀ onRemove as d,
    Machine.run step (nebEvdpQueueDestroy onRemove q) as = some d → as.countP Action.own ≤ n
  notifies : ∀ onRemove as d, Machine.run step (nebEvdpQueueDestroy onRemove q) as = some d →
    Notifies q.base onRemove d
  complete : ∀ onRemove as d, Machine.run step (nebEvdpQueueDestroy onRemove q) as = some d →
    d.phase = .done → ∀ p, q.base.Attached p → p ∈ d.detached

/-- `stats.running` covers the running sources or is negative, or it is not 0 and no source is
pending. -/
def GateHolds (q : State) : Prop :=
  ∀ R : List Ptr, R.Nodup → (∀ p, p ∈ R ↔ q.Running p) →
    (R.length : Int) ≤ q.statsRunning ∨ q.statsRunning < 0 ∨
      q.statsRunning ≠ 0 ∧ ∀ p, ¬ q.Pending p

section Run

variable {q : Foreach.Queue} {onRemove : Ptr → Option Handler} {P R : List Ptr}
  {as : List Action} {d : Destroying}

/-- The gate in terms of the lists. -/
theorem Entry.gate_holds_iff {b : State} (entry : Entry b P R) : GateHolds b ↔
    (R.length : Int) ≤ b.statsRunning ∨ b.statsRunning < 0 ∨ b.statsRunning ≠ 0 ∧ P = [] := by
  have hrunning : ∀ r, r ∈ R ↔ b.Running r := by
    intro r
    rw [entry.threaded.running]
    simp
  have hpending : (∀ p, ¬ b.Pending p) ↔ P = [] := by
    rw [List.eq_nil_iff_forall_not_mem]
    exact forall_congr' (fun p => not_congr (entry.threaded.pending p).symm)
  rw [← hpending]
  constructor
  · intro gate
    exact gate R entry.threaded.nodup.2 hrunning
  · intro h L nodup hmem
    have hperm : L.Perm R :=
      (List.perm_ext_iff_of_nodup nodup entry.threaded.nodup.2).mpr
        (fun r => (hmem r).trans (hrunning r).symm)
    rwa [hperm.length_eq]

/-- A run of the destruction, with the bound of its own steps. -/
theorem underway_run (entry : Entry q.base P R)
    (reached : Machine.run step (nebEvdpQueueDestroy onRemove q) as = some d) :
    ∃ P' R', Underway q.base onRemove P R P' R' d ∧
      as.countP Action.own ≤ 2 * (P.length + R.length) + 2 := by
  obtain ⟨m, ⟨P', R', underway, rfl⟩, bound⟩ :=
    Machine.bounded_run Action.own
      (I := fun n d => ∃ P' R', Underway q.base onRemove P R P' R' d ∧ potential P' R' d = n)
      (fun n d a d' ⟨P', R', underway, hn⟩ h => by
        obtain ⟨P'', R'', underway', hless⟩ := underway.ofStep h
        exact ⟨_, ⟨P'', R'', underway', rfl⟩, hn ▸ hless⟩)
      ⟨P, R, .start entry onRemove, rfl⟩ reached
  refine ⟨P', R', underway, ?_⟩
  have hstart : potential P R (nebEvdpQueueDestroy onRemove q) ≤ 2 * (P.length + R.length) + 2 := by
    have hrank : ∀ phase : Phase, phase.rank ≤ 2 := by
      intro phase
      cases phase <;> simp [Phase.rank]
    have := hrank (nebEvdpQueueDestroy onRemove q).phase
    simpa [potential, nebEvdpQueueDestroy] using this
  omega

theorem Underway.notifies {P' R' : List Ptr} (underway : Underway q.base onRemove P R P' R' d) :
    Notifies q.base onRemove d := by
  refine ⟨underway.nodup, ?_, underway.removals, underway.attaches, ?_⟩
  · intro p
    rw [← underway.total p]
    constructor
    · intro hp
      exact ⟨Or.inl hp, underway.gone p hp⟩
    · rintro ⟨hp | hp, hnot⟩
      · exact hp
      · exact absurd hp hnot
  · cases hcallbacks : d.callbacks with
    | cons p callbacks =>
      exact Or.inr ⟨.cbReturn, { d with callbacks := callbacks }, rfl, by simp [step, hcallbacks]⟩
    | nil =>
      have stands := underway.stands
      unfold Stands at stands
      cases hphase : d.phase with
      | pendingLoop =>
        exact Or.inr ⟨.proceed, d.round .pendingQs (runningGate d.base), rfl,
          by simp only [step, hcallbacks, hphase]⟩
      | runningLoop =>
        exact Or.inr ⟨.proceed, d.round .runningQs .done, rfl,
          by simp only [step, hcallbacks, hphase]⟩
      | done => exact Or.inl rfl
      | undefined => simp only [hphase] at stands

/-- At the end no source is left, unless the second gate was closed. -/
theorem Underway.complete {P' R' : List Ptr} (entry : Entry q.base P R)
    (underway : Underway q.base onRemove P R P' R' d) (gate : GateHolds q.base)
    (done : d.phase = .done) (p : Ptr) (hp : q.base.Attached p) : p ∈ d.detached := by
  have stands := underway.stands
  unfold Stands at stands
  simp only [done] at stands
  obtain ⟨-, hP, hR⟩ := stands
  have hempty : R' = [] := by
    refine hR.elim id ?_
    rintro ⟨hzero, hsame⟩
    have hdrift := underway.drift
    have hfewer := underway.fewer.2
    rw [hzero] at hdrift
    rw [← List.length_eq_zero_iff]
    rcases entry.gate_holds_iff.mp gate with hcovers | hneg | ⟨hne, hnil⟩
    · omega
    · omega
    · have := hsame hnil
      omega
  rcases (underway.total p).mpr hp with h | h
  · exact h
  · rw [threaded_attached underway.threaded, hP, hempty] at h
    simp at h

/-! A destruction that misses a source. -/

/-- No `on_remove` is left to be called. -/
def Quiet (onRemove : Ptr → Option Handler) (d : Destroying) : Prop :=
  ∀ p, d.base.Attached p → onRemove p = none

/-- A source without an `on_remove` is detached: nothing else happens. -/
private theorem detach_quiet {P₀ R₀ P' R' : List Ptr} {b : State}
    (underway : Underway b onRemove P₀ R₀ P' R' d) (quiet : Quiet onRemove d) {p : Ptr}
    {src : Source} (toClose : Bool) (hsrc : d.base.sources p = some src)
    (huse : src.qInUse = true) : (doDetachFromQueue p src toClose d).callbacks = d.callbacks ∧
      (doDetachFromQueue p src toClose d).base.statsRunning =
        d.base.statsRunning - (if src.pending then 0 else 1) ∧
      Quiet onRemove (doDetachFromQueue p src toClose d) := by
  have hattached : d.base.Attached p := ⟨src, hsrc, huse⟩
  obtain ⟨P'', R'', leaves⟩ := detach_leaves underway.threaded toClose hsrc huse
  refine ⟨?_, (Epoll.detached p src toClose d.base).statsRunning, ?_⟩
  · simp [doDetachFromQueue, underway.onRemove p hattached, quiet p hattached]
  · intro r hr
    exact quiet r ((leaves.attached r).mp hr).1

/-- A round of the first loop detaches the head of its list. -/
private theorem proceed_head {P₀ R₀ P' R' : List Ptr} {b : State} {p : Ptr}
    (underway : Underway b onRemove P₀ R₀ (p :: P') R' d) (hcallbacks : d.callbacks = [])
    (hphase : d.phase = .pendingLoop) :
    ∃ src, d.base.sources p = some src ∧ src.qInUse = true ∧ src.pending = true ∧
      step d .proceed = some (doDetachFromQueue p src false d) := by
  obtain ⟨src, hsrc, huse, hpend⟩ := (underway.threaded.pending p).mp List.mem_cons_self
  have hnext : d.base.links.next .pendingQs = some (.source p) := by
    rw [underway.threaded.lists.next_eq (Or.inl rfl : Node.pendingQs ∈ heads)]
    rfl
  refine ⟨src, hsrc, huse, hpend, ?_⟩
  simp only [step, hcallbacks, hphase, Destroying.round, hnext, hsrc]

/-- When `stats.running` is 0 the destruction ends with the first loop. -/
private theorem ends_early {P₀ R₀ : List Ptr} {b : State} (n : Nat) :
    ∀ {P' R' : List Ptr} {d : Destroying}, P'.length ≤ n →
      Underway b onRemove P₀ R₀ P' R' d → d.callbacks = [] → d.phase = .pendingLoop →
      Quiet onRemove d → d.base.statsRunning = 0 → R' ≠ [] →
      ∃ as d', Machine.run step d as = some d' ∧ d'.phase = .done ∧ ∃ p, d'.base.Attached p := by
  induction n with
  | zero =>
    intro P' R' d hlength underway hcallbacks hphase _ hstats hR
    obtain rfl : P' = [] := List.eq_nil_of_length_eq_zero (Nat.le_zero.mp hlength)
    have hnext : d.base.links.next .pendingQs = none := by
      rw [underway.threaded.lists.next_eq (Or.inl rfl : Node.pendingQs ∈ heads)]
      rfl
    have hstep : step d .proceed = some { d with phase := .done } := by
      simp only [step, hcallbacks, hphase, Destroying.round, hnext, runningGate, hstats]
      rfl
    obtain ⟨r, hr⟩ := List.exists_mem_of_ne_nil R' hR
    exact ⟨[.proceed], _, Machine.run_cons_eq_some.mpr ⟨_, hstep, rfl⟩, rfl, r,
      (threaded_attached underway.threaded r).mpr (Or.inr hr)⟩
  | succ n ih =>
    intro P' R' d hlength underway hcallbacks hphase quiet hstats hR
    cases P' with
    | nil => exact ih (by simp) underway hcallbacks hphase quiet hstats hR
    | cons p P' =>
      obtain ⟨src, hsrc, huse, hpend, hstep⟩ := proceed_head underway hcallbacks hphase
      obtain ⟨hcallbacks', hstats', quiet'⟩ := detach_quiet underway quiet false hsrc huse
      obtain ⟨P'', R'', underway', hless⟩ := underway.ofStep hstep
      rw [hpend, if_pos rfl, hstats, Int.sub_zero] at hstats'
      -- the counter tells that the running list has kept its length
      have hsame : R''.length = R'.length := by
        have h' := underway'.drift
        have h := underway.drift
        omega
      have hshorter : P''.length ≤ n := by
        unfold potential at hless
        rw [hcallbacks', hsame] at hless
        have hrank : (doDetachFromQueue p src false d).phase = d.phase := rfl
        rw [hrank, List.length_cons] at hless
        rw [List.length_cons] at hlength
        simp only [Action.own, if_true] at hless
        omega
      have hR'' : R'' ≠ [] := by
        rintro rfl
        exact hR (List.eq_nil_of_length_eq_zero hsame.symm)
      obtain ⟨as, d', hrun, hdone⟩ :=
        ih hshorter underway' (hcallbacks'.trans hcallbacks) hphase quiet' hstats' hR''
      exact ⟨.proceed :: as, d', Machine.run_cons_eq_some.mpr ⟨_, hstep, hrun⟩, hdone⟩

/-- A callback detaches as many running sources as `stats.running` tells. -/
private theorem drains {P₀ R₀ : List Ptr} {b : State} (k : Nat) :
    ∀ {P' R' : List Ptr} {d : Destroying}, Underway b onRemove P₀ R₀ P' R' d →
      d.callbacks ≠ [] → Quiet onRemove d → d.base.statsRunning = k → k < R'.length →
      ∃ as d' P'' R'', Machine.run step d as = some d' ∧ Underway b onRemove P₀ R₀ P'' R'' d' ∧
        d'.callbacks = d.callbacks ∧ d'.phase = d.phase ∧ Quiet onRemove d' ∧
        d'.base.statsRunning = 0 ∧ R'' ≠ [] := by
  induction k with
  | zero =>
    intro P' R' d underway hcallbacks quiet hstats hR
    exact ⟨[], d, P', R', rfl, underway, rfl, rfl, quiet, hstats, List.length_pos_iff.mp hR⟩
  | succ k ih =>
    intro P' R' d underway hcallbacks quiet hstats hR
    -- at most one of two running sources is protected
    obtain ⟨r, hr, hfree⟩ : ∃ r ∈ R', ¬ Guarded d.base r := by
      match R', hR, underway.threaded.nodup.2 with
      | r :: r' :: R', _, nodup =>
        by_cases hguarded : Guarded d.base r
        · refine ⟨r', by simp, fun h => ?_⟩
          have := underway.single r r' hguarded h
          simp [this] at nodup
        · exact ⟨r, by simp, hguarded⟩
    obtain ⟨src, hsrc, huse, hpend⟩ : d.base.Running r := by
      simpa using (underway.threaded.running r).mp hr
    have hno : src.noDetach = false := by
      cases h : src.noDetach with
      | false => rfl
      | true => exact absurd ⟨src, hsrc, h⟩ hfree
    have hstep : step d (.detach r false) = some (doDetachFromQueue r src false d) := by
      have hnil : d.callbacks.isEmpty = false := by simpa using hcallbacks
      simp [step, Destroying.calling, hnil, hsrc, nebEvdpQueueDetach, huse, hno]
    obtain ⟨hcallbacks', hstats', quiet'⟩ := detach_quiet underway quiet false hsrc huse
    obtain ⟨P1, R1, underway', -⟩ := underway.ofStep hstep
    have hless : (doDetachFromQueue r src false d).base.statsRunning = k := by
      simp only [hpend, Bool.false_eq_true, if_false] at hstats'
      omega
    have hR1 : k < R1.length := by
      have h' := underway'.drift
      have h := underway.drift
      omega
    obtain ⟨as, d', P'', R'', hrun, rest⟩ :=
      ih underway' (by rwa [hcallbacks']) quiet' hless hR1
    rw [hcallbacks'] at rest
    exact ⟨.detach r false :: as, d', P'', R'', Machine.run_cons_eq_some.mpr ⟨_, hstep, hrun⟩, rest⟩

/-- With the gate closed there are callbacks under which a source is left attached. -/
private theorem misses (entry : Entry q.base P R) (gate : ¬ GateHolds q.base) :
    ∃ onRemove as d, Machine.run step (nebEvdpQueueDestroy onRemove q) as = some d ∧
      d.phase = .done ∧ ∃ p, d.base.Attached p := by
  rw [entry.gate_holds_iff] at gate
  push Not at gate
  obtain ⟨hcovers, hpos, hfirst⟩ := gate
  by_cases hzero : q.base.statsRunning = 0
  · have hR : R ≠ [] := by
      rintro rfl
      rw [hzero] at hcovers
      cases hcovers
    exact ⟨fun _ => none, ends_early P.length le_rfl (.start entry _) rfl (destroy_opens entry _)
      (fun _ _ => rfl) hzero hR⟩
  · cases P with
    | nil => exact absurd rfl (hfirst hzero)
    | cons p P =>
      -- the first pending source has an `on_remove`, and no other
      obtain ⟨onRemove, self, other⟩ : ∃ onRemove : Ptr → Option Handler,
          onRemove p = some 0 ∧ ∀ r, r ≠ p → onRemove r = none :=
        ⟨fun r => if r = p then some 0 else none, if_pos rfl, fun r hr => if_neg hr⟩
      have underway := Underway.start entry onRemove
      obtain ⟨src, hsrc, huse, hpend, hstep⟩ :=
        proceed_head underway rfl (destroy_opens entry onRemove)
      obtain ⟨P1, R1, leaves⟩ := detach_leaves entry.threaded false hsrc huse
      obtain ⟨P1, R1, underway1, -⟩ := underway.ofStep hstep
      have hcallbacks : (doDetachFromQueue p src false
          (nebEvdpQueueDestroy onRemove q)).callbacks = [p] := by
        simp [doDetachFromQueue, nebEvdpQueueDestroy, self]
      have hstats : (doDetachFromQueue p src false
          (nebEvdpQueueDestroy onRemove q)).base.statsRunning = q.base.statsRunning := by
        have := (Epoll.detached p src false q.base).statsRunning
        rwa [hpend, if_pos rfl, Int.sub_zero] at this
      have quiet : Quiet onRemove (doDetachFromQueue p src false
          (nebEvdpQueueDestroy onRemove q)) :=
        fun r hr => other r ((leaves.attached r).mp hr).2
      obtain ⟨k, hk⟩ := Int.eq_ofNat_of_zero_le hpos
      obtain ⟨as, d2, P2, R2, hrun, underway2, hcallbacks2, hphase2, quiet2, hstats2, hR2⟩ :=
        drains k underway1 (by simp [hcallbacks]) quiet (hstats.trans hk) (by
          have := underway1.drift
          omega)
      have hreturn : step d2 .cbReturn = some { d2 with callbacks := [] } := by
        simp only [step, hcallbacks2, hcallbacks]
      obtain ⟨P3, R3, underway3, -⟩ := underway2.ofStep hreturn
      have hR3 : R3 ≠ [] := by
        rintro rfl
        have h' := underway3.drift
        have h := underway2.drift
        have : R2.length = 0 := by
          simp only [List.length_nil] at h'
          omega
        exact hR2 (List.eq_nil_of_length_eq_zero this)
      obtain ⟨bs, d3, hrun3, hdone⟩ := ends_early P3.length le_rfl underway3 rfl
        (hphase2.trans (destroy_opens entry onRemove)) quiet2 hstats2 hR3
      refine ⟨onRemove, .proceed :: (as ++ .cbReturn :: bs), d3, ?_, hdone⟩
      refine Machine.run_cons_eq_some.mpr ⟨_, hstep, ?_⟩
      refine Machine.run_append_eq_some.mpr ⟨d2, hrun, ?_⟩
      exact Machine.run_cons_eq_some.mpr ⟨_, hreturn, hrun3⟩

end Run

/-- `neb_evdp_queue_destroy`, called by the user outside of an iteration, notifies every source of
the queue under all `on_remove` callbacks if and only if the gate of its second loop holds. -/
theorem nebEvdpQueueDestroy_notifies_iff (batchSize : Nat) (as : List Foreach.Action)
    (q : Foreach.Queue)
    (reached : Machine.run Foreach.step (Foreach.queueCreate batchSize) as = some q)
    (turn : q.base.ctl.userTurn = true) (calls : q.calls = []) (idle : q.inForeach = false) :
    DestroysAll q ↔ GateHolds q.base := by
  obtain ⟨P, R, entry⟩ := entry_of_reached reached turn calls idle
  constructor
  · intro destroys
    by_contra gate
    obtain ⟨onRemove, bs, d, hrun, hdone, p, hp⟩ := misses entry gate
    obtain ⟨P', R', underway, -⟩ := underway_run entry hrun
    have hq := (underway.total p).mp (Or.inr hp)
    exact underway.gone p (destroys.complete onRemove bs d hrun hdone p hq) hp
  · intro gate
    refine ⟨⟨2 * (P.length + R.length) + 2, ?_⟩, ?_, ?_⟩
    · intro onRemove bs d hrun
      obtain ⟨P', R', -, bound⟩ := underway_run entry hrun
      exact bound
    · intro onRemove bs d hrun
      obtain ⟨P', R', underway, -⟩ := underway_run entry hrun
      exact underway.notifies
    · intro onRemove bs d hrun hdone
      obtain ⟨P', R', underway, -⟩ := underway_run entry hrun
      exact underway.complete entry gate hdone

/-- The request of a flush step of the queue succeeds. -/
def FlushesSucceed (q : Foreach.Queue) : Foreach.Action → Prop
  | .base a => FlushSucceeds q.base a
  | _ => True

instance (q : Foreach.Queue) (a : Foreach.Action) : Decidable (FlushesSucceed q a) :=
  match a with
  | .base a => inferInstanceAs (Decidable (FlushSucceeds q.base a))
  | .setUtype _ _ => isTrue trivial
  | .foreachStart _ => isTrue trivial
  | .foreachNext _ => isTrue trivial
  | .foreachSetEnd => isTrue trivial
  | .proceed => isTrue trivial
  | .foreachReturn _ => isTrue trivial

/-- Two sources that have been flushed and one that is pending. -/
def twoFlushed : List Epoll.Action :=
  [.openFd 5, .openFd 6, .openFd 7, .newSource 1 .osFd 5, .newSource 2 .osFd 6,
    .newSource 3 .osFd 7, .nextRead 1 (some 0) true, .nextRead 2 (some 0) true,
    .nextRead 3 (some 0) true, .attach 1 true, .attach 2 true, .run, .flush true, .flush true,
    .flush true, .waitFails, .attach 3 true]

theorem nebEvdpQueueDestroy_notifies_iff_flushed :
    ∃ q, Machine.run Foreach.step (Foreach.queueCreate 10) (twoFlushed.map .base) = some q ∧
      DestroysAll q := by
  obtain ⟨q, hq, hfacts⟩ : ∃ q, Machine.run Foreach.step (Foreach.queueCreate 10)
      (twoFlushed.map .base) = some q ∧
      decide (q.base.ctl.userTurn = true ∧ q.calls = [] ∧ q.inForeach = false ∧
        q.base.statsRunning = 3 ∧ q.base.links.next .runningQs = some (.source 1) ∧
        q.base.links.prev (.source 1) = some .runningQs ∧
        q.base.links.next (.source 1) = some (.source 2) ∧
        q.base.links.prev (.source 2) = some (.source 1) ∧
        q.base.links.next (.source 2) = none) = true :=
    Machine.run_reaches (by decide)
  obtain ⟨hctl, hcalls, hidle, hstats, hhead, hprev1, hnext1, hprev2, hnext2⟩ :=
    of_decide_eq_true hfacts
  refine ⟨q, hq, (nebEvdpQueueDestroy_notifies_iff 10 _ q hq hctl hcalls hidle).mpr ?_⟩
  obtain ⟨P, R, entry⟩ := entry_of_reached hq hctl hcalls hidle
  have hR : R.map Node.source = [.source 1, .source 2] :=
    (entry.threaded.lists.segment .runningQs (Or.inr rfl)).unique
      ⟨hhead, hprev1, hnext1, hprev2, hnext2⟩
  have hlength : R.length = 2 := by simpa using congrArg List.length hR
  refine entry.gate_holds_iff.mpr (Or.inl ?_)
  rw [hstats, hlength]
  decide

/-- Three readers with an event each; the callback of the first one unsets and sets the read
handlers of the others, which read again in their own callbacks. -/
def threeReaders : List Epoll.Action :=
  [.openFd 5, .openFd 6, .openFd 7, .newSource 1 .osFd 5, .newSource 2 .osFd 6,
    .newSource 3 .osFd 7, .nextRead 1 (some 0) true, .nextRead 2 (some 0) true,
    .nextRead 3 (some 0) true, .attach 1 true, .attach 2 true, .attach 3 true, .run, .flush true,
    .flush true, .flush true, .flush true,
    .wait [(5, ⟨true, false, false⟩), (6, ⟨true, false, false⟩), (7, ⟨true, false, false⟩)]] ++
  firstCallback [.nextRead 2 none true, .nextRead 2 (some 0) true, .nextRead 3 none true,
    .nextRead 3 (some 0) true] ++
  firstCallback [.nextRead 2 (some 0) true] ++ firstCallback [.nextRead 3 (some 0) true] ++
  [.proceed true]

/-- `stats.running` is 0 although the first reader is running: the second loop is left out. -/
theorem nebEvdpQueueDestroy_notifies_fails :
    ¬ ∀ (batchSize : Nat) (as : List Foreach.Action) (q : Foreach.Queue),
      Machine.StepsMeet Foreach.step FlushesSucceed (Foreach.queueCreate batchSize) as →
      Machine.run Foreach.step (Foreach.queueCreate batchSize) as = some q →
      q.base.ctl.userTurn = true → q.calls = [] → q.inForeach = false → DestroysAll q := by
  intro claim
  obtain ⟨q, hq, hfacts⟩ : ∃ q, Machine.run Foreach.step (Foreach.queueCreate 10)
      (threeReaders.map .base) = some q ∧
      decide (q.base.ctl.userTurn = true ∧ q.calls = [] ∧ q.inForeach = false ∧ q.base.Attached 1 ∧
        (Machine.run step (nebEvdpQueueDestroy (fun _ => some 0) q)
          [.proceed, .cbReturn, .proceed, .cbReturn, .proceed]).map
            (fun d => decide (d.phase = .done ∧ d.detached = [2, 3])) = some true) = true :=
    Machine.run_reaches (by decide)
  obtain ⟨hctl, hcalls, hidle, hattached, hdestroy⟩ := of_decide_eq_true hfacts
  obtain ⟨d, hd, hend⟩ := Machine.run_reaches hdestroy
  obtain ⟨hdone, hdetached⟩ := of_decide_eq_true hend
  have hmem := (claim 10 _ q (by decide) hq hctl hcalls hidle).complete (fun _ => some 0) _ d hd
    hdone 1 hattached
  rw [hdetached] at hmem
  simp at hmem

end Nebase.Evdp.Destroy
