/- When a destruction frees the sources that the queue has allocated for itself, over all histories
   of the queue and of its iterations. -/

import Nebase.Evdp.Destroy.Internals
import Nebase.Evdp.Foreach.Tally

set_option autoImplicit false
set_option relaxedAutoImplicit false

namespace Nebase.Evdp.Destroy

open Nebase.Foundation SentinelList Nebase.Evdp.Epoll

/-- `neb_evdp_queue_destroy` on `q`, whatever the `on_remove` callbacks are and do: the number of
its own steps is bounded and it can always go on to its end; nothing is freed twice, of the queue's
own sources, and at the end each of them is freed. -/
structure FreesInternals (q : Foreach.Queue) : Prop where
  terminates : ∃ n, ∀ onRemove as r,
    Machine.run releaseStep (releaseStart onRemove q) as = some r → as.countP Action.own ≤ n
  goesOn : ∀ onRemove as r, Machine.run releaseStep (releaseStart onRemove q) as = some r →
    r.queue.phase = .done ∨ ∃ a r', a.own = true ∧ releaseStep r a = some r'
  once : ∀ onRemove as r, Machine.run releaseStep (releaseStart onRemove q) as = some r →
    r.freed.Nodup ∧ ∀ n ∈ r.freed, Internal q n
  complete : ∀ onRemove as r, Machine.run releaseStep (releaseStart onRemove q) as = some r →
    r.queue.phase = .done → ∀ n, Internal q n → n ∈ r.freed

/-- `stats.running` is not the number of the running sources that the `on_remove` callbacks of
pending sources might detach. -/
def HeadGateHolds (q : State) : Prop :=
  ∀ R : List Ptr, R.Nodup → (∀ p ∈ R, q.Running p ∧ ¬ Guarded q p) →
    (R = [] ∨ ∃ p, q.Pending p) → (R.length : Int) ≠ q.statsRunning

/-- The node of the iteration is in the running list, if there is one. -/
def CursorLinked (q : Foreach.Queue) : Prop := q.foreachS = none ∨ q.inForeach = true

instance (q : Foreach.Queue) : Decidable (CursorLinked q) := inferInstanceAs (Decidable (_ ∨ _))

section Run

variable {q : Foreach.Queue} {onRemove : Ptr → Option Handler} {P R P₀ R₀ : List Ptr}
  {c : Option Ptr} {as : List Action} {r : Releasing}

theorem CursorLinked.cursor (linked : CursorLinked q) : q.cursor = q.foreachS := by
  unfold Foreach.Queue.cursor
  rcases linked with hnone | hin
  · simp [hnone]
  · simp [hin]

/-- A run of the destruction, with the bound of its own steps. -/
theorem draining_run (wired : Foreach.Wired q P R) (opens : 1 + P.length ≤ q.base.statsPending)
    (reached : Machine.run releaseStep (releaseStart onRemove q) as = some r) :
    ∃ P' R' c', Draining q P R P' R' c' r ∧
      as.countP Action.own ≤ 2 * (P.length + R.length) + 2 := by
  obtain ⟨m, ⟨P', R', c', draining, rfl⟩, bound⟩ :=
    Machine.bounded_run Action.own
      (I := fun n r => ∃ P' R' c', Draining q P R P' R' c' r ∧ r.left P' R' = n)
      (fun n r a r' ⟨P', R', c', draining, hn⟩ h => by
        obtain ⟨P'', R'', c'', draining', less⟩ := draining.ofStep h
        exact ⟨_, ⟨P'', R'', c'', draining', rfl⟩, hn ▸ less⟩)
      ⟨P, R, q.cursor, .start wired opens onRemove, rfl⟩ reached
  refine ⟨P', R', c', draining, ?_⟩
  have hstart : (releaseStart onRemove q).left P R ≤ 2 * (P.length + R.length) + 2 := by
    have hrank : ∀ phase : Phase, phase.rank ≤ 2 := by
      intro phase
      cases phase <;> simp [Phase.rank]
    have := hrank (nebEvdpQueueDestroy onRemove q).phase
    rw [release_start_eq]
    simpa [Releasing.left, nebEvdpQueueDestroy] using this
  omega

/-- Every destruction can be brought to its end. -/
private theorem completes (n : Nat) : ∀ {P R : List Ptr} {c : Option Ptr} {r : Releasing},
    r.left P R ≤ n → Draining q P₀ R₀ P R c r →
    ∃ as r', Machine.run releaseStep r as = some r' ∧ r'.queue.phase = .done := by
  induction n with
  | zero =>
    intro P R c r hleft draining
    rcases draining.goesOn with hdone | ⟨a, r', own, h⟩
    · exact ⟨[], r, rfl, hdone⟩
    · obtain ⟨P', R', c', -, less⟩ := draining.ofStep h
      rw [own, if_pos rfl] at less
      omega
  | succ n ih =>
    intro P R c r hleft draining
    rcases draining.goesOn with hdone | ⟨a, r', own, h⟩
    · exact ⟨[], r, rfl, hdone⟩
    · obtain ⟨P', R', c', draining', less⟩ := draining.ofStep h
      rw [own, if_pos rfl] at less
      obtain ⟨as, r'', hrun, hdone⟩ := ih (by omega) draining'
      exact ⟨a :: as, r'', Machine.run_cons_eq_some.mpr ⟨r', h, hrun⟩, hdone⟩

/-- What has been freed, at any time of a destruction. -/
theorem Draining.freed_once (draining : Draining q P₀ R₀ P R c r) :
    r.freed.Nodup ∧ ∀ n ∈ r.freed, Internal q n := by
  have releases_once : (releases q.cursor).Nodup ∧ Node.runningQs ∉ releases q.cursor ∧
      ∀ n ∈ releases q.cursor, Internal q n := by
    unfold releases Foreach.Queue.cursor
    split_ifs
    · cases hf : q.foreachS with
      | none => simp [Internal]
      | some f => simp [Internal, hf]
    · simp [Internal]
  have pendingQs : ([.pendingQs] : List Node).Nodup ∧ ∀ n ∈ [Node.pendingQs], Internal q n := by
    simp [Internal]
  have frees := draining.frees
  unfold Frees at frees
  cases hphase : r.queue.phase with
  | pendingLoop =>
    simp only [hphase] at frees
    rw [frees.2.1]
    simp
  | runningLoop =>
    simp only [hphase] at frees
    rcases frees.2 with ⟨-, hfreed⟩ | ⟨-, hfreed⟩
    · rw [hfreed]
      exact pendingQs
    · rw [hfreed]
      exact ⟨releases_once.1, releases_once.2.2⟩
  | done =>
    simp only [hphase] at frees
    rcases frees.2 with hfreed | ⟨-, hfreed, -⟩
    · rw [hfreed]
      refine ⟨List.nodup_cons.mpr ⟨releases_once.2.1, releases_once.1⟩, ?_⟩
      intro n hn
      rcases List.mem_cons.mp hn with rfl | hn
      · trivial
      · exact releases_once.2.2 n hn
    · rw [hfreed]
      exact pendingQs
  | undefined => simp only [hphase] at frees

/-- The sources that have left the running list in the first loop. -/
private theorem detached_first (wired : Foreach.Wired q P₀ R₀)
    (draining : Draining q P₀ R₀ P R c r) (hc : c = q.cursor)
    (held : Held q.base R₀ R r.queue.base) :
    ∃ D : List Ptr, D.Nodup ∧ (∀ p ∈ D, q.base.Running p ∧ ¬ Guarded q.base p) ∧
      D.length + R.length = R₀.length := by
  refine ⟨R₀.filter (· ∉ R), wired.threaded.nodup.2.filter _, ?_, ?_⟩
  · intro p hp
    obtain ⟨hp₀, hpR⟩ := List.mem_filter.mp hp
    have hpR : p ∉ R := by simpa using hpR
    refine ⟨?_, fun hguarded => hpR (held p hp₀ hguarded).1⟩
    refine ((wired.threaded.running p).mp hp₀).resolve_right ?_
    rintro hcursor
    exact hpR ((draining.threaded.running p).mpr (Or.inr (hc.trans hcursor)))
  · have hin : (R₀.filter (· ∈ R)).Perm R := by
      refine (List.perm_ext_iff_of_nodup (wired.threaded.nodup.2.filter _)
        draining.threaded.nodup.2).mpr (fun p => ?_)
      rw [List.mem_filter]
      simpa using fun hp => draining.fewer.2 hp
    have hsplit := List.length_eq_length_filter_add (l := R₀) (fun p => decide (p ∈ R))
    rw [hin.length_eq] at hsplit
    have hnot : (R₀.filter (fun p => !decide (p ∈ R))).length =
        (R₀.filter (fun p => decide (p ∉ R))).length := by
      congr 2
      funext p
      simp
    omega

/-- At the end all are freed, if the node of the iteration was linked and the gate holds. -/
theorem Draining.complete (wired : Foreach.Wired q P₀ R₀)
    (draining : Draining q P₀ R₀ P R c r) (linked : CursorLinked q)
    (gate : HeadGateHolds q.base) (hdone : r.queue.phase = .done) (n : Node)
    (own : Internal q n) : n ∈ r.freed := by
  have frees := draining.frees
  unfold Frees at frees
  simp only [hdone] at frees
  rcases frees.2 with hfreed | ⟨hc, -, hstats, held, first⟩
  · rw [hfreed]
    cases n with
    | pendingQs => simp [releases]
    | runningQs => simp
    | source f =>
      have hcursor : q.cursor = some f := linked.cursor.trans own
      simp [releases, hcursor]
  · exfalso
    obtain ⟨D, nodup, detachable, hlength⟩ := detached_first wired draining hc held
    refine gate D nodup detachable ?_ ?_
    · cases P₀ with
      | nil =>
        have := first rfl
        exact Or.inl (List.eq_nil_of_length_eq_zero (by omega))
      | cons p P₀ => exact Or.inr ⟨p, (wired.threaded.pending p).mp List.mem_cons_self⟩
    · have hdrift := draining.drift
      rw [hstats] at hdrift
      omega

/-! A destruction that leaves the head of the running list. -/

/-- No `on_remove` of an attached source is left to be called. -/
def Silent (d : Destroying) : Prop := ∀ p, d.base.Attached p → d.onRemove p = none

/-- A detach leaves no callback to come, if the other attached sources have none. -/
private theorem detach_silences {d : Destroying} {p : Ptr} (src : Source) (toClose : Bool)
    (others : ∀ x, x ≠ p → d.base.Attached x → d.onRemove x = none) :
    Silent (doDetachFromQueue p src toClose d) := by
  rintro x ⟨s, hs, hused⟩
  change (Epoll.doDetachFromQueue p src toClose d.base).sources x = some s at hs
  obtain ⟨src', hsources, hunused, -⟩ := (Epoll.detached p src toClose d.base).sources
  by_cases hx : x = p
  · subst hx
    rw [hsources, Function.update_self] at hs
    obtain rfl := Option.some.inj hs
    rw [hunused] at hused
    cases hused
  · rw [detach_sources src toClose hx] at hs
    exact others x hx ⟨s, hs, hused⟩

/-- A source without an `on_remove` is detached: nothing else happens. -/
private theorem detach_silent {d : Destroying} (silent : Silent d) {p : Ptr} {src : Source}
    (toClose : Bool) (hsrc : d.base.sources p = some src) (huse : src.qInUse = true) :
    (doDetachFromQueue p src toClose d).callbacks = d.callbacks ∧
      (doDetachFromQueue p src toClose d).base.statsRunning =
        d.base.statsRunning - (if src.pending then 0 else 1) ∧
      Silent (doDetachFromQueue p src toClose d) := by
  refine ⟨?_, (Epoll.detached p src toClose d.base).statsRunning, ?_⟩
  · simp [doDetachFromQueue, silent p ⟨src, hsrc, huse⟩]
  · exact detach_silences src toClose (fun x _ hx => silent x hx)

/-- A round of the first loop detaches the head of its list. -/
private theorem pending_round {p : Ptr} (draining : Draining q P₀ R₀ (p :: P) R c r)
    (hcallbacks : r.queue.callbacks = []) (hphase : r.queue.phase = .pendingLoop) :
    ∃ src, r.queue.base.sources p = some src ∧ src.qInUse = true ∧ src.pending = true ∧
      releaseStep r .proceed =
        some { r with queue := doDetachFromQueue p src false r.queue } := by
  obtain ⟨src, hsrc, huse, hpend⟩ := (draining.threaded.pending p).mp List.mem_cons_self
  have next : r.queue.base.links.next .pendingQs = some (.source p) := by
    rw [draining.threaded.lists.next_eq (Or.inl rfl : Node.pendingQs ∈ heads)]
    rfl
  refine ⟨src, hsrc, huse, hpend, ?_⟩
  simp only [releaseStep, hcallbacks, hphase]
  rw [round_source (draining.not_live (by rw [hsrc]; rfl)) next hsrc]

/-- When `stats.running` is 0 the destruction ends with the first loop. -/
private theorem release_ends_early (n : Nat) : ∀ {P R : List Ptr} {c : Option Ptr} {r : Releasing},
    r.left P R ≤ n → Draining q P₀ R₀ P R c r → r.queue.callbacks = [] →
    r.queue.phase = .pendingLoop → Silent r.queue → r.queue.base.statsRunning = 0 →
    ∃ as r', Machine.run releaseStep r as = some r' ∧ r'.queue.phase = .done ∧
      r'.freed = [.pendingQs] := by
  induction n with
  | zero =>
    intro P R c r hleft draining hcallbacks hphase
    simp [Releasing.left, hphase, Phase.rank] at hleft
  | succ n ih =>
    intro P R c r hleft draining hcallbacks hphase silent hstats
    cases P with
    | nil =>
      have hstep : releaseStep r .proceed =
          some (r.round .pendingQs (runningGate r.queue.base)) := by
        simp only [releaseStep, hcallbacks, hphase]
      have next : r.queue.base.links.next .pendingQs = none := by
        rw [draining.threaded.lists.next_eq (Or.inl rfl : Node.pendingQs ∈ heads)]
        rfl
      have hfreed : r.freed = [] := by
        have frees := draining.frees
        unfold Frees at frees
        simp only [hphase] at frees
        exact frees.2.1
      have used := draining.owned (n := .pendingQs) trivial (by simp [hfreed])
      rw [round_empty used next, hfreed] at hstep
      refine ⟨[.proceed], _, Machine.run_cons_eq_some.mpr ⟨_, hstep, rfl⟩, ?_, rfl⟩
      simp [runningGate, hstats]
    | cons p P =>
      obtain ⟨src, hsrc, huse, hpend, hstep⟩ := pending_round draining hcallbacks hphase
      obtain ⟨hcallbacks', hstats', silent'⟩ := detach_silent silent false hsrc huse
      rw [hpend, if_pos rfl, Int.sub_zero, hstats] at hstats'
      obtain ⟨P', R', c', draining', less⟩ := draining.ofStep hstep
      simp only [Action.own, if_true] at less
      obtain ⟨as, r', hrun, hend⟩ :=
        ih (by omega) draining' (hcallbacks'.trans hcallbacks) hphase silent' hstats'
      exact ⟨.proceed :: as, r', Machine.run_cons_eq_some.mpr ⟨_, hstep, hrun⟩, hend⟩

/-- A callback detaches running sources that it may detach. -/
private theorem release_drains (D : List Ptr) : ∀ {r : Releasing}, D.Nodup →
    (∀ p ∈ D, r.queue.base.Running p ∧ ¬ Guarded r.queue.base p) → r.queue.callbacks ≠ [] →
    Silent r.queue →
    ∃ as r', Machine.run releaseStep r as = some r' ∧ r'.queue.callbacks = r.queue.callbacks ∧
      r'.queue.phase = r.queue.phase ∧ Silent r'.queue ∧
      r'.queue.base.statsRunning = r.queue.base.statsRunning - D.length := by
  induction D with
  | nil =>
    intro r _ _ _ silent
    exact ⟨[], r, rfl, rfl, rfl, silent, by simp⟩
  | cons p D ih =>
    intro r nodup detachable hcallbacks silent
    obtain ⟨hp, nodup⟩ := List.nodup_cons.mp nodup
    obtain ⟨⟨src, hsrc, huse, hpend⟩, free⟩ := detachable p List.mem_cons_self
    have hno : src.noDetach = false := by
      cases h : src.noDetach with
      | false => rfl
      | true => exact absurd ⟨src, hsrc, h⟩ free
    have hstep : releaseStep r (.detach p false) =
        some { r with queue := doDetachFromQueue p src false r.queue } := by
      have hnil : r.queue.callbacks.isEmpty = false := by simpa using hcallbacks
      simp [releaseStep, Releasing.admits, step, Destroying.calling, hnil, hsrc,
        nebEvdpQueueDetach, huse, hno]
    obtain ⟨hcallbacks', hstats', silent'⟩ := detach_silent silent false hsrc huse
    have same : ∀ x ∈ D, (doDetachFromQueue p src false r.queue).base.sources x =
        r.queue.base.sources x :=
      fun x hx => detach_sources src false (fun e : x = p => hp (e ▸ hx))
    obtain ⟨as, r', hrun, hcb, hphase, silent'', hstats⟩ :=
      ih (r := { r with queue := doDetachFromQueue p src false r.queue }) nodup (by
        intro x hx
        simp only [State.Running, Guarded, same x hx]
        exact detachable x (List.mem_cons_of_mem p hx)) (by rwa [hcallbacks']) silent'
    refine ⟨.detach p false :: as, r', Machine.run_cons_eq_some.mpr ⟨_, hstep, hrun⟩,
      hcb.trans hcallbacks', hphase, silent'', ?_⟩
    rw [hpend] at hstats'
    simp only [Bool.false_eq_true, if_false] at hstats'
    rw [hstats, List.length_cons]
    push_cast
    omega

private theorem release_in_phase (onRemove : Ptr → Option Handler)
    (pending : 1 ≤ q.base.statsPending) :
    (releaseStart onRemove q).queue.phase = .pendingLoop := by
  rw [release_start_eq]
  refine if_pos ?_
  omega

/-- A destruction that comes to have no more running sources in its counter while it is in its first
loop leaves the head of the running list. -/
private theorem leaves_head_at (wired : Foreach.Wired q P R)
    (opens : 1 + P.length ≤ q.base.statsPending) {onRemove : Ptr → Option Handler}
    {as : List Action} {r : Releasing}
    (reached : Machine.run releaseStep (releaseStart onRemove q) as = some r)
    (callbacks : r.queue.callbacks = []) (phase : r.queue.phase = .pendingLoop)
    (silent : Silent r.queue) (zero : r.queue.base.statsRunning = 0) :
    ∃ as r, Machine.run releaseStep (releaseStart onRemove q) as = some r ∧
      r.queue.phase = .done ∧ r.freed = [.pendingQs] := by
  obtain ⟨P', R', c', draining, -⟩ := draining_run wired opens reached
  obtain ⟨bs, r', hrun, hend⟩ :=
    release_ends_early _ le_rfl draining callbacks phase silent zero
  exact ⟨as ++ bs, r', Machine.run_append_eq_some.mpr ⟨r, reached, hrun⟩, hend⟩

/-- The `on_remove` of the first pending source, where no other has one, may detach running
sources. -/
private theorem first_pending_detaches {p : Ptr} (wired : Foreach.Wired q (p :: P) R)
    (opens : 1 + (p :: P).length ≤ q.base.statsPending) {onRemove : Ptr → Option Handler}
    (self : onRemove p = some 0) (others : ∀ x, x ≠ p → onRemove x = none) {D : List Ptr}
    (nodup : D.Nodup) (detachable : ∀ x ∈ D, q.base.Running x ∧ ¬ Guarded q.base x) :
    ∃ as r, Machine.run releaseStep (releaseStart onRemove q) as = some r ∧
      r.queue.callbacks = [] ∧ r.queue.phase = .pendingLoop ∧ Silent r.queue ∧
      r.queue.base.statsRunning = q.base.statsRunning - D.length := by
  have hphase := release_in_phase (q := q) onRemove (by omega)
  have hqueue : (releaseStart onRemove q).queue = nebEvdpQueueDestroy onRemove q := by
    rw [release_start_eq]
  obtain ⟨src, hsrc, huse, hpend, hstep⟩ :=
    pending_round (.start wired opens onRemove) (by rw [hqueue]; rfl) hphase
  rw [hqueue] at hsrc hstep hphase
  have hother : ∀ x ∈ D, x ≠ p := by
    rintro x hx rfl
    exact Foreach.not_both ⟨src, hsrc, huse, hpend⟩ (detachable x hx).1
  have silent : Silent (doDetachFromQueue p src false (nebEvdpQueueDestroy onRemove q)) :=
    detach_silences src false (fun x hx _ => others x hx)
  have hstats : (doDetachFromQueue p src false
      (nebEvdpQueueDestroy onRemove q)).base.statsRunning = q.base.statsRunning := by
    have := (Epoll.detached p src false q.base).statsRunning
    rwa [hpend, if_pos rfl, Int.sub_zero] at this
  have hcallbacks : (doDetachFromQueue p src false
      (nebEvdpQueueDestroy onRemove q)).callbacks = [p] := by
    simp [doDetachFromQueue, nebEvdpQueueDestroy, self]
  obtain ⟨as, r, hrun, hcallbacks', hphase', silent', hstats'⟩ :=
    release_drains D (r := { releaseStart onRemove q with
      queue := doDetachFromQueue p src false (nebEvdpQueueDestroy onRemove q) }) nodup (by
        intro x hx
        have hsame := detach_sources (b := q.base) src false (hother x hx)
        change (Epoll.doDetachFromQueue p src false q.base).Running x ∧
          ¬ Guarded (Epoll.doDetachFromQueue p src false q.base) x
        simp only [State.Running, Guarded, hsame]
        exact detachable x hx) (by simp [hcallbacks]) silent
  have hreturn : releaseStep r .cbReturn =
      some { r with queue := { r.queue with callbacks := [] } } := by
    have hcb : r.queue.callbacks = [p] := hcallbacks'.trans hcallbacks
    simp [releaseStep, Releasing.admits, step, hcb]
  refine ⟨.proceed :: (as ++ [.cbReturn]), { r with queue := { r.queue with callbacks := [] } },
    ?_, rfl, hphase'.trans hphase, silent', ?_⟩
  · refine Machine.run_cons_eq_some.mpr ⟨_, hstep, ?_⟩
    exact Machine.run_append_eq_some.mpr
      ⟨r, hrun, Machine.run_cons_eq_some.mpr ⟨_, hreturn, rfl⟩⟩
  · rw [← hstats]
    exact hstats'

/-- With the gate closed there are callbacks under which the head of the running list is not
freed. -/
private theorem leaves_head (wired : Foreach.Wired q P R)
    (opens : 1 + P.length ≤ q.base.statsPending) (gate : ¬ HeadGateHolds q.base) :
    ∃ onRemove as r, Machine.run releaseStep (releaseStart onRemove q) as = some r ∧
      r.queue.phase = .done ∧ r.freed = [.pendingQs] := by
  simp only [HeadGateHolds, not_forall] at gate
  obtain ⟨D, nodup, detachable, callable, hstats⟩ := gate
  have hstats : (D.length : Int) = q.base.statsRunning := by simpa using hstats
  rcases callable with rfl | ⟨p, hp⟩
  · have reached : Machine.run releaseStep (releaseStart (fun _ => none) q) [] =
        some (releaseStart (fun _ => none) q) := rfl
    refine ⟨fun _ => none, leaves_head_at wired opens reached ?_ (release_in_phase _ (by omega))
      ?_ ?_⟩
    · rw [release_start_eq]
      rfl
    · rw [release_start_eq]
      exact fun _ _ => rfl
    · rw [release_start_eq]
      exact hstats.symm
  · obtain ⟨p, P, rfl⟩ : ∃ p' P', P = p' :: P' :=
      List.exists_cons_of_ne_nil (List.ne_nil_of_mem ((wired.threaded.pending p).mpr hp))
    -- the first pending source has an `on_remove`, and no other
    obtain ⟨onRemove, self, others⟩ : ∃ onRemove : Ptr → Option Handler,
        onRemove p = some 0 ∧ ∀ x, x ≠ p → onRemove x = none :=
      ⟨fun x => if x = p then some 0 else none, if_pos rfl, fun x hx => if_neg hx⟩
    obtain ⟨as, r, hrun, hcallbacks, hphase, silent, hleft⟩ :=
      first_pending_detaches wired opens self others nodup detachable
    exact ⟨onRemove, leaves_head_at wired opens hrun hcallbacks hphase silent (by omega)⟩

/-- While the counter of the running sources is kept, the gate of the second loop holds. -/
theorem head_gate_of_numbered (numbered : Foreach.Numbered q)
    (turn : q.base.ctl.userTurn = true) : HeadGateHolds q.base := by
  intro D nodup detachable _ hlength
  obtain ⟨-, S, tallied⟩ := numbered
  have hsub : D.toFinset ⊆ S := by
    intro p hp
    exact (tallied.running p).mpr (detachable p (List.mem_toFinset.mp hp)).1
  have hcard := Finset.card_le_card hsub
  rw [List.toFinset_card_of_nodup nodup] at hcard
  have hcounted := tallied.counted
  rw [Foreach.uncounted_of_turn turn] at hcounted
  omega

end Run

/-- `neb_evdp_queue_destroy`, called by the user, frees the sources that the queue has allocated for
itself exactly once under all `on_remove` callbacks if and only if the node of the iteration, if
there is one, is in the running list and the gate of the second loop holds. The gate does hold after
every history that keeps the counter of the running sources. -/
theorem nebEvdpQueueDestroy_frees_iff (batchSize : Nat) (as : List Foreach.Action)
    (q : Foreach.Queue)
    (reached : Machine.run Foreach.step (Foreach.queueCreate batchSize) as = some q)
    (turn : q.base.ctl.userTurn = true) :
    (FreesInternals q ↔ CursorLinked q ∧ HeadGateHolds q.base) ∧
      (Machine.StepsMeet Foreach.step Foreach.KeepsCount (Foreach.queueCreate batchSize) as →
        HeadGateHolds q.base) := by
  obtain ⟨P, R, wired, -, opens⟩ := tidy_of_reached reached turn
  refine ⟨⟨?_, ?_⟩, ?_⟩
  · intro frees
    constructor
    · by_contra unlinked
      obtain ⟨hsome, hidle⟩ := not_or.mp unlinked
      obtain ⟨f, hf⟩ := Option.ne_none_iff_exists'.mp hsome
      have hcursor : q.cursor = none := if_neg hidle
      obtain ⟨bs, r, hrun, hdone⟩ := completes _ le_rfl (.start wired opens (fun _ => none))
      obtain ⟨P', R', c', draining, -⟩ := draining_run wired opens hrun
      have hmem := frees.complete _ bs r hrun hdone (.source f) hf
      have hfrees := draining.frees
      unfold Frees at hfrees
      simp only [hdone, hcursor] at hfrees
      rcases hfrees.2 with hfreed | ⟨-, hfreed, -⟩
      · simp [hfreed, releases] at hmem
      · simp [hfreed] at hmem
    · by_contra gate
      obtain ⟨onRemove, bs, r, hrun, hdone, hfreed⟩ := leaves_head wired opens gate
      have hmem := frees.complete onRemove bs r hrun hdone .runningQs trivial
      simp [hfreed] at hmem
  · rintro ⟨linked, gate⟩
    refine ⟨⟨2 * (P.length + R.length) + 2, ?_⟩, ?_, ?_, ?_⟩
    · intro onRemove bs r hrun
      obtain ⟨P', R', c', -, bound⟩ := draining_run wired opens hrun
      exact bound
    · intro onRemove bs r hrun
      obtain ⟨P', R', c', draining, -⟩ := draining_run wired opens hrun
      exact draining.goesOn
    · intro onRemove bs r hrun
      obtain ⟨P', R', c', draining, -⟩ := draining_run wired opens hrun
      exact draining.freed_once
    · intro onRemove bs r hrun hdone
      obtain ⟨P', R', c', draining, -⟩ := draining_run wired opens hrun
      exact draining.complete wired linked gate hdone
  · intro keeps
    have numbered : Foreach.Numbered q := Machine.invariant_run (I := Foreach.Numbered)
      (fun _ _ _ numbered keeps h => numbered.ofStep keeps h) (.create batchSize) keeps reached
    exact head_gate_of_numbered numbered turn

/-- A queue with two running sources and an iteration that has called back for one of them. -/
theorem nebEvdpQueueDestroy_frees_iff_open :
    ∃ q, Machine.run Foreach.step (Foreach.queueCreate 10)
      (Foreach.twoRunning ++ [.setUtype 1 7, .setUtype 2 8, .foreachStart (some 3), .foreachNext 1,
        .proceed, .proceed, .foreachReturn .continue, .proceed]) = some q ∧
      FreesInternals q := by
  obtain ⟨q, hq, hfacts⟩ : ∃ q, Machine.run Foreach.step (Foreach.queueCreate 10)
      (Foreach.twoRunning ++ [.setUtype 1 7, .setUtype 2 8, .foreachStart (some 3), .foreachNext 1,
        .proceed, .proceed, .foreachReturn .continue, .proceed]) = some q ∧
      decide (q.base.ctl.userTurn = true ∧ CursorLinked q) = true :=
    Machine.run_reaches (by decide)
  obtain ⟨turn, linked⟩ := of_decide_eq_true hfacts
  obtain ⟨frees, gate⟩ := nebEvdpQueueDestroy_frees_iff 10 _ q hq turn
  exact ⟨q, hq, frees.mpr ⟨linked, gate (by decide)⟩⟩

/-- An iteration that was started and ended: its node is refused and not in a list any more. -/
theorem nebEvdpQueueDestroy_frees_fails :
    ¬ ∀ (batchSize : Nat) (as : List Foreach.Action) (q : Foreach.Queue),
      Machine.run Foreach.step (Foreach.queueCreate batchSize) as = some q →
      q.base.ctl.userTurn = true → FreesInternals q := by
  intro claim
  obtain ⟨q, hq, hfacts⟩ : ∃ q, Machine.run Foreach.step (Foreach.queueCreate 10)
      [.foreachStart (some 1), .foreachSetEnd] = some q ∧
      decide (q.base.ctl.userTurn = true ∧ q.foreachS = some 1 ∧
        (Machine.run releaseStep (releaseStart (fun _ => none) q) [.proceed, .proceed]).map
          (fun r => decide (r.queue.phase = .done ∧ r.freed = [.runningQs, .pendingQs])) =
            some true) = true :=
    Machine.run_reaches (by decide)
  obtain ⟨turn, hf, hdestroy⟩ := of_decide_eq_true hfacts
  obtain ⟨r, hr, hend⟩ := Machine.run_reaches hdestroy
  obtain ⟨hdone, hfreed⟩ := of_decide_eq_true hend
  have hmem := (claim 10 _ q hq turn).complete (fun _ => none) _ r hr hdone (.source 1) hf
  simp [hfreed] at hmem

end Nebase.Evdp.Destroy
