/- The registry over whole runs of the process: when a run goes wrong, what `neb_thread_is_running`
   says in it, and what is allocated at its end. -/

import Nebase.Thread.Registry.Roster

set_option autoImplicit false
set_option relaxedAutoImplicit false

namespace Nebase.Thread.Registry

open Nebase.Compat.Rbtree
open Nebase.Foundation.Machine

theorem kept_initial : Kept 0 .initial ∅ where
  entered := ⟨[], entered_nil (rb_tree_init_holds _) (fun _ => rfl), le_rfl⟩
  flags := ⟨rfl, rfl, rfl⟩
  closed := fun _ => rfl
  nonzero := fun p h => absurd rfl h
  keyed := fun p => .inl rfl
  marked := fun p hp => absurd hp (Finset.notMem_empty p)
  registering := fun p h => by cases h

/-- An empty set has an empty tree. -/
theorem Entered.eq_nil {rbt : RbTree} {ptid : NodeAddr → Int} {xs : List NodeAddr}
    (entered : Entered rbt ptid xs ∅) : xs = [] := by
  cases xs with
  | nil => rfl
  | cons a xs =>
    obtain ⟨p, hp⟩ := entered.owned a List.mem_cons_self
    exact absurd ((entered.names p).mp ⟨a, List.mem_cons_self, hp⟩) (Finset.notMem_empty p)

section Step

variable {n fuel : Nat} {s : State} {r : Finset PthreadT}

/-- What one step returns, and that the registry is kept. -/
def Served (fuel n : Nat) (s : State) (r : Finset PthreadT) (a : Action) : Prop :=
  ∃ ret s' r', serve fuel s a = some (ret, s') ∧ Answers r (a, ret) r' ∧ Kept (n + 1) s' r'

theorem Kept.entered_later (kept : Kept n s r) :
    ∃ xs, Entered s.threadRbt s.ptid xs r ∧ xs.length ≤ n + 1 := by
  obtain ⟨xs, entered, short⟩ := kept.entered
  exact ⟨xs, entered, Nat.le_succ_of_le short⟩

theorem Kept.orphan_iff (kept : Kept n s r) (p : PthreadT) :
    Orphan s p ↔ s.threadExitKeyOk = true ∧ s.specific p ≠ 0 ∧ p ∉ r := by
  obtain ⟨xs, entered, -⟩ := kept.entered
  refine and_congr_right fun _ => and_congr_right fun _ => ?_
  rw [← entered.names p, not_exists]
  refine forall_congr' fun a => ?_
  rw [entered.alloc, not_and]

theorem neb_thread_init_served {spin key sem : Bool} (kept : Kept n s r)
    (legal : s.threadRbtOk = false) (enough : turns n ≤ fuel) (long : n < fuel) :
    Served fuel n s r (.init spin key sem) := by
  obtain ⟨xs, entered, short⟩ := kept.entered
  obtain rfl := kept.closed legal
  obtain rfl := entered.eq_nil
  obtain ⟨hexit, hlock, hsem⟩ := kept.flags
  rw [legal] at hexit hlock hsem
  have none_registering : ∀ p, s.threads p ≠ some .registering := fun p h => by
    have := (kept.registering p h).1
    rw [legal] at this
    cases this
  have alloc : ∀ a, s.threadRbt.nodes a = none := fun a => by
    by_contra h
    have := (entered.alloc a).mp (Option.ne_none_iff_isSome.mp h)
    cases this
  have fresh : Entered (rbTreeInit s.threadRbt.nodes) s.ptid [] ∅ :=
    entered_nil (rb_tree_init_holds _) alloc
  -- whatever has been made is taken back by `neb_thread_deinit`
  have back : ∀ s1 : State, s1.threadRbt = rbTreeInit s.threadRbt.nodes → s1.ptid = s.ptid →
      s1.threads = s.threads → (∀ p, s1.specific p = 0 ∨ s1.specific p = p ∧ s.threads p ≠ none) →
      ∃ s2, nebThreadDeinit fuel s1 = some s2 ∧ Kept (n + 1) s2 ∅ := by
    intro s1 htree hptid hthreads hkeyed
    have entered1 : Entered s1.threadRbt s1.ptid [] ∅ := by rwa [htree, hptid]
    obtain ⟨rbt, eval, entered2⟩ := neb_thread_deinit_spec entered1 (fun _ => rfl)
      (le_trans (turns_mono (Nat.zero_le n)) enough) (Nat.zero_lt_of_lt long)
    refine ⟨_, eval, ⟨[], entered2, Nat.zero_le _⟩, ⟨rfl, rfl, rfl⟩, fun _ => rfl, ?_, ?_, ?_, ?_⟩
    · simpa only [hthreads] using kept.nonzero
    · simpa only [hthreads] using hkeyed
    · exact fun p hp => absurd hp (Finset.notMem_empty p)
    · intro p h
      rw [hthreads] at h
      exact absurd h (none_registering p)
  cases spin with
  | false =>
    refine ⟨.int (-1), s, ∅, rfl, ⟨rfl, rfl⟩, { kept with entered := kept.entered_later }⟩
  | true =>
    cases key with
    | false =>
      obtain ⟨s2, eval, kept2⟩ := back { s with
        threadRbtLockOk := true
        threadRbt := rbTreeInit s.threadRbt.nodes
        threadRbtOk := true } rfl rfl rfl kept.keyed
      refine ⟨.int (-1), s2, ∅, ?_, ⟨rfl, rfl⟩, kept2⟩
      simp only [serve, nebThreadInit, Bool.true_eq_false, if_false, if_true, eval,
        Option.bind_eq_bind, Option.bind_some]
    | true =>
      cases sem with
      | false =>
        obtain ⟨s2, eval, kept2⟩ := back { s with
          threadRbtLockOk := true
          threadRbt := rbTreeInit s.threadRbt.nodes
          threadRbtOk := true
          threadExitKeyOk := true
          specific := fun _ => 0 } rfl rfl rfl (fun p => .inl rfl)
        refine ⟨.int (-1), s2, ∅, ?_, ⟨rfl, rfl⟩, kept2⟩
        simp only [serve, nebThreadInit, Bool.true_eq_false, if_false, if_true, eval,
          Option.bind_eq_bind, Option.bind_some]
      | true =>
        refine ⟨.int 0, _, ∅, rfl, ⟨rfl, rfl⟩, ⟨[], fresh, Nat.zero_le _⟩, ⟨rfl, rfl, rfl⟩,
          fun _ => rfl, kept.nonzero, fun p => .inl rfl,
          fun p hp => absurd hp (Finset.notMem_empty p),
          fun p h => absurd h (none_registering p)⟩

theorem neb_thread_deinit_served (kept : Kept n s r)
    (legal : ∀ p, s.threads p ≠ some .registering) (enough : turns n ≤ fuel) (long : n < fuel) :
    Served fuel n s r .deinit := by
  obtain ⟨xs, entered, short⟩ := kept.entered
  have closed : s.threadRbtOk = false → xs = [] := fun h => by
    obtain rfl := kept.closed h
    exact entered.eq_nil
  obtain ⟨rbt, eval, entered'⟩ := neb_thread_deinit_spec entered closed
    (le_trans (turns_mono short) enough) (lt_of_le_of_lt short long)
  refine ⟨.void, { s with
    threadRbtLockOk := false
    threadRbtOk := false
    threadExitKeyOk := false
    threadReadySem := false
    threadRbt := rbt }, ∅, ?_, ⟨rfl, rfl⟩, ?_⟩
  · simp only [serve, eval, Option.bind_eq_bind, Option.bind_some]
  · exact ⟨⟨[], entered', Nat.zero_le _⟩, ⟨rfl, rfl, rfl⟩, fun _ => rfl, kept.nonzero, kept.keyed,
      fun p hp => absurd hp (Finset.notMem_empty p), fun p h => absurd h (legal p)⟩

theorem create_served {p : PthreadT} (kept : Kept n s r) (legal : s.threads p = none ∧ p ≠ 0) :
    Served fuel n s r (.create p) := by
  refine ⟨.void, _, r, rfl, ⟨rfl, rfl⟩, kept.entered_later, kept.flags, kept.closed, ?_, ?_,
    kept.marked, ?_⟩
  · intro q hq
    by_cases h : q = p
    · exact h ▸ legal.2
    · exact kept.nonzero q (by simpa [Function.update_of_ne h] using hq)
  · intro q
    by_cases h : q = p
    · subst h
      rcases kept.keyed q with hq | hq
      · exact .inl hq
      · exact absurd legal.1 hq.2
    · simpa [Function.update_of_ne h] using kept.keyed q
  · intro q hq
    by_cases h : q = p
    · subst h
      simp at hq
    · exact kept.registering q (by simpa [Function.update_of_ne h] using hq)

theorem neb_thread_register_served {p : PthreadT} {setspecific : Bool} (kept : Kept n s r)
    (legal : s.threadRbtOk = true ∧ s.threads p = some .running) :
    Served fuel n s r (.register p setspecific) := by
  cases setspecific with
  | false =>
    exact ⟨.int (-1), s, r, rfl, ⟨rfl, rfl⟩, { kept with entered := kept.entered_later }⟩
  | true =>
    have alive : s.threads p ≠ none := by simp [legal.2]
    refine ⟨.void, _, r, rfl, ⟨rfl, rfl⟩, kept.entered_later, kept.flags, kept.closed,
      ?_, ?_, ?_, ?_⟩
    · intro q hq
      by_cases h : q = p
      · exact h ▸ kept.nonzero p alive
      · exact kept.nonzero q (by simpa [Function.update_of_ne h] using hq)
    · intro q
      by_cases h : q = p
      · subst h
        simp
      · simpa [Function.update_of_ne h] using kept.keyed q
    · intro q hq
      refine ⟨(kept.marked q hq).1, ?_⟩
      by_cases h : q = p
      · subst h
        simp
      · simpa [Function.update_of_ne h] using (kept.marked q hq).2
    · intro q hq
      by_cases h : q = p
      · subst h
        exact ⟨legal.1, by simp⟩
      · simpa [Function.update_of_ne h] using
          kept.registering q (by simpa [Function.update_of_ne h] using hq)

/-- Back in `neb_thread_register` the thread is about its own business again. -/
theorem Kept.back {p : PthreadT} {rbt : RbTree} {ptid : NodeAddr → Int} {xs : List NodeAddr}
    {r' : Finset PthreadT} (kept : Kept n s r) (legal : s.threads p = some .registering)
    (entered : Entered rbt ptid xs r') (short : xs.length ≤ n + 1)
    (more : ∀ q ∈ r', q = p ∨ q ∈ r) :
    Kept (n + 1) { s with
      threadRbt := rbt, ptid := ptid
      threads := Function.update s.threads p (some .running) } r' := by
  have alive : s.threads p ≠ none := by simp [legal]
  obtain ⟨ready, marked⟩ := kept.registering p legal
  refine ⟨⟨xs, entered, short⟩, kept.flags, ?_, ?_, ?_, ?_, ?_⟩
  · intro h
    exact absurd (ready.symm.trans h) (by decide)
  · intro q hq
    by_cases h : q = p
    · exact h ▸ kept.nonzero p alive
    · exact kept.nonzero q (by simpa [Function.update_of_ne h] using hq)
  · intro q
    by_cases h : q = p
    · subst h
      exact .inr ⟨marked, by simp⟩
    · simpa [Function.update_of_ne h] using kept.keyed q
  · intro q hq
    rcases more q hq with rfl | hq
    · exact ⟨kept.nonzero q alive, marked⟩
    · exact kept.marked q hq
  · intro q hq
    by_cases h : q = p
    · subst h
      simp at hq
    · exact kept.registering q (by simpa [Function.update_of_ne h] using hq)

theorem thread_rbt_add_served {p : PthreadT} {calloc : Option NodeAddr} (kept : Kept n s r)
    (legal : s.threads p = some .registering ∧ ∀ a, calloc = some a → s.threadRbt.nodes a = none)
    (enough : turns n ≤ fuel) : Served fuel n s r (.rbtAdd p calloc) := by
  obtain ⟨xs, entered, short⟩ := kept.entered
  cases calloc with
  | none =>
    exact ⟨.int (-1), _, r, rfl, ⟨rfl, rfl⟩,
      kept.back legal.1 entered (Nat.le_succ_of_le short) (fun q hq => .inr hq)⟩
  | some a =>
    obtain ⟨rbt, ptid, xs', eval, entered', short'⟩ := thread_rbt_add_spec (p := p) entered
      (le_trans (turns_mono short) enough) (legal.2 a rfl)
    refine ⟨.int (if p ∈ r then -1 else 0), _, insert p r, by simp [serve, eval], ⟨rfl, rfl⟩,
      kept.back legal.1 entered' (by omega) (fun q hq => Finset.mem_insert.mp hq)⟩

theorem thread_rbt_exist_served {p : PthreadT} (kept : Kept n s r) (enough : turns n ≤ fuel) :
    Served fuel n s r (.isRunning p) := by
  obtain ⟨xs, entered, short⟩ := kept.entered
  have eval := thread_rbt_exist_spec (p := p) entered (le_trans (turns_mono short) enough)
  exact ⟨.bool (decide (p ∈ r)), s, r, by simp [serve, eval], ⟨rfl, rfl⟩,
    { kept with entered := kept.entered_later }⟩

/-- What is left of a thread that has ended. -/
theorem Kept.ended {p : PthreadT} {rbt : RbTree} {xs : List NodeAddr} (kept : Kept n s r)
    (entered : Entered rbt s.ptid xs (r.erase p)) (short : xs.length ≤ n) :
    Kept (n + 1) { s with
      threadRbt := rbt
      specific := Function.update s.specific p 0
      threads := Function.update s.threads p none } (r.erase p) := by
  refine ⟨⟨xs, entered, Nat.le_succ_of_le short⟩, kept.flags, ?_, ?_, ?_, ?_, ?_⟩
  · intro h
    rw [kept.closed h]
    rfl
  · intro q hq
    by_cases h : q = p
    · subst h
      simp at hq
    · exact kept.nonzero q (by simpa [Function.update_of_ne h] using hq)
  · intro q
    by_cases h : q = p
    · subst h
      exact .inl (by simp)
    · simpa [Function.update_of_ne h] using kept.keyed q
  · intro q hq
    obtain ⟨h, hq⟩ := Finset.mem_erase.mp hq
    simpa [Function.update_of_ne h] using kept.marked q hq
  · intro q hq
    by_cases h : q = p
    · subst h
      simp at hq
    · simpa [Function.update_of_ne h] using
        kept.registering q (by simpa [Function.update_of_ne h] using hq)

theorem pthread_exit_served {p : PthreadT} (kept : Kept n s r) (orderly : ¬ Orphan s p)
    (enough : turns n ≤ fuel) : Served fuel n s r (.exit p) := by
  obtain ⟨xs, entered, short⟩ := kept.entered
  rw [kept.orphan_iff, not_and, not_and, not_not] at orderly
  by_cases hdel : s.threadExitKeyOk = true ∧ s.specific p ≠ 0
  · have hp := orderly hdel.1 hdel.2
    obtain ⟨nonzero, marked⟩ := kept.marked p hp
    obtain ⟨rbt, xs', eval, entered', short'⟩ := thread_rbt_del_spec p
      (s := { s with
        specific := Function.update s.specific p 0
        threads := Function.update s.threads p none })
      entered (le_trans (turns_mono short) enough) hp nonzero
    refine ⟨.void, _, r.erase p, ?_, ⟨rfl, rfl⟩, kept.ended entered' (le_trans short' short)⟩
    rw [marked] at hdel
    simp only [serve, pthreadExit, marked, if_pos hdel, eval, Option.bind_eq_bind,
      Option.bind_some]
  · have hp : p ∉ r := fun hp => by
      obtain ⟨nonzero, marked⟩ := kept.marked p hp
      refine hdel ⟨?_, by rwa [marked]⟩
      rw [kept.flags.1]
      by_contra h
      rw [Bool.not_eq_true] at h
      rw [kept.closed h] at hp
      exact absurd hp (Finset.notMem_empty p)
    rw [← Finset.erase_eq_of_notMem hp] at entered
    refine ⟨.void, _, r.erase p, ?_, ⟨rfl, rfl⟩, kept.ended entered short⟩
    simp only [serve, pthreadExit, if_neg hdel, Option.bind_eq_bind, Option.bind_some]

/-- The destructor of an orphan is given no node. -/
theorem pthread_exit_orphan {p : PthreadT} (kept : Kept n s r) (orphan : Orphan s p)
    (enough : turns n ≤ fuel) : step fuel s (.exit p) = none := by
  obtain ⟨xs, entered, short⟩ := kept.entered
  obtain ⟨key, data, hp⟩ := (kept.orphan_iff p).mp orphan
  have marked : s.specific p = p := by
    rcases kept.keyed p with h | h
    · exact absurd h data
    · exact h.1
  have nonzero : p ≠ 0 := marked ▸ data
  have eval := thread_rbt_del_orphan p
    (s := { s with
      specific := Function.update s.specific p 0
      threads := Function.update s.threads p none })
    entered (le_trans (turns_mono short) enough) hp nonzero
  simp only [step, serve, pthreadExit, marked, if_pos (And.intro key nonzero), eval,
    Option.bind_eq_bind, Option.bind_none, Option.map_none]

theorem kept_served {a : Action} (kept : Kept n s r) (legal : Legal s a) (orderly : Orderly s a)
    (enough : turns n ≤ fuel) (long : n < fuel) : Served fuel n s r a := by
  cases a with
  | init spin key sem => exact neb_thread_init_served kept legal enough long
  | deinit => exact neb_thread_deinit_served kept legal enough long
  | create p => exact create_served kept legal
  | register p setspecific => exact neb_thread_register_served kept legal
  | rbtAdd p calloc => exact thread_rbt_add_served kept legal enough
  | isRunning p => exact thread_rbt_exist_served kept enough
  | exit p => exact pthread_exit_served kept orderly enough

end Step

section Runs

variable {fuel : Nat} {as : List Action}

theorem kept_matched (enough : turns as.length ≤ fuel) (long : as.length < fuel) :
    ∀ n s a r, n < as.length → Kept n s r → Legal s a → Orderly s a →
      ∃ t r', step fuel s a = some t ∧ Accepts Answers r (observe fuel s a) r' ∧
        Kept (n + 1) t r' := by
  intro n s a r hn kept legal orderly
  obtain ⟨ret, s', r', eval, answer, kept'⟩ := kept_served kept legal orderly
    (le_trans (turns_mono hn.le) enough) (lt_trans hn long)
  refine ⟨s', r', by rw [step, eval]; rfl, ?_, kept'⟩
  rw [observe, eval]
  exact Accepts.single answer

theorem kept_fails (enough : turns as.length ≤ fuel) :
    ∀ n s a r, n < as.length → Kept n s r → Legal s a → ¬ Orderly s a → step fuel s a = none := by
  intro n s a r hn kept legal disorder
  cases a with
  | exit p =>
    exact pthread_exit_orphan kept (not_not.mp disorder) (le_trans (turns_mono hn.le) enough)
  | init spin key sem => exact absurd trivial disorder
  | deinit => exact absurd trivial disorder
  | create p => exact absurd trivial disorder
  | register p setspecific => exact absurd trivial disorder
  | rbtAdd p calloc => exact absurd trivial disorder
  | isRunning p => exact absurd trivial disorder

/-- A run is free of undefined behaviour exactly when no orphan ends in it. -/
theorem threadRegistry_defined_iff (enough : turns as.length ≤ fuel) (long : as.length < fuel)
    (legal : StepsMeet (step fuel) Legal .initial as) :
    (∃ t, run (step fuel) .initial as = some t) ↔
      StepsMeet (step fuel) Orderly .initial as := by
  constructor
  · rintro ⟨t, reached⟩
    exact counted_meets (kept_matched enough long) (kept_fails enough) kept_initial (by simp) legal
      reached
  · intro orderly
    obtain ⟨t, -, reached, -⟩ := counted_simulation (kept_matched enough long) kept_initial
      (by simp) legal orderly
    exact ⟨t, reached⟩

/-- The second thread is in the registry before the first, and ends before it. -/
def twoThreads : List Action :=
  [.init true true true, .create 7, .register 7 true, .create 9, .register 9 true,
    .rbtAdd 9 (some 1), .isRunning 7, .rbtAdd 7 (some 2), .isRunning 7, .exit 9, .isRunning 9,
    .exit 7]

/-- A thread for which `calloc` fails in `neb_thread_register`, and which then ends. -/
def orphanEnds : List Action :=
  [.init true true true, .create 7, .register 7 true, .rbtAdd 7 none, .exit 7]

theorem threadRegistry_defined_iff_two_threads :
    (∃ t, run (step 20) .initial twoThreads = some t) ∧
      StepsMeet (step 20) Orderly .initial twoThreads ∧
      run (step 20) .initial orphanEnds = none ∧
      ¬ StepsMeet (step 20) Orderly .initial orphanEnds := by
  have defined : (run (step 20) .initial twoThreads).isSome = true := by decide
  have undefined : (run (step 20) .initial orphanEnds).isNone = true := by decide
  have reached := Option.isSome_iff_exists.mp defined
  have stuck := Option.isNone_iff_eq_none.mp undefined
  refine ⟨reached,
    (threadRegistry_defined_iff (by decide) (by decide) (by decide)).mp reached, stuck,
    fun orderly => ?_⟩
  obtain ⟨t, ht⟩ := (threadRegistry_defined_iff (by decide) (by decide) (by decide)).mpr orderly
  rw [stuck] at ht
  cases ht

/-- In every order of the steps, a thread is running for `neb_thread_is_running` from its first
successful `thread_rbt_add` to its end; one node is allocated for each such thread. -/
theorem threadRegistry_answers (enough : turns as.length ≤ fuel) (long : as.length < fuel)
    (legal : StepsMeet (step fuel) Legal .initial as) {t : State}
    (reached : run (step fuel) .initial as = some t) :
    ∃ r, Accepts Answers ∅ (trace (step fuel) (observe fuel) .initial as) r ∧
      ∃ node : PthreadT → NodeAddr, (∀ p ∈ r, t.ptid (node p) = p.toInt) ∧
        ∀ a, (t.threadRbt.nodes a).isSome = true ↔ ∃ p ∈ r, a = node p := by
  have orderly := counted_meets (kept_matched enough long) (kept_fails enough) kept_initial
    (by simp) legal reached
  obtain ⟨t', r, reached', accepted, kept⟩ := counted_simulation (kept_matched enough long)
    kept_initial (by simp) legal orderly
  obtain rfl := Option.some.inj (reached.symm.trans reached')
  obtain ⟨xs, entered, -⟩ := kept.entered
  have choice : ∀ p : PthreadT, ∃ a, p ∈ r → a ∈ xs ∧ t.ptid a = p.toInt := by
    intro p
    by_cases hp : p ∈ r
    · obtain ⟨a, ha, key⟩ := (entered.names p).mpr hp
      exact ⟨a, fun _ => ⟨ha, key⟩⟩
    · exact ⟨0, fun h => absurd h hp⟩
  obtain ⟨node, hnode⟩ := Classical.axiomOfChoice choice
  refine ⟨r, accepted, node, fun p hp => (hnode p hp).2, fun a => ?_⟩
  rw [entered.alloc]
  constructor
  · intro ha
    obtain ⟨p, key⟩ := entered.owned a ha
    have hp := (entered.names p).mp ⟨a, ha, key⟩
    obtain ⟨hmem, key'⟩ := hnode p hp
    exact ⟨p, hp, entered.sorted.injective ha hmem (key.trans key'.symm)⟩
  · rintro ⟨p, hp, rfl⟩
    exact (hnode p hp).1

theorem threadRegistry_answers_two_threads :
    ∃ t r, run (step 20) .initial twoThreads = some t ∧
      Accepts Answers ∅ (trace (step 20) (observe 20) .initial twoThreads) r := by
  obtain ⟨t, reached, -⟩ : ∃ t, run (step 20) .initial twoThreads = some t ∧
      t.threadRbtOk = true := run_reaches (by decide)
  obtain ⟨r, accepted, -⟩ := threadRegistry_answers (by decide) (by decide) (by decide) reached
  exact ⟨t, r, reached, accepted⟩

end Runs

end Nebase.Thread.Registry
