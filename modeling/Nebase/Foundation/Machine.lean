/- Labelled step machines: runs, runs whose steps all meet a condition, the invariant rule
   and forward simulation against a relation on observed events. -/

import Mathlib.Data.List.Basic

set_option autoImplicit false
set_option relaxedAutoImplicit false

namespace Nebase.Foundation.Machine

universe u v w x

variable {σ : Type u} {α : Type v} {ε : Type w} {τ : Type x}

/-- The state reached by a list of labels, `none` as soon as one label is not enabled. -/
def run (step : σ → α → Option σ) : σ → List α → Option σ
  | s, [] => some s
  | s, a :: as => (step s a).bind (fun t => run step t as)

@[simp] theorem run_nil (step : σ → α → Option σ) (s : σ) : run step s [] = some s := rfl

theorem run_cons (step : σ → α → Option σ) (s : σ) (a : α) (as : List α) :
    run step s (a :: as) = (step s a).bind (fun t => run step t as) := rfl

theorem run_cons_eq_some {step : σ → α → Option σ} {s u : σ} {a : α} {as : List α} :
    run step s (a :: as) = some u ↔ ∃ t, step s a = some t ∧ run step t as = some u := by
  rw [run_cons]
  exact Option.bind_eq_some_iff

theorem run_append (step : σ → α → Option σ) (s : σ) (as bs : List α) :
    run step s (as ++ bs) = (run step s as).bind (fun t => run step t bs) := by
  induction as generalizing s with
  | nil => rfl
  | cons a as ih =>
    simp only [List.cons_append, run_cons, Option.bind_assoc]
    cases step s a with
    | none => rfl
    | some t => simpa using ih t

theorem run_append_eq_some {step : σ → α → Option σ} {s u : σ} {as bs : List α} :
    run step s (as ++ bs) = some u ↔ ∃ t, run step s as = some t ∧ run step t bs = some u := by
  rw [run_append]
  exact Option.bind_eq_some_iff

/-- A run that can be evaluated reaches a state, and shows what it is. -/
theorem run_reaches {β : Type x} {step : σ → α → Option σ} {s : σ} {as : List α} {f : σ → β}
    {b : β} (h : (run step s as).map f = some b) : ∃ t, run step s as = some t ∧ f t = b :=
  Option.map_eq_some_iff.mp h

/-- Every step the run takes starts in a state and with a label that meet `C`. -/
def StepsMeet (step : σ → α → Option σ) (C : σ → α → Prop) : σ → List α → Prop
  | _, [] => True
  | s, a :: as => C s a ∧ ∀ t, step s a = some t → StepsMeet step C t as

theorem StepsMeet.mono {step : σ → α → Option σ} {C D : σ → α → Prop}
    (weaker : ∀ s a, C s a → D s a) {s : σ} {as : List α} (meets : StepsMeet step C s as) :
    StepsMeet step D s as := by
  induction as generalizing s with
  | nil => trivial
  | cons a as ih => exact ⟨weaker s a meets.1, fun t ht => ih (meets.2 t ht)⟩

theorem StepsMeet.and {step : σ → α → Option σ} {C D : σ → α → Prop} {s : σ} {as : List α}
    (hC : StepsMeet step C s as) (hD : StepsMeet step D s as) :
    StepsMeet step (fun s a => C s a ∧ D s a) s as := by
  induction as generalizing s with
  | nil => trivial
  | cons a as ih => exact ⟨⟨hC.1, hD.1⟩, fun t ht => ih (hC.2 t ht) (hD.2 t ht)⟩

theorem StepsMeet.of_forall {step : σ → α → Option σ} {C : σ → α → Prop}
    (holds : ∀ s a, C s a) (s : σ) (as : List α) : StepsMeet step C s as := by
  induction as generalizing s with
  | nil => trivial
  | cons a as ih => exact ⟨holds s a, fun t _ => ih t⟩

theorem StepsMeet.of_labels {step : σ → α → Option σ} {P : α → Prop} {as : List α}
    (holds : ∀ a ∈ as, P a) (s : σ) : StepsMeet step (fun _ a => P a) s as := by
  induction as generalizing s with
  | nil => trivial
  | cons a as ih =>
    exact ⟨holds a List.mem_cons_self,
      fun t _ => ih (fun b hb => holds b (List.mem_cons_of_mem a hb)) t⟩

theorem StepsMeet.append {step : σ → α → Option σ} {C : σ → α → Prop} {s : σ} {as bs : List α}
    (first : StepsMeet step C s as)
    (second : ∀ t, run step s as = some t → StepsMeet step C t bs) :
    StepsMeet step C s (as ++ bs) := by
  induction as generalizing s with
  | nil => exact second s rfl
  | cons a as ih =>
    refine ⟨first.1, fun u hu => ih (first.2 u hu) (fun t ht => ?_)⟩
    exact second t (run_cons_eq_some.mpr ⟨u, hu, ht⟩)

theorem StepsMeet.append_inv {step : σ → α → Option σ} {C : σ → α → Prop} {s t : σ}
    {as bs : List α} (meets : StepsMeet step C s (as ++ bs)) (reached : run step s as = some t) :
    StepsMeet step C s as ∧ StepsMeet step C t bs := by
  induction as generalizing s with
  | nil =>
    obtain rfl : s = t := by simpa using reached
    exact ⟨trivial, meets⟩
  | cons a as ih =>
    obtain ⟨u, hu, rest⟩ := run_cons_eq_some.mp reached
    obtain ⟨head, tail⟩ := ih (meets.2 u hu) rest
    refine ⟨⟨meets.1, ?_⟩, tail⟩
    intro v hv
    obtain rfl := Option.some.inj (hu.symm.trans hv)
    exact head

instance StepsMeet.decidable (step : σ → α → Option σ) (C : σ → α → Prop)
    [∀ s a, Decidable (C s a)] : ∀ (s : σ) (as : List α), Decidable (StepsMeet step C s as)
  | _, [] => isTrue trivial
  | s, a :: as =>
    match h : step s a with
    | none => decidable_of_iff (C s a) (by simp [StepsMeet, h])
    | some t =>
      haveI := StepsMeet.decidable step C t as
      decidable_of_iff (C s a ∧ StepsMeet step C t as) (by simp [StepsMeet, h])

/-- The invariant rule: what every step that meets `C` preserves holds after a whole run. -/
theorem invariant_run {step : σ → α → Option σ} {C : σ → α → Prop} {I : σ → Prop}
    (preserved : ∀ s a t, I s → C s a → step s a = some t → I t)
    {s t : σ} {as : List α} (initial : I s) (meets : StepsMeet step C s as)
    (reached : run step s as = some t) : I t := by
  induction as generalizing s with
  | nil =>
    obtain rfl : s = t := by simpa using reached
    exact initial
  | cons a as ih =>
    obtain ⟨u, hu, rest⟩ := run_cons_eq_some.mp reached
    exact ih (preserved s a u initial meets.1 hu) (meets.2 u hu) rest

/-- Where an invariant makes every step that meets `C` meet `D` too, so do the steps of a run. -/
theorem StepsMeet.of_invariant {step : σ → α → Option σ} {C D : σ → α → Prop} {I : σ → Prop}
    (sound : ∀ s a, I s → C s a → D s a)
    (preserved : ∀ s a t, I s → C s a → step s a = some t → I t)
    {s : σ} {as : List α} (initial : I s) (meets : StepsMeet step C s as) :
    StepsMeet step D s as := by
  induction as generalizing s with
  | nil => trivial
  | cons a as ih =>
    refine ⟨sound s a initial meets.1, ?_⟩
    intro t ht
    exact ih (preserved s a t initial meets.1 ht) (meets.2 t ht)

/-- The potential rule: where every `own` step is paid for with the potential `n` of `I n`, which no
step raises, a run has at most as many of them as the potential it starts with. -/
theorem bounded_run {step : σ → α → Option σ} (own : α → Bool) {I : Nat → σ → Prop}
    (pays : ∀ n s a t, I n s → step s a = some t →
      ∃ m, I m t ∧ m + (if own a then 1 else 0) ≤ n)
    {n : Nat} {s t : σ} {as : List α} (initial : I n s) (reached : run step s as = some t) :
    ∃ m, I m t ∧ m + as.countP own ≤ n := by
  induction as generalizing n s with
  | nil =>
    obtain rfl : s = t := by simpa using reached
    exact ⟨n, initial, by simp⟩
  | cons a as ih =>
    obtain ⟨u, hu, rest⟩ := run_cons_eq_some.mp reached
    obtain ⟨k, hk, paid⟩ := pays n s a u initial hu
    obtain ⟨m, hm, bound⟩ := ih hk rest
    refine ⟨m, hm, ?_⟩
    rw [List.countP_cons]
    omega

/-- A step that meets `C` is enabled wherever the invariant holds: so is a whole run. -/
theorem run_enabled {step : σ → α → Option σ} {C : σ → α → Prop} {I : σ → Prop}
    (enabled : ∀ s a, I s → C s a → ∃ t, step s a = some t ∧ I t)
    {s : σ} {as : List α} (initial : I s) (meets : StepsMeet step C s as) :
    ∃ t, run step s as = some t ∧ I t := by
  induction as generalizing s with
  | nil => exact ⟨s, rfl, initial⟩
  | cons a as ih =>
    obtain ⟨u, hu, hI⟩ := enabled s a initial meets.1
    obtain ⟨t, ht, final⟩ := ih hI (meets.2 u hu)
    exact ⟨t, run_cons_eq_some.mpr ⟨u, hu, ht⟩, final⟩

/-- Every state of the run satisfies `P`, the first one included. -/
def AllStates (step : σ → α → Option σ) (P : σ → Prop) : σ → List α → Prop
  | s, [] => P s
  | s, a :: as => P s ∧ ∀ t, step s a = some t → AllStates step P t as

theorem AllStates.head {step : σ → α → Option σ} {P : σ → Prop} {s : σ} {as : List α}
    (all : AllStates step P s as) : P s := by
  cases as with
  | nil => exact all
  | cons a as => exact all.1

/-- The last state of the run is one of them. -/
theorem AllStates.reached {step : σ → α → Option σ} {P : σ → Prop} {s t : σ} {as : List α}
    (all : AllStates step P s as) (reached : run step s as = some t) : P t := by
  induction as generalizing s with
  | nil =>
    obtain rfl : s = t := by simpa using reached
    exact all
  | cons a as ih =>
    obtain ⟨u, hu, rest⟩ := run_cons_eq_some.mp reached
    exact ih (all.2 u hu) rest

instance AllStates.decidable (step : σ → α → Option σ) (P : σ → Prop) [∀ s, Decidable (P s)] :
    ∀ (s : σ) (as : List α), Decidable (AllStates step P s as)
  | s, [] => inferInstanceAs (Decidable (P s))
  | s, a :: as =>
    match h : step s a with
    | none => decidable_of_iff (P s) (by simp [AllStates, h])
    | some t =>
      haveI := AllStates.decidable step P t as
      decidable_of_iff (P s ∧ AllStates step P t as) (by simp [AllStates, h])

theorem AllStates.of_invariant {step : σ → α → Option σ} {C : σ → α → Prop} {I P : σ → Prop}
    (sound : ∀ s, I s → P s) (preserved : ∀ s a t, I s → C s a → step s a = some t → I t)
    {s : σ} {as : List α} (initial : I s) (meets : StepsMeet step C s as) :
    AllStates step P s as := by
  induction as generalizing s with
  | nil => exact sound s initial
  | cons a as ih =>
    exact ⟨sound s initial,
      fun t ht => ih (preserved s a t initial meets.1 ht) (meets.2 t ht)⟩

/-- When a step that does not meet `C` leaves `P` at once, the runs all of whose states satisfy
`P` are those whose steps all meet `C`. -/
theorem all_states_iff_steps_meet {step : σ → α → Option σ} {C : σ → α → Prop}
    {I P : σ → Prop} (sound : ∀ s, I s → P s)
    (preserved : ∀ s a t, I s → C s a → step s a = some t → I t)
    (broken : ∀ s a t, I s → ¬ C s a → step s a = some t → ¬ P t)
    {s t : σ} {as : List α} (initial : I s) (reached : run step s as = some t) :
    AllStates step P s as ↔ StepsMeet step C s as := by
  refine ⟨?_, AllStates.of_invariant sound preserved initial⟩
  intro all
  induction as generalizing s with
  | nil => trivial
  | cons a as ih =>
    obtain ⟨u, hu, rest⟩ := run_cons_eq_some.mp reached
    have hC : C s a := by
      by_contra hC
      exact broken s a u initial hC hu (all.2 u hu).head
    refine ⟨hC, ?_⟩
    intro v hv
    obtain rfl := Option.some.inj (hu.symm.trans hv)
    exact ih (preserved s a u initial hC hu) rest (all.2 u hu)

/-- When a step that does not meet `C` leads from `I` to `J`, which no step leaves, the end of a run
tells whether all its steps meet `C`. -/
theorem run_split {step : σ → α → Option σ} {C : σ → α → Prop} {I J : σ → Prop}
    (preserved : ∀ s a t, I s → C s a → step s a = some t → I t)
    (broken : ∀ s a t, I s → ¬ C s a → step s a = some t → J t)
    (stays : ∀ s a t, J s → step s a = some t → J t)
    {s t : σ} {as : List α} (initial : I s) (reached : run step s as = some t) :
    StepsMeet step C s as ∧ I t ∨ ¬ StepsMeet step C s as ∧ J t := by
  induction as generalizing s with
  | nil =>
    obtain rfl : s = t := by simpa using reached
    exact Or.inl ⟨trivial, initial⟩
  | cons a as ih =>
    obtain ⟨u, hu, rest⟩ := run_cons_eq_some.mp reached
    by_cases hC : C s a
    · rcases ih (preserved s a u initial hC hu) rest with ⟨meets, final⟩ | ⟨fails, final⟩
      · refine Or.inl ⟨⟨hC, ?_⟩, final⟩
        intro v hv
        obtain rfl := Option.some.inj (hu.symm.trans hv)
        exact meets
      · exact Or.inr ⟨fun meets => fails (meets.2 u hu), final⟩
    · have final := invariant_run (fun s a t hJ _ h => stays s a t hJ h)
        (broken s a u initial hC hu) (StepsMeet.of_forall (fun _ _ => trivial) u as) rest
      exact Or.inr ⟨fun meets => hC meets.1, final⟩

/-- The events observed along a run. -/
def trace (step : σ → α → Option σ) (observe : σ → α → List ε) : σ → List α → List ε
  | _, [] => []
  | s, a :: as => observe s a ++ ((step s a).map (fun t => trace step observe t as)).getD []

/-- A relation on single events extended to lists of events. -/
inductive Accepts (accept : τ → ε → τ → Prop) : τ → List ε → τ → Prop
  | nil (x : τ) : Accepts accept x [] x
  | cons {x y z : τ} {e : ε} {es : List ε} :
      accept x e y → Accepts accept y es z → Accepts accept x (e :: es) z

theorem Accepts.single {accept : τ → ε → τ → Prop} {x y : τ} {e : ε} (h : accept x e y) :
    Accepts accept x [e] y :=
  .cons h (.nil y)

theorem Accepts.append {accept : τ → ε → τ → Prop} {x y z : τ} {es fs : List ε}
    (h : Accepts accept x es y) (k : Accepts accept y fs z) :
    Accepts accept x (es ++ fs) z := by
  induction h with
  | nil _ => exact k
  | cons head _ ih => exact .cons head (ih k)

/-- A function on events accepts every list of them, and reaches its fold. -/
theorem Accepts.foldl (apply : τ → ε → τ) (x : τ) (es : List ε) :
    Accepts (fun x e y => y = apply x e) x es (es.foldl apply x) := by
  induction es generalizing x with
  | nil => exact .nil x
  | cons e es ih => exact .cons rfl (ih (apply x e))

theorem Accepts.eq_foldl {apply : τ → ε → τ} {x y : τ} {es : List ε}
    (h : Accepts (fun x e y => y = apply x e) x es y) : y = es.foldl apply x := by
  induction h with
  | nil _ => rfl
  | cons head _ ih => rw [ih, head, List.foldl_cons]

theorem Accepts.invariant {accept : τ → ε → τ → Prop} {I : τ → Prop}
    (preserved : ∀ x e y, I x → accept x e y → I y) {x y : τ} {es : List ε}
    (h : Accepts accept x es y) (initial : I x) : I y := by
  induction h with
  | nil _ => exact initial
  | cons head _ ih => exact ih (preserved _ _ _ initial head)

/-- Forward simulation: if every step is matched on its observed events, so is every run. -/
theorem simulation_run {step : σ → α → Option σ} {observe : σ → α → List ε}
    {accept : τ → ε → τ → Prop} {C : σ → α → Prop} {R : σ → τ → Prop}
    (matched : ∀ s a t x, R s x → C s a → step s a = some t →
      ∃ y, Accepts accept x (observe s a) y ∧ R t y)
    {s t : σ} {x : τ} {as : List α} (initial : R s x) (meets : StepsMeet step C s as)
    (reached : run step s as = some t) :
    ∃ y, Accepts accept x (trace step observe s as) y ∧ R t y := by
  induction as generalizing s x with
  | nil =>
    obtain rfl : s = t := by simpa using reached
    exact ⟨x, .nil x, initial⟩
  | cons a as ih =>
    obtain ⟨u, hu, rest⟩ := run_cons_eq_some.mp reached
    obtain ⟨y, hy, hR⟩ := matched s a u x initial meets.1 hu
    obtain ⟨z, hz, final⟩ := ih hR (meets.2 u hu) rest
    refine ⟨z, ?_, final⟩
    have htrace : trace step observe s (a :: as) = observe s a ++ trace step observe u as := by
      simp [trace, hu]
    rw [htrace]
    exact hy.append hz

section Counted

variable {step : σ → α → Option σ} {observe : σ → α → List ε} {accept : τ → ε → τ → Prop}
  {L C : σ → α → Prop} {R : Nat → σ → τ → Prop} {N n : Nat} {s : σ} {x : τ} {as : List α}

/-- Forward simulation of at most `N` steps, where every legal step that meets `C` is enabled. -/
theorem counted_simulation
    (matched : ∀ n s a x, n < N → R n s x → L s a → C s a →
      ∃ t y, step s a = some t ∧ Accepts accept x (observe s a) y ∧ R (n + 1) t y)
    (initial : R n s x) (short : n + as.length ≤ N) (legal : StepsMeet step L s as)
    (meets : StepsMeet step C s as) :
    ∃ t y, run step s as = some t ∧ Accepts accept x (trace step observe s as) y ∧
      R (n + as.length) t y := by
  induction as generalizing n s x with
  | nil => exact ⟨s, x, rfl, .nil x, initial⟩
  | cons a as ih =>
    rw [List.length_cons] at short ⊢
    obtain ⟨u, y, hu, hy, hR⟩ := matched n s a x (by omega) initial legal.1 meets.1
    obtain ⟨t, z, ht, hz, final⟩ := ih hR (by omega) (legal.2 u hu) (meets.2 u hu)
    refine ⟨t, z, run_cons_eq_some.mpr ⟨u, hu, ht⟩, ?_, ?_⟩
    · have htrace : trace step observe s (a :: as) = observe s a ++ trace step observe u as := by
        simp [trace, hu]
      rw [htrace]
      exact hy.append hz
    · rwa [Nat.add_right_comm] at final

/-- Where a legal step that does not meet `C` fails, a run that reaches a state has met `C`. -/
theorem counted_meets
    (matched : ∀ n s a x, n < N → R n s x → L s a → C s a →
      ∃ t y, step s a = some t ∧ Accepts accept x (observe s a) y ∧ R (n + 1) t y)
    (fails : ∀ n s a x, n < N → R n s x → L s a → ¬ C s a → step s a = none)
    {t : σ} (initial : R n s x) (short : n + as.length ≤ N) (legal : StepsMeet step L s as)
    (reached : run step s as = some t) : StepsMeet step C s as := by
  induction as generalizing n s x with
  | nil => trivial
  | cons a as ih =>
    rw [List.length_cons] at short
    obtain ⟨u, hu, rest⟩ := run_cons_eq_some.mp reached
    have hC : C s a := by
      by_contra hC
      rw [fails n s a x (by omega) initial legal.1 hC] at hu
      cases hu
    obtain ⟨v, y, hv, -, hR⟩ := matched n s a x (by omega) initial legal.1 hC
    obtain rfl := Option.some.inj (hu.symm.trans hv)
    refine ⟨hC, fun w hw => ?_⟩
    obtain rfl := Option.some.inj (hu.symm.trans hw)
    exact ih hR (by omega) (legal.2 u hu) rest

end Counted

end Nebase.Foundation.Machine
