/- An abstract schedule: a partial map from points to deadlines, and the calls that run what is
   due while the handlers go on changing it. -/

import Nebase.Foundation.Machine
import Mathlib.Order.Lattice
import Mathlib.Logic.Function.Basic
import Mathlib.Data.List.Nodup

set_option autoImplicit false
set_option relaxedAutoImplicit false

namespace Nebase.Foundation.Schedule

open Machine (Accepts)

universe u v w

variable {P : Type u} {T : Type v} {H : Type w}

/-- One scheduling of a point. `ticket` tells it from every other one; `during` is the deadline
that was being processed when a handler asked for it. -/
structure Entry (T : Type v) where
  due : T
  ticket : Nat
  during : Option T

/-- A call that runs what is due: `opened` is the first ticket given out after it began, `fired`
what it has run, oldest first, `running` the point whose handler runs and its deadline. -/
structure Call (P : Type u) (T : Type v) where
  limit : T
  opened : Nat
  fired : List (P × Entry T)
  running : Option (P × T)

/-- A call that has returned, with its result and what was still scheduled then. -/
structure Returned (P : Type u) (T : Type v) where
  call : Call P T
  result : Nat
  left : P → Option (Entry T)

structure Plan (P : Type u) (T : Type v) (H : Type w) where
  handler : P → Option H
  entry : P → Option (Entry T)
  next : Nat
  call : Option (Call P T)
  returned : List (Returned P T)

def empty : Plan P T H where
  handler := fun _ => none
  entry := fun _ => none
  next := 0
  call := none
  returned := []

inductive Event (P : Type u) (T : Type v) (H : Type w)
  | created (p : P) (due : T) (h : H)
  | deleted (p : P)
  | reset (p : P) (due : T)
  | opened (limit : T)
  | fired (p : P) (h : H)
  | finished (p : P) (keep : Bool)
  | closed (result : Nat)

/-- The point whose handler runs. -/
def Plan.running (σ : Plan P T H) : Option P :=
  σ.call.bind (fun c => c.running.map Prod.fst)

/-- The deadline being processed by a handler that runs. -/
def Plan.now (σ : Plan P T H) : Option T :=
  σ.call.bind (fun c => c.running.map Prod.snd)

section Step

variable [DecidableEq P] [LinearOrder T]

def Plan.put (σ : Plan P T H) (p : P) (due : T) : Plan P T H :=
  { σ with
    entry := Function.update σ.entry p (some ⟨due, σ.next, σ.now⟩)
    next := σ.next + 1 }

def Plan.drop (σ : Plan P T H) (p : P) : Plan P T H :=
  { σ with
    handler := Function.update σ.handler p none
    entry := Function.update σ.entry p none }

/-- Scheduled during the call, before the deadline that was being processed. -/
def Call.Behind (c : Call P T) (e : Entry T) : Prop :=
  c.opened ≤ e.ticket ∧ ∃ d, e.during = some d ∧ e.due < d

/-- The schedule fires only points that are alive and scheduled, within the limit of the call and
never before what it has already fired. A call closes when all that is left within its limit was
scheduled behind it. -/
inductive Step : Plan P T H → Event P T H → Plan P T H → Prop
  | created {σ : Plan P T H} {p : P} {d : T} {h : H} (new : σ.handler p = none)
      (idle : σ.running ≠ some p) :
      Step σ (.created p d h)
        ({ σ with handler := Function.update σ.handler p (some h) }.put p d)
  | deleted {σ : Plan P T H} {p : P} : Step σ (.deleted p) (σ.drop p)
  | reset {σ : Plan P T H} {p : P} {d : T} {h : H} (alive : σ.handler p = some h)
      (idle : σ.running ≠ some p) : Step σ (.reset p d) (σ.put p d)
  | opened {σ : Plan P T H} {l : T} (idle : σ.call = none) :
      Step σ (.opened l) { σ with call := some ⟨l, σ.next, [], none⟩ }
  | fired {σ : Plan P T H} {p : P} {h : H} {c : Call P T} {e : Entry T}
      (call : σ.call = some c) (idle : c.running = none) (alive : σ.handler p = some h)
      (scheduled : σ.entry p = some e) (within : e.due ≤ c.limit)
      (ordered : ∀ f ∈ c.fired, f.2.due ≤ e.due) :
      Step σ (.fired p h)
        { σ with
          entry := Function.update σ.entry p none
          call := some { c with fired := c.fired ++ [(p, e)], running := some (p, e.due) } }
  | finished {σ : Plan P T H} {p : P} {d : T} {c : Call P T} {keep : Bool}
      (call : σ.call = some c) (runs : c.running = some (p, d)) :
      Step σ (.finished p keep)
        { σ with
          handler := if keep then σ.handler else Function.update σ.handler p none
          call := some { c with running := none } }
  | closed {σ : Plan P T H} {c : Call P T} {r : Nat} (call : σ.call = some c)
      (idle : c.running = none) (result : r = c.fired.length)
      (behind : ∀ p e, σ.entry p = some e → e.due ≤ c.limit → c.Behind e) :
      Step σ (.closed r)
        { σ with call := none, returned := ⟨c, r, σ.entry⟩ :: σ.returned }

/-- What a call that has returned did. -/
structure Returned.Correct (r : Returned P T) : Prop where
  result : r.result = r.call.fired.length
  within : ∀ f ∈ r.call.fired, f.2.due ≤ r.call.limit
  ordered : r.call.fired.Pairwise (fun f g => f.2.due ≤ g.2.due)
  once : (r.call.fired.map (fun f => f.2.ticket)).Nodup
  left : ∀ p e, r.left p = some e → e.due ≤ r.call.limit → r.call.Behind e

/-- The invariant of the schedule: tickets are given out once, and a running point is not
scheduled. -/
structure Valid (σ : Plan P T H) : Prop where
  ticket : ∀ p e, σ.entry p = some e → e.ticket < σ.next
  apart : ∀ p q e f, σ.entry p = some e → σ.entry q = some f → e.ticket = f.ticket → p = q
  alive : ∀ p e, σ.entry p = some e → σ.handler p ≠ none
  unscheduled : ∀ p, σ.running = some p → σ.entry p = none
  spent : ∀ c, σ.call = some c → ∀ f ∈ c.fired, f.2.ticket < σ.next ∧
    ∀ p e, σ.entry p = some e → e.ticket ≠ f.2.ticket
  once : ∀ c, σ.call = some c → (c.fired.map (fun f => f.2.ticket)).Nodup
  within : ∀ c, σ.call = some c → ∀ f ∈ c.fired, f.2.due ≤ c.limit
  ordered : ∀ c, σ.call = some c → c.fired.Pairwise (fun f g => f.2.due ≤ g.2.due)
  returned : ∀ r ∈ σ.returned, r.Correct

omit [DecidableEq P] in
theorem Valid.empty : Valid (empty : Plan P T H) := by
  constructor <;> simp [Schedule.empty, Plan.running]

section Valid

variable {σ σ' : Plan P T H}

private theorem Valid.put (valid : Valid σ) {p : P} (idle : σ.running ≠ some p)
    (alive : σ.handler p ≠ none) (d : T) : Valid (σ.put p d) := by
  have hentry : ∀ q e, (σ.put p d).entry q = some e →
      (q = p ∧ e = ⟨d, σ.next, σ.now⟩) ∨ (q ≠ p ∧ σ.entry q = some e) := by
    intro q e hq
    by_cases hqp : q = p
    · subst hqp
      left
      exact ⟨rfl, by simpa [Plan.put] using hq.symm⟩
    · right
      exact ⟨hqp, by simpa [Plan.put, hqp] using hq⟩
  refine
    { ticket := ?_, apart := ?_, alive := ?_, unscheduled := ?_, spent := ?_
      once := valid.once, within := valid.within, ordered := valid.ordered
      returned := valid.returned }
  · intro q e hq
    rcases hentry q e hq with ⟨-, rfl⟩ | ⟨-, hq⟩
    · exact Nat.lt_succ_self _
    · exact Nat.lt_succ_of_lt (valid.ticket q e hq)
  · intro q r e f hq hr htick
    rcases hentry q e hq with ⟨hqp, he⟩ | ⟨-, hq⟩ <;>
      rcases hentry r f hr with ⟨hrp, hf⟩ | ⟨-, hr⟩
    · rw [hqp, hrp]
    · rw [he] at htick
      exact absurd htick (Nat.ne_of_gt (valid.ticket r f hr))
    · rw [hf] at htick
      exact absurd htick (Nat.ne_of_lt (valid.ticket q e hq))
    · exact valid.apart q r e f hq hr htick
  · intro q e hq
    rcases hentry q e hq with ⟨rfl, -⟩ | ⟨-, hq⟩
    · exact alive
    · exact valid.alive q e hq
  · intro q hq
    have hqp : q ≠ p := fun heq => idle (heq ▸ hq)
    have hold := valid.unscheduled q hq
    simpa [Plan.put, hqp] using hold
  · intro c hc f hf
    obtain ⟨hlt, hne⟩ := valid.spent c hc f hf
    refine ⟨Nat.lt_succ_of_lt hlt, ?_⟩
    intro q e hq
    rcases hentry q e hq with ⟨-, rfl⟩ | ⟨-, hq⟩
    · exact Nat.ne_of_gt hlt
    · exact hne q e hq

private theorem Valid.drop (valid : Valid σ) (p : P) : Valid (σ.drop p) := by
  have hentry : ∀ q e, (σ.drop p).entry q = some e → q ≠ p ∧ σ.entry q = some e := by
    intro q e hq
    by_cases hqp : q = p
    · simp [Plan.drop, hqp] at hq
    · exact ⟨hqp, by simpa [Plan.drop, hqp] using hq⟩
  refine
    { ticket := fun q e hq => valid.ticket q e (hentry q e hq).2
      apart := fun q r e f hq hr => valid.apart q r e f (hentry q e hq).2 (hentry r f hr).2
      alive := ?_, unscheduled := ?_, spent := ?_
      once := valid.once, within := valid.within, ordered := valid.ordered
      returned := valid.returned }
  · intro q e hq
    obtain ⟨hqp, hq⟩ := hentry q e hq
    simpa [Plan.drop, hqp] using valid.alive q e hq
  · intro q hq
    cases hnone : (σ.drop p).entry q with
    | none => rfl
    | some e =>
      have hold := (hentry q e hnone).2
      rw [valid.unscheduled q hq] at hold
      cases hold
  · intro c hc f hf
    obtain ⟨hlt, hne⟩ := valid.spent c hc f hf
    exact ⟨hlt, fun q e hq => hne q e (hentry q e hq).2⟩

private theorem Valid.fire (valid : Valid σ) {p : P} {c : Call P T} {e : Entry T}
    (call : σ.call = some c) (scheduled : σ.entry p = some e) (within : e.due ≤ c.limit)
    (ordered : ∀ f ∈ c.fired, f.2.due ≤ e.due) :
    Valid { σ with
      entry := Function.update σ.entry p none
      call := some { c with fired := c.fired ++ [(p, e)], running := some (p, e.due) } } := by
  have hentry : ∀ q f, Function.update σ.entry p none q = some f → q ≠ p ∧ σ.entry q = some f := by
    intro q f hq
    by_cases hqp : q = p
    · simp [hqp] at hq
    · exact ⟨hqp, by simpa [hqp] using hq⟩
  have hfired : ∀ {c' : Call P T},
      some { c with fired := c.fired ++ [(p, e)], running := some (p, e.due) } = some c' →
      c'.limit = c.limit ∧ c'.fired = c.fired ++ [(p, e)] := by
    intro c' hc'
    obtain rfl := Option.some.inj hc'
    exact ⟨rfl, rfl⟩
  refine
    { ticket := fun q f hq => valid.ticket q f (hentry q f hq).2
      apart := fun q r f g hq hr => valid.apart q r f g (hentry q f hq).2 (hentry r g hr).2
      alive := fun q f hq => valid.alive q f (hentry q f hq).2
      unscheduled := ?_, spent := ?_, once := ?_, within := ?_, ordered := ?_
      returned := valid.returned }
  · intro q hq
    obtain rfl : p = q := by simpa [Plan.running] using hq
    exact Function.update_self ..
  · intro c' hc' f hf
    rw [(hfired hc').2] at hf
    rcases List.mem_append.mp hf with hf | hf
    · obtain ⟨hlt, hne⟩ := valid.spent c call f hf
      exact ⟨hlt, fun q g hq => hne q g (hentry q g hq).2⟩
    · obtain rfl := List.mem_singleton.mp hf
      refine ⟨valid.ticket p e scheduled, ?_⟩
      intro q g hq htick
      obtain ⟨hqp, hq⟩ := hentry q g hq
      exact hqp (valid.apart q p g e hq scheduled htick)
  · intro c' hc'
    rw [(hfired hc').2, List.map_append, List.map_singleton]
    refine List.Nodup.append (valid.once c call) (List.nodup_singleton _) ?_
    intro t ht ht'
    obtain ⟨f, hf, rfl⟩ := List.mem_map.mp ht
    exact (valid.spent c call f hf).2 p e scheduled (List.mem_singleton.mp ht').symm
  · intro c' hc' f hf
    obtain ⟨hlim, hlist⟩ := hfired hc'
    rw [hlist] at hf
    rw [hlim]
    rcases List.mem_append.mp hf with hf | hf
    · exact valid.within c call f hf
    · obtain rfl := List.mem_singleton.mp hf
      exact within
  · intro c' hc'
    rw [(hfired hc').2, List.pairwise_append]
    refine ⟨valid.ordered c call, List.pairwise_singleton _ _, ?_⟩
    intro f hf g hg
    obtain rfl := List.mem_singleton.mp hg
    exact ordered f hf

theorem Step.valid {e : Event P T H} (h : Step σ e σ') (valid : Valid σ) : Valid σ' := by
  cases h with
  | @created p d h new idle =>
    have hbase : Valid { σ with handler := Function.update σ.handler p (some h) } :=
      { valid with
        alive := by
          intro q e hq
          by_cases hqp : q = p
          · simp [hqp]
          · simpa [hqp] using valid.alive q e hq
        unscheduled := valid.unscheduled }
    exact hbase.put idle (by simp) d
  | deleted => exact valid.drop _
  | reset alive idle => exact valid.put idle (by simp [alive]) _
  | opened idle =>
    exact
      { valid with
        unscheduled := by simp [Plan.running]
        spent := by simp
        once := by simp
        within := by simp
        ordered := by simp }
  | fired call idle alive scheduled within ordered =>
    exact valid.fire call scheduled within ordered
  | @finished p d c keep call runs =>
    refine
      { valid with
        alive := ?_
        unscheduled := by simp [Plan.running]
        spent := by simpa using valid.spent c call
        once := by simpa using valid.once c call
        within := by simpa using valid.within c call
        ordered := by simpa using valid.ordered c call }
    intro q e hq
    have hqp : q ≠ p := by
      rintro rfl
      have hnone := valid.unscheduled q (by simp [Plan.running, call, runs])
      exact absurd (hnone.symm.trans hq) (by simp)
    have hold := valid.alive q e hq
    split
    · exact hold
    · simpa [hqp] using hold
  | @closed c r call idle result behind =>
    refine
      { valid with
        unscheduled := by simp [Plan.running]
        spent := by simp
        once := by simp
        within := by simp
        ordered := by simp
        returned := ?_ }
    intro r' hr'
    rcases List.mem_cons.mp hr' with rfl | hr'
    · exact ⟨result, valid.within c call, valid.ordered c call, valid.once c call, behind⟩
    · exact valid.returned r' hr'

end Valid

/-- Every call a schedule has seen return did what it should. -/
theorem Accepts.correct {σ : Plan P T H} {es : List (Event P T H)}
    (h : Accepts Step empty es σ) : ∀ r ∈ σ.returned, r.Correct :=
  (h.invariant (I := Valid) (fun _ _ _ valid step => step.valid valid) .empty).returned

end Step

end Nebase.Foundation.Schedule
