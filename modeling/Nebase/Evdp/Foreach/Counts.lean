/- What the iteration reports: the number of running sources when it starts, and the number of
   callbacks that each call of `neb_evdp_queue_foreach_next` has invoked. -/

import Nebase.Evdp.Foreach.Coverage
import Nebase.Evdp.Foreach.Tally

set_option autoImplicit false
set_option relaxedAutoImplicit false

namespace Nebase.Evdp.Foreach

open Nebase.Foundation Nebase.Evdp.Epoll

/-- What a call of `neb_evdp_queue_foreach_next` has returned, and how many callbacks it has
invoked. -/
structure Report where
  returned : Int
  callbacks : Nat
  deriving DecidableEq

/-- The queue with two ghosts: the callbacks that each open call has invoked, innermost first, and
the reports of the calls that have returned something else than -1, latest first. -/
structure Counted where
  queue : Queue
  callbacks : List Nat
  reports : List Report

def countedCreate (batchSize : Nat) : Counted := ⟨queueCreate batchSize, [], []⟩

/-- The ghosts after a step to `q`. -/
def Counted.noted (c : Counted) (a : Action) (q : Queue) : Counted :=
  match a, c.queue.calls, c.callbacks with
  | .foreachNext _, _, ns =>
    if c.queue.inForeach then ⟨q, 0 :: ns, c.reports⟩ else ⟨q, ns, ⟨0, 0⟩ :: c.reports⟩
  | .proceed, call :: calls, n :: ns =>
    if q.calls.length ≤ calls.length then
      ⟨q, ns, ⟨call.count, n⟩ :: c.reports⟩
    else
      ⟨q, (if (c.queue.calling .proceed).isSome then n + 1 else n) :: ns, c.reports⟩
  | .foreachReturn _, _ :: calls, n :: ns =>
    if q.calls.length ≤ calls.length then ⟨q, ns, c.reports⟩ else ⟨q, n :: ns, c.reports⟩
  | _, _, ns => ⟨q, ns, c.reports⟩

def countedStep (c : Counted) (a : Action) : Option Counted :=
  (step c.queue a).map (c.noted a)

/-- The search has run off the end of the running list. -/
def Point.exhausted : Point → Bool
  | .seek _ none => true
  | _ => false

/-- The step is not the one in which a search that has found no eligible source ends. -/
def FindsSource (q : Queue) (a : Action) : Prop :=
  a = .proceed → q.calls.head?.all (!·.point.exhausted) = true

instance (q : Queue) (a : Action) : Decidable (FindsSource q a) :=
  inferInstanceAs (Decidable (_ → _))

/-- The callbacks that the call has invoked, as far as its counter says: that of the last one is
advanced after the callback and the `on_remove` have returned. -/
def Call.invoked (call : Call) : Int :=
  match call.point with
  | .called _ _ => call.count + 1
  | .removed => call.count + 1
  | _ => call.count

/-- The counters of the open calls and the reports are right. -/
structure Agrees (c : Counted) : Prop where
  invoked : List.Forall₂ (fun (call : Call) (n : Nat) => call.invoked = n) c.queue.calls
    c.callbacks
  reports : ∀ r ∈ c.reports, r.returned = r.callbacks

/-- A report is wrong, or the innermost call is about to return a wrong one. -/
inductive Overcounted (c : Counted) : Prop
  | reported (r : Report) (hr : r ∈ c.reports) (wrong : r.returned ≠ r.callbacks)
  | leaving {call : Call} {calls : List Call} {n : Nat} {ns : List Nat}
      (hcalls : c.queue.calls = call :: calls) (hns : c.callbacks = n :: ns)
      (hpoint : call.point = .loop) (ahead : c.queue.ahead = none) (wrong : call.count ≠ n)

section Noted

variable {c : Counted} {q : Queue} {call : Call} {calls : List Call} {n : Nat} {ns : List Nat}

@[simp] theorem noted_queue (c : Counted) (a : Action) (q : Queue) : (c.noted a q).queue = q := by
  unfold Counted.noted
  split <;> try split_ifs
  all_goals rfl

theorem noted_proceed (hcalls : c.queue.calls = call :: calls) (hns : c.callbacks = n :: ns) :
    c.noted .proceed q = if q.calls.length ≤ calls.length then
        ⟨q, ns, ⟨call.count, n⟩ :: c.reports⟩
      else
        ⟨q, (if (c.queue.calling .proceed).isSome then n + 1 else n) :: ns, c.reports⟩ := by
  simp only [Counted.noted, hcalls, hns]

theorem noted_return (ret : NebEvdpCbRet) (hcalls : c.queue.calls = call :: calls)
    (hns : c.callbacks = n :: ns) :
    c.noted (.foreachReturn ret) q = if q.calls.length ≤ calls.length then
        ⟨q, ns, c.reports⟩
      else
        ⟨q, n :: ns, c.reports⟩ := by
  simp only [Counted.noted, hcalls, hns]

/-- The reports are only ever added to. -/
theorem noted_reports (c : Counted) (a : Action) (q : Queue) {r : Report} (hr : r ∈ c.reports) :
    r ∈ (c.noted a q).reports := by
  unfold Counted.noted
  split <;> try split_ifs
  all_goals first | exact hr | exact List.mem_cons_of_mem _ hr

end Noted

section Step

variable {q q' : Queue} {a : Action} {call : Call} {calls : List Call}

private theorem step_foreach_next {size : Int} (h : step q (.foreachNext size) = some q') :
    q' = nebEvdpQueueForeachNext size q := by
  simp only [step] at h
  split_ifs at h
  exact (Option.some.inj h).symm

/-- A start that succeeds returns the counter of the queue. -/
private theorem start_succeeds {calloc : Option Ptr}
    (started : (nebEvdpQueueForeachStart calloc q).1 ≠ -1) :
    q.inForeach = false ∧ (nebEvdpQueueForeachStart calloc q).1 = q.base.statsRunning := by
  unfold nebEvdpQueueForeachStart at started ⊢
  split_ifs at started ⊢ with hin
  · exact absurd rfl started
  · cases hf : q.foreachS.or calloc with
    | none =>
      rw [hf] at started
      exact absurd rfl started
    | some f => exact ⟨Bool.not_eq_true _ ▸ hin, rfl⟩

/-- The end of a search that has found nothing. -/
private theorem step_exhausted {s : Ptr} (h : step q .proceed = some q')
    (hcalls : q.calls = call :: calls) (hpoint : call.point = .seek s none) :
    q' = (nebEvdpQueueForeachSetEnd q).again call calls := by
  simp only [step] at h
  split at h
  · rename_i f call1 calls1 turn hf hcalls1
    obtain ⟨rfl, rfl⟩ := List.cons.inj (hcalls.symm.trans hcalls1)
    simp only [foreachProceed, hpoint, evdpQueueForeachNextOne] at h
    exact (Option.some.inj h).symm
  · cases h

/-- At the head of its loop, with nothing behind the cursor, a call does nothing but return. -/
private theorem step_leaving (h : step q a = some q') (hcalls : q.calls = call :: calls)
    (hpoint : call.point = .loop) (ahead : q.ahead = none) :
    a = .proceed ∧ q' = { q with calls := calls } := by
  have turn : q.userTurn = false := by simp [Queue.userTurn, hcalls, hpoint, Point.userTurn]
  cases a with
  | base a =>
    simp only [step] at h
    split_ifs at h with admits
    rcases admits_calls admits with hnil | ⟨turn', -⟩
    · rw [hnil] at hcalls
      cases hcalls
    · rw [turn] at turn'
      cases turn'
  | proceed =>
    refine ⟨rfl, ?_⟩
    simp only [step] at h
    split at h
    · rename_i f call1 calls1 _ hf hcalls1
      obtain ⟨rfl, rfl⟩ := List.cons.inj (hcalls.symm.trans hcalls1)
      have next : q.base.links.next (.source f) = none := by simpa [Queue.ahead, hf] using ahead
      simp only [foreachProceed, hpoint, next] at h
      exact (Option.some.inj h).symm
    · cases h
  | foreachReturn ret =>
    simp only [step] at h
    split at h
    · rename_i size count s i calls1 _ hcalls1
      obtain ⟨rfl, -⟩ := List.cons.inj (hcalls.symm.trans hcalls1)
      cases hpoint
    · cases h
  | _ => simp [step, turn] at h

/-- A step that calls a callback has the innermost call wait for it. -/
private theorem calling_called {i : Ptr} (h : step q a = some q') (calling : q.calling a = some i) :
    ∃ s call calls, q.calls = call :: calls ∧
      q'.calls = { call with point := .called s i } :: calls ∧
      call.point = .seek s (some (.source i)) := by
  obtain ⟨rfl, turn, f, s, call, calls, hf, hcalls, hpoint, ⟨src, hsrc⟩, fit⟩ := calling_inv calling
  rw [step_calling turn hf hcalls hpoint hsrc fit] at h
  obtain rfl := Option.some.inj h
  exact ⟨s, call, calls, hcalls, rfl, hpoint⟩

private theorem calling_none (h : step q a = some q')
    (same : q'.calls = q.calls ∨ ∃ c cs, q'.calls = c :: cs ∧ ∀ s i, c.point ≠ .called s i) :
    q.calling a = none := by
  cases calling : q.calling a with
  | none => rfl
  | some i =>
    obtain ⟨s, call, calls, hcalls, hcalls', hpoint⟩ := calling_called h calling
    rcases same with same | ⟨c, cs, heq, notCalled⟩
    · rw [hcalls', hcalls] at same
      obtain ⟨heq, -⟩ := List.cons.inj same
      rw [← heq] at hpoint
      cases hpoint
    · rw [hcalls'] at heq
      obtain ⟨rfl, -⟩ := List.cons.inj heq
      exact absurd rfl (notCalled s i)

/-- Only the calls of the iteration and the steps of these change the stack of the calls. -/
private theorem step_calls (h : step q a = some q') :
    (q'.calls = q.calls ∧ ∀ size, a ≠ .foreachNext size) ∨ (∃ size, a = .foreachNext size) ∨
      a = .proceed ∨ ∃ ret, a = .foreachReturn ret := by
  cases a with
  | base a =>
    simp only [step] at h
    split_ifs at h
    obtain ⟨b, -, rfl⟩ := Option.map_eq_some_iff.mp h
    exact Or.inl ⟨noted_calls q a, by simp⟩
  | setUtype p utype =>
    simp only [step] at h
    split_ifs at h
    obtain rfl := Option.some.inj h
    exact Or.inl ⟨rfl, by simp⟩
  | foreachStart calloc =>
    simp only [step] at h
    split_ifs at h
    obtain rfl := Option.some.inj h
    refine Or.inl ⟨?_, by simp⟩
    unfold nebEvdpQueueForeachStart
    split_ifs
    · rfl
    · split <;> rfl
  | foreachNext size => exact Or.inr (Or.inl ⟨size, rfl⟩)
  | foreachSetEnd =>
    simp only [step] at h
    split_ifs at h
    obtain rfl := Option.some.inj h
    exact Or.inl ⟨set_end_calls q, by simp⟩
  | proceed => exact Or.inr (Or.inr (Or.inl rfl))
  | foreachReturn ret => exact Or.inr (Or.inr (Or.inr ⟨ret, rfl⟩))

end Step

section Counting

variable {c : Counted} {a : Action} {q : Queue}

private theorem Agrees.head (agrees : Agrees c) {call : Call} {calls : List Call}
    (hcalls : c.queue.calls = call :: calls) :
    ∃ (n : Nat) (ns : List Nat), c.callbacks = n :: ns ∧ call.invoked = n ∧
      List.Forall₂ (fun (call : Call) (n : Nat) => call.invoked = n) calls ns := by
  have invoked := agrees.invoked
  rw [hcalls, List.forall₂_cons_left_iff] at invoked
  obtain ⟨n, ns, hn, hns, heq⟩ := invoked
  exact ⟨n, ns, heq, hn, hns⟩

/-- A step that leaves the calls alone leaves the ghosts alone. -/
private theorem Agrees.kept (agrees : Agrees c) (hq : q.calls = c.queue.calls)
    (calling : c.queue.calling a = none) (other : ∀ size, a ≠ .foreachNext size) :
    Agrees (c.noted a q) := by
  have hnoted : c.noted a q = ⟨q, c.callbacks, c.reports⟩ := by
    unfold Counted.noted
    split
    · exact absurd rfl (other _)
    · rename_i hcalls hns
      rw [hq, hcalls, hns, calling]
      simp
    · rename_i hcalls hns
      rw [hq, hcalls, hns]
      simp
    · rfl
  rw [hnoted]
  exact ⟨hq ▸ agrees.invoked, agrees.reports⟩

/-- The innermost call goes on. -/
private theorem Agrees.top (agrees : Agrees c) {call new : Call} {calls : List Call} {m : Nat}
    {n : Nat} {ns : List Nat} (hcalls : c.queue.calls = call :: calls)
    (hns : c.callbacks = n :: ns) (hq : q.calls = new :: calls)
    (hnew : new.invoked - call.invoked = m - n) : Agrees ⟨q, m :: ns, c.reports⟩ := by
  have invoked := agrees.invoked
  rw [hcalls, hns, List.forall₂_cons] at invoked
  refine ⟨?_, agrees.reports⟩
  rw [hq, List.forall₂_cons]
  exact ⟨by omega, invoked.2⟩

/-- The innermost call goes on without a callback. -/
private theorem Agrees.goesOn (agrees : Agrees c) (h : step c.queue .proceed = some q)
    {call new : Call} {calls : List Call} (hcalls : c.queue.calls = call :: calls)
    (hq : q.calls = new :: calls) (notCalled : ∀ s i, new.point ≠ .called s i)
    (hnew : new.invoked = call.invoked) : Agrees (c.noted .proceed q) := by
  obtain ⟨n, ns, hns, -⟩ := agrees.head hcalls
  have calling := calling_none h (Or.inr ⟨new, calls, hq, notCalled⟩)
  rw [noted_proceed hcalls hns, if_neg (by simp [hq]), calling]
  exact agrees.top hcalls hns hq (by rw [hnew]; simp)

/-- The step of an open call. -/
private theorem Agrees.proceed (agrees : Agrees c) (finds : FindsSource c.queue .proceed)
    (h : step c.queue .proceed = some q) : Agrees (c.noted .proceed q) := by
  have same : q.calls = c.queue.calls → Agrees (c.noted .proceed q) :=
    fun hq => agrees.kept hq (calling_none h (Or.inl hq)) (by simp)
  cases step_cases h with
  | refused turn => exact same rfl
  | lost turn => exact same rfl
  | @left call calls turn hcalls hpoint =>
    obtain ⟨n, ns, hns, hn, rest⟩ := agrees.head hcalls
    rw [noted_proceed hcalls hns, if_pos le_rfl]
    refine ⟨rest, ?_⟩
    intro r hr
    rcases List.mem_cons.mp hr with rfl | hr
    · simpa [Call.invoked, hpoint] using hn
    · exact agrees.reports r hr
  | sought turn hf hcalls hpoint next =>
    exact agrees.goesOn h hcalls rfl (by simp) (by simp [Call.invoked, hpoint])
  | skipped turn hf hcalls hpoint unfit =>
    exact agrees.goesOn h hcalls rfl (by simp) (by simp [Call.invoked, hpoint])
  | @calledBack f s i call calls src turn hf hcalls hpoint hsrc fit =>
    obtain ⟨n, ns, hns, -⟩ := agrees.head hcalls
    have calling := calling_seek turn hf hcalls hpoint (by simp [hsrc]) fit
    rw [noted_proceed hcalls hns, if_neg (by simp), calling]
    refine agrees.top hcalls hns rfl ?_
    simp only [Call.invoked, hpoint, Option.isSome_some, if_true]
    push_cast
    omega
  | exhausted turn hf hcalls hpoint =>
    have := finds rfl
    rw [hcalls] at this
    simp [hpoint, Point.exhausted] at this
  | resumed turn hcalls hpoint =>
    exact agrees.goesOn h hcalls rfl (by simp) (by simp [Call.invoked, hpoint])

/-- The callback of the innermost call returns. -/
private theorem Agrees.returned (agrees : Agrees c) {ret : NebEvdpCbRet}
    (h : step c.queue (.foreachReturn ret) = some q) : Agrees (c.noted (.foreachReturn ret) q) := by
  have same : q.calls = c.queue.calls → Agrees (c.noted (.foreachReturn ret) q) :=
    fun hq => agrees.kept hq rfl (by simp)
  have goesOn : ∀ {call new : Call} {calls : List Call}, c.queue.calls = call :: calls →
      q.calls = new :: calls → new.invoked = call.invoked →
      Agrees (c.noted (.foreachReturn ret) q) := by
    intro call new calls hcalls hq hnew
    obtain ⟨n, ns, hns, -⟩ := agrees.head hcalls
    rw [noted_return ret hcalls hns, if_neg (by simp [hq])]
    exact agrees.top hcalls hns hq (by rw [hnew]; simp)
  cases step_cases h with
  | refused turn => exact same rfl
  | lost turn => exact same rfl
  | continued turn hcalls hpoint hsrc =>
    exact goesOn hcalls rfl (by simp [Call.invoked, hpoint])
  | endedByCb turn hcalls hpoint hsrc =>
    exact goesOn hcalls rfl (by simp [Call.invoked, hpoint])
  | invalid turn hcalls hpoint hsrc hret =>
    obtain ⟨n, ns, hns, -, rest⟩ := agrees.head hcalls
    rw [noted_return ret hcalls hns, if_pos le_rfl]
    exact ⟨rest, agrees.reports⟩
  | removedByCb turn hcalls hpoint hsrc toClose hsrcS =>
    exact goesOn hcalls rfl (by simp [Call.invoked, hpoint])
  | removedLost turn hcalls hpoint hsrc toClose free => exact same rfl

/-- A call of `neb_evdp_queue_foreach_next` is entered, or returns 0 without an iteration. -/
private theorem Agrees.entered (agrees : Agrees c) {size : Int}
    (h : step c.queue (.foreachNext size) = some q) : Agrees (c.noted (.foreachNext size) q) := by
  obtain rfl := step_foreach_next h
  by_cases hin : c.queue.inForeach = true
  · have hnoted : c.noted (.foreachNext size) (nebEvdpQueueForeachNext size c.queue) =
        ⟨{ c.queue with calls := ⟨size, 0, .loop⟩ :: c.queue.calls }, 0 :: c.callbacks,
          c.reports⟩ := by
      simp [Counted.noted, nebEvdpQueueForeachNext, hin]
    rw [hnoted]
    exact ⟨.cons rfl agrees.invoked, agrees.reports⟩
  · have hnoted : c.noted (.foreachNext size) (nebEvdpQueueForeachNext size c.queue) =
        ⟨c.queue, c.callbacks, ⟨0, 0⟩ :: c.reports⟩ := by
      simp [Counted.noted, nebEvdpQueueForeachNext, hin]
    rw [hnoted]
    refine ⟨agrees.invoked, ?_⟩
    intro r hr
    rcases List.mem_cons.mp hr with rfl | hr
    · rfl
    · exact agrees.reports r hr

/-- A step that does not end a search without a source keeps the counters right. -/
theorem Agrees.ofStep (agrees : Agrees c) (finds : FindsSource c.queue a)
    (h : step c.queue a = some q) : Agrees (c.noted a q) := by
  rcases step_calls h with ⟨hq, other⟩ | ⟨size, rfl⟩ | rfl | ⟨ret, rfl⟩
  · exact agrees.kept hq (calling_none h (Or.inl hq)) other
  · exact agrees.entered h
  · exact agrees.proceed finds h
  · exact agrees.returned h

/-- The end of a search without a source is counted, and the call then returns. -/
theorem Agrees.overcounted (wound : Wound c.queue) (agrees : Agrees c)
    (finds : ¬ FindsSource c.queue a) (h : step c.queue a = some q) :
    Overcounted (c.noted a q) := by
  obtain ⟨rfl, call, calls, s, hcalls, hpoint⟩ : a = .proceed ∧ ∃ call calls s,
      c.queue.calls = call :: calls ∧ call.point = .seek s none := by
    simp only [FindsSource, not_forall] at finds
    obtain ⟨rfl, hall⟩ := finds
    refine ⟨rfl, ?_⟩
    cases hcalls : c.queue.calls with
    | nil => simp [hcalls] at hall
    | cons call calls =>
      rw [hcalls, List.head?_cons, Option.all_some, Bool.not_eq_true, Bool.not_eq_false'] at hall
      cases hpoint : call.point with
      | seek s node =>
        cases node with
        | none => exact ⟨call, calls, s, rfl, hpoint⟩
        | some n => simp [hpoint, Point.exhausted] at hall
      | _ => simp [hpoint, Point.exhausted] at hall
  obtain ⟨n, ns, hns, hn, -⟩ := agrees.head hcalls
  obtain rfl := step_exhausted h hcalls hpoint
  have calling := calling_none h (Or.inr ⟨_, calls, rfl, by simp⟩)
  rw [noted_proceed hcalls hns, if_neg (by simp [Queue.again]), calling]
  refine .leaving rfl rfl rfl ?_ ?_
  · obtain ⟨P, R, wired, -⟩ := wound
    obtain ⟨hin, R', wired'⟩ := wired.setEnd
    change (nebEvdpQueueForeachSetEnd c.queue).ahead = none
    by_contra hne
    obtain ⟨node, hnode⟩ := Option.ne_none_iff_exists'.mp hne
    obtain ⟨f, hf, next⟩ := Option.bind_eq_some_iff.mp hnode
    obtain ⟨hcursor, -⟩ := wired'.in_list hf next
    simp [Queue.cursor, hin] at hcursor
  · simp only [Call.invoked, hpoint] at hn
    change call.count + 1 ≠ n
    omega

/-- What has been counted wrong is reported wrong. -/
theorem Overcounted.ofStep (wrong : Overcounted c) (h : step c.queue a = some q) :
    Overcounted (c.noted a q) := by
  cases wrong with
  | reported r hr wrong => exact .reported r (noted_reports c a q hr) wrong
  | @leaving call calls n ns hcalls hns hpoint ahead wrong =>
    obtain ⟨rfl, rfl⟩ := step_leaving h hcalls hpoint ahead
    rw [noted_proceed hcalls hns, if_pos le_rfl]
    exact .reported ⟨call.count, n⟩ List.mem_cons_self wrong

end Counting

private theorem counted_step_inv {c c' : Counted} {a : Action} (h : countedStep c a = some c') :
    step c.queue a = some c'.queue ∧ c' = c.noted a c'.queue := by
  obtain ⟨q, hq, rfl⟩ := Option.map_eq_some_iff.mp h
  exact ⟨by rw [noted_queue]; exact hq, by rw [noted_queue]⟩

/-- What the iteration reports. A start that succeeds returns the number of the running sources if and
only if `stats.running` is that number; while the counters of the queue are kept, it is one more. In
a run that ends with no call open, all calls of `neb_evdp_queue_foreach_next` have reported the
number of their callbacks if and only if none of them has ended with a search that found no eligible
source. -/
theorem nebEvdpQueueForeach_counts_iff (batchSize : Nat) (as : List Action) (c : Counted)
    (reached : Machine.run countedStep (countedCreate batchSize) as = some c) :
    (∀ calloc q', step c.queue (.foreachStart calloc) = some q' →
      (nebEvdpQueueForeachStart calloc c.queue).1 ≠ -1 →
      ∃ P R, Wired c.queue P R ∧
        ((nebEvdpQueueForeachStart calloc c.queue).1 = R.length ↔
          c.queue.base.statsRunning = R.length) ∧
        (Machine.StepsMeet countedStep (fun c a => KeepsCount c.queue a) (countedCreate batchSize)
            as →
          (nebEvdpQueueForeachStart calloc c.queue).1 = R.length + 1)) ∧
      (c.queue.calls = [] →
        ((∀ r ∈ c.reports, r.returned = r.callbacks) ↔
          Machine.StepsMeet countedStep (fun c a => FindsSource c.queue a)
            (countedCreate batchSize) as)) := by
  constructor
  · intro calloc q' hstep started
    have turn : c.queue.userTurn = true := by
      simp only [step] at hstep
      split_ifs at hstep with hturn
      simp only [Bool.and_eq_true] at hturn
      exact hturn.1
    obtain ⟨hin, hret⟩ := start_succeeds started
    rw [hret]
    by_cases keeps : Machine.StepsMeet countedStep (fun c a => KeepsCount c.queue a)
        (countedCreate batchSize) as
    · have numbered : Numbered c.queue :=
        Machine.invariant_run (I := fun c => Numbered c.queue)
          (fun _ _ _ numbered keeps h => numbered.ofStep keeps (counted_step_inv h).1)
          (Numbered.create batchSize) keeps reached
      obtain ⟨P, R, wired, count⟩ := numbered.idle turn hin
      exact ⟨P, R, wired, .rfl, fun _ => count⟩
    · have wound : Wound c.queue :=
        Machine.invariant_run (I := fun c => Wound c.queue) (C := fun _ _ => True)
          (fun _ _ _ wound _ h => wound.ofStep (counted_step_inv h).1) (.create batchSize)
          (.of_forall (fun _ _ => trivial) _ _) reached
      obtain ⟨P, R, wired, -⟩ := wound
      exact ⟨P, R, wired, .rfl, fun h => absurd h keeps⟩
  · intro closed
    have split := Machine.run_split (C := fun c a => FindsSource c.queue a)
      (I := fun c => Wound c.queue ∧ Agrees c) (J := Overcounted)
      (fun c a c' inv finds h => by
        obtain ⟨hq, hc⟩ := counted_step_inv h
        rw [hc]
        exact ⟨by rw [noted_queue]; exact inv.1.ofStep hq, inv.2.ofStep finds hq⟩)
      (fun c a c' inv finds h => by
        obtain ⟨hq, hc⟩ := counted_step_inv h
        rw [hc]
        exact inv.2.overcounted inv.1 finds hq)
      (fun c a c' wrong h => by
        obtain ⟨hq, hc⟩ := counted_step_inv h
        rw [hc]
        exact wrong.ofStep hq)
      ⟨.create batchSize, .nil, by simp [countedCreate]⟩ reached
    rcases split with ⟨meets, -, agrees⟩ | ⟨fails, wrong⟩
    · exact iff_of_true agrees.reports meets
    · refine iff_of_false ?_ fails
      cases wrong with
      | reported r hr wrong => exact fun right => wrong (right r hr)
      | leaving hcalls hns hpoint ahead wrong =>
        rw [closed] at hcalls
        cases hcalls

/-- A call for all sources in which each search finds one, and the end of the iteration. -/
def everyCallback : List Action :=
  [.foreachStart (some 3), .foreachNext 0, .proceed, .proceed, .foreachReturn .continue, .proceed,
    .proceed, .foreachReturn .continue, .proceed, .foreachSetEnd]

theorem nebEvdpQueueForeach_counts_iff_two :
    ∃ c, Machine.run countedStep (countedCreate 10) (twoEligible ++ everyCallback) = some c ∧
      c.reports = [⟨2, 2⟩] ∧ (∀ r ∈ c.reports, r.returned = r.callbacks) ∧
      ∃ P R, Wired c.queue P R ∧ (nebEvdpQueueForeachStart none c.queue).1 = R.length + 1 ∧
        c.queue.base.statsRunning ≠ R.length := by
  obtain ⟨c, hc, hfacts⟩ : ∃ c, Machine.run countedStep (countedCreate 10)
      (twoEligible ++ everyCallback) = some c ∧
      (c.reports, c.queue.calls, (step c.queue (.foreachStart none)).isSome,
        (nebEvdpQueueForeachStart none c.queue).1) = ([⟨2, 2⟩], [], true, 3) :=
    Machine.run_reaches (by decide)
  simp only [Prod.mk.injEq] at hfacts
  obtain ⟨hreports, hcalls, hstep, hstart⟩ := hfacts
  obtain ⟨q', hq'⟩ := Option.isSome_iff_exists.mp hstep
  obtain ⟨starts, nexts⟩ := nebEvdpQueueForeach_counts_iff 10 _ c hc
  obtain ⟨P, R, wired, right, count⟩ := starts none q' hq' (by rw [hstart]; decide)
  have hcount := count (by decide)
  refine ⟨c, hc, hreports, (nexts hcalls).mpr (by decide), P, R, wired, hcount, fun h => ?_⟩
  have hsame := right.mpr h
  omega

/-- A call for all sources that calls back for the first one and then finds no other. -/
def oneCallback : List Action :=
  [.foreachStart (some 3), .foreachNext 0, .proceed, .proceed, .foreachReturn .continue, .proceed,
    .proceed, .proceed, .proceed]

/-- The iteration of a new queue starts with the count 1. Where only the first of two running
sources has its utype set, a call for all of them invokes one callback and reports two. -/
theorem nebEvdpQueueForeach_counts_fail :
    (¬ ∀ (batchSize : Nat) (as : List Action) (c : Counted),
      Machine.run countedStep (countedCreate batchSize) as = some c →
      ∀ calloc P R, Wired c.queue P R → (nebEvdpQueueForeachStart calloc c.queue).1 ≠ -1 →
        (nebEvdpQueueForeachStart calloc c.queue).1 = R.length) ∧
      ¬ ∀ (batchSize : Nat) (as : List Action) (c : Counted),
        Machine.run countedStep (countedCreate batchSize) as = some c →
        ∀ r ∈ c.reports, r.returned = r.callbacks := by
  constructor
  · intro claim
    obtain ⟨P, R, wired, -⟩ := Wound.create 10
    have hR : R = [] := by
      refine List.eq_nil_iff_forall_not_mem.mpr (fun p hp => ?_)
      rcases (wired.threaded.running p).mp hp with ⟨src, hsrc, -⟩ | hc
      · cases hsrc
      · cases hc
    have hlen := claim 10 [] _ rfl (some 1) P R wired (by decide)
    rw [hR] at hlen
    revert hlen
    decide
  · intro claim
    obtain ⟨c, hc, hreports⟩ : ∃ c, Machine.run countedStep (countedCreate 10)
        (twoRunning ++ [.setUtype 2 7] ++ oneCallback) = some c ∧ c.reports = [⟨2, 1⟩] :=
      Machine.run_reaches (by decide)
    have hcount := claim 10 _ c hc ⟨2, 1⟩ (by rw [hreports]; exact List.mem_cons_self)
    revert hcount
    decide

end Nebase.Evdp.Foreach
