/- The sources that a queue allocates for itself, its two list heads and the node of the iteration,
   and what frees them in a destruction. -/

import Nebase.Evdp.Destroy.Loops

set_option autoImplicit false
set_option relaxedAutoImplicit false

namespace Nebase.Evdp.Destroy

open Nebase.Foundation SentinelList Nebase.Evdp.Epoll

/-- The queue under `neb_evdp_queue_destroy` with its own sources: `internals` tells whether
`q_in_use` is set in those that are not freed. `freed` is a ghost, latest first. -/
structure Releasing where
  queue : Destroying
  internals : Node → Option Bool
  freed : List Node

/-- The sources that the queue has allocated for itself. -/
def Internal (q : Foreach.Queue) : Node → Prop
  | .source p => q.foreachS = some p
  | _ => True

instance (q : Foreach.Queue) : DecidablePred (Internal q)
  | .source p => inferInstanceAs (Decidable (q.foreachS = some p))
  | .pendingQs => isTrue trivial
  | .runningQs => isTrue trivial

def Releasing.inPhase (r : Releasing) (phase : Phase) : Releasing :=
  { r with queue := { r.queue with phase := phase } }

/-- The node is one of the queue's own sources that is not freed. -/
def Releasing.live (r : Releasing) (n : Node) : Bool := (r.internals n).isSome

/-- `q_in_use = NULL`. -/
def Releasing.unuse (r : Releasing) (n : Node) : Releasing :=
  { r with internals := Function.update r.internals n ((r.internals n).map (fun _ => false)) }

/-- `neb_evdp_source_del` on a source of `evdp_source_new_empty`, which has neither a `context` nor a
`conf`. -/
def nebEvdpSourceDelEmpty (n : Node) (r : Releasing) : Int × Releasing :=
  match r.internals n with
  | none => (-1, r.inPhase .undefined)
  | some true => (-1, r)
  | some false =>
    (0, { r with internals := Function.update r.internals n none, freed := n :: r.freed })

/-- `do_detach_from_queue` on the node of the iteration; its `on_remove` is
`neb_evdp_source_del`. -/
def detachEmpty (p : Ptr) (r : Releasing) : Releasing :=
  let base := slistRemove p (evdpQueueRmPendingEvents p r.queue.base)
  let base := { base with statsRunning := base.statsRunning - 1 }
  let r := { r with queue := { r.queue with base := base } }
  (nebEvdpSourceDelEmpty (.source p) (r.unuse (.source p))).2

/-- `neb_evdp_queue_destroy` up to its loops. -/
def releaseStart (onRemove : Ptr → Option Handler) (q : Foreach.Queue) : Releasing :=
  let r : Releasing :=
    { queue := nebEvdpQueueDestroy onRemove q
      internals := fun n => if Internal q n then some true else none
      freed := [] }
  match q.foreachS with
  | some f => (nebEvdpSourceDelEmpty (.source f) r).2
  | none => r

/-- One round of the loop over the list of a head, and where the list is empty the release of the
head. -/
def Releasing.round (r : Releasing) (head : Node) (rest : Phase) : Releasing :=
  match r.queue.base.links.next head with
  | none => (nebEvdpSourceDelEmpty head ((r.inPhase rest).unuse head)).2
  | some (.source p) =>
    if r.live (.source p) then
      detachEmpty p r
    else
      { r with queue := r.queue.round head rest }
  | some _ => r.inPhase .undefined

/-- A new source is not allocated where one of the queue's own still is. -/
def Releasing.admits (r : Releasing) : Action → Bool
  | .call (.newSource p _ _) => !r.live (.source p)
  | _ => true

def releaseStep (r : Releasing) (a : Action) : Option Releasing :=
  match a with
  | .proceed =>
    match r.queue.callbacks, r.queue.phase with
    | [], .pendingLoop => some (r.round .pendingQs (runningGate r.queue.base))
    | [], .runningLoop => some (r.round .runningQs .done)
    | _, _ => none
  | a => if r.admits a then (step r.queue a).map (fun d => { r with queue := d }) else none

/-- The user may not detach the running source, which is one of `R₀`, nor has done so. -/
def Held (q : State) (R₀ R : List Ptr) (b : State) : Prop :=
  ∀ p ∈ R₀, Guarded q p → p ∈ R ∧ Guarded b p

/-- The sources of the queue that a destruction has freed where both its loops were entered. -/
def releases (c : Option Ptr) : List Node := c.toList.map .source ++ [.pendingQs]

/-- Where the destruction stands, from the lists `P₀` and `R₀` on, with `P` and `R` left. -/
def Frees (q : Foreach.Queue) (P₀ R₀ P R : List Ptr) (c : Option Ptr) (r : Releasing) : Prop :=
  match r.queue.phase with
  | .pendingLoop => c = q.cursor ∧ r.freed = [] ∧ Held q.base R₀ R r.queue.base ∧
      (P₀ = [] → r.queue.callbacks = [] ∧ R.length = R₀.length)
  | .runningLoop => P = [] ∧
      (c = q.cursor ∧ r.freed = [.pendingQs] ∨ c = none ∧ r.freed = releases q.cursor)
  | .done => r.queue.callbacks = [] ∧
      (r.freed = .runningQs :: releases q.cursor ∨
        c = q.cursor ∧ r.freed = [.pendingQs] ∧ r.queue.base.statsRunning = 0 ∧
          Held q.base R₀ R r.queue.base ∧ (P₀ = [] → R.length = R₀.length))
  | .undefined => False

/-- The destruction of the queue `q`, which had the lists `P₀` and `R₀`, with the lists `P` and `R`
left and the cursor `c` in the latter. -/
structure Draining (q : Foreach.Queue) (P₀ R₀ P R : List Ptr) (c : Option Ptr) (r : Releasing) :
    Prop where
  threaded : Foreach.Threaded r.queue.base c P R
  destroying : r.queue.destroying = true
  drift : r.queue.base.statsRunning - R.length = q.base.statsRunning - R₀.length
  fewer : P ⊆ P₀ ∧ R ⊆ R₀
  owns : ∀ n, r.internals n = if Internal q n ∧ n ∉ r.freed then some true else none
  hidden : ∀ f, q.foreachS = some f → .source f ∉ r.freed → r.queue.base.sources f = none
  linked : ∀ f, c = some f → q.foreachS = some f ∧ .source f ∉ r.freed
  frees : Frees q P₀ R₀ P R c r

/-- What is left of the own steps of the destruction. -/
def Releasing.left (P R : List Ptr) (r : Releasing) : Nat :=
  2 * (P.length + R.length) + r.queue.callbacks.length + r.queue.phase.rank

section Source

variable {b b' : State} {P R : List Ptr} {c : Option Ptr} {p : Ptr}

/-- A call that touches no attached source. -/
theorem plain_sources {a : Epoll.Action} (plain : isPlain a = true)
    (h : Epoll.step b a = some b') (attached : b.Attached p) : b'.sources p = b.sources p := by
  obtain ⟨src, hsrc, huse⟩ := attached
  have elsewhere : ∀ {r : Ptr} {o o' : Option Source}, b.sources r = o →
      (∀ s, o = some s → s.qInUse = false) → Function.update b.sources r o' p = b.sources p := by
    intro r o o' hr unattached
    refine Function.update_of_ne ?_ _ _
    rintro rfl
    rw [unattached src (hr.symm.trans hsrc)] at huse
    cases huse
  have call_inv : ∀ {r : Ptr} {f : Source → State}, b.call r f = some b' →
      ∃ src, b.sources r = some src ∧ f src = b' := by
    intro r f hcall
    unfold State.call at hcall
    split_ifs at hcall
    exact Option.map_eq_some_iff.mp hcall
  cases a with
  | openFd fd =>
    simp only [Epoll.step] at h
    split_ifs at h
    obtain rfl := Option.some.inj h
    rfl
  | closeFd fd =>
    simp only [Epoll.step] at h
    split_ifs at h
    obtain rfl := Option.some.inj h
    rfl
  | newSource r type fd =>
    simp only [Epoll.step] at h
    split_ifs at h with hcond <;>
    · obtain rfl := Option.some.inj h
      have free : b.sources r = none := by
        simp only [Bool.and_eq_true] at hcond
        simpa using hcond.1.2
      exact elsewhere free (by simp)
  | delSource r =>
    obtain ⟨s, hs, rfl⟩ := call_inv h
    unfold nebEvdpSourceDel
    split_ifs with hused
    · rfl
    · exact elsewhere hs (by simpa using hused)
    · exact elsewhere hs (by simpa using hused)
  | resetFd r fd =>
    obtain ⟨s, hs, rfl⟩ := call_inv h
    unfold nebEvdpSourceOsFdReset
    split_ifs with hused
    · rfl
    · rfl
    · exact elsewhere hs (by simpa using hused)
  | _ => cases plain

/-- The lists and the counter of the running sources after an attached source was detached. -/
theorem detach_drops (threaded : Foreach.Threaded b c P R) {src : Source} (toClose : Bool)
    (hsrc : b.sources p = some src) (huse : src.qInUse = true) :
    Foreach.Threaded (Epoll.doDetachFromQueue p src toClose b) c (P.filter (· ≠ p))
        (R.filter (· ≠ p)) ∧
      (Epoll.doDetachFromQueue p src toClose b).statsRunning - (R.filter (· ≠ p)).length =
        b.statsRunning - R.length ∧
      (P.filter (· ≠ p)).length + (R.filter (· ≠ p)).length + 1 = P.length + R.length := by
  have det := Epoll.detached p src toClose b
  obtain ⟨src', hsources, huse', -⟩ := det.sources
  refine ⟨threaded.leave det.links hsources huse' (by rw [hsrc]; rfl), ?_⟩
  have hP := filter_ne_length threaded.nodup.1 p
  have hR := filter_ne_length threaded.nodup.2 p
  rw [det.statsRunning]
  cases hpend : src.pending with
  | true =>
    have hp : p ∈ P := (threaded.pending p).mpr ⟨src, hsrc, huse, hpend⟩
    rw [if_pos hp] at hP
    rw [if_neg (threaded.disjoint hp)] at hR
    simp only [if_true]
    omega
  | false =>
    have hp : p ∈ R := (threaded.running p).mpr (Or.inl ⟨src, hsrc, huse, hpend⟩)
    have hn : p ∉ P := fun h => threaded.disjoint h hp
    rw [if_neg hn] at hP
    rw [if_pos hp] at hR
    simp only [Bool.false_eq_true, if_false]
    omega

theorem detach_sources (src : Source) (toClose : Bool) {r : Ptr} (hr : r ≠ p) :
    (Epoll.doDetachFromQueue p src toClose b).sources r = b.sources r := by
  obtain ⟨src', hsources, -⟩ := (Epoll.detached p src toClose b).sources
  rw [hsources, Function.update_of_ne hr]

end Source

section Step

variable {q : Foreach.Queue} {P₀ R₀ P R : List Ptr} {c : Option Ptr} {r r' : Releasing} {n : Node}

/-- The release of one of the queue's own sources. -/
theorem del_unused (used : r.internals n = some true) :
    (nebEvdpSourceDelEmpty n (r.unuse n)).2 =
      { r with internals := Function.update r.internals n none, freed := n :: r.freed } := by
  unfold nebEvdpSourceDelEmpty Releasing.unuse
  simp [used]

theorem Draining.owned (draining : Draining q P₀ R₀ P R c r) (own : Internal q n)
    (kept : n ∉ r.freed) : r.internals n = some true := by
  rw [draining.owns, if_pos ⟨own, kept⟩]

/-- A source of the user's is none of the queue's own. -/
theorem Draining.not_live (draining : Draining q P₀ R₀ P R c r) {p : Ptr}
    (known : (r.queue.base.sources p).isSome = true) : r.live (.source p) = false := by
  unfold Releasing.live
  rw [draining.owns]
  split_ifs with own
  · rw [draining.hidden p own.1 own.2] at known
    cases known
  · rfl

/-- The queue's own sources once another one is freed. -/
private theorem owns_freed (owns : ∀ n, r.internals n =
    if Internal q n ∧ n ∉ r.freed then some true else none) (m : Node) :
    Function.update r.internals n none m =
      if Internal q m ∧ m ∉ n :: r.freed then some true else none := by
  by_cases hm : m = n
  · subst hm
    simp
  · rw [Function.update_of_ne hm, owns]
    simp [hm]

/-- An attached source of the user's is detached. -/
theorem Draining.detach (draining : Draining q P₀ R₀ P R c r) {p : Ptr} {src : Source}
    (toClose : Bool) (hsrc : r.queue.base.sources p = some src) (huse : src.qInUse = true)
    (later : r.queue.phase = .pendingLoop → P₀ ≠ []) (going : r.queue.phase ≠ .done)
    (free : r.queue.phase = .pendingLoop → p ∈ R → ¬ Guarded r.queue.base p) :
    ∃ P' R', Draining q P₀ R₀ P' R' c
        { r with queue := doDetachFromQueue p src toClose r.queue } ∧
      Releasing.left P' R' { r with queue := doDetachFromQueue p src toClose r.queue } + 1 ≤
        r.left P R := by
  obtain ⟨threaded, drift, less⟩ := detach_drops draining.threaded toClose hsrc huse
  refine ⟨P.filter (· ≠ p), R.filter (· ≠ p), ⟨threaded, draining.destroying,
    drift.trans draining.drift, ?_, draining.owns, ?_, draining.linked, ?_⟩, ?_⟩
  · exact ⟨fun x hx => draining.fewer.1 (List.mem_of_mem_filter hx),
      fun x hx => draining.fewer.2 (List.mem_of_mem_filter hx)⟩
  · intro f hf kept
    have hnone := draining.hidden f hf kept
    change (Epoll.doDetachFromQueue p src toClose r.queue.base).sources f = none
    rw [detach_sources, hnone]
    rintro rfl
    rw [hsrc] at hnone
    cases hnone
  · have frees := draining.frees
    unfold Frees at frees ⊢
    change match r.queue.phase with
      | .pendingLoop => _
      | .runningLoop => _
      | .done => _
      | .undefined => False
    cases hphase : r.queue.phase with
    | pendingLoop =>
      simp only [hphase] at frees
      obtain ⟨hc, hfreed, held, -⟩ := frees
      refine ⟨hc, hfreed, ?_, fun hnil => absurd hnil (later hphase)⟩
      intro x hx hguarded
      obtain ⟨hxR, src', hsrc', hno⟩ := held x hx hguarded
      have hne : x ≠ p := by
        rintro rfl
        exact free hphase hxR ⟨src', hsrc', hno⟩
      refine ⟨List.mem_filter.mpr ⟨hxR, by simpa using hne⟩, src', ?_, hno⟩
      exact (detach_sources src toClose hne).trans hsrc'
    | runningLoop =>
      simp only [hphase] at frees
      refine ⟨?_, frees.2⟩
      rw [frees.1]
      rfl
    | done => exact absurd hphase going
    | undefined => simp only [hphase] at frees
  · have hlength : (doDetachFromQueue p src toClose r.queue).callbacks.length =
        ((r.queue.onRemove p).toList.map (fun _ => p)).length + r.queue.callbacks.length :=
      List.length_append
    have hcallbacks : ((r.queue.onRemove p).toList.map (fun _ => p)).length ≤ 1 := by
      cases r.queue.onRemove p <;> simp
    have hphase : (doDetachFromQueue p src toClose r.queue).phase = r.queue.phase := rfl
    unfold Releasing.left
    simp only [hlength, hphase]
    omega

/-- Where a list is empty its head is freed. -/
theorem round_empty {head : Node} {rest : Phase} (used : r.internals head = some true)
    (empty : r.queue.base.links.next head = none) :
    r.round head rest =
      { queue := { r.queue with phase := rest }
        internals := Function.update r.internals head none
        freed := head :: r.freed } := by
  unfold Releasing.round
  simp only [empty]
  exact del_unused (r := r.inPhase rest) used

/-- The cursor is detached, which frees it. -/
private theorem round_cursor {f : Ptr} {head : Node} {rest : Phase}
    (used : r.internals (.source f) = some true)
    (next : r.queue.base.links.next head = some (.source f)) :
    r.round head rest =
      { queue := { r.queue with
          base := { slistRemove f (evdpQueueRmPendingEvents f r.queue.base) with
            statsRunning := r.queue.base.statsRunning - 1 } }
        internals := Function.update r.internals (.source f) none
        freed := .source f :: r.freed } := by
  unfold Releasing.round
  simp only [next, Releasing.live, used, Option.isSome_some, if_true]
  exact del_unused (n := .source f) (r := { r with queue := { r.queue with
    base := { slistRemove f (evdpQueueRmPendingEvents f r.queue.base) with
      statsRunning := r.queue.base.statsRunning - 1 } } }) used

/-- A source of the user's is detached. -/
theorem round_source {p : Ptr} {src : Source} {head : Node} {rest : Phase}
    (live : r.live (.source p) = false) (next : r.queue.base.links.next head = some (.source p))
    (hsrc : r.queue.base.sources p = some src) :
    r.round head rest = { r with queue := doDetachFromQueue p src false r.queue } := by
  unfold Releasing.round
  simp only [next, live, Bool.false_eq_true, if_false, Destroying.round, hsrc]

/-- A round of the first loop. -/
private theorem Draining.pendingRound (draining : Draining q P₀ R₀ P R c r)
    (callbacks : r.queue.callbacks = []) (hphase : r.queue.phase = .pendingLoop) :
    ∃ P' R' c', Draining q P₀ R₀ P' R' c' (r.round .pendingQs (runningGate r.queue.base)) ∧
      (r.round .pendingQs (runningGate r.queue.base)).left P' R' + 1 ≤ r.left P R := by
  have frees := draining.frees
  unfold Frees at frees
  simp only [hphase] at frees
  obtain ⟨hc, hfreed, held, first⟩ := frees
  have next : r.queue.base.links.next .pendingQs = P.head?.map .source := by
    rw [draining.threaded.lists.next_eq (Or.inl rfl : Node.pendingQs ∈ heads)]
    exact List.head?_map
  cases P with
  | nil =>
    have used := draining.owned (n := .pendingQs) trivial (by simp [hfreed])
    rw [round_empty used next]
    refine ⟨[], R, c, ⟨draining.threaded, draining.destroying, draining.drift, draining.fewer,
      owns_freed draining.owns, ?_, ?_, ?_⟩, ?_⟩
    · intro f hf kept
      exact draining.hidden f hf (fun h => kept (List.mem_cons_of_mem _ h))
    · intro f hf
      exact ⟨(draining.linked f hf).1, by simp [hfreed]⟩
    · unfold Frees runningGate
      split_ifs with hstats
      · exact ⟨rfl, Or.inl ⟨hc, by rw [hfreed]⟩⟩
      · exact ⟨callbacks, Or.inr ⟨hc, by rw [hfreed], by simpa using hstats, held,
          fun hnil => (first hnil).2⟩⟩
    · unfold Releasing.left runningGate
      rw [hphase]
      split_ifs <;> simp [Phase.rank]
  | cons p P =>
    obtain ⟨src, hsrc, huse, -⟩ := (draining.threaded.pending p).mp List.mem_cons_self
    rw [round_source (draining.not_live (by rw [hsrc]; rfl)) next hsrc]
    obtain ⟨P', R', draining', less⟩ := draining.detach false hsrc huse (by
        rintro - rfl
        exact List.not_mem_nil (draining.fewer.1 List.mem_cons_self))
      (by simp [hphase])
      (fun _ hR => absurd hR (draining.threaded.disjoint List.mem_cons_self))
    exact ⟨P', R', c, draining', less⟩

/-- A round of the second loop. -/
private theorem Draining.runningRound (draining : Draining q P₀ R₀ P R c r)
    (callbacks : r.queue.callbacks = []) (hphase : r.queue.phase = .runningLoop) :
    ∃ P' R' c', Draining q P₀ R₀ P' R' c' (r.round .runningQs .done) ∧
      (r.round .runningQs .done).left P' R' + 1 ≤ r.left P R := by
  have frees := draining.frees
  unfold Frees at frees
  simp only [hphase] at frees
  obtain ⟨rfl, hfreed⟩ := frees
  have next : r.queue.base.links.next .runningQs = R.head?.map .source := by
    rw [draining.threaded.lists.next_eq (Or.inr rfl : Node.runningQs ∈ heads)]
    exact List.head?_map
  cases R with
  | nil =>
    have hnone : c = none := by
      cases c with
      | none => rfl
      | some f => exact absurd ((draining.threaded.running f).mpr (Or.inr rfl)) List.not_mem_nil
    have hreleases : r.freed = releases q.cursor := by
      rcases hfreed with ⟨hc, hfreed⟩ | ⟨-, hfreed⟩
      · rw [hfreed, ← hc, hnone]
        rfl
      · exact hfreed
    have used := draining.owned (n := .runningQs) trivial (by simp [hreleases, releases])
    rw [round_empty used next]
    refine ⟨[], [], c, ⟨draining.threaded, draining.destroying, draining.drift, draining.fewer,
      owns_freed draining.owns, ?_, by simp [hnone], ?_⟩, ?_⟩
    · intro f hf kept
      exact draining.hidden f hf (fun h => kept (List.mem_cons_of_mem _ h))
    · exact ⟨callbacks, Or.inl (by rw [hreleases])⟩
    · simp [Releasing.left, hphase, Phase.rank]
  | cons p R =>
    by_cases hp : c = some p
    · subst hp
      obtain ⟨hc, hfreed⟩ : some p = q.cursor ∧ r.freed = [.pendingQs] := by
        rcases hfreed with h | ⟨h, -⟩
        · exact h
        · cases h
      obtain ⟨own, kept⟩ := draining.linked p rfl
      rw [round_cursor (draining.owned (n := .source p) own kept) next]
      have threaded := draining.threaded.unthread
      have hfilter := filter_ne_length draining.threaded.nodup.2 p
      rw [if_pos List.mem_cons_self] at hfilter
      refine ⟨[], (p :: R).filter (· ≠ p), none, ⟨threaded.congr rfl (fun _ => .rfl)
        (fun _ => .rfl) (by simp), draining.destroying, ?_, ⟨draining.fewer.1,
          fun x hx => draining.fewer.2 (List.mem_of_mem_filter hx)⟩, owns_freed draining.owns, ?_,
        by simp, ?_⟩, ?_⟩
      · have hdrift := draining.drift
        simp only
        omega
      · intro f hf kept
        exact draining.hidden f hf (fun h => kept (List.mem_cons_of_mem _ h))
      · unfold Frees
        simp only [hphase]
        exact ⟨trivial, Or.inr ⟨trivial, by rw [hfreed, ← hc]; rfl⟩⟩
      · unfold Releasing.left
        simp only
        omega
    · obtain ⟨src, hsrc, huse, -⟩ :=
        ((draining.threaded.running p).mp List.mem_cons_self).resolve_right hp
      rw [round_source (draining.not_live (by rw [hsrc]; rfl)) next hsrc]
      obtain ⟨P', R', draining', less⟩ := draining.detach false hsrc huse (by simp [hphase])
        (by simp [hphase]) (by simp [hphase])
      exact ⟨P', R', c, draining', less⟩

/-- A callback is under way only before the end, and in the first loop only if a source was
pending. -/
theorem Draining.calling (draining : Draining q P₀ R₀ P R c r) (hne : r.queue.callbacks ≠ []) :
    (r.queue.phase = .pendingLoop → P₀ ≠ []) ∧ r.queue.phase ≠ .done := by
  have frees := draining.frees
  unfold Frees at frees
  constructor
  · intro hphase hnil
    simp only [hphase] at frees
    exact hne (frees.2.2.2 hnil).1
  · intro hphase
    simp only [hphase] at frees
    exact hne frees.1

/-- A call that touches no attached source. -/
private theorem Draining.call (draining : Draining q P₀ R₀ P R c r) {a : Epoll.Action} {b : State}
    (plain : isPlain a = true) (admits : r.admits (.call a) = true)
    (h : Epoll.step r.queue.base a = some b) (onRemove : Ptr → Option Handler) :
    Draining q P₀ R₀ P R c
      { r with queue := { r.queue with base := b, onRemove := onRemove } } := by
  have untouched := plain_untouched plain h
  have held : Held q.base R₀ R r.queue.base → Held q.base R₀ R b := by
    intro held p hp hguarded
    obtain ⟨hR, src, hsrc, hno⟩ := held p hp hguarded
    refine ⟨hR, src, ?_, hno⟩
    rcases (draining.threaded.running p).mp hR with ⟨s, hs, huse, -⟩ | hc
    · exact (plain_sources plain h ⟨s, hs, huse⟩).trans hsrc
    · rw [draining.threaded.free p hc] at hsrc
      cases hsrc
  have hidden : ∀ f, q.foreachS = some f → .source f ∉ r.freed → b.sources f = none := by
    intro f hf kept
    refine Foreach.step_free (Epoll.step_cases h) (draining.hidden f hf kept) ?_
    rintro type fd rfl
    have live := draining.owned (n := .source f) hf kept
    simp [Releasing.admits, Releasing.live, live] at admits
  have hcursor : ∀ f, c = some f → b.sources f = none := by
    intro f hf
    obtain ⟨own, kept⟩ := draining.linked f hf
    exact hidden f own kept
  refine ⟨draining.threaded.congr untouched.links untouched.pending untouched.running hcursor,
    draining.destroying, ?_, draining.fewer, draining.owns, hidden, draining.linked, ?_⟩
  · rw [← draining.drift]
    exact congrArg (· - (R.length : Int)) untouched.statsRunning
  · have frees := draining.frees
    unfold Frees at frees ⊢
    cases hphase : r.queue.phase with
    | pendingLoop =>
      simp only [hphase] at frees ⊢
      exact ⟨frees.1, frees.2.1, held frees.2.2.1, frees.2.2.2⟩
    | runningLoop => simpa only [hphase] using frees
    | done =>
      simp only [hphase, untouched.statsRunning] at frees ⊢
      exact ⟨frees.1, frees.2.imp_right (fun h =>
        ⟨h.1, h.2.1, h.2.2.1, held h.2.2.2.1, h.2.2.2.2⟩)⟩
    | undefined => simp only [hphase] at frees

/-- Every step continues the destruction, and an own step uses up one of those that are left. -/
theorem Draining.ofStep (draining : Draining q P₀ R₀ P R c r) {a : Action}
    (h : releaseStep r a = some r') : ∃ P' R' c', Draining q P₀ R₀ P' R' c' r' ∧
      r'.left P' R' + (if a.own then 1 else 0) ≤ r.left P R := by
  have other : (if r.admits a then (step r.queue a).map (fun d => { r with queue := d })
      else none) = some r' → r.admits a = true ∧
        ∃ d, step r.queue a = some d ∧ { r with queue := d } = r' := by
    intro h
    split_ifs at h with admits
    exact ⟨admits, Option.map_eq_some_iff.mp h⟩
  have calling_inv : ∀ {p : Ptr} {f : Source → Destroying} {d : Destroying},
      r.queue.calling p f = some d → r.queue.callbacks ≠ [] ∧
        ∃ src, r.queue.base.sources p = some src ∧ f src = d := by
    intro p f d hcall
    unfold Destroying.calling at hcall
    split_ifs at hcall with hnil
    exact ⟨by simpa using hnil, Option.map_eq_some_iff.mp hcall⟩
  cases a with
  | call a =>
    obtain ⟨admits, d, hd, rfl⟩ := other h
    simp only [step] at hd
    split_ifs at hd with hcond
    simp only [Bool.and_eq_true] at hcond
    obtain ⟨b, hb, rfl⟩ := Option.map_eq_some_iff.mp hd
    exact ⟨P, R, c, draining.call hcond.2 admits hb _, le_rfl⟩
  | attach p settime =>
    obtain ⟨-, d, hd, rfl⟩ := other h
    obtain ⟨-, src, hsrc, rfl⟩ := calling_inv hd
    have hrefused : nebEvdpQueueAttach p src settime r.queue = (-1, r.queue) := by
      unfold nebEvdpQueueAttach
      simp [draining.destroying]
    simp only [hrefused]
    exact ⟨P, R, c, ⟨draining.threaded, draining.destroying, draining.drift, draining.fewer,
      draining.owns, draining.hidden, draining.linked, draining.frees⟩, le_rfl⟩
  | detach p toClose =>
    obtain ⟨-, d, hd, rfl⟩ := other h
    obtain ⟨hne, src, hsrc, rfl⟩ := calling_inv hd
    unfold nebEvdpQueueDetach
    simp only [Action.own, Bool.false_eq_true, if_false]
    split_ifs with huse hno
    · exact ⟨P, R, c, draining, le_rfl⟩
    · exact ⟨P, R, c, draining, le_rfl⟩
    · obtain ⟨later, going⟩ := draining.calling hne
      have free : ¬ Guarded r.queue.base p := by
        rintro ⟨s, hs, hguarded⟩
        obtain rfl := Option.some.inj (hsrc.symm.trans hs)
        exact hno hguarded
      obtain ⟨P', R', draining', less⟩ := draining.detach toClose hsrc (by simpa using huse) later
        going (fun _ _ => free)
      exact ⟨P', R', c, draining', Nat.le_of_succ_le less⟩
  | proceed =>
    simp only [releaseStep] at h
    split at h
    · rename_i hcallbacks hphase
      obtain rfl := Option.some.inj h
      exact draining.pendingRound hcallbacks hphase
    · rename_i hcallbacks hphase
      obtain rfl := Option.some.inj h
      exact draining.runningRound hcallbacks hphase
    · cases h
  | cbReturn =>
    obtain ⟨-, d, hd, rfl⟩ := other h
    simp only [step] at hd
    split at hd
    · rename_i p callbacks hcallbacks
      obtain rfl := Option.some.inj hd
      have hne : r.queue.callbacks ≠ [] := by simp [hcallbacks]
      obtain ⟨later, going⟩ := draining.calling hne
      refine ⟨P, R, c, ⟨draining.threaded, draining.destroying, draining.drift, draining.fewer,
        draining.owns, draining.hidden, draining.linked, ?_⟩, ?_⟩
      · have frees := draining.frees
        unfold Frees at frees ⊢
        cases hphase : r.queue.phase with
        | pendingLoop =>
          simp only [hphase] at frees
          exact ⟨frees.1, frees.2.1, frees.2.2.1, fun hnil => absurd hnil (later hphase)⟩
        | runningLoop => simpa only [hphase] using frees
        | done => exact absurd hphase going
        | undefined => simp only [hphase] at frees
      · unfold Releasing.left
        simp only [hcallbacks, List.length_cons, Action.own, if_true]
        omega
    · cases hd

/-- A destruction that is not over can go on. -/
theorem Draining.goesOn (draining : Draining q P₀ R₀ P R c r) :
    r.queue.phase = .done ∨ ∃ a r', a.own = true ∧ releaseStep r a = some r' := by
  cases hcallbacks : r.queue.callbacks with
  | cons p callbacks =>
    refine Or.inr ⟨.cbReturn, { r with queue := { r.queue with callbacks := callbacks } }, rfl, ?_⟩
    simp [releaseStep, Releasing.admits, step, hcallbacks]
  | nil =>
    have frees := draining.frees
    unfold Frees at frees
    cases hphase : r.queue.phase with
    | pendingLoop =>
      exact Or.inr ⟨.proceed, r.round .pendingQs (runningGate r.queue.base), rfl,
        by simp only [releaseStep, hcallbacks, hphase]⟩
    | runningLoop =>
      exact Or.inr ⟨.proceed, r.round .runningQs .done, rfl,
        by simp only [releaseStep, hcallbacks, hphase]⟩
    | done => exact Or.inl rfl
    | undefined => simp only [hphase] at frees

/-- `neb_evdp_source_del` refuses the node of the iteration: its `q_in_use` is the queue. -/
theorem release_start_eq (onRemove : Ptr → Option Handler) (q : Foreach.Queue) :
    releaseStart onRemove q =
      { queue := nebEvdpQueueDestroy onRemove q
        internals := fun n => if Internal q n then some true else none
        freed := [] } := by
  unfold releaseStart
  cases hf : q.foreachS with
  | none => rfl
  | some f => simp [nebEvdpSourceDelEmpty, Internal, hf]

/-- The destruction of a queue whose first gate is open. -/
theorem Draining.start (wired : Foreach.Wired q P R) (opens : 1 + P.length ≤ q.base.statsPending)
    (onRemove : Ptr → Option Handler) :
    Draining q P R P R q.cursor (releaseStart onRemove q) := by
  rw [release_start_eq]
  refine ⟨wired.threaded, rfl, rfl, ⟨fun _ h => h, fun _ h => h⟩, by simp,
    fun f hf _ => wired.hidden f hf, ?_, ?_⟩
  · intro f hf
    refine ⟨?_, by simp⟩
    unfold Foreach.Queue.cursor at hf
    split_ifs at hf
    exact hf
  · have hphase : (nebEvdpQueueDestroy onRemove q).phase = .pendingLoop := by
      refine if_pos ?_
      omega
    unfold Frees
    simp only [hphase]
    exact ⟨trivial, trivial, fun p hp hguarded => ⟨hp, hguarded⟩, fun _ => ⟨rfl, trivial⟩⟩

end Step

end Nebase.Evdp.Destroy
