/- The poll requests and the flags: what it means that a source is tracked, what the kernel makes of
   its requests, and what a batch of aio does. -/

import Nebase.Evdp.Poll.Model
import Mathlib.Data.List.Perm.Basic

set_option autoImplicit false
set_option relaxedAutoImplicit false

namespace Nebase.Evdp.Poll

open Nebase.Foundation
open Nebase.Evdp.Epoll (Ptr Fd Handler SourceType Dir NebEvdpCbRet Stage)

def State.Attached (q : State) (p : Ptr) : Prop :=
  ∃ src, q.sources p = some src ∧ src.qInUse = true

/-- The sources of the requests that are not cancelled. -/
def carriedBy (rs : List Request) : List Ptr :=
  (rs.filter (fun r => !r.cancelled)).map (·.source)

/-- The sources that the requests of the kernel carry. -/
def Kernel.carried (k : Kernel) : List Ptr := carriedBy k.requests

/-- The kernel holds a poll request that carries the source. -/
def State.Live (q : State) (p : Ptr) : Prop := p ∈ q.kernel.carried

/-- The completions of the batch behind the one that is handled. -/
def State.unhandled (q : State) : List Completion :=
  match q.ctl with
  | .stopped => q.ee.drop (q.currentEvent + 1)
  | .events i => q.ee.drop i
  | .handle _ _ => q.ee.drop (q.currentEvent + 1)
  | .callback _ _ => q.ee.drop (q.currentEvent + 1)
  | .finish _ _ => q.ee.drop (q.currentEvent + 1)
  | .removed _ => q.ee.drop (q.currentEvent + 1)
  | _ => []

/-- A request of the source has completed, not having been cancelled, and the completion waits to be
handled. -/
def State.Waiting (q : State) (p : Ptr) : Prop :=
  ∃ e ∈ q.unhandled, e.cancelled = false ∧ e.data = some p

/-- A source has a request exactly if its flag is set, where a request that has completed may still
count until its completion is handled; an os_fd source has one request at most, and only an attached
source has any. -/
structure Tracks (q : State) : Prop where
  flagged : ∀ p src, q.sources p = some src → q.Live p → src.submitted = true
  outstanding : ∀ p src, q.sources p = some src → src.submitted = true → q.Live p ∨ q.Waiting p
  once : ∀ p src, q.sources p = some src → src.type = .osFd → q.kernel.carried.count p ≤ 1
  released : ∀ p, q.Live p → q.Attached p

/-! The kernel. -/

theorem carriedBy_append (rs rs' : List Request) :
    carriedBy (rs ++ rs') = carriedBy rs ++ carriedBy rs' := by
  simp [carriedBy]

theorem carriedBy_cons (r : Request) (rs : List Request) :
    carriedBy (r :: rs) = if r.cancelled then carriedBy rs else r.source :: carriedBy rs := by
  cases h : r.cancelled <;> simp [carriedBy, h]

theorem carriedBy_perm {rs rs' : List Request} (h : rs.Perm rs') :
    (carriedBy rs).Perm (carriedBy rs') :=
  (h.filter _).map _

/-- Cancelling takes one request away from those that carry the source. -/
theorem carried_cancel (rs : List Request) (p : Ptr) :
    carriedBy (cancelRequest p rs) = (carriedBy rs).erase p := by
  induction rs with
  | nil => rfl
  | cons r rs ih =>
    rw [cancelRequest, carriedBy_cons r rs]
    cases hr : r.cancelled with
    | true => simp [Request.carries, hr, carriedBy_cons, ih]
    | false =>
      by_cases hp : r.source = p
      · simp [Request.carries, hr, hp, carriedBy_cons]
      · simp [Request.carries, hr, hp, carriedBy_cons, ih]

theorem cancelRequest_multishot {rs : List Request} (oneshot : ∀ r ∈ rs, r.multishot = false)
    (p : Ptr) : ∀ r ∈ cancelRequest p rs, r.multishot = false := by
  induction rs with
  | nil => exact oneshot
  | cons r rs ih =>
    obtain ⟨hr, hrs⟩ := List.forall_mem_cons.1 oneshot
    rw [cancelRequest]
    split
    · exact List.forall_mem_cons.2 ⟨hr, hrs⟩
    · exact List.forall_mem_cons.2 ⟨hr, ih hrs⟩

/-- Requests complete: each of the sources that were carried is still carried or has its completion,
not both. -/
theorem complete_spec {k k' : Kernel} {done : List (Nat × Reported × Bool)} {cs : List Completion}
    (h : k.complete done = some (k', cs)) (oneshot : ∀ r ∈ k.requests, r.multishot = false)
    (nodup : k.carried.Nodup) :
    k'.carried.Nodup ∧ (∀ r ∈ k'.requests, r.multishot = false) ∧
      (∀ p, p ∈ k.carried →
        p ∈ k'.carried ∨ ∃ e ∈ cs, e.cancelled = false ∧ e.data = some p) ∧
      (∀ p, p ∈ k'.carried → p ∈ k.carried) ∧
      ∀ e ∈ cs, e.cancelled = false → ∀ p, e.data = some p → p ∈ k.carried ∧ p ∉ k'.carried := by
  induction done generalizing k cs with
  | nil =>
    simp only [Kernel.complete, Option.some.injEq, Prod.mk.injEq] at h
    obtain ⟨rfl, rfl⟩ := h
    exact ⟨nodup, oneshot, fun p hp => .inl hp, fun p hp => hp, fun e he => by cases he⟩
  | cons d done ih =>
    obtain ⟨i, res, more⟩ := d
    simp only [Kernel.complete] at h
    split at h
    · cases h
    rename_i r hr
    split at h
    · obtain ⟨hi, rfl⟩ := List.getElem?_eq_some_iff.1 hr
      have hshot := oneshot _ (List.getElem_mem hi)
      rw [if_neg (by simp [hshot])] at h
      obtain ⟨⟨k1, cs1⟩, hrest, heq⟩ := Option.map_eq_some_iff.1 h
      obtain ⟨rfl, rfl⟩ := Prod.mk.inj heq
      have hperm := carriedBy_perm (List.getElem_cons_eraseIdx_perm hi)
      have hoff := hperm.nodup_iff.2 nodup
      have hmem : ∀ p, p ∈ k.carried ↔
          p ∈ carriedBy (k.requests[i] :: k.requests.eraseIdx i) := fun _ => hperm.mem_iff.symm
      rw [carriedBy_cons] at hoff hmem
      -- a request that was cancelled carried nothing
      cases hc : k.requests[i].cancelled with
      | true =>
        rw [hc, if_pos rfl] at hoff hmem
        obtain ⟨hn, hs, hkept, hsub, hcs⟩ := ih hrest
          (fun r hr => oneshot r (List.mem_of_mem_eraseIdx hr)) hoff
        refine ⟨hn, hs, ?_, fun p hp => (hmem p).2 (hsub p hp), ?_⟩
        · intro p hp
          refine (hkept p ((hmem p).1 hp)).imp_right ?_
          rintro ⟨e, he, hep⟩
          exact ⟨e, List.mem_cons_of_mem _ he, hep⟩
        · intro e he hlive p hep
          rcases List.mem_cons.1 he with rfl | he'
          · cases hlive
          · obtain ⟨hp, hp'⟩ := hcs e he' hlive p hep
            exact ⟨(hmem p).2 hp, hp'⟩
      | false =>
        rw [hc, if_neg Bool.false_ne_true] at hoff hmem
        obtain ⟨hnot, hoff'⟩ := List.nodup_cons.1 hoff
        obtain ⟨hn, hs, hkept, hsub, hcs⟩ := ih hrest
          (fun r hr => oneshot r (List.mem_of_mem_eraseIdx hr)) hoff'
        refine ⟨hn, hs, ?_, fun p hp => (hmem p).2 (List.mem_cons_of_mem _ (hsub p hp)), ?_⟩
        · intro p hp
          rcases List.mem_cons.1 ((hmem p).1 hp) with rfl | hp'
          · exact .inr ⟨_, List.mem_cons_self, rfl, rfl⟩
          · refine (hkept p hp').imp_right ?_
            rintro ⟨e, he, hep⟩
            exact ⟨e, List.mem_cons_of_mem _ he, hep⟩
        · intro e he hlive p hep
          rcases List.mem_cons.1 he with rfl | he'
          · obtain rfl := Option.some.inj hep
            exact ⟨(hmem _).2 List.mem_cons_self, fun hp => hnot (hsub _ hp)⟩
          · obtain ⟨hp, hp'⟩ := hcs e he' hlive p hep
            exact ⟨(hmem p).2 (List.mem_cons_of_mem _ hp), hp'⟩
    · cases h

/-! A batch of aio. -/

/-- The sources of a submitted batch leave the pending list, with their flags set. -/
theorem moveSubmitted_spec {ps rest : List Ptr} {q : State} (pendingQs : q.pendingQs = ps ++ rest)
    (nodup : (ps ++ rest).Nodup) (sources : ∀ p ∈ ps, (q.sources p).isSome = true) :
    ∃ q', moveSubmitted ps q = some q' ∧ q'.pendingQs = rest ∧ q'.kernel = q.kernel ∧
      q'.ee = q.ee ∧ q'.currentEvent = q.currentEvent ∧ q'.ctl = q.ctl ∧
      ∀ p, q'.sources p = if p ∈ ps then
          (q.sources p).map (fun src => { src with submitted := true, pending := false })
        else q.sources p := by
  induction ps generalizing q with
  | nil => exact ⟨q, rfl, pendingQs, rfl, rfl, rfl, rfl, fun p => by simp⟩
  | cons p ps ih =>
    obtain ⟨hnot, nodup'⟩ := List.nodup_cons.1 nodup
    obtain ⟨src, hsrc⟩ := Option.isSome_iff_exists.1 (sources p List.mem_cons_self)
    have hps : p ∉ ps := fun h => hnot (List.mem_append_left _ h)
    generalize hq1 :
      slistRunningInsertNoStats p { src with submitted := true } (slistRemove p q) = q1
    have hsources : q1.sources = Function.update q.sources p
        (some { src with submitted := true, pending := false }) := by
      rw [← hq1]
      rfl
    obtain ⟨q', hmove, hpending, hk, hee, hcur, hctl, hsrcs⟩ := ih (q := q1)
      (by
        rw [← hq1]
        change q.pendingQs.erase p = _
        rw [pendingQs, List.cons_append, List.erase_cons_head]) nodup'
      (by
        intro r hr
        have hne : r ≠ p := fun e => hps (e ▸ hr)
        rw [hsources, Function.update_of_ne hne]
        exact sources r (List.mem_cons_of_mem _ hr))
    refine ⟨q', ?_, hpending, hk.trans ?_, hee.trans ?_, hcur.trans ?_, hctl.trans ?_, ?_⟩
    · simp only [moveSubmitted, hsrc]
      rw [hq1]
      exact hmove
    · rw [← hq1]
      rfl
    · rw [← hq1]
      rfl
    · rw [← hq1]
      rfl
    · rw [← hq1]
      rfl
    · intro r
      rw [hsrcs r, hsources]
      by_cases hr : r = p
      · subst hr
        rw [if_neg hps, Function.update_self, if_pos List.mem_cons_self, hsrc]
        rfl
      · rw [Function.update_of_ne hr]
        simp [hr]

/-- The control blocks of a batch. -/
def State.controlBlocks (q : State) (ps : List Ptr) : List Request :=
  ps.filterMap (fun p => (q.sources p).map (fun src => src.request p false))

theorem mem_controlBlocks {q : State} {ps : List Ptr} {r : Request}
    (h : r ∈ q.controlBlocks ps) : r.multishot = false ∧ r.cancelled = false := by
  obtain ⟨p, -, hp⟩ := List.mem_filterMap.1 h
  obtain ⟨src, -, rfl⟩ := Option.map_eq_some_iff.1 hp
  exact ⟨rfl, rfl⟩

/-- The requests of a batch are for its sources. -/
theorem controlBlocks_sources {q : State} {ps : List Ptr}
    (sources : ∀ p ∈ ps, (q.sources p).isSome = true) :
    (q.controlBlocks ps).map (·.source) = ps := by
  induction ps with
  | nil => rfl
  | cons p ps ih =>
    obtain ⟨src, hsrc⟩ := Option.isSome_iff_exists.1 (sources p List.mem_cons_self)
    have hps := ih fun r hr => sources r (List.mem_cons_of_mem _ hr)
    unfold State.controlBlocks at hps ⊢
    rw [List.filterMap_cons]
    simp only [hsrc, Option.map_some, List.map_cons]
    rw [hps]
    rfl

/-- The requests of a batch carry its sources. -/
theorem carried_batch {q : State} {ps : List Ptr}
    (sources : ∀ p ∈ ps, (q.sources p).isSome = true) : carriedBy (q.controlBlocks ps) = ps := by
  unfold carriedBy
  rw [List.filter_eq_self.2 (fun r hr => by simp [(mem_controlBlocks hr).2])]
  exact controlBlocks_sources sources

/-- The pending source behind `p`. -/
theorem nextPending_eq {q : State} {p : Ptr} {ps rest : List Ptr}
    (pendingQs : q.pendingQs = ps ++ p :: rest) (nodup : q.pendingQs.Nodup) :
    q.nextPending p = rest.head? := by
  rw [pendingQs] at nodup
  unfold State.nextPending
  rw [pendingQs, SentinelList.behind_eq]
  exact fun hp => (List.nodup_append.1 nodup).2.2 p hp p List.mem_cons_self rfl

end Nebase.Evdp.Poll
