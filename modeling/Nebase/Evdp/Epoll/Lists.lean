/- The two lists of the queue: whatever the sources, the kernel and the callbacks do, every attached
   source is in the list its pending bit names. -/

import Nebase.Evdp.Epoll.Effects

set_option autoImplicit false
set_option relaxedAutoImplicit false

namespace Nebase.Evdp.Epoll

open Nebase.Foundation SentinelList

def State.Attached (q : State) (p : Ptr) : Prop :=
  ∃ src, q.sources p = some src ∧ src.qInUse = true

def State.Pending (q : State) (p : Ptr) : Prop :=
  ∃ src, q.sources p = some src ∧ src.qInUse = true ∧ src.pending = true

def State.Running (q : State) (p : Ptr) : Prop :=
  ∃ src, q.sources p = some src ∧ src.qInUse = true ∧ src.pending = false

def heads : Set Node := {.pendingQs, .runningQs}

/-- The two lists as the heads carry them. -/
def carried (P R : List Ptr) : Node → List Node
  | .pendingQs => P.map .source
  | .runningQs => R.map .source
  | .source _ => []

/-- The queue has the pending sources `P` and the running sources `R`. -/
structure Queued (q : State) (P R : List Ptr) : Prop where
  lists : Lists q.links heads (carried P R)
  pending : ∀ p, p ∈ P ↔ q.Pending p
  running : ∀ p, p ∈ R ↔ q.Running p

/-- How many sources a flush has moved without having counted them. -/
def Ctl.uncounted : Ctl → Nat
  | .flushing count => count
  | _ => 0

/-- The counters fit the lists. -/
def Balanced (q : State) (P R : List Ptr) : Prop :=
  q.statsPending = 1 + P.length + q.ctl.uncounted ∧
    q.statsRunning = 1 + R.length - q.ctl.uncounted

private theorem source_injective : Function.Injective Node.source := by
  intro p r h
  exact Node.source.inj h

private theorem carried_fresh {P R : List Ptr} {p : Ptr} (hP : p ∉ P) (hR : p ∉ R) :
    ∀ k ∈ heads, Node.source p ∉ k :: carried P R k := by
  rintro k (rfl | rfl) <;> simp [carried, hP, hR]

private theorem update_pending (P R P' : List Ptr) :
    Function.update (carried P R) .pendingQs (P'.map .source) = carried P' R := by
  funext k
  cases k <;> simp [carried]

private theorem update_running (P R R' : List Ptr) :
    Function.update (carried P R) .runningQs (R'.map .source) = carried P R' := by
  funext k
  cases k <;> simp [carried]

private theorem map_erase_source (P : List Ptr) (p : Ptr) :
    (P.map Node.source).erase (.source p) = (P.erase p).map .source :=
  (List.map_erase source_injective P).symm

/-- The lists are determined by the links. -/
theorem Queued.unique {q : State} {P R P' R' : List Ptr} (queued : Queued q P R)
    (queued' : Queued q P' R') : P = P' ∧ R = R' := by
  have same : ∀ h ∈ heads, carried P R h = carried P' R' h := fun h hh =>
    (queued.lists.segment h hh).unique (queued'.lists.segment h hh)
  exact ⟨source_injective.list_map (same .pendingQs (Or.inl rfl)),
    source_injective.list_map (same .runningQs (Or.inr rfl))⟩

section Links

variable {l : Links Node} {P R : List Ptr} {p : Ptr}

theorem lists_insert_pending (lists : Lists l heads (carried P R)) (hP : p ∉ P) (hR : p ∉ R) :
    Lists (insertAfter .pendingQs (.source p) l) heads (carried (p :: P) R) := by
  have h := lists.insertAfter (Or.inl rfl : Node.pendingQs ∈ heads) (carried_fresh hP hR)
  rwa [show Node.source p :: carried P R .pendingQs = (p :: P).map .source from rfl,
    update_pending] at h

theorem lists_insert_running (lists : Lists l heads (carried P R)) (hP : p ∉ P) (hR : p ∉ R) :
    Lists (insertAfter .runningQs (.source p) l) heads (carried P (p :: R)) := by
  have h := lists.insertAfter (Or.inr rfl : Node.runningQs ∈ heads) (carried_fresh hP hR)
  rwa [show Node.source p :: carried P R .runningQs = (p :: R).map .source from rfl,
    update_running] at h

theorem lists_remove_pending (lists : Lists l heads (carried P R)) (hP : p ∈ P) :
    Lists (remove (.source p) l) heads (carried (P.erase p) R) := by
  have h := lists.remove (Or.inl rfl : Node.pendingQs ∈ heads) (List.mem_map_of_mem hP)
  rwa [show carried P R .pendingQs = P.map .source from rfl, map_erase_source,
    update_pending] at h

theorem lists_remove_running (lists : Lists l heads (carried P R)) (hR : p ∈ R) :
    Lists (remove (.source p) l) heads (carried P (R.erase p)) := by
  have h := lists.remove (Or.inr rfl : Node.runningQs ∈ heads) (List.mem_map_of_mem hR)
  rwa [show carried P R .runningQs = R.map .source from rfl, map_erase_source,
    update_running] at h

end Links

section Queued

variable {q q' : State} {P R : List Ptr} {p : Ptr} {src src' : Source}

theorem Queued.nodup (queued : Queued q P R) : P.Nodup ∧ R.Nodup := by
  refine ⟨?_, ?_⟩
  · exact List.Nodup.of_map _
      (List.nodup_cons.mp (queued.lists.nodup .pendingQs (Or.inl rfl))).2
  · exact List.Nodup.of_map _
      (List.nodup_cons.mp (queued.lists.nodup .runningQs (Or.inr rfl))).2

theorem Queued.notMem_running (queued : Queued q P R) (hp : p ∈ P) : p ∉ R := by
  intro hr
  obtain ⟨src, hsrc, -, hpend⟩ := (queued.pending p).mp hp
  obtain ⟨src', hsrc', -, hrun⟩ := (queued.running p).mp hr
  rw [hsrc] at hsrc'
  obtain rfl := Option.some.inj hsrc'
  rw [hpend] at hrun
  cases hrun

theorem Queued.notMem_of_not_attached (queued : Queued q P R) (hp : ¬ q.Attached p) :
    p ∉ P ∧ p ∉ R := by
  refine ⟨?_, ?_⟩
  · rw [queued.pending]
    rintro ⟨src, hsrc, huse, -⟩
    exact hp ⟨src, hsrc, huse⟩
  · rw [queued.running]
    rintro ⟨src, hsrc, huse, -⟩
    exact hp ⟨src, hsrc, huse⟩

/-- The head of the pending list. -/
theorem Queued.head (queued : Queued q P R) :
    q.links.next .pendingQs = P.head?.map .source := by
  have h := queued.lists.next_eq (Or.inl rfl : Node.pendingQs ∈ heads)
  rw [h, show carried P R .pendingQs = P.map .source from rfl, List.head?_map]

/-- A change that leaves the links, the attachments and the pending bits alone. -/
theorem Queued.congr (queued : Queued q P R) (links : q'.links = q.links)
    (pending : ∀ r, q'.Pending r ↔ q.Pending r) (running : ∀ r, q'.Running r ↔ q.Running r) :
    Queued q' P R where
  lists := links ▸ queued.lists
  pending := fun r => (queued.pending r).trans (pending r).symm
  running := fun r => (queued.running r).trans (running r).symm

private theorem pending_update (sources : q'.sources = Function.update q.sources p (some src'))
    (r : Ptr) : q'.Pending r ↔
      if r = p then src'.qInUse = true ∧ src'.pending = true else q.Pending r := by
  unfold State.Pending
  rw [sources]
  by_cases hr : r = p
  · subst hr
    simp
  · simp [hr]

private theorem running_update (sources : q'.sources = Function.update q.sources p (some src'))
    (r : Ptr) : q'.Running r ↔
      if r = p then src'.qInUse = true ∧ src'.pending = false else q.Running r := by
  unfold State.Running
  rw [sources]
  by_cases hr : r = p
  · subst hr
    simp
  · simp [hr]

/-- One source is written, with its attachment and its pending bit as they were. -/
theorem Queued.setSource (queued : Queued q P R) (links : q'.links = q.links)
    (sources : q'.sources = Function.update q.sources p (some src'))
    (hsrc : q.sources p = some src) (qInUse : src'.qInUse = src.qInUse)
    (pending : src'.qInUse = true → src'.pending = src.pending) : Queued q' P R := by
  refine queued.congr links ?_ ?_
  · intro r
    rw [pending_update sources]
    split_ifs with hr
    · subst hr
      constructor
      · rintro ⟨huse, hpend⟩
        exact ⟨src, hsrc, qInUse ▸ huse, pending huse ▸ hpend⟩
      · rintro ⟨s, hs, huse, hpend⟩
        obtain rfl := Option.some.inj (hsrc.symm.trans hs)
        have huse' := qInUse.trans huse
        exact ⟨huse', (pending huse').trans hpend⟩
    · rfl
  · intro r
    rw [running_update sources]
    split_ifs with hr
    · subst hr
      constructor
      · rintro ⟨huse, hpend⟩
        exact ⟨src, hsrc, qInUse ▸ huse, pending huse ▸ hpend⟩
      · rintro ⟨s, hs, huse, hpend⟩
        obtain rfl := Option.some.inj (hsrc.symm.trans hs)
        have huse' := qInUse.trans huse
        exact ⟨huse', (pending huse').trans hpend⟩
    · rfl

/-- A source that is in neither list becomes attached and pending. -/
theorem Queued.insertPending (queued : Queued q P R) (hp : ¬ q.Attached p)
    (links : q'.links = insertAfter .pendingQs (.source p) q.links)
    (sources : q'.sources = Function.update q.sources p (some src'))
    (qInUse : src'.qInUse = true) (pending : src'.pending = true) : Queued q' (p :: P) R := by
  obtain ⟨hP, hR⟩ := queued.notMem_of_not_attached hp
  refine ⟨links ▸ lists_insert_pending queued.lists hP hR, ?_, ?_⟩
  · intro r
    rw [pending_update sources, List.mem_cons, queued.pending]
    split_ifs with hr
    · simp [hr, qInUse, pending]
    · simp [hr]
  · intro r
    rw [running_update sources]
    split_ifs with hr
    · subst hr
      simp [hR, pending]
    · exact queued.running r

/-- A source that is in neither list becomes attached and running. -/
theorem Queued.insertRunning (queued : Queued q P R) (hp : ¬ q.Attached p)
    (links : q'.links = insertAfter .runningQs (.source p) q.links)
    (sources : q'.sources = Function.update q.sources p (some src'))
    (qInUse : src'.qInUse = true) (pending : src'.pending = false) : Queued q' P (p :: R) := by
  obtain ⟨hP, hR⟩ := queued.notMem_of_not_attached hp
  refine ⟨links ▸ lists_insert_running queued.lists hP hR, ?_, ?_⟩
  · intro r
    rw [pending_update sources]
    split_ifs with hr
    · subst hr
      simp [hP, pending]
    · exact queued.pending r
  · intro r
    rw [running_update sources, List.mem_cons, queued.running]
    split_ifs with hr
    · simp [hr, qInUse, pending]
    · simp [hr]

/-- An attached source leaves its list and is detached: one of the lists is a node shorter. -/
theorem Queued.remove (queued : Queued q P R) (hsrc : q.sources p = some src)
    (huse : src.qInUse = true) (links : q'.links = SentinelList.remove (.source p) q.links)
    (sources : q'.sources = Function.update q.sources p (some src'))
    (qInUse : src'.qInUse = false) :
    ∃ P' R', Queued q' P' R' ∧ p ∉ P' ∧ p ∉ R' ∧
      (P'.length : Int) = P.length - (if src.pending then 1 else 0) ∧
      (R'.length : Int) = R.length - (if src.pending then 0 else 1) := by
  obtain ⟨hPn, hRn⟩ := queued.nodup
  cases hpend : src.pending with
  | true =>
    have hP : p ∈ P := (queued.pending p).mpr ⟨src, hsrc, huse, hpend⟩
    have hR := queued.notMem_running hP
    refine ⟨P.erase p, R, ⟨links ▸ lists_remove_pending queued.lists hP, ?_, ?_⟩,
      hPn.not_mem_erase, hR, ?_, by simp⟩
    · intro r
      rw [pending_update sources, hPn.mem_erase_iff, queued.pending]
      split_ifs with hr <;> simp [hr, qInUse]
    · intro r
      rw [running_update sources]
      split_ifs with hr
      · subst hr
        simp [hR, qInUse]
      · exact queued.running r
    · have := List.length_erase_of_mem hP
      have := List.length_pos_of_mem hP
      simp only [if_true]
      omega
  | false =>
    have hR : p ∈ R := (queued.running p).mpr ⟨src, hsrc, huse, hpend⟩
    have hP : p ∉ P := fun h => queued.notMem_running h hR
    refine ⟨P, R.erase p, ⟨links ▸ lists_remove_running queued.lists hR, ?_, ?_⟩,
      hP, hRn.not_mem_erase, by simp, ?_⟩
    · intro r
      rw [pending_update sources]
      split_ifs with hr
      · subst hr
        simp [hP, qInUse]
      · exact queued.pending r
    · intro r
      rw [running_update sources, hRn.mem_erase_iff, queued.running]
      split_ifs with hr <;> simp [hr, qInUse]
    · have := List.length_erase_of_mem hR
      have := List.length_pos_of_mem hR
      simp only [Bool.false_eq_true, if_false]
      omega

/-- The counters are off by as much as before. -/
def SameDrift (q : State) (P R : List Ptr) (q' : State) (P' R' : List Ptr) : Prop :=
  q'.statsPending - P'.length = q.statsPending - P.length ∧
    q'.statsRunning - R'.length = q.statsRunning - R.length

theorem Balanced.of_drift (balanced : Balanced q P R) {P' R' : List Ptr}
    (drift : SameDrift q P R q' P' R') (ctl : q'.ctl.uncounted = q.ctl.uncounted) :
    Balanced q' P' R' := by
  obtain ⟨hp, hr⟩ := balanced
  obtain ⟨dp, dr⟩ := drift
  unfold Balanced
  rw [ctl]
  omega

/-- An attached source is taken out of its list and put in again, pending. -/
theorem Queued.toPending (queued : Queued q P R) (hsrc : q.sources p = some src)
    (huse : src.qInUse = true)
    (links : q'.links =
      insertAfter .pendingQs (.source p) (SentinelList.remove (.source p) q.links))
    (sources : q'.sources = Function.update q.sources p (some src'))
    (qInUse : src'.qInUse = true) (pending : src'.pending = true) :
    ∃ P' R', Queued q' P' R' ∧
      (P'.length : Int) = P.length + (if src.pending then 0 else 1) ∧
      (R'.length : Int) = R.length - (if src.pending then 0 else 1) := by
  let q1 : State := { slistRemove p q with
    sources := Function.update q.sources p (some { src with qInUse := false }) }
  obtain ⟨P', R', queued1, -, -, hlenP, hlenR⟩ :=
    queued.remove hsrc huse (rfl : q1.links = _)
      (rfl : q1.sources = Function.update q.sources p (some { src with qInUse := false })) rfl
  have hnot : ¬ q1.Attached p := by
    rintro ⟨s, hs, hs'⟩
    obtain rfl : { src with qInUse := false } = s := by simpa [q1] using hs
    cases hs'
  have hsources : q'.sources = Function.update q1.sources p (some src') := by
    simp [sources, q1]
  refine ⟨p :: P', R', queued1.insertPending hnot links hsources qInUse pending, ?_, hlenR⟩
  rw [List.length_cons]
  push_cast
  rw [hlenP]
  split_ifs <;> omega

/-- A pending source is taken out of its list and put into the running list. -/
theorem Queued.toRunning (queued : Queued q P R) (hsrc : q.sources p = some src)
    (huse : src.qInUse = true) (hpend : src.pending = true)
    (links : q'.links =
      insertAfter .runningQs (.source p) (SentinelList.remove (.source p) q.links))
    (sources : q'.sources = Function.update q.sources p (some src'))
    (qInUse : src'.qInUse = true) (running : src'.pending = false) :
    ∃ P' R', Queued q' P' R' ∧ (P'.length : Int) = P.length - 1 ∧
      (R'.length : Int) = R.length + 1 := by
  let q1 : State := { slistRemove p q with
    sources := Function.update q.sources p (some { src with qInUse := false }) }
  obtain ⟨P', R', queued1, -, -, hlenP, hlenR⟩ :=
    queued.remove hsrc huse (rfl : q1.links = _)
      (rfl : q1.sources = Function.update q.sources p (some { src with qInUse := false })) rfl
  have hnot : ¬ q1.Attached p := by
    rintro ⟨s, hs, hs'⟩
    obtain rfl : { src with qInUse := false } = s := by simpa [q1] using hs
    cases hs'
  have hsources : q'.sources = Function.update q1.sources p (some src') := by
    simp [sources, q1]
  simp only [hpend, if_true] at hlenP hlenR
  refine ⟨P', p :: R', queued1.insertRunning hnot links hsources qInUse running, hlenP, ?_⟩
  rw [List.length_cons]
  push_cast
  omega

/-- A write to a source that is detached before and after, or is not there. -/
theorem Queued.setDetached (queued : Queued q P R) {o : Option Source}
    (links : q'.links = q.links) (sources : q'.sources = Function.update q.sources p o)
    (before : ¬ q.Attached p) (after : ∀ s, o = some s → s.qInUse = false) : Queued q' P R := by
  have other : ∀ r, r ≠ p → q'.sources r = q.sources r := by
    intro r hr
    rw [sources, Function.update_of_ne hr]
  have notAfter : ∀ s, q'.sources p = some s → s.qInUse = true → False := by
    intro s hs huse
    rw [sources, Function.update_self] at hs
    rw [after s hs] at huse
    cases huse
  refine queued.congr links ?_ ?_
  · intro r
    by_cases hr : r = p
    · subst hr
      constructor
      · rintro ⟨s, hs, huse, -⟩
        exact (notAfter s hs huse).elim
      · rintro ⟨s, hs, huse, -⟩
        exact absurd ⟨s, hs, huse⟩ before
    · unfold State.Pending
      rw [other r hr]
  · intro r
    by_cases hr : r = p
    · subst hr
      constructor
      · rintro ⟨s, hs, huse, -⟩
        exact (notAfter s hs huse).elim
      · rintro ⟨s, hs, huse, -⟩
        exact absurd ⟨s, hs, huse⟩ before
    · unfold State.Running
      rw [other r hr]

end Queued

end Nebase.Evdp.Epoll
