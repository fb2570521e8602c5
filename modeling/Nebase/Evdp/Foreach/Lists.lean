/- The lists of the queue with the iteration's cursor in the running list: what every step does to
   them, whatever the callbacks do. -/

import Nebase.Evdp.Epoll.Lists
import Nebase.Evdp.Foreach.Steps

set_option autoImplicit false
set_option relaxedAutoImplicit false

namespace Nebase.Evdp.Foreach

open Nebase.Foundation SentinelList Nebase.Evdp.Epoll

/-- The head of the list that a pending bit names. -/
def headOf (pending : Bool) : Node := if pending then .pendingQs else .runningQs

/-- What a step of the base does to the lists. -/
inductive Moves (q q' : State) : Prop
  | still (links : q'.links = q.links) (pending : ∀ r, q'.Pending r ↔ q.Pending r)
      (running : ∀ r, q'.Running r ↔ q.Running r)
  | join {p : Ptr} {src' : Source} (before : ¬ q.Attached p)
      (links : q'.links = insertAfter (headOf src'.pending) (.source p) q.links)
      (sources : q'.sources = Function.update q.sources p (some src'))
      (attached : src'.qInUse = true) (known : (q.sources p).isSome = true)
  | leave {p : Ptr} {src' : Source} (links : q'.links = remove (.source p) q.links)
      (sources : q'.sources = Function.update q.sources p (some src'))
      (unattached : src'.qInUse = false) (known : (q.sources p).isSome = true)
  | shift {p : Ptr} {src src' : Source} (hsrc : q.sources p = some src)
      (before : src.qInUse = true)
      (links : q'.links =
        insertAfter (headOf src'.pending) (.source p) (remove (.source p) q.links))
      (sources : q'.sources = Function.update q.sources p (some src'))
      (attached : src'.qInUse = true) (fromPending : src'.pending = false → src.pending = true)

/-- The lists `P` and `R` of the queue, the latter with the cursor `c` if there is one. -/
structure Threaded (q : State) (c : Option Ptr) (P R : List Ptr) : Prop where
  lists : Lists q.links heads (carried P R)
  loose : ∀ p, p ∉ P → p ∉ R → Loose q.links (.source p)
  pending : ∀ p, p ∈ P ↔ q.Pending p
  running : ∀ p, p ∈ R ↔ q.Running p ∨ c = some p
  free : ∀ f, c = some f → q.sources f = none

section Attached

variable {q q' : State} {p : Ptr} {o : Option Source}

theorem attached_cases (p : Ptr) : q.Attached p ↔ q.Pending p ∨ q.Running p := by
  constructor
  · rintro ⟨src, hsrc, huse⟩
    cases hpend : src.pending with
    | true => exact Or.inl ⟨src, hsrc, huse, hpend⟩
    | false => exact Or.inr ⟨src, hsrc, huse, hpend⟩
  · rintro (⟨src, hsrc, huse, -⟩ | ⟨src, hsrc, huse, -⟩)
    · exact ⟨src, hsrc, huse⟩
    · exact ⟨src, hsrc, huse⟩

theorem not_both (hpending : q.Pending p) (hrunning : q.Running p) : False := by
  obtain ⟨src, hsrc, -, htrue⟩ := hpending
  obtain ⟨src', hsrc', -, hfalse⟩ := hrunning
  obtain rfl := Option.some.inj (hsrc.symm.trans hsrc')
  rw [htrue] at hfalse
  cases hfalse

theorem pending_update (sources : q'.sources = Function.update q.sources p o) (r : Ptr) :
    q'.Pending r ↔ if r = p then ∃ s, o = some s ∧ s.qInUse = true ∧ s.pending = true
      else q.Pending r := by
  unfold State.Pending
  rw [sources]
  by_cases hr : r = p
  · subst hr
    simp
  · simp [hr]

theorem running_update (sources : q'.sources = Function.update q.sources p o) (r : Ptr) :
    q'.Running r ↔ if r = p then ∃ s, o = some s ∧ s.qInUse = true ∧ s.pending = false
      else q.Running r := by
  unfold State.Running
  rw [sources]
  by_cases hr : r = p
  · subst hr
    simp
  · simp [hr]

/-- A write that keeps the attachment and the pending bit of its source. -/
theorem Moves.write {src src' : Source} (links : q'.links = q.links)
    (sources : q'.sources = Function.update q.sources p (some src'))
    (hsrc : q.sources p = some src) (qInUse : src'.qInUse = src.qInUse)
    (pending : src'.qInUse = true → src'.pending = src.pending) : Moves q q' := by
  have keep : ∀ b, (∃ s, some src' = some s ∧ s.qInUse = true ∧ s.pending = b) ↔
      ∃ s, q.sources p = some s ∧ s.qInUse = true ∧ s.pending = b := by
    intro b
    rw [hsrc]
    simp only [Option.some.injEq, exists_eq_left', qInUse]
    constructor
    · rintro ⟨huse, hpend⟩
      exact ⟨huse, (pending (qInUse.trans huse)).symm.trans hpend⟩
    · rintro ⟨huse, hpend⟩
      exact ⟨huse, (pending (qInUse.trans huse)).trans hpend⟩
  refine .still links ?_ ?_
  · intro r
    rw [pending_update sources]
    split_ifs with hr
    · subst hr
      exact keep true
    · rfl
  · intro r
    rw [running_update sources]
    split_ifs with hr
    · subst hr
      exact keep false
    · rfl

/-- A write to a source that is not attached before or after it. -/
theorem detached_write (sources : q'.sources = Function.update q.sources p o)
    (before : ¬ q.Attached p) (after : ∀ s, o = some s → s.qInUse = false) :
    (∀ r, q'.Pending r ↔ q.Pending r) ∧ ∀ r, q'.Running r ↔ q.Running r := by
  have none' : ∀ b, ¬ ∃ s, o = some s ∧ s.qInUse = true ∧ s.pending = b := by
    rintro b ⟨s, hs, huse, -⟩
    rw [after s hs] at huse
    cases huse
  rw [attached_cases, not_or] at before
  constructor
  · intro r
    rw [pending_update sources]
    split_ifs with hr
    · subst hr
      exact iff_of_false (none' true) before.1
    · rfl
  · intro r
    rw [running_update sources]
    split_ifs with hr
    · subst hr
      exact iff_of_false (none' false) before.2
    · rfl

theorem Moves.writeDetached (links : q'.links = q.links)
    (sources : q'.sources = Function.update q.sources p o) (before : ¬ q.Attached p)
    (after : ∀ s, o = some s → s.qInUse = false) : Moves q q' := by
  obtain ⟨pending, running⟩ := detached_write sources before after
  exact .still links pending running

theorem Moves.same (links : q'.links = q.links) (sources : q'.sources = q.sources) :
    Moves q q' := by
  refine .still links ?_ ?_
  · intro r
    unfold State.Pending
    rw [sources]
  · intro r
    unfold State.Running
    rw [sources]

end Attached

section Threaded

variable {q q' : State} {c : Option Ptr} {P R : List Ptr} {p : Ptr}

theorem Threaded.nodup (threaded : Threaded q c P R) : P.Nodup ∧ R.Nodup := by
  refine ⟨?_, ?_⟩
  · exact List.Nodup.of_map _ (List.nodup_cons.mp (threaded.lists.nodup .pendingQs (Or.inl rfl))).2
  · exact List.Nodup.of_map _ (List.nodup_cons.mp (threaded.lists.nodup .runningQs (Or.inr rfl))).2

theorem Threaded.not_cursor (threaded : Threaded q c P R) (known : (q.sources p).isSome = true) :
    c ≠ some p := by
  intro hc
  rw [threaded.free p hc] at known
  cases known

theorem Threaded.disjoint (threaded : Threaded q c P R) (hp : p ∈ P) : p ∉ R := by
  intro hr
  rcases (threaded.running p).mp hr with hrun | hc
  · exact not_both ((threaded.pending p).mp hp) hrun
  · obtain ⟨src, hsrc, -⟩ := (threaded.pending p).mp hp
    exact threaded.not_cursor (by rw [hsrc]; rfl) hc

theorem Threaded.unattached (threaded : Threaded q c P R) (known : (q.sources p).isSome = true)
    (hp : ¬ q.Attached p) : p ∉ P ∧ p ∉ R := by
  rw [attached_cases, not_or] at hp
  refine ⟨fun h => hp.1 ((threaded.pending p).mp h), fun h => ?_⟩
  rcases (threaded.running p).mp h with hrun | hc
  · exact hp.2 hrun
  · exact threaded.not_cursor known hc

private theorem source_notMem {P R : List Ptr} (hP : p ∉ P) (hR : p ∉ R) :
    Node.source p ∉ Node.pendingQs :: carried P R .pendingQs ∧
      Node.source p ∉ Node.runningQs :: carried P R .runningQs := by
  simp [carried, hP, hR]

/-- The first node of the pending list is an attached source with its pending bit set. -/
theorem Threaded.head (threaded : Threaded q c P R) {n : Node}
    (head : q.links.next .pendingQs = some n) :
    ∃ p src, n = .source p ∧ q.sources p = some src ∧ src.qInUse = true ∧ src.pending = true := by
  rw [threaded.lists.next_eq (Or.inl rfl : Node.pendingQs ∈ heads),
    show carried P R .pendingQs = P.map .source from rfl, List.head?_map,
    Option.map_eq_some_iff] at head
  obtain ⟨p, hp, rfl⟩ := head
  obtain ⟨src, hsrc, huse, hpend⟩ := (threaded.pending p).mp (List.mem_of_mem_head? hp)
  exact ⟨p, src, rfl, hsrc, huse, hpend⟩

/-- The links after the insertion of a loose source at the head of a list. -/
private theorem insert_links {l : Links Node} {P R : List Ptr} (b : Bool)
    (lists : Lists l heads (carried P R)) (loose : ∀ r, r ∉ P → r ∉ R → Loose l (.source r))
    (hP : p ∉ P) (hR : p ∉ R) :
    Lists (insertAfter (headOf b) (.source p) l) heads
        (carried (if b then p :: P else P) (if b then R else p :: R)) ∧
      ∀ r, r ≠ p → r ∉ P → r ∉ R →
        Loose (insertAfter (headOf b) (.source p) l) (.source r) := by
  have hhead : headOf b ∈ heads := by
    cases b with
    | true => exact Or.inl rfl
    | false => exact Or.inr rfl
  refine ⟨?_, ?_⟩
  · cases b with
    | true => exact lists_insert_pending lists hP hR
    | false => exact lists_insert_running lists hP hR
  · intro r hr hrP hrR
    refine (loose r hrP hrR).insertAfter lists hhead List.mem_cons_self ?_ ?_ ?_
    · cases b <;> simp [headOf]
    · simpa using hr
    · obtain ⟨h1, h2⟩ := source_notMem hrP hrR
      cases b with
      | true => exact h1
      | false => exact h2

/-- The links after the removal of a source, wherever it was. -/
private theorem remove_links {l : Links Node} {P R : List Ptr}
    (lists : Lists l heads (carried P R)) (loose : ∀ r, r ∉ P → r ∉ R → Loose l (.source r))
    (hPn : P.Nodup) (hRn : R.Nodup) (disjoint : p ∈ P → p ∉ R) :
    Lists (remove (.source p) l) heads
        (carried (P.filter (· ≠ p)) (R.filter (· ≠ p))) ∧
      ∀ r, r ∉ P.filter (· ≠ p) → r ∉ R.filter (· ≠ p) →
        Loose (remove (.source p) l) (.source r) := by
  have hP : P.filter (· ≠ p) = P.erase p := by
    rw [hPn.erase_eq_filter]
    exact List.filter_congr (fun x _ => by simp [bne, beq_eq_decide])
  have hR : R.filter (· ≠ p) = R.erase p := by
    rw [hRn.erase_eq_filter]
    exact List.filter_congr (fun x _ => by simp [bne, beq_eq_decide])
  rw [hP, hR]
  by_cases hpP : p ∈ P
  · have hpR := disjoint hpP
    rw [List.erase_of_not_mem hpR]
    refine ⟨lists_remove_pending lists hpP, ?_⟩
    intro r hrP hrR
    refine Loose.remove lists (Or.inl rfl : Node.pendingQs ∈ heads) (List.mem_map_of_mem hpP) ?_
    by_cases hr : r = p
    · exact Or.inl (by rw [hr])
    · rw [List.mem_erase_of_ne hr] at hrP
      exact Or.inr ⟨(source_notMem hrP hrR).1, loose r hrP hrR⟩
  · rw [List.erase_of_not_mem hpP]
    by_cases hpR : p ∈ R
    · refine ⟨lists_remove_running lists hpR, ?_⟩
      intro r hrP hrR
      refine Loose.remove lists (Or.inr rfl : Node.runningQs ∈ heads) (List.mem_map_of_mem hpR) ?_
      by_cases hr : r = p
      · exact Or.inl (by rw [hr])
      · rw [List.mem_erase_of_ne hr] at hrR
        exact Or.inr ⟨(source_notMem hrP hrR).2, loose r hrP hrR⟩
    · rw [List.erase_of_not_mem hpR, (loose p hpP hpR).remove_eq]
      exact ⟨lists, loose⟩

/-- A change that leaves the links and the attachments alone. -/
theorem Threaded.congr (threaded : Threaded q c P R) (links : q'.links = q.links)
    (pending : ∀ r, q'.Pending r ↔ q.Pending r) (running : ∀ r, q'.Running r ↔ q.Running r)
    (free : ∀ f, c = some f → q'.sources f = none) : Threaded q' c P R :=
  ⟨links ▸ threaded.lists, links ▸ threaded.loose,
    fun r => (threaded.pending r).trans (pending r).symm,
    fun r => (threaded.running r).trans (or_congr_left (running r).symm), free⟩

/-- A source that is in neither list is attached. -/
theorem Threaded.join (threaded : Threaded q c P R) {src' : Source} (before : ¬ q.Attached p)
    (links : q'.links = insertAfter (headOf src'.pending) (.source p) q.links)
    (sources : q'.sources = Function.update q.sources p (some src'))
    (attached : src'.qInUse = true) (known : (q.sources p).isSome = true) :
    Threaded q' c (if src'.pending then p :: P else P) (if src'.pending then R else p :: R) := by
  obtain ⟨hP, hR⟩ := threaded.unattached known before
  obtain ⟨lists, loose⟩ := insert_links src'.pending threaded.lists threaded.loose hP hR
  have hc := threaded.not_cursor known
  refine ⟨links ▸ lists, ?_, ?_, ?_, ?_⟩
  · intro r hrP hrR
    rw [links]
    refine loose r ?_ ?_ ?_
    · rintro rfl
      cases hb : src'.pending <;> simp [hb] at hrP hrR
    · cases hb : src'.pending <;> simp_all
    · cases hb : src'.pending <;> simp_all
  · intro r
    rw [pending_update sources]
    have := threaded.pending r
    cases hb : src'.pending <;> by_cases hr : r = p <;> simp_all
  · intro r
    rw [running_update sources]
    have := threaded.running r
    cases hb : src'.pending <;> by_cases hr : r = p <;> simp_all
  · intro f hf
    rw [sources, Function.update_of_ne (fun e : f = p => hc (e ▸ hf))]
    exact threaded.free f hf

/-- A source leaves its list, if it is in one, and is detached. -/
theorem Threaded.leave (threaded : Threaded q c P R) {src' : Source}
    (links : q'.links = remove (.source p) q.links)
    (sources : q'.sources = Function.update q.sources p (some src'))
    (unattached : src'.qInUse = false) (known : (q.sources p).isSome = true) :
    Threaded q' c (P.filter (· ≠ p)) (R.filter (· ≠ p)) := by
  obtain ⟨hPn, hRn⟩ := threaded.nodup
  obtain ⟨lists, loose⟩ := remove_links (p := p) threaded.lists threaded.loose hPn hRn
    threaded.disjoint
  have hc := threaded.not_cursor known
  refine ⟨links ▸ lists, links ▸ loose, ?_, ?_, ?_⟩
  · intro r
    rw [pending_update sources, List.mem_filter, threaded.pending]
    by_cases hr : r = p <;> simp [hr, unattached]
  · intro r
    rw [running_update sources, List.mem_filter, threaded.running]
    by_cases hr : r = p
    · subst hr
      simp [unattached, hc]
    · simp [hr]
  · intro f hf
    rw [sources, Function.update_of_ne (fun e : f = p => hc (e ▸ hf))]
    exact threaded.free f hf

private theorem filter_singleton (R : List Ptr) (p : Ptr) :
    R.filter (· ∉ [p]) = R.filter (· ≠ p) :=
  List.filter_congr (fun x _ => by simp)

/-- The lists after a step of the base: the running list has lost the sources `gone`, which no
longer run, and has new sources at its head only. -/
theorem Threaded.moves (threaded : Threaded q c P R) (moves : Moves q q')
    (free : ∀ f, c = some f → q'.sources f = none) :
    ∃ (P' new gone : List Ptr), Threaded q' c P' (new ++ R.filter (· ∉ gone)) ∧
      ∀ p ∈ gone, ¬ q'.Running p ∧ c ≠ some p := by
  have hsame : R.filter (· ∉ ([] : List Ptr)) = R := by simp
  cases moves with
  | still links pending running =>
    refine ⟨P, [], [], ?_, by simp⟩
    rw [hsame, List.nil_append]
    exact threaded.congr links pending running free
  | @join p src' before links sources attached known =>
    have threaded' := threaded.join before links sources attached known
    cases hb : src'.pending with
    | true =>
      refine ⟨p :: P, [], [], ?_, by simp⟩
      simpa only [hb, if_true, hsame, List.nil_append] using threaded'
    | false =>
      refine ⟨P, [p], [], ?_, by simp⟩
      simpa only [hb, Bool.false_eq_true, if_false, hsame, List.cons_append, List.nil_append]
        using threaded'
  | @leave p src' links sources unattached known =>
    refine ⟨P.filter (· ≠ p), [], [p], ?_, ?_⟩
    · rw [filter_singleton, List.nil_append]
      exact threaded.leave links sources unattached known
    · simp only [List.mem_singleton, forall_eq]
      refine ⟨?_, threaded.not_cursor known⟩
      rw [running_update sources, if_pos rfl]
      simp [unattached]
  | @shift p src src' hsrc before links sources attached fromPending =>
    let q1 : State := { q with
      links := remove (.source p) q.links
      sources := Function.update q.sources p (some { src with qInUse := false }) }
    have threaded1 : Threaded q1 c (P.filter (· ≠ p)) (R.filter (· ≠ p)) :=
      threaded.leave rfl rfl rfl (by rw [hsrc]; rfl)
    have hnot : ¬ q1.Attached p := by
      rintro ⟨s, hs, huse⟩
      obtain rfl : { src with qInUse := false } = s := by simpa [q1] using hs
      cases huse
    have threaded' := threaded1.join hnot links
      (show q'.sources = Function.update q1.sources p (some src') by simp [sources, q1]) attached
      (by simp [q1])
    cases hb : src'.pending with
    | true =>
      refine ⟨p :: P.filter (· ≠ p), [], [p], ?_, ?_⟩
      · rw [filter_singleton]
        simpa only [hb, if_true, List.nil_append] using threaded'
      · simp only [List.mem_singleton, forall_eq]
        refine ⟨?_, threaded.not_cursor (by rw [hsrc]; rfl)⟩
        rw [running_update sources, if_pos rfl]
        simp [hb]
    | false =>
      have hp : p ∈ P := (threaded.pending p).mpr ⟨src, hsrc, before, fromPending hb⟩
      have hR : R.filter (· ≠ p) = R := by
        refine List.filter_eq_self.mpr ?_
        intro x hx
        simpa using fun e : x = p => threaded.disjoint hp (e ▸ hx)
      refine ⟨P.filter (· ≠ p), [p], [], ?_, by simp⟩
      simpa only [hb, Bool.false_eq_true, if_false, hsame, List.cons_append, List.nil_append, hR]
        using threaded'

/-- Every step of the base moves at most one source. -/
theorem Threaded.step_moves (threaded : Threaded q c P R) {a : Epoll.Action}
    (h : Epoll.StepCases q a q') : Moves q q' := by
  have detach : ∀ {p : Ptr} {src : Source} {toClose : Bool} {q1 : State},
      Detached p src toClose q q1 → (q.sources p).isSome = true → q'.links = q1.links →
      q'.sources = q1.sources → Moves q q' := by
    intro p src toClose q1 det known links sources
    obtain ⟨src', hsources, huse, -⟩ := det.sources
    exact .leave (links.trans det.links) (sources.trans hsources) huse known
  have not_attached : ∀ {p : Ptr} {src : Source}, q.sources p = some src → src.qInUse = false →
      ¬ q.Attached p := by
    rintro p src hsrc unattached ⟨s, hs, huse⟩
    obtain rfl := Option.some.inj (hsrc.symm.trans hs)
    rw [unattached] at huse
    cases huse
  cases h with
  | opened turn => exact .same rfl rfl
  | closed turn => exact .same rfl rfl
  | @created p type fd turn free k reg requests isOpen =>
    refine .writeDetached rfl rfl ?_ ?_
    · rintro ⟨s, hs, -⟩
      rw [free] at hs
      cases hs
    · rintro _ ⟨⟩
      rfl
  | refused turn => exact .same rfl rfl
  | @freed p src turn hsrc unattached =>
    have after : ∀ s, (none : Option Source) = some s → s.qInUse = false := by simp
    by_cases htimer : src.type.isTimer = true
    · simp only [if_pos htimer]
      exact .writeDetached rfl rfl (not_attached hsrc unattached) after
    · simp only [if_neg htimer]
      exact .writeDetached rfl rfl (not_attached hsrc unattached) after
  | refitted turn hsrc unattached =>
    refine .writeDetached rfl rfl (not_attached hsrc unattached) ?_
    rintro _ ⟨⟩
    exact unattached
  | @next d p src hd room q1 turn hsrc osFd cases =>
    cases cases with
    | quiet src' kept pending added ctlOp interest =>
      exact .write rfl rfl hsrc kept.qInUse (fun _ => pending)
    | toPending src' kept added ctlOp attached idle outside running set =>
      exact .shift hsrc attached rfl rfl (kept.qInUse.trans attached) (by simp)
    | toRunning src' kept added ctlOp attached idle pending bare =>
      exact .shift hsrc attached rfl rfl (kept.qInUse.trans attached) (fun _ => pending)
    | ctl attached added set new =>
      have kept : Kept src _ := ((Kept.setHandler src d hd).trans (.setInterest _ d true)).trans
        (.doCtl p _ room q.kernel)
      refine .write rfl rfl hsrc kept.qInUse (fun _ => ?_)
      rw [doCtlOsFd_pending]
      exact (setHandler_events src d hd).2.1
    | del attached added unset last bare =>
      have kept : Kept src _ := ((Kept.setHandler src d hd).trans (.setInterest _ d false)).trans
        (.doDel p _ q.kernel)
      refine .write rfl rfl hsrc kept.qInUse (fun _ => ?_)
      rw [doDelOsFd_pending]
      exact (setHandler_events src d hd).2.1
  | joinedPending turn hsrc unattached src' joined osFd =>
    exact .join (not_attached hsrc unattached) rfl rfl joined.qInUse (by rw [hsrc]; rfl)
  | joinedRunning turn hsrc unattached src' joined osFd bare =>
    exact .join (not_attached hsrc unattached) rfl rfl joined.qInUse (by rw [hsrc]; rfl)
  | @detached p src toClose turn hsrc attached free =>
    exact detach (Epoll.detached p src toClose q) (by rw [hsrc]; rfl) rfl rfl
  | started ctl => exact .same rfl rfl
  | flushEnd ctl empty => exact .same rfl rfl
  | flushed ctl head hsrc ok =>
    obtain ⟨p', src0, heq, hsrc', huse, hpend⟩ := threaded.head head
    obtain rfl := Node.source.inj heq
    obtain rfl := Option.some.inj (hsrc.symm.trans hsrc')
    exact .shift hsrc huse rfl rfl huse (fun _ => hpend)
  | flushFailed ctl head hsrc failed => exact .same rfl rfl
  | flushLost ctl head lost => exact .same rfl rfl
  | waited ctl nodup events => exact .same rfl rfl
  | waitFailed ctl => exact .same rfl rfl
  | batchEnd ctl beyond currentEvent => exact .same rfl rfl
  | skipped ctl entry cleared => exact .same rfl rfl
  | lost ctl entry data free => exact .same rfl rfl
  | @fetched i ok e d src ctl entry data hsrc =>
    refine .write rfl rfl hsrc ?_ ?_
    · split_ifs <;> rfl
    · intro _
      split_ifs <;> rfl
  | vanished event free => exact .same rfl rfl
  | otherHandled ctl hsrc other event => exact .same rfl rfl
  | osFdSkipped ctl hsrc osFd => exact .same rfl rfl
  | osFdCalled ctl hsrc osFd src' entered notLast =>
    exact .write rfl rfl hsrc entered.qInUse (fun _ => entered.pending)
  | osFdRequeued ctl hsrc osFd rest attached =>
    exact .shift hsrc attached rfl rfl attached (by simp)
  | osFdLost ctl hsrc unattached => exact .same rfl rfl
  | osFdDone ctl hsrc osFd bare => exact .same rfl rfl
  | returned ctl hsrc src' entered =>
    exact .write rfl rfl hsrc entered.qInUse (fun _ => entered.pending)
  | @finishedDetach ok ne ret src ctl hsrc toClose hret =>
    exact detach (Epoll.detached ne.source { src with noDetach := false } toClose q)
      (by rw [hsrc]; rfl) rfl rfl
  | finished ctl hsrc hctl' => exact .write rfl rfl hsrc rfl (fun _ => rfl)
  | resumed ctl => exact .same rfl rfl

private theorem free_notMem {f : Ptr} (threaded : Threaded q none P R)
    (free : q.sources f = none) : f ∉ P ∧ f ∉ R := by
  rw [threaded.pending, threaded.running]
  refine ⟨?_, ?_⟩
  · rintro ⟨s, hs, -⟩
    rw [free] at hs
    cases hs
  · rintro (⟨s, hs, -⟩ | hc)
    · rw [free] at hs
      cases hs
    · cases hc

/-- The cursor enters the running list at its head. -/
theorem Threaded.thread {f : Ptr} (threaded : Threaded q none P R) (free : q.sources f = none) :
    Threaded { q with links := insertAfter .runningQs (.source f) q.links } (some f) P
      (f :: R) := by
  obtain ⟨hP, hR⟩ := free_notMem threaded free
  obtain ⟨lists, loose⟩ := insert_links false threaded.lists threaded.loose hP hR
  refine ⟨lists, ?_, threaded.pending, ?_, ?_⟩
  · intro r hrP hrR
    simp only [List.mem_cons, not_or] at hrR
    exact loose r hrR.1 hrP hrR.2
  · intro r
    have hr := threaded.running r
    simp only [reduceCtorEq, or_false] at hr
    simp only [List.mem_cons, Option.some.injEq, hr, eq_comm (a := f)]
    exact or_comm
  · rintro _ ⟨⟩
    exact free

/-- The cursor enters the running list after a source. -/
theorem Threaded.threadAfter {f i : Ptr} {A C : List Ptr}
    (threaded : Threaded q none P (A ++ i :: C)) (free : q.sources f = none) :
    Threaded { q with links := insertAfter (.source i) (.source f) q.links } (some f) P
      (A ++ i :: f :: C) := by
  obtain ⟨hP, hR⟩ := free_notMem threaded free
  have hne : i ≠ f := by
    rintro rfl
    exact hR (by simp)
  have hL : carried P (A ++ i :: C) .runningQs =
      A.map .source ++ Node.source i :: C.map .source := by simp [carried]
  have hi : Node.source i ∈ Node.runningQs :: carried P (A ++ i :: C) .runningQs := by
    rw [hL]
    simp
  have hnew : ∀ k ∈ heads, Node.source f ∉ k :: carried P (A ++ i :: C) k := by
    obtain ⟨h1, h2⟩ := source_notMem hP hR
    rintro k (rfl | rfl)
    · exact h1
    · exact h2
  refine ⟨?_, ?_, threaded.pending, ?_, ?_⟩
  · have lists := threaded.lists.insertInside (Or.inr rfl : Node.runningQs ∈ heads) hL hnew
    have hcarried : Function.update (carried P (A ++ i :: C)) .runningQs
        (A.map .source ++ Node.source i :: Node.source f :: C.map .source) =
        carried P (A ++ i :: f :: C) := by
      funext k
      cases k <;> simp [carried]
    rwa [hcarried] at lists
  · intro r hrP hrR
    have hrf : r ≠ f := by
      rintro rfl
      exact hrR (by simp)
    have hrR' : r ∉ A ++ i :: C := by
      simp only [List.mem_append, List.mem_cons, not_or] at hrR ⊢
      exact ⟨hrR.1, hrR.2.1, hrR.2.2.2⟩
    exact (threaded.loose r hrP hrR').insertAfter threaded.lists
      (Or.inr rfl : Node.runningQs ∈ heads) hi (by simpa using hne) (by simpa using hrf)
      (source_notMem hrP hrR').2
  · intro r
    have hr := threaded.running r
    simp only [List.mem_append, List.mem_cons, reduceCtorEq, or_false, Option.some.injEq] at hr ⊢
    unfold State.Running at hr ⊢
    rw [← hr, eq_comm (a := f)]
    tauto
  · rintro _ ⟨⟩
    exact free

/-- The cursor leaves the running list. -/
theorem Threaded.unthread {f : Ptr} (threaded : Threaded q (some f) P R) :
    Threaded (slistRemove f q) none P (R.filter (· ≠ f)) := by
  obtain ⟨hPn, hRn⟩ := threaded.nodup
  have free := threaded.free f rfl
  have hP : f ∉ P := by
    rw [threaded.pending]
    rintro ⟨s, hs, -⟩
    rw [free] at hs
    cases hs
  have hfilter : P.filter (· ≠ f) = P := by
    refine List.filter_eq_self.mpr ?_
    intro x hx
    simpa using fun e : x = f => hP (e ▸ hx)
  obtain ⟨lists, loose⟩ := remove_links (p := f) threaded.lists threaded.loose hPn hRn
    threaded.disjoint
  rw [hfilter] at lists loose
  refine ⟨lists, loose, threaded.pending, ?_, by simp⟩
  intro r
  rw [List.mem_filter, threaded.running]
  have hrun : (slistRemove f q).Running r ↔ q.Running r := Iff.rfl
  rw [hrun]
  by_cases hr : r = f
  · subst hr
    simp only [ne_eq, not_true_eq_false, decide_false, Bool.false_eq_true, and_false, reduceCtorEq,
      or_false, false_iff]
    rintro ⟨s, hs, -⟩
    rw [free] at hs
    cases hs
  · simp [hr, Ne.symm hr]

end Threaded

/-- An address that is not in use stays so until a source is made there. -/
theorem step_free {q q' : State} {a : Epoll.Action} {f : Ptr} (h : Epoll.StepCases q a q')
    (hf : q.sources f = none) (other : ∀ type fd, a ≠ .newSource f type fd) :
    q'.sources f = none := by
  have update : ∀ {p : Ptr} {src : Source} {o : Option Source}, q.sources p = some src →
      Function.update q.sources p o f = none := by
    intro p src o hsrc
    rw [Function.update_of_ne, hf]
    rintro rfl
    rw [hf] at hsrc
    cases hsrc
  have detach : ∀ {p : Ptr} {src src0 : Source} {toClose : Bool} {q1 : State},
      Detached p src toClose q q1 → q.sources p = some src0 → q1.sources f = none := by
    intro p src src0 toClose q1 det hsrc
    obtain ⟨src', hsources, -⟩ := det.sources
    rw [hsources]
    exact update hsrc
  cases h with
  | opened turn => exact hf
  | closed turn => exact hf
  | @created p type fd turn free k reg requests isOpen =>
    have hp : f ≠ p := by
      rintro rfl
      exact other type fd rfl
    exact (Function.update_of_ne hp _ _).trans hf
  | refused turn => exact hf
  | freed turn hsrc unattached => exact update hsrc
  | refitted turn hsrc unattached => exact update hsrc
  | next turn hsrc osFd cases => cases cases <;> exact update hsrc
  | joinedPending turn hsrc unattached src' joined osFd => exact update hsrc
  | joinedRunning turn hsrc unattached src' joined osFd bare => exact update hsrc
  | detached turn hsrc attached free => exact detach (Epoll.detached _ _ _ q) hsrc
  | flushed ctl head hsrc ok => exact update hsrc
  | fetched ctl entry data hsrc => exact update hsrc
  | osFdCalled ctl hsrc osFd src' entered notLast => exact update hsrc
  | osFdRequeued ctl hsrc osFd rest attached => exact update hsrc
  | returned ctl hsrc src' entered => exact update hsrc
  | @finishedDetach ok ne ret src ctl hsrc toClose hret =>
    have hfree : (doDetachFromQueue ne.source { src with noDetach := false } toClose q).sources f =
        none := detach (Epoll.detached _ _ _ q) hsrc
    exact hfree
  | finished ctl hsrc hctl' => exact update hsrc
  | _ => exact hf

/-! The queue with its iteration. -/

/-- The node of the iteration, while it is in the running list. -/
def Queue.cursor (q : Queue) : Option Ptr := if q.inForeach then q.foreachS else none

/-- The lists of the queue; the node of the iteration is no source of the user's. -/
structure Wired (q : Queue) (P R : List Ptr) : Prop where
  threaded : Threaded q.base q.cursor P R
  hidden : ∀ f, q.foreachS = some f → q.base.sources f = none
  named : q.inForeach = true → q.foreachS.isSome = true

/-- A search in the innermost call has passed sources that are not eligible only, and the others are
in the user's hands. -/
structure Searching (q : Queue) (R : List Ptr) : Prop where
  seek : ∀ call calls s node, q.calls = call :: calls → call.point = .seek s node →
    ∃ A f B C, q.cursor = some f ∧ R = A ++ f :: (B ++ C) ∧ (B ++ C).head? = some s ∧
      node = C.head?.map .source ∧ ∀ p ∈ B, q.eligible p = false
  below : ∀ call calls, q.calls = call :: calls → ∀ c ∈ calls, c.point.userTurn = true

section Wired

variable {q q' : Queue} {P R : List Ptr}

/-- What follows a node of the running list. -/
theorem Wired.next_of (wired : Wired q P R) {f : Ptr} {A B : List Ptr} (hR : R = A ++ f :: B) :
    q.base.links.next (.source f) = B.head?.map .source := by
  have seg := wired.threaded.lists.segment .runningQs (Or.inr rfl)
  have hseg : ∀ (n : Node) (A : List Ptr), Segment q.base.links n ((A ++ f :: B).map .source) →
      Segment q.base.links (.source f) (B.map .source) := by
    intro n A
    induction A generalizing n with
    | nil => exact fun h => h.2.2
    | cons a A ih => exact fun h => ih _ h.2.2
  rw [show carried P R .runningQs = R.map .source from rfl, hR] at seg
  rw [(hseg _ A seg).next_eq, List.head?_map]

theorem Wired.ahead (wired : Wired q P R) {f : Ptr} {A B : List Ptr} (hc : q.cursor = some f)
    (hR : R = A ++ f :: B) : q.ahead = B.head?.map .source := by
  have hf : q.foreachS = some f := by
    unfold Queue.cursor at hc
    split_ifs at hc
    exact hc
  simp only [Queue.ahead, hf, Option.bind_some]
  exact wired.next_of hR

/-- Only the cursor of an iteration under way has a successor. -/
theorem Wired.in_list (wired : Wired q P R) {f : Ptr} {n : Node} (hf : q.foreachS = some f)
    (next : q.base.links.next (.source f) = some n) :
    q.cursor = some f ∧ ∃ A B, R = A ++ f :: B := by
  have hsrc := wired.hidden f hf
  have hP : f ∉ P := by
    rw [wired.threaded.pending]
    rintro ⟨s, hs, -⟩
    rw [hsrc] at hs
    cases hs
  have hR : f ∈ R := by
    by_contra hR
    rw [(wired.threaded.loose f hP hR).2] at next
    cases next
  refine ⟨?_, List.append_of_mem hR⟩
  rcases (wired.threaded.running f).mp hR with ⟨s, hs, -⟩ | hc
  · rw [hsrc] at hs
    cases hs
  · exact hc

/-- A change that leaves the lists, the sources and the cursor alone. -/
theorem Wired.congr (wired : Wired q P R)
    (links : q'.base.links = q.base.links) (pending : ∀ r, q'.base.Pending r ↔ q.base.Pending r)
    (running : ∀ r, q'.base.Running r ↔ q.base.Running r) (foreachS : q'.foreachS = q.foreachS)
    (inForeach : q'.inForeach = q.inForeach)
    (free : ∀ f, q.base.sources f = none → q'.base.sources f = none) : Wired q' P R := by
  have hcursor : q'.cursor = q.cursor := by simp [Queue.cursor, foreachS, inForeach]
  refine ⟨?_, ?_, ?_⟩
  · rw [hcursor]
    exact ⟨links ▸ wired.threaded.lists, links ▸ wired.threaded.loose,
      fun r => (wired.threaded.pending r).trans (pending r).symm,
      fun r => (wired.threaded.running r).trans (or_congr_left (running r).symm),
      fun f hf => free f (wired.threaded.free f hf)⟩
  · exact fun f hf => free f (wired.hidden f (foreachS ▸ hf))
  · exact fun h => foreachS ▸ wired.named (inForeach ▸ h)

theorem noted_fields (q : Queue) (a : Epoll.Action) :
    (q.noted a).foreachS = q.foreachS ∧ (q.noted a).inForeach = q.inForeach ∧
      (q.noted a).foreachId = q.foreachId := by
  unfold Queue.noted
  split
  · split_ifs <;> exact ⟨rfl, rfl, rfl⟩
  · exact ⟨rfl, rfl, rfl⟩
  · exact ⟨rfl, rfl, rfl⟩

/-- A step of the base. -/
theorem Wired.moved (wired : Wired q P R) {a : Epoll.Action} {b : State}
    (admits : q.admits a = true) (h : Epoll.step q.base a = some b) :
    ∃ (P' new gone : List Ptr), Wired (q.moved a b) P' (new ++ R.filter (· ∉ gone)) ∧
      ∀ p ∈ gone, ¬ b.Running p ∧ q.cursor ≠ some p := by
  have hcases := Epoll.step_cases h
  obtain ⟨hS, hin, -⟩ := noted_fields q a
  have hidden : ∀ f, q.foreachS = some f → b.sources f = none := by
    intro f hf
    refine step_free hcases (wired.hidden f hf) ?_
    rintro type fd rfl
    simp [Queue.admits, hf] at admits
  have free : ∀ f, q.cursor = some f → b.sources f = none := by
    intro f hf
    unfold Queue.cursor at hf
    split_ifs at hf
    exact hidden f hf
  obtain ⟨P', new, gone, threaded, hgone⟩ :=
    wired.threaded.moves (wired.threaded.step_moves hcases) free
  have hcursor : (q.moved a b).cursor = q.cursor := by
    simp [Queue.cursor, Queue.moved, hS, hin]
  refine ⟨P', new, gone, ⟨?_, ?_, ?_⟩, hgone⟩
  · rw [hcursor]
    exact threaded
  · exact fun f hf => hidden f (hS ▸ hf)
  · exact fun hin' => hS ▸ wired.named (hin ▸ hin')

theorem Wired.started (wired : Wired q P R) {calloc : Option Ptr} {f : Ptr}
    (idle : q.inForeach = false) (hf : q.foreachS.or calloc = some f)
    (free : ∀ g, calloc = some g → q.base.sources g = none) :
    Wired { q with
      base := { q.base with
        links := SentinelList.insertAfter .runningQs (.source f) q.base.links }
      foreachS := some f
      foreachId := q.foreachId + 1
      inForeach := true } P (f :: R) := by
  have hsrc : q.base.sources f = none := by
    cases hS : q.foreachS with
    | none =>
      rw [hS] at hf
      exact free f hf
    | some g =>
      rw [hS] at hf
      exact wired.hidden f (hS.trans hf)
  have threaded := wired.threaded
  simp only [Queue.cursor, idle, Bool.false_eq_true, if_false] at threaded
  refine ⟨?_, ?_, fun _ => rfl⟩
  · exact threaded.thread hsrc
  · rintro _ ⟨⟩
    exact hsrc

/-- After `neb_evdp_queue_foreach_set_end` the running list has no cursor. -/
theorem Wired.setEnd (wired : Wired q P R) :
    (nebEvdpQueueForeachSetEnd q).inForeach = false ∧
      ∃ R', Wired (nebEvdpQueueForeachSetEnd q) P R' := by
  unfold nebEvdpQueueForeachSetEnd
  split_ifs with hin
  · obtain ⟨f, hf⟩ := Option.isSome_iff_exists.mp (wired.named hin)
    have threaded := wired.threaded
    simp only [Queue.cursor, hin, if_true, hf] at threaded
    rw [hf]
    refine ⟨rfl, R.filter (· ≠ f), ⟨?_, ?_, by simp⟩⟩
    · exact threaded.unthread
    · exact fun g hg => wired.hidden g (hf.trans hg)
  · exact ⟨by simpa using hin, R, wired⟩

/-- The cursor moves to the place after the source that is called. -/
theorem Wired.doCb (wired : Wired q P R) {f i : Ptr} {A B C : List Ptr} {src : Source}
    (hc : q.cursor = some f) (hR : R = A ++ f :: (B ++ i :: C))
    (hsrc : q.base.sources i = some src) :
    Wired (doCb f i src q) P (A ++ B ++ i :: f :: C) := by
  have hin : q.inForeach = true ∧ q.foreachS = some f := by
    unfold Queue.cursor at hc
    split_ifs at hc with hin
    exact ⟨hin, hc⟩
  have hfree := wired.threaded.free f hc
  have threaded := wired.threaded
  rw [hc] at threaded
  obtain ⟨-, hRn⟩ := threaded.nodup
  have hunthread := threaded.unthread
  have hfilter : R.filter (· ≠ f) = (A ++ B) ++ i :: C := by
    rw [hR] at hRn ⊢
    have hne : ∀ x ∈ A ++ (B ++ i :: C), x ≠ f := by
      rintro x hx rfl
      rw [List.nodup_append] at hRn
      rcases List.mem_append.mp hx with hx | hx
      · exact hRn.2.2 x hx x List.mem_cons_self rfl
      · exact (List.nodup_cons.mp hRn.2.1).1 hx
    rw [List.filter_append, List.filter_cons_of_neg (by simp), ← List.filter_append,
      List.filter_eq_self.mpr (fun x hx => by simpa using hne x hx), List.append_assoc]
  rw [hfilter] at hunthread
  have hthread := hunthread.threadAfter hfree
  have hcursor : (Foreach.doCb f i src q).cursor = some f := by
    simp [Queue.cursor, Foreach.doCb, hin]
  have hother : ∀ g, q.base.sources g = none →
      (Foreach.doCb f i src q).base.sources g = none := by
    intro g hg
    have hgi : g ≠ i := by
      rintro rfl
      rw [hg] at hsrc
      cases hsrc
    simp [Foreach.doCb, hgi, hg]
  have hsources : (Foreach.doCb f i src q).base.sources =
      Function.update q.base.sources i (some { src with noDetach := true }) := rfl
  refine ⟨?_, ?_, ?_⟩
  · rw [hcursor]
    refine hthread.congr rfl ?_ ?_ ?_
    · intro r
      rw [pending_update hsources]
      split_ifs with hr
      · subst hr
        simp [State.Pending, slistRemove, hsrc]
      · rfl
    · intro r
      rw [running_update hsources]
      split_ifs with hr
      · subst hr
        simp [State.Running, slistRemove, hsrc]
      · rfl
    · rintro _ ⟨⟩
      exact hother f hfree
  · exact fun g hg => hother g (wired.hidden g hg)
  · exact fun _ => by simp [Foreach.doCb, hin]

/-- The source may be detached again. -/
theorem Wired.released (wired : Wired q P R) {i : Ptr} {src : Source}
    (hsrc : q.base.sources i = some src) : Wired (q.released i src) P R := by
  have hsources : (q.released i src).base.sources =
      Function.update q.base.sources i (some { src with noDetach := false }) := rfl
  refine wired.congr rfl ?_ ?_ rfl rfl ?_
  · intro r
    rw [pending_update hsources]
    split_ifs with hr
    · subst hr
      simp [State.Pending, hsrc]
    · rfl
  · intro r
    rw [running_update hsources]
    split_ifs with hr
    · subst hr
      simp [State.Running, hsrc]
    · rfl
  · intro f hf
    have hfi : f ≠ i := by
      rintro rfl
      rw [hf] at hsrc
      cases hsrc
    rw [hsources, Function.update_of_ne hfi, hf]

/-- A source that is there is detached. -/
theorem Wired.detached (wired : Wired q P R) {s : Ptr} {src : Source} {toClose : Bool}
    (hsrc : q.base.sources s = some src)
    (base : q'.base = doDetachFromQueue s src toClose q.base)
    (foreachS : q'.foreachS = q.foreachS) (inForeach : q'.inForeach = q.inForeach) :
    ∃ P' R', Wired q' P' R' := by
  have det := Epoll.detached s src toClose q.base
  obtain ⟨src', hsources, huse, -⟩ := det.sources
  have hcursor : q'.cursor = q.cursor := by simp [Queue.cursor, foreachS, inForeach]
  refine ⟨P.filter (· ≠ s), R.filter (· ≠ s), ?_, ?_, ?_⟩
  · rw [hcursor, base]
    exact wired.threaded.leave det.links hsources huse (by rw [hsrc]; rfl)
  · intro f hf
    rw [foreachS] at hf
    have hfs : f ≠ s := by
      rintro rfl
      rw [wired.hidden f hf] at hsrc
      cases hsrc
    rw [base, hsources, Function.update_of_ne hfs, wired.hidden f hf]
  · exact fun hin => foreachS ▸ wired.named (inForeach ▸ hin)

end Wired

section Searching

variable {q q' : Queue} {P R R' : List Ptr}

/-- A new stack of calls: an old one with at most one call on top that is not in the user's
hands. -/
theorem Searching.of_top (top calls : List Call) (hcalls : q'.calls = top ++ calls)
    (htop : top.length ≤ 1) (hturn : ∀ c ∈ calls, c.point.userTurn = true)
    (seek : ∀ call ∈ top, ∀ s node, call.point = .seek s node →
      ∃ A f B C, q'.cursor = some f ∧ R' = A ++ f :: (B ++ C) ∧ (B ++ C).head? = some s ∧
        node = C.head?.map .source ∧ ∀ p ∈ B, q'.eligible p = false) : Searching q' R' := by
  refine ⟨?_, ?_⟩
  · intro call cs s node heq hpoint
    have hmem : call ∈ top ++ calls := by
      rw [← hcalls, heq]
      exact List.mem_cons_self
    rcases List.mem_append.mp hmem with h | h
    · exact seek call h s node hpoint
    · have := hturn call h
      rw [hpoint] at this
      cases this
  · intro call cs heq c hc
    rw [hcalls] at heq
    match top, htop with
    | [], _ =>
      have heq' : calls = call :: cs := heq
      exact hturn c (heq' ▸ List.mem_cons_of_mem _ hc)
    | [t], _ =>
      obtain ⟨-, rfl⟩ := List.cons.inj heq
      exact hturn c hc

/-- While the user's code runs, every call on the stack is in its hands. -/
theorem Searching.turn (searching : Searching q R) (turn : q.userTurn = true) :
    ∀ c ∈ q.calls, c.point.userTurn = true := by
  intro c hc
  cases hcalls : q.calls with
  | nil =>
    rw [hcalls] at hc
    cases hc
  | cons call calls =>
    rw [hcalls] at hc
    rcases List.mem_cons.mp hc with rfl | hc
    · simp only [Queue.userTurn, hcalls, List.head?_cons, Option.all_some, Bool.and_eq_true] at turn
      exact turn.2
    · exact searching.below call calls hcalls c hc

theorem noted_calls (q : Queue) (a : Epoll.Action) : (q.noted a).calls = q.calls := by
  unfold Queue.noted
  split
  · split_ifs <;> rfl
  · rfl
  · rfl

theorem set_end_calls (q : Queue) : (nebEvdpQueueForeachSetEnd q).calls = q.calls := by
  unfold nebEvdpQueueForeachSetEnd
  split_ifs
  · split <;> rfl
  · rfl

/-- The lists of the queue, with its search. -/
def Wound (q : Queue) : Prop := ∃ P R, Wired q P R ∧ Searching q R

/-- The call returns to the head of its loop. -/
private theorem again_wound {q q1 : Queue} (searching : Searching q R) (wired : Wired q1 P R')
    {call : Call} {calls : List Call} (hcalls : q.calls = call :: calls) :
    Wound (q1.again call calls) := by
  refine ⟨P, R', wired.congr rfl (fun _ => .rfl) (fun _ => .rfl) rfl rfl (fun _ => id), ?_⟩
  exact .of_top [_] _ rfl le_rfl (searching.below call calls hcalls) (by simp)

/-- Every step keeps the lists. -/
theorem Wound.ofStep {a : Action} (wound : Wound q) (h : step q a = some q') : Wound q' := by
  obtain ⟨P, R, wired, searching⟩ := wound
  have same : ∀ {q1 : Queue}, Wired q1 P R → q1.calls = q.calls → q.userTurn = true → Wound q1 := by
    intro q1 wired1 hcalls turn
    exact ⟨P, R, wired1, .of_top [] _ hcalls (by simp) (searching.turn turn) (by simp)⟩
  have top : ∀ {q1 : Queue} {call : Call} {calls : List Call} {P' R' : List Ptr}, Wired q1 P' R' →
      q.calls = call :: calls → ∀ top : List Call, q1.calls = top ++ calls → top.length ≤ 1 →
      (∀ c ∈ top, c.point.userTurn = true) → Wound q1 := by
    intro q1 call calls P' R' wired1 hcalls top hcalls1 htop hturn
    refine ⟨P', R', wired1, .of_top top calls hcalls1 htop (searching.below call calls hcalls) ?_⟩
    intro c hc s node hpoint
    have := hturn c hc
    rw [hpoint] at this
    cases this
  cases step_cases h with
  | @base a b admits hstep =>
    obtain ⟨P', new, gone, wired', -⟩ := wired.moved admits hstep
    refine ⟨P', _, wired', .of_top [] _ (noted_calls q a) (by simp) ?_ (by simp)⟩
    rcases admits_calls admits with hnil | ⟨turn, -⟩
    · simp [hnil]
    · exact searching.turn turn
  | setUtype turn =>
    exact same (wired.congr rfl (fun _ => .rfl) (fun _ => .rfl) rfl rfl (fun _ => id)) rfl turn
  | refused turn => exact ⟨P, R, wired, searching⟩
  | started turn idle hf free =>
    exact ⟨P, _, wired.started idle hf free,
      .of_top [] _ rfl (by simp) (searching.turn turn) (by simp)⟩
  | @entered size turn running =>
    exact ⟨P, R, wired.congr rfl (fun _ => .rfl) (fun _ => .rfl) rfl rfl (fun _ => id),
      .of_top [⟨size, 0, .loop⟩] _ rfl le_rfl (searching.turn turn) (by simp)⟩
  | ended turn =>
    obtain ⟨-, R', wired'⟩ := wired.setEnd
    exact ⟨P, R', wired', .of_top [] _ (set_end_calls q) (by simp) (searching.turn turn) (by simp)⟩
  | lost turn =>
    exact ⟨P, R, wired.congr rfl (fun _ => .rfl) (fun _ => .rfl) rfl rfl (fun _ => id),
      searching.seek, searching.below⟩
  | left turn hcalls hpoint =>
    exact top (wired.congr rfl (fun _ => .rfl) (fun _ => .rfl) rfl rfl (fun _ => id)) hcalls [] rfl
      (by simp) (by simp)
  | @sought f s call calls turn hf hcalls hpoint next =>
    obtain ⟨hc, A, B, hR⟩ := wired.in_list hf next
    have hahead := wired.ahead hc hR
    simp only [Queue.ahead, hf, Option.bind_some, next] at hahead
    refine ⟨P, R, wired.congr rfl (fun _ => .rfl) (fun _ => .rfl) rfl rfl (fun _ => id), ?_⟩
    refine .of_top [_] _ rfl le_rfl (searching.below call calls hcalls) ?_
    simp only [List.mem_singleton, forall_eq, Point.seek.injEq]
    rintro _ _ ⟨rfl, rfl⟩
    have hs : B.head? = some s := by
      cases B with
      | nil => cases hahead
      | cons b B =>
        obtain rfl := Node.source.inj (Option.some.inj hahead)
        rfl
    exact ⟨A, f, [], B, hc, hR, hs, hahead, by simp⟩
  | @skipped f s i call calls turn hf hcalls hpoint unfit =>
    obtain ⟨A, g, B, C, hc, hR, hs, hnode, hunfit⟩ := searching.seek call calls s _ hcalls hpoint
    cases C with
    | nil => cases hnode
    | cons j C =>
      obtain rfl := Node.source.inj (Option.some.inj hnode)
      refine ⟨P, R, wired.congr rfl (fun _ => .rfl) (fun _ => .rfl) rfl rfl (fun _ => id), ?_⟩
      refine .of_top [_] _ rfl le_rfl (searching.below call calls hcalls) ?_
      simp only [List.mem_singleton, forall_eq, Point.seek.injEq]
      rintro _ _ ⟨rfl, rfl⟩
      refine ⟨A, g, B ++ [i], C, hc, by rw [hR]; simp, by rw [← hs]; simp, ?_, ?_⟩
      · exact wired.next_of (A := A ++ g :: B) (by rw [hR]; simp)
      · intro p hp
        rcases List.mem_append.mp hp with hp | hp
        · exact hunfit p hp
        · obtain rfl : p = i := by simpa using hp
          exact unfit
  | @calledBack f s i call calls src turn hf hcalls hpoint hsrc fit =>
    obtain ⟨A, g, B, C, hc, hR, hs, hnode, -⟩ := searching.seek call calls s _ hcalls hpoint
    cases C with
    | nil => cases hnode
    | cons j C =>
      obtain rfl := Node.source.inj (Option.some.inj hnode)
      have hg : g = f := by
        unfold Queue.cursor at hc
        split_ifs at hc
        exact Option.some.inj (hc.symm.trans hf)
      subst hg
      have wired' : Wired
          { doCb g i src q with calls := { call with point := .called s i } :: calls }
          P (A ++ B ++ i :: g :: C) :=
        (wired.doCb hc hR hsrc).congr rfl (fun _ => .rfl) (fun _ => .rfl) rfl rfl (fun _ => id)
      exact top wired' hcalls [_] rfl le_rfl (by simp [Point.userTurn])
  | exhausted turn hf hcalls hpoint =>
    obtain ⟨-, R', wired'⟩ := wired.setEnd
    exact again_wound searching wired' hcalls
  | resumed turn hcalls hpoint => exact again_wound searching wired hcalls
  | continued turn hcalls hpoint hsrc => exact again_wound searching (wired.released hsrc) hcalls
  | endedByCb turn hcalls hpoint hsrc =>
    obtain ⟨-, R', wired'⟩ := (wired.released hsrc).setEnd
    exact again_wound searching wired' hcalls
  | invalid turn hcalls hpoint hsrc hret =>
    exact top ((wired.released hsrc).congr rfl (fun _ => .rfl) (fun _ => .rfl) rfl rfl
      (fun _ => id)) hcalls [] rfl (by simp) (by simp)
  | @removedByCb s i call calls src srcS turn hcalls hpoint hsrc toClose hsrcS =>
    let q1 : Queue := { q with
      base := doDetachFromQueue s srcS toClose (q.released i src).base
      calls := { call with point := .removed } :: calls
      detaches := ⟨s, toClose, s ∈ stackOf q.base.ctl calls⟩ :: q.detaches }
    obtain ⟨P', R', wired'⟩ : ∃ P' R', Wired q1 P' R' :=
      (wired.released hsrc).detached hsrcS rfl rfl rfl
    exact top wired' hcalls [_] rfl le_rfl (by simp [Point.userTurn])
  | removedLost turn hcalls hpoint hsrc toClose free =>
    refine ⟨P, R, (wired.released hsrc).congr rfl (fun _ => .rfl) (fun _ => .rfl) rfl rfl
      (fun _ => id), ?_⟩
    refine .of_top [] q.calls rfl (by simp) ?_ (by simp)
    intro c hc
    rw [hcalls] at hc
    rcases List.mem_cons.mp hc with rfl | hc
    · rw [hpoint]
      rfl
    · exact searching.below _ _ hcalls c hc

theorem Wound.create (batchSize : Nat) : Wound (queueCreate batchSize) := by
  refine ⟨[], [], ⟨⟨⟨?_, ?_, ?_, ?_⟩, ?_, ?_, ?_, ?_⟩, ?_, ?_⟩, ⟨?_, ?_⟩⟩
  · exact fun _ _ => rfl
  · rintro k (rfl | rfl) <;> rfl
  · rintro k (rfl | rfl) <;> simp [carried]
  · rintro h (rfl | rfl) k (rfl | rfl) hne <;> simp_all [carried]
  · exact fun _ _ _ => ⟨rfl, rfl⟩
  · intro p
    simp [State.Pending, queueCreate, nebEvdpQueueCreate]
  · intro p
    simp [State.Running, queueCreate, nebEvdpQueueCreate, Queue.cursor]
  · intro f hf
    rfl
  · intro f hf
    rfl
  · intro hin
    cases hin
  · intro call calls s node hcalls
    cases hcalls
  · intro call calls hcalls
    cases hcalls

end Searching

end Nebase.Evdp.Foreach
