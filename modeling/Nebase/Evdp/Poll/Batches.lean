/- The batches of aio_poll: what a whole flush submits and moves, and what becomes of the sources of
   a batch that the kernel takes in part. -/

import Nebase.Evdp.Poll.AioPoll
import Nebase.Foundation.Machine

set_option autoImplicit false
set_option relaxedAutoImplicit false

namespace Nebase.Evdp.Poll

open Nebase.Foundation
open Nebase.Evdp.Epoll (Ptr Fd Handler SourceType Dir NebEvdpCbRet Stage)

/-- The two lists are linked without a source in common, and the pending ones are live. -/
structure Linked (q : State) : Prop where
  nodup : (q.pendingQs ++ q.runningQs).Nodup
  source : ∀ p ∈ q.pendingQs, (q.sources p).isSome = true

/-- The indexes of `iocbv` that a round of the flush writes and that its submit reads. -/
def iocbvUses (q : State) : List Nat :=
  match q.ctl with
  | .gathering last s iocbv =>
    if s = none ∨ last = s then List.range iocbv.length
    else if q.batchSize ≤ iocbv.length + 1 then iocbv.length :: List.range (iocbv.length + 1)
    else [iocbv.length]
  | _ => []

/-- A round of the flush whose submit, if it has one, is taken whole. -/
def TakenWhole (q : State) : Action → Prop
  | .flush _ taken => 0 < q.submits → ∃ n ∈ taken, q.submits ≤ n
  | _ => False

/-- The sources `ps` are moved from the pending to the running list, and `rs` are submitted. -/
structure Moved (ps : List Ptr) (rs : List Request) (q q' : State) : Prop where
  requests : q'.kernel.requests = q.kernel.requests ++ rs
  pendingQs : q.pendingQs = ps ++ q'.pendingQs
  runningQs : q'.runningQs = ps.reverse ++ q.runningQs
  sources : ∀ p, q'.sources p = if p ∈ ps then
      (q.sources p).map (fun src => { src with submitted := true, pending := false })
    else q.sources p
  statsPending : q'.statsPending = q.statsPending - ps.length
  statsRunning : q'.statsRunning = q.statsRunning + ps.length
  batchSize : q'.batchSize = q.batchSize

section Batch

variable {q q' q'' : State} {ps ps' rest : List Ptr} {rs rs' : List Request}

theorem Moved.refl (q : State) : Moved [] [] q q where
  requests := (List.append_nil _).symm
  pendingQs := rfl
  runningQs := rfl
  sources := fun _ => rfl
  statsPending := by simp
  statsRunning := by simp
  batchSize := rfl

theorem Moved.trans (first : Moved ps rs q q') (second : Moved ps' rs' q' q'')
    (disjoint : ∀ p ∈ ps', p ∉ ps) : Moved (ps ++ ps') (rs ++ rs') q q'' where
  requests := by rw [second.requests, first.requests, List.append_assoc]
  pendingQs := by rw [first.pendingQs, second.pendingQs, List.append_assoc]
  runningQs := by rw [second.runningQs, first.runningQs, List.reverse_append, List.append_assoc]
  sources := by
    intro p
    rw [second.sources p, first.sources p]
    by_cases hp' : p ∈ ps'
    · rw [if_pos hp', if_neg (disjoint p hp'), if_pos (List.mem_append_right _ hp')]
    · rw [if_neg hp']
      simp [hp']
  statsPending := by
    rw [second.statsPending, first.statsPending, List.length_append]
    omega
  statsRunning := by
    rw [second.statsRunning, first.statsRunning, List.length_append]
    omega
  batchSize := second.batchSize.trans first.batchSize

theorem Linked.moved (linked : Linked q) (moved : Moved ps rs q q') : Linked q' where
  nodup := by
    have hnodup := linked.nodup
    rw [moved.pendingQs] at hnodup
    rw [moved.runningQs]
    have hperm := ((List.reverse_perm ps).symm.append_right q.runningQs).append_left q'.pendingQs
    rw [List.append_assoc] at hnodup
    exact ((List.perm_append_comm_assoc _ _ _).trans hperm).nodup_iff.mp hnodup
  source := by
    intro p hp
    have hsome := linked.source p (by rw [moved.pendingQs]; exact List.mem_append_right _ hp)
    rw [moved.sources p]
    split
    · simpa using hsome
    · exact hsome

/-- The sources of a batch go to the head of the running list one by one. -/
private theorem moveSubmitted_running (nodup : (ps ++ q.runningQs).Nodup)
    (moved : moveSubmitted ps q = some q') :
    q'.runningQs = ps.reverse ++ q.runningQs ∧ q'.statsPending = q.statsPending ∧
      q'.statsRunning = q.statsRunning ∧ q'.batchSize = q.batchSize := by
  induction ps generalizing q with
  | nil =>
    obtain rfl := Option.some.inj moved
    exact ⟨rfl, rfl, rfl, rfl⟩
  | cons p ps ih =>
    obtain ⟨hnot, hnodup⟩ := List.nodup_cons.mp nodup
    simp only [moveSubmitted] at moved
    cases hsrc : q.sources p with
    | none =>
      rw [hsrc] at moved
      cases moved
    | some src =>
      simp only [hsrc] at moved
      have hrun : p :: q.runningQs.erase p = p :: q.runningQs := by
        rw [List.erase_of_not_mem (fun h => hnot (List.mem_append_right _ h))]
      obtain ⟨hrunning, hpending, hstats, hbatch⟩ := ih (by
        change (ps ++ p :: q.runningQs.erase p).Nodup
        rw [hrun]
        exact List.perm_middle.nodup_iff.mpr nodup) moved
      refine ⟨?_, hpending, hstats, hbatch⟩
      rw [hrunning, List.reverse_cons, List.append_assoc, List.singleton_append]
      exact congrArg _ hrun

/-- The sources at the head of the pending list are live. -/
private theorem Linked.first (linked : Linked q) (pendingQs : q.pendingQs = ps ++ rest) :
    ∀ p ∈ ps, (q.sources p).isSome = true := by
  intro p hp
  exact linked.source p (by rw [pendingQs]; exact List.mem_append_left _ hp)

/-- A batch of which the kernel takes `n` control blocks is moved whole. -/
theorem doBatchFlush_moved (linked : Linked q) (pendingQs : q.pendingQs = ps ++ rest) (n : Nat) :
    ∃ q', doBatchFlush ps (some n) q = (true, q') ∧
      Moved ps ((q.controlBlocks ps).take n) q q' ∧ q'.ctl = q.ctl := by
  let q1 : State := { q with
    kernel := { q.kernel with
      requests := q.kernel.requests ++ (q.controlBlocks ps).take n }
    statsPending := q.statsPending - ps.length
    statsRunning := q.statsRunning + ps.length }
  have hnodup := linked.nodup
  rw [pendingQs] at hnodup
  obtain ⟨q', hmove, hpend, hk, -, -, hctl, hsources⟩ := moveSubmitted_spec (q := q1) pendingQs
    (hnodup.sublist (List.sublist_append_left _ _)) (linked.first pendingQs)
  obtain ⟨hrunning, hpending, hstats, hbatch⟩ := moveSubmitted_running (q := q1)
    (hnodup.sublist ((List.sublist_append_left ps rest).append_right _)) hmove
  have hdo : doBatchFlush ps (some n) q = (true, q') := by
    simp only [q1, State.controlBlocks] at hmove
    simp only [doBatchFlush, Kernel.ioSubmit, if_true, hmove]
  refine ⟨q', hdo, ?_, hctl⟩
  exact {
    requests := by rw [hk]
    pendingQs := by rw [hpend, pendingQs]
    runningQs := hrunning
    sources := hsources
    statsPending := hpending
    statsRunning := hstats
    batchSize := hbatch }

private theorem controlBlocks_length (linked : Linked q) (pendingQs : q.pendingQs = ps ++ rest) :
    (q.controlBlocks ps).length = ps.length := by
  have hlen := congrArg List.length (controlBlocks_sources (linked.first pendingQs))
  rwa [List.length_map] at hlen

theorem controlBlocks_append (q : State) (ps ps' : List Ptr) :
    q.controlBlocks (ps ++ ps') = q.controlBlocks ps ++ q.controlBlocks ps' :=
  List.filterMap_append

/-- The control blocks of the other sources stay as they are. -/
private theorem Moved.controlBlocks (moved : Moved ps rs q q') (disjoint : ∀ p ∈ ps', p ∉ ps) :
    q'.controlBlocks ps' = q.controlBlocks ps' := by
  refine List.filterMap_congr ?_
  intro p hp
  rw [moved.sources p, if_neg (disjoint p hp)]

end Batch

/-! A batch that is taken in part. -/

/-- The sources of the first `k` control blocks are marked as submitted and in the running list and
no other source of the batch is; the others are pending or the flush fails, and so are those that
the kernel does not poll. -/
def BatchKept (iocbv : List Ptr) (k : Nat) (q : State) : Prop :=
  let r := doBatchFlush iocbv (some k) q
  (∀ p ∈ iocbv, p ∈ iocbv.take k ↔
    p ∈ r.2.runningQs ∧ ∃ src, r.2.sources p = some src ∧ src.submitted = true) ∧
  (r.1 = false ∨ ∀ p ∈ iocbv.drop k, p ∈ r.2.pendingQs) ∧
  (r.1 = false ∨ ∀ p ∈ iocbv, p ∈ r.2.pendingQs ∨ r.2.Live p)

/-- A batch is kept exactly if the kernel takes all its control blocks. -/
theorem doBatchFlush_kept_iff (q : State) (linked : Linked q) (iocbv rest : List Ptr)
    (pendingQs : q.pendingQs = iocbv ++ rest) (k : Nat) (bound : k ≤ iocbv.length) :
    BatchKept iocbv k q ↔ k = iocbv.length := by
  obtain ⟨q', hdo, moved, -⟩ := doBatchFlush_moved linked pendingQs k
  have hrunning : ∀ p ∈ iocbv, p ∈ q'.runningQs := by
    intro p hp
    rw [moved.runningQs]
    exact List.mem_append_left _ (List.mem_reverse.mpr hp)
  have hflag : ∀ p ∈ iocbv, ∃ src, q'.sources p = some src ∧ src.submitted = true := by
    intro p hp
    obtain ⟨src, hsrc⟩ := Option.isSome_iff_exists.mp (linked.first pendingQs p hp)
    refine ⟨{ src with submitted := true, pending := false }, ?_, rfl⟩
    rw [moved.sources p, if_pos hp, hsrc]
    rfl
  unfold BatchKept
  rw [hdo]
  constructor
  · rintro ⟨hfirst, -, -⟩
    by_contra hne
    have hlt : k < iocbv.length := by omega
    have hmem := List.getElem_mem hlt
    have htake := (hfirst _ hmem).mpr ⟨hrunning _ hmem, hflag _ hmem⟩
    have hnodup : iocbv.Nodup := by
      have h := linked.nodup
      rw [pendingQs, List.append_assoc] at h
      exact (List.nodup_append.mp h).1
    obtain ⟨i, hi, heq⟩ := List.getElem_of_mem htake
    rw [List.getElem_take] at heq
    have hik := (hnodup.getElem_inj_iff).mp heq
    rw [List.length_take] at hi
    omega
  · rintro rfl
    rw [List.take_length, List.drop_length]
    refine ⟨fun p hp => ⟨fun _ => ⟨hrunning p hp, hflag p hp⟩, fun _ => hp⟩, ?_, ?_⟩
    · exact Or.inr (fun p hp => by cases hp)
    · refine Or.inr (fun p hp => Or.inr ?_)
      unfold State.Live Kernel.carried
      rw [moved.requests, List.take_of_length_le (controlBlocks_length linked pendingQs).le,
        carriedBy_append, carried_batch (linked.first pendingQs)]
      exact List.mem_append_right _ hp

/-- A queue with two pending sources. -/
private def twoPending (batchSize : Nat) : State :=
  { nebEvdpQueueCreate batchSize with
    sources := fun p =>
      if p = 1 ∨ p = 2 then
        some { newSource .aioPoll .roFd p with
          qInUse := true, pending := true, ctlEvent := ⟨true, false⟩ }
      else
        none
    pendingQs := [1, 2]
    statsPending := 3 }

private theorem twoPending_linked (batchSize : Nat) : Linked (twoPending batchSize) :=
  ⟨by simp [twoPending, nebEvdpQueueCreate], by simp [twoPending]⟩

theorem doBatchFlush_kept_at_two : BatchKept [1, 2] 2 (twoPending 4) :=
  (doBatchFlush_kept_iff (twoPending 4) (twoPending_linked 4) [1, 2] [] rfl 2 (by decide)).mpr rfl

/-- The kernel takes the first of two control blocks. -/
theorem doBatchFlush_kept_fails :
    ¬ ∀ (q : State) (iocbv rest : List Ptr), Linked q → q.pendingQs = iocbv ++ rest →
      ∀ k ≤ iocbv.length, BatchKept iocbv k q := by
  intro claim
  obtain ⟨-, hpending, -⟩ :=
    claim (twoPending 4) [1, 2] [] (twoPending_linked 4) rfl 1 (by decide)
  revert hpending
  decide

/-! A whole flush. -/

section Flush

variable {q q' : State} {ps : List Ptr} {rs : List Request}

private theorem Moved.goto {c d : Ctl} (moved : Moved ps rs (q.goto c) q') :
    Moved ps rs q (q'.goto d) :=
  ⟨moved.requests, moved.pendingQs, moved.runningQs, moved.sources, moved.statsPending,
    moved.statsRunning, moved.batchSize⟩

/-- The end of a flush submits what is gathered. -/
private theorem flushAioEnd_moved (linked : Linked q) (taken : Option Nat)
    (all : 0 < q.pendingQs.length → ∃ n ∈ taken, q.pendingQs.length ≤ n) :
    ∃ q', flushAioEnd q.pendingQs taken q = q' ∧ q'.ctl = .ready ∧ q'.pendingQs = [] ∧
      Moved q.pendingQs (q.controlBlocks q.pendingQs) q q' := by
  unfold flushAioEnd
  by_cases hempty : q.pendingQs = []
  · refine ⟨q.goto .ready, by simp [hempty], rfl, hempty, ?_⟩
    rw [hempty]
    exact Moved.goto (c := q.ctl) (Moved.refl q)
  · have hpending : q.pendingQs = q.pendingQs ++ [] := (List.append_nil _).symm
    obtain ⟨n, rfl, hn⟩ := all (List.length_pos_iff.mpr hempty)
    obtain ⟨q', hdo, moved, -⟩ := doBatchFlush_moved linked hpending n
    rw [List.take_of_length_le ((controlBlocks_length linked hpending).le.trans hn)] at moved
    have hdone : q'.pendingQs = [] := by simpa using moved.pendingQs
    exact ⟨q'.goto .ready, by simp [hempty, hdo], rfl, hdone,
      Moved.goto (c := q.ctl) moved⟩

private theorem trace_cons {a : Action} {as : List Action} {q1 : State}
    (hstep : step .aioPoll q a = some q1) :
    Machine.trace (step .aioPoll) (fun q _ => iocbvUses q) q (a :: as) =
      iocbvUses q ++ Machine.trace (step .aioPoll) (fun q _ => iocbvUses q) q1 as := by
  simp [Machine.trace, hstep]

/-- A flush that has gathered `iocbv`, the head of the list, and goes on with `rest`: there is room
for one more, and the last source looked at is not ahead. -/
structure Batching (q : State) (last : Option Ptr) (iocbv rest : List Ptr) : Prop where
  linked : Linked q
  ctl : q.ctl = .gathering last rest.head? iocbv
  pendingQs : q.pendingQs = iocbv ++ rest
  room : iocbv.length < q.batchSize
  guard : ∀ p ∈ last, p ∉ rest

variable {last : Option Ptr} {iocbv rest : List Ptr} {p : Ptr}

private theorem Batching.with_next (g : Batching q last iocbv (p :: rest)) :
    q.pendingQs = (iocbv ++ [p]) ++ rest := by
  rw [g.pendingQs, List.append_assoc, List.singleton_append]

private theorem Batching.disjoint (g : Batching q last iocbv (p :: rest)) :
    ∀ r ∈ rest, r ∉ iocbv ++ [p] := by
  have hnodup := (List.nodup_append.mp g.linked.nodup).1
  rw [g.with_next] at hnodup
  exact fun r hr hmem => (List.nodup_append.mp hnodup).2.2 r hmem r hr rfl

private theorem Batching.last_ne (g : Batching q last iocbv (p :: rest)) : last ≠ some p :=
  fun h => g.guard p h List.mem_cons_self

private theorem Batching.next_source (g : Batching q last iocbv (p :: rest)) :
    ∃ src, q.sources p = some src :=
  Option.isSome_iff_exists.mp (g.linked.source p (by rw [g.pendingQs]; simp))

/-- Once the source looked at is gathered or submitted, it is not ahead either. -/
private theorem Batching.next_guard (g : Batching q last iocbv (p :: rest)) :
    ∀ r ∈ some p, r ∉ rest := by
  intro r hr hmem
  obtain rfl := Option.some.inj hr
  exact g.disjoint p hmem (by simp)

/-- The source that fills the batch: the batch is submitted, and the walk starts again at the head
of the list. -/
private theorem Batching.submits (g : Batching q last iocbv (p :: rest))
    (full : q.batchSize ≤ iocbv.length + 1) (sqe : Bool) (taken : Option Nat)
    (whole : TakenWhole q (.flush sqe taken)) :
    ∃ q1, step .aioPoll q (.flush sqe taken) = some q1 ∧ Batching q1 (some p) [] rest ∧
      Moved (iocbv ++ [p]) (q.controlBlocks (iocbv ++ [p])) q q1 := by
  have hlast := g.last_ne
  have hctl := g.ctl
  have hroom := g.room
  obtain ⟨src, hsrc⟩ := g.next_source
  have hsubmits : q.submits = iocbv.length + 1 := by
    simp [State.submits, hctl, hlast, full]
  obtain ⟨n, rfl, hn⟩ := whole (by omega)
  obtain ⟨q1, hdo, moved, -⟩ := doBatchFlush_moved g.linked g.with_next n
  have hblocks := controlBlocks_length g.linked g.with_next
  rw [List.length_append, List.length_singleton] at hblocks
  rw [List.take_of_length_le (by omega)] at moved
  have hrest : q1.pendingQs = rest :=
    List.append_cancel_left (moved.pendingQs.symm.trans g.with_next)
  have hstep : step .aioPoll q (.flush sqe (some n)) =
      some (q1.goto (.gathering (some p) rest.head? [])) := by
    simp [step, hctl, flushAio, hlast, hsrc, full, hdo, hrest]
  have linked1 := g.linked.moved moved
  refine ⟨_, hstep, ?_, Moved.goto (c := q.ctl) moved⟩
  exact {
    linked := ⟨linked1.nodup, linked1.source⟩
    ctl := rfl
    pendingQs := hrest
    room := by
      change 0 < q1.batchSize
      rw [moved.batchSize]
      omega
    guard := g.next_guard }

/-- A source for which there is room is gathered, and the walk goes on behind it. -/
private theorem Batching.gathers (g : Batching q last iocbv (p :: rest))
    (room : ¬ q.batchSize ≤ iocbv.length + 1) (sqe : Bool) (taken : Option Nat) :
    ∃ c, step .aioPoll q (.flush sqe taken) = some (q.goto c) ∧
      Batching (q.goto c) (some p) (iocbv ++ [p]) rest := by
  have hlast := g.last_ne
  have hctl := g.ctl
  obtain ⟨src, hsrc⟩ := g.next_source
  refine ⟨.gathering (some p) rest.head? (iocbv ++ [p]), ?_, ?_⟩
  · simp [step, hctl, flushAio, hlast, hsrc, room,
      nextPending_eq g.pendingQs (List.nodup_append.mp g.linked.nodup).1]
  · exact {
      linked := ⟨g.linked.nodup, g.linked.source⟩
      ctl := rfl
      pendingQs := g.with_next
      room := by
        rw [List.length_append, List.length_singleton]
        change iocbv.length + 1 < q.batchSize
        omega
      guard := g.next_guard }

/-- A round uses `iocbv` within the batch. -/
private theorem Batching.uses (g : Batching q last iocbv rest) :
    ∀ i ∈ iocbvUses q, i < q.batchSize := by
  intro i hi
  have hroom := g.room
  simp only [iocbvUses, g.ctl] at hi
  split at hi
  · rw [List.mem_range] at hi
    omega
  · split at hi
    · rw [List.mem_cons, List.mem_range] at hi
      omega
    · rw [List.mem_singleton] at hi
      omega

/-- A flush that goes on with `rest` submits it with what is gathered. -/
private theorem flush_rounds (rest : List Ptr) (q : State) (last : Option Ptr) (iocbv : List Ptr)
    (g : Batching q last iocbv rest) (as : List Action) (length : as.length = rest.length + 1)
    (whole : Machine.StepsMeet (step .aioPoll) TakenWhole q as) :
    ∃ q', Machine.run (step .aioPoll) q as = some q' ∧ q'.ctl = .ready ∧ q'.pendingQs = [] ∧
      Moved q.pendingQs (q.controlBlocks q.pendingQs) q q' ∧
      ∀ i ∈ Machine.trace (step .aioPoll) (fun q _ => iocbvUses q) q as, i < q.batchSize := by
  induction rest generalizing q last iocbv as with
  | nil =>
    obtain ⟨a, rfl⟩ := List.length_eq_one_iff.mp length
    obtain ⟨ha, -⟩ := whole
    cases a with
    | flush sqe taken =>
      have hpending : q.pendingQs = iocbv := by rw [g.pendingQs, List.append_nil]
      obtain ⟨q', hend, hready, hdone, moved⟩ := flushAioEnd_moved g.linked taken (by
        simpa [TakenWhole, State.submits, g.ctl, hpending] using ha)
      have hstep : step .aioPoll q (.flush sqe taken) = some q' := by
        simp only [step, g.ctl, List.head?_nil, flushAio]
        rw [← hpending, hend]
      refine ⟨q', by rw [Machine.run_cons, hstep]; rfl, hready, hdone, moved, ?_⟩
      intro i hi
      rw [trace_cons hstep] at hi
      exact g.uses i (by simpa [Machine.trace] using hi)
    | _ => exact ha.elim
  | cons p rest ih =>
    obtain ⟨a, as, rfl⟩ := List.exists_cons_of_length_eq_add_one length
    obtain ⟨ha, hrest⟩ := whole
    cases a with
    | flush sqe taken =>
      have hlength : as.length = rest.length + 1 := by simpa using length
      by_cases hfull : q.batchSize ≤ iocbv.length + 1
      · obtain ⟨q1, hstep, g1, moved1⟩ := g.submits hfull sqe taken ha
        obtain ⟨q', hrun, hready, hdone, moved2, huses⟩ :=
          ih q1 (some p) [] g1 as hlength (hrest _ hstep)
        rw [g1.pendingQs, List.nil_append, moved1.controlBlocks g.disjoint] at moved2
        refine ⟨q', by rw [Machine.run_cons, hstep]; exact hrun, hready, hdone, ?_, ?_⟩
        · rw [g.with_next, controlBlocks_append]
          exact moved1.trans moved2 g.disjoint
        · intro i hi
          rw [trace_cons hstep, List.mem_append] at hi
          rcases hi with hi | hi
          · exact g.uses i hi
          · rw [← moved1.batchSize]
            exact huses i hi
      · obtain ⟨c, hstep, g1⟩ := g.gathers hfull sqe taken
        obtain ⟨q', hrun, hready, hdone, moved, huses⟩ :=
          ih (q.goto c) (some p) (iocbv ++ [p]) g1 as hlength (hrest _ hstep)
        refine ⟨q', by rw [Machine.run_cons, hstep]; exact hrun, hready, hdone,
          Moved.goto (d := q'.ctl) moved, ?_⟩
        intro i hi
        rw [trace_cons hstep, List.mem_append] at hi
        rcases hi with hi | hi
        · exact g.uses i hi
        · exact huses i hi
    | _ => exact ha.elim

end Flush

/-- A flush whose submits are all taken whole ends after one round for each pending source and one
more: it submits the pending sources in the order of the list, each once, within the batch, and
moves them to the running list. -/
theorem evdpQueueFlushPendingSources_covers (q : State) (linked : Linked q)
    (batch : 1 ≤ q.batchSize) (ctl : q.ctl = .gathering none q.pendingQs.head? [])
    (as : List Action) (length : as.length = q.pendingQs.length + 1)
    (whole : Machine.StepsMeet (step .aioPoll) TakenWhole q as) :
    ∃ q', Machine.run (step .aioPoll) q as = some q' ∧ q'.ctl = .ready ∧
      (∃ rs, q'.kernel.requests = q.kernel.requests ++ rs ∧ rs.map (·.source) = q.pendingQs) ∧
      (∀ i ∈ Machine.trace (step .aioPoll) (fun q _ => iocbvUses q) q as, i < q.batchSize) ∧
      q'.pendingQs = [] ∧ q'.runningQs = q.pendingQs.reverse ++ q.runningQs ∧
      (∀ p ∈ q.pendingQs, ∃ src, q'.sources p = some src ∧ src.submitted = true ∧
        src.pending = false) ∧
      q'.statsPending = q.statsPending - q.pendingQs.length ∧
      q'.statsRunning = q.statsRunning + q.pendingQs.length := by
  have hstart : Batching q none [] q.pendingQs := ⟨linked, ctl, rfl, batch, fun _ h => by cases h⟩
  obtain ⟨q', hrun, hready, hdone, moved, huses⟩ :=
    flush_rounds q.pendingQs q none [] hstart as length whole
  refine ⟨q', hrun, hready, ⟨_, moved.requests, ?_⟩, huses, hdone, moved.runningQs, ?_,
    moved.statsPending, moved.statsRunning⟩
  · exact controlBlocks_sources (linked.first (List.append_nil _).symm)
  · intro p hp
    obtain ⟨src, hsrc⟩ := Option.isSome_iff_exists.mp (linked.source p hp)
    exact ⟨{ src with submitted := true, pending := false },
      by rw [moved.sources p, if_pos hp, hsrc]; rfl, rfl, rfl⟩

instance (q : State) : ∀ a, Decidable (TakenWhole q a)
  | .flush _ none => decidable_of_iff (¬ 0 < q.submits) (by simp [TakenWhole])
  | .flush _ (some n) => decidable_of_iff (0 < q.submits → q.submits ≤ n) (by simp [TakenWhole])
  | .newSource .. => isFalse id
  | .delSource _ => isFalse id
  | .resetFd .. => isFalse id
  | .next .. => isFalse id
  | .attach .. => isFalse id
  | .detach .. => isFalse id
  | .run => isFalse id
  | .wait _ => isFalse id
  | .waitFails => isFalse id
  | .proceed _ => isFalse id
  | .cbReturn _ => isFalse id

/-- Two sources fill two batches of one. -/
theorem evdpQueueFlushPendingSources_covers_at_two :
    ∃ q', Machine.run (step .aioPoll) ((twoPending 1).goto (.gathering none (some 1) []))
        [.flush true (some 1), .flush true (some 1), .flush true none] = some q' ∧
      q'.runningQs = [2, 1] := by
  obtain ⟨q', hrun, -, -, -, -, hrunning, -⟩ := evdpQueueFlushPendingSources_covers
    ((twoPending 1).goto (.gathering none (some 1) []))
    ⟨(twoPending_linked 1).nodup, (twoPending_linked 1).source⟩ (by decide) rfl
    [.flush true (some 1), .flush true (some 1), .flush true none] (by decide) (by decide)
  exact ⟨q', hrun, hrunning⟩

end Nebase.Evdp.Poll
