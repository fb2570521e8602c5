/- The accounts of a queue across a flush that fails: the sources move one by one, and the counters
   follow at the end only. -/

import Nebase.Evdp.Epoll.Accounting
import Nebase.Evdp.EventPort.Model

set_option autoImplicit false
set_option relaxedAutoImplicit false

namespace Nebase.Evdp

open Nebase.Foundation
open Nebase.Evdp.Epoll (Ptr)

/-- The lists and the counters of a queue, whatever its driver. `bit` is the `pending` of an attached
source. -/
structure Ledger where
  pendingQs : List Ptr
  runningQs : List Ptr
  bit : Ptr → Option Bool
  statsPending : Int
  statsRunning : Int

namespace Ledger

/-- Every attached source is in one list, the one that its bit names. -/
structure Filed (l : Ledger) : Prop where
  nodup : (l.pendingQs ++ l.runningQs).Nodup
  pending : ∀ p, p ∈ l.pendingQs ↔ l.bit p = some true
  running : ∀ p, p ∈ l.runningQs ↔ l.bit p = some false

/-- The counters count the sources and the list heads. -/
def Counts (l : Ledger) : Prop :=
  l.statsPending = 1 + l.pendingQs.length ∧ l.statsRunning = 1 + l.runningQs.length

/-- What `do_detach_from_queue` does to the lists and the counters. -/
def detach (l : Ledger) (p : Ptr) : Ledger :=
  match l.bit p with
  | some true => { l with
      pendingQs := l.pendingQs.erase p
      bit := Function.update l.bit p none
      statsPending := l.statsPending - 1 }
  | some false => { l with
      runningQs := l.runningQs.erase p
      bit := Function.update l.bit p none
      statsRunning := l.statsRunning - 1 }
  | none => l

/-- Whatever is detached before, a destruction enters both its loops: it reaches the sources that
are left, and the list heads. -/
def Reached (l : Ledger) : Prop :=
  ∀ ps : List Ptr, (ps.foldl detach l).statsPending ≠ 0 ∧ (ps.foldl detach l).statsRunning ≠ 0

/-- The accounts are right. -/
structure Kept (l : Ledger) : Prop where
  filed : l.Filed
  counts : l.Counts
  reached : l.Reached

/-- A flush moves the first pending source, and does not count it. -/
def transfer (l : Ledger) : Ledger :=
  match l.pendingQs with
  | [] => l
  | p :: ps => { l with
      pendingQs := ps
      runningQs := p :: l.runningQs
      bit := Function.update l.bit p (some false) }

variable {l : Ledger}

theorem Filed.detach (filed : l.Filed) (counts : l.Counts) (p : Ptr) :
    (l.detach p).Filed ∧ (l.detach p).Counts := by
  obtain ⟨hpending, hrunning⟩ := counts
  obtain ⟨nodupP, nodupR, disjoint⟩ := List.nodup_append.mp filed.nodup
  unfold Ledger.detach
  cases hbit : l.bit p with
  | none => exact ⟨filed, hpending, hrunning⟩
  | some b =>
    cases b with
    | true =>
      have hp : p ∈ l.pendingQs := (filed.pending p).mpr hbit
      refine ⟨⟨?_, ?_, ?_⟩, ?_, hrunning⟩
      · exact filed.nodup.sublist (List.erase_sublist.append_right _)
      · intro r
        simp only [nodupP.mem_erase_iff, filed.pending, Function.update_apply]
        split_ifs with hr <;> simp [hr]
      · intro r
        simp only [filed.running, Function.update_apply]
        split_ifs with hr
        · simp [hr, hbit]
        · rfl
      · have := List.length_erase_add_one hp
        simp only
        omega
    | false =>
      have hp : p ∈ l.runningQs := (filed.running p).mpr hbit
      refine ⟨⟨?_, ?_, ?_⟩, hpending, ?_⟩
      · exact filed.nodup.sublist (List.erase_sublist.append_left _)
      · intro r
        simp only [filed.pending, Function.update_apply]
        split_ifs with hr
        · simp [hr, hbit]
        · rfl
      · intro r
        simp only [nodupR.mem_erase_iff, filed.running, Function.update_apply]
        split_ifs with hr <;> simp [hr]
      · have := List.length_erase_add_one hp
        simp only
        omega

theorem Filed.reached (filed : l.Filed) (counts : l.Counts) : l.Reached := by
  intro ps
  induction ps generalizing l with
  | nil =>
    obtain ⟨hp, hr⟩ := counts
    exact ⟨by rw [List.foldl_nil, hp]; omega, by rw [List.foldl_nil, hr]; omega⟩
  | cons p ps ih =>
    obtain ⟨filed', counts'⟩ := filed.detach counts p
    exact ih filed' counts'

theorem Filed.transfer (filed : l.Filed) : l.transfer.Filed := by
  unfold Ledger.transfer
  cases hP : l.pendingQs with
  | nil => exact filed
  | cons p ps =>
    have nodup := filed.nodup
    rw [hP, List.cons_append, List.nodup_cons] at nodup
    refine ⟨?_, ?_, ?_⟩
    · exact List.perm_middle.nodup_iff.mpr (List.nodup_cons.mpr nodup)
    · intro r
      have hr := filed.pending r
      rw [hP, List.mem_cons] at hr
      simp only [Function.update_apply]
      split_ifs with heq
      · subst heq
        simpa using fun h => nodup.1 (List.mem_append_left _ h)
      · rw [← hr]
        simp [heq]
    · intro r
      simp only [List.mem_cons, filed.running, Function.update_apply]
      split_ifs with heq <;> simp [heq]

/-- The transfer as the drivers with plain lists write it. -/
theorem Filed.transfer_eq (filed : l.Filed) {p : Ptr} (head : l.pendingQs.head? = some p) :
    l.transfer = { l with
      pendingQs := l.pendingQs.erase p
      runningQs := p :: l.runningQs.erase p
      bit := Function.update l.bit p (some false) } := by
  obtain ⟨ps, hP⟩ := List.head?_eq_some_iff.mp head
  have nodup := filed.nodup
  rw [hP, List.cons_append, List.nodup_cons, List.mem_append, not_or] at nodup
  unfold Ledger.transfer
  rw [hP, List.erase_cons_head, List.erase_of_not_mem nodup.1.2]

/-- The first pending source is attached. -/
theorem Filed.bit_head (filed : l.Filed) {p : Ptr} (head : l.pendingQs.head? = some p) :
    l.bit p = some true :=
  (filed.pending p).mp (List.mem_of_head? head)

theorem transfer_pending (l : Ledger) : l.transfer.pendingQs = l.pendingQs.tail := by
  unfold transfer
  cases hP : l.pendingQs with
  | nil => exact hP
  | cons p ps => rfl

private theorem transfer_stats (l : Ledger) : l.transfer.statsPending = l.statsPending := by
  unfold transfer
  cases l.pendingQs <;> rfl

/-- After `k` transfers `stats.pending` is off by `k`. -/
private theorem transfers (k : Nat) (l : Ledger) (filed : l.Filed) (hk : k ≤ l.pendingQs.length) :
    (transfer^[k] l).Filed ∧ (transfer^[k] l).statsPending = l.statsPending ∧
      (transfer^[k] l).pendingQs.length + k = l.pendingQs.length := by
  induction k generalizing l with
  | zero => exact ⟨filed, rfl, rfl⟩
  | succ k ih =>
    have htail := congrArg List.length (transfer_pending l)
    rw [List.length_tail] at htail
    obtain ⟨filed', hpending, hlength⟩ := ih l.transfer filed.transfer (by omega)
    rw [Function.iterate_succ_apply]
    exact ⟨filed', hpending.trans (transfer_stats l), by omega⟩

/-- After `k` transfers the accounts are right only if `k` is 0. -/
theorem transfer_kept_iff (filed : l.Filed) (counts : l.Counts) {k : Nat}
    (hk : k ≤ l.pendingQs.length) : (transfer^[k] l).Kept ↔ k = 0 := by
  obtain ⟨-, hpending, hlength⟩ := transfers k l filed hk
  constructor
  · intro kept
    have := kept.counts.1
    have := counts.1
    omega
  · rintro rfl
    exact ⟨filed, counts, filed.reached counts⟩

end Ledger

/-! The rounds of a flush. -/

/-- The loop of a flush: each round transfers a source or ends it. `shows` says what the accounts of
a state are, as long as the loop runs and where it has failed. -/
structure Flushing {σ α : Type} (step : σ → α → Option σ) where
  flush : α → Prop
  busy : σ → Prop
  done : σ → Prop
  failed : σ → Prop
  shows : σ → Ledger → Prop
  idle : ∀ {q}, failed q → ¬ busy q
  stuck : ∀ {q a}, done q ∨ failed q → flush a → step q a = none
  round : ∀ {q l a q'}, busy q → shows q l → flush a → step q a = some q' →
    busy q' ∧ l.pendingQs ≠ [] ∧ shows q' l.transfer ∨ done q' ∧ ¬ failed q' ∨
      failed q' ∧ shows q' l

namespace Flushing

variable {σ α : Type} {step : σ → α → Option σ} (F : Flushing step)

/-- Once the loop is over, it stays over. -/
theorem ended {q q' : σ} {as : List α} (stopped : F.done q ∨ F.failed q)
    (flushes : ∀ b ∈ as, F.flush b) (reached : Machine.run step q as = some q') :
    as = [] ∧ q' = q := by
  cases as with
  | nil => exact ⟨rfl, (by simpa using reached : q = q').symm⟩
  | cons b bs =>
    obtain ⟨q1, hstep, -⟩ := Machine.run_cons_eq_some.mp reached
    rw [F.stuck stopped (flushes b List.mem_cons_self)] at hstep
    cases hstep

/-- A run that ends in a failure has transferred as many sources as it had rounds before the last
one. -/
theorem failed_run {as : List α} : ∀ {q q' : σ} {l : Ledger} {a : α}, F.busy q → F.shows q l →
    (∀ b ∈ a :: as, F.flush b) → Machine.run step q (a :: as) = some q' → F.failed q' →
      as.length ≤ l.pendingQs.length ∧ F.shows q' (Ledger.transfer^[as.length] l) := by
  induction as with
  | nil =>
    intro q q' l a busy shows flushes reached failed
    obtain ⟨q1, hstep, hrun⟩ := Machine.run_cons_eq_some.mp reached
    obtain rfl : q1 = q' := by simpa using hrun
    rcases F.round busy shows (flushes a List.mem_cons_self) hstep with
      ⟨busy1, -⟩ | ⟨-, fine⟩ | ⟨-, shows1⟩
    · exact absurd busy1 (F.idle failed)
    · exact absurd failed fine
    · exact ⟨Nat.zero_le _, shows1⟩
  | cons b bs ih =>
    intro q q' l a busy shows flushes reached failed
    obtain ⟨q1, hstep, hrun⟩ := Machine.run_cons_eq_some.mp reached
    have rest : ∀ c ∈ b :: bs, F.flush c := fun c hc => flushes c (List.mem_cons_of_mem a hc)
    rcases F.round busy shows (flushes a List.mem_cons_self) hstep with
      ⟨busy1, hne, shows1⟩ | ⟨done1, -⟩ | ⟨failed1, -⟩
    · obtain ⟨hlength, final⟩ := ih busy1 shows1 rest hrun failed
      rw [Ledger.transfer_pending, List.length_tail] at hlength
      have hpos := List.length_pos_iff.mpr hne
      exact ⟨by rw [List.length_cons]; omega, final⟩
    · cases (F.ended (Or.inl done1) rest hrun).1
    · cases (F.ended (Or.inr failed1) rest hrun).1

/-- So the accounts are right after the failure exactly if the first round was refused. -/
theorem kept_iff {q q' : σ} {l : Ledger} {a : α} {as : List α} {refused : Prop} (busy : F.busy q)
    (shows : F.shows q l) (filed : l.Filed) (counts : l.Counts) (flushes : ∀ b ∈ a :: as, F.flush b)
    (first : ∀ q1, step q a = some q1 →
      F.busy q1 ∧ ¬ refused ∨ F.done q1 ∧ ¬ F.failed q1 ∨ F.failed q1 ∧ refused)
    (reached : Machine.run step q (a :: as) = some q') (failed : F.failed q') :
    ∃ l', F.shows q' l' ∧ (l'.Kept ↔ refused) := by
  obtain ⟨hlength, final⟩ := F.failed_run busy shows flushes reached failed
  refine ⟨_, final, (Ledger.transfer_kept_iff filed counts hlength).trans ?_⟩
  obtain ⟨q1, hstep, hrun⟩ := Machine.run_cons_eq_some.mp reached
  have rest : ∀ c ∈ as, F.flush c := fun c hc => flushes c (List.mem_cons_of_mem a hc)
  rw [List.length_eq_zero_iff]
  rcases first q1 hstep with ⟨busy1, accepted⟩ | ⟨done1, fine⟩ | ⟨failed1, hrefused⟩
  · refine iff_of_false ?_ accepted
    rintro rfl
    obtain rfl : q1 = q' := by simpa using hrun
    exact F.idle failed busy1
  · obtain ⟨-, rfl⟩ := F.ended (Or.inl done1) rest hrun
    exact absurd failed fine
  · exact iff_of_true (F.ended (Or.inr failed1) rest hrun).1 hrefused

end Flushing

/-! The drivers. -/

/-- The pending bit of a source, if it is attached. -/
def pendingBit (qInUse pending : Bool) : Option Bool := if qInUse then some pending else none

@[simp] theorem pendingBit_eq (qInUse pending b : Bool) :
    pendingBit qInUse pending = some b ↔ qInUse = true ∧ pending = b := by
  unfold pendingBit
  cases qInUse <;> simp

/-- The accounts of a queue of the epoll driver with the lists `P` and `R`. -/
def epollLedger (q : Epoll.State) (P R : List Ptr) : Ledger where
  pendingQs := P
  runningQs := R
  bit := fun p => (q.sources p).bind (fun src => pendingBit src.qInUse src.pending)
  statsPending := q.statsPending
  statsRunning := q.statsRunning

/-- The accounts of a queue of the io_uring driver. -/
def ioUringLedger (q : Poll.State) : Ledger where
  pendingQs := q.pendingQs
  runningQs := q.runningQs
  bit := fun p => (q.sources p).bind (fun src => pendingBit src.qInUse src.pending)
  statsPending := q.statsPending
  statsRunning := q.statsRunning

/-- The accounts of a queue of the event_port driver. -/
def eventPortLedger (q : EventPort.State) : Ledger where
  pendingQs := q.pendingQs
  runningQs := q.runningQs
  bit := fun p => (q.sources p).bind (fun src => pendingBit src.qInUse src.pending)
  statsPending := q.statsPending
  statsRunning := q.statsRunning

section Epoll

open Nebase.Foundation.SentinelList Nebase.Evdp.Epoll

variable {q q' : Epoll.State} {P R : List Ptr}

private theorem epoll_bit (q : Epoll.State) (P R : List Ptr) (p : Ptr) :
    ((epollLedger q P R).bit p = some true ↔ q.Pending p) ∧
      ((epollLedger q P R).bit p = some false ↔ q.Running p) := by
  simp [epollLedger, Option.bind_eq_some_iff, State.Pending, State.Running]

theorem epoll_filed (queued : Queued q P R) : (epollLedger q P R).Filed := by
  obtain ⟨nodupP, nodupR⟩ := queued.nodup
  refine ⟨?_, ?_, ?_⟩
  · refine List.nodup_append.mpr ⟨nodupP, nodupR, ?_⟩
    rintro p hp r hr rfl
    exact queued.notMem_running hp hr
  · exact fun p => (queued.pending p).trans (epoll_bit q P R p).1.symm
  · exact fun p => (queued.running p).trans (epoll_bit q P R p).2.symm

/-- The first pending source is moved. -/
private theorem epoll_transfer {p : Ptr} (src : Source) (k : Epoll.Kernel)
    (ctl : Epoll.Ctl) (queued : Queued q (p :: P) R) (qInUse : src.qInUse = true)
    (after : q' = (slistRunningInsertNoStats p src
      (slistRemove p { q with kernel := k })).goto ctl) :
    Queued q' P (p :: R) ∧ epollLedger q' P (p :: R) = (epollLedger q (p :: P) R).transfer := by
  subst after
  obtain ⟨hp, -⟩ := List.nodup_cons.mp queued.nodup.1
  have hR := queued.notMem_running (List.mem_cons_self (a := p) (l := P))
  have lists := lists_remove_pending queued.lists List.mem_cons_self
  rw [List.erase_cons_head] at lists
  have ledger : epollLedger ((slistRunningInsertNoStats p src
      (slistRemove p { q with kernel := k })).goto ctl) P (p :: R) =
        (epollLedger q (p :: P) R).transfer := by
    simp only [epollLedger, Ledger.transfer, slistRunningInsertNoStats, slistRemove,
      State.goto]
    congr 1
    funext r
    by_cases hr : r = p
    · subst hr
      simp [qInUse]
    · simp [hr]
  have filed := (epoll_filed queued).transfer
  rw [← ledger] at filed
  exact ⟨⟨lists_insert_running lists hp hR,
    fun r => (filed.pending r).trans (epoll_bit _ P (p :: R) r).1,
    fun r => (filed.running r).trans (epoll_bit _ P (p :: R) r).2⟩, ledger⟩

/-- One round of the flush of the epoll driver. -/
private theorem epoll_round {count : Nat} {room : Bool} (queued : Queued q P R)
    (ctl : q.ctl = .flushing count) (h : Epoll.step q (.flush room) = some q') :
    (q'.ctl = .flushing (count + 1) ∧ P ≠ [] ∧ FlushSucceeds q (.flush room) ∧
        ∃ P' R', Queued q' P' R' ∧ epollLedger q' P' R' = (epollLedger q P R).transfer) ∨
      q'.ctl = .ready ∨
      q'.ctl = .user ∧ ¬ FlushSucceeds q (.flush room) ∧ Queued q' P R ∧
        epollLedger q' P R = epollLedger q P R := by
  simp only [Epoll.step, ctl] at h
  obtain rfl := Option.some.inj h
  cases P with
  | nil =>
    have head : q.links.next .pendingQs = none := queued.head
    refine Or.inr (Or.inl ?_)
    unfold Epoll.evdpQueueFlushPendingSources
    simp only [head]
  | cons p P =>
    have head : q.links.next .pendingQs = some (.source p) := queued.head
    obtain ⟨src, hsrc, huse, -⟩ := (queued.pending p).mp List.mem_cons_self
    have flushing := @flushing_eq q count room p src ctl head hsrc
    unfold Epoll.evdpQueueFlushPendingSources
    simp only [head, hsrc]
    split_ifs with ok
    · obtain ⟨queued', ledger⟩ := epoll_transfer { src with added := true } _ _ queued huse rfl
      refine Or.inl ⟨rfl, by simp, ?_, P, p :: R, queued', ledger⟩
      intro f hf
      rw [flushing, Option.mem_some_iff] at hf
      subst hf
      exact ok
    · refine Or.inr (Or.inr ⟨rfl, ?_, queued.congr rfl (fun _ => .rfl) (fun _ => .rfl), rfl⟩)
      exact fun succeeds => ok (succeeds _ flushing)

/-- The flush of the epoll driver. -/
def epollFlushing : Flushing Epoll.step where
  flush := fun a => ∃ room, a = .flush room
  busy := fun q => ∃ n, q.ctl = .flushing n
  done := fun q => q.ctl = .ready
  failed := fun q => q.ctl = .user
  shows := fun q l => ∃ P R, Queued q P R ∧ l = epollLedger q P R
  idle := by
    rintro q ctl ⟨n, flushing⟩
    rw [ctl] at flushing
    cases flushing
  stuck := by
    rintro q _ (ctl | ctl) ⟨room, rfl⟩ <;> simp only [Epoll.step, ctl]
  round := by
    rintro q l _ q1 ⟨n, ctl⟩ ⟨P, R, queued, rfl⟩ ⟨room, rfl⟩ h
    rcases epoll_round queued ctl h with
      ⟨ctl1, hne, -, P', R', queued', ledger⟩ | ctl1 | ⟨ctl1, -, queued', ledger⟩
    · exact Or.inl ⟨⟨n + 1, ctl1⟩, hne, P', R', queued', ledger.symm⟩
    · exact Or.inr (Or.inl ⟨ctl1, by simp [ctl1]⟩)
    · exact Or.inr (Or.inr ⟨ctl1, P, R, queued', ledger.symm⟩)

private theorem epoll_flushes (rooms : List Bool) :
    ∀ a ∈ rooms.map Epoll.Action.flush, epollFlushing.flush a := by
  intro a ha
  obtain ⟨room, -, rfl⟩ := List.mem_map.mp ha
  exact ⟨room, rfl⟩

/-- What a failed flush of the epoll driver leaves. -/
private theorem epoll_kept_iff {room : Bool} {rooms : List Bool} (queued : Queued q P R)
    (counts : (epollLedger q P R).Counts) (ctl : q.ctl = .flushing 0)
    (reached : Machine.run Epoll.step q ((room :: rooms).map .flush) = some q')
    (failed : q'.ctl = .user) :
    ∃ P' R', Queued q' P' R' ∧
      ((epollLedger q' P' R').Kept ↔ ¬ FlushSucceeds q (.flush room)) := by
  have first : ∀ q1, Epoll.step q (.flush room) = some q1 →
      epollFlushing.busy q1 ∧ ¬ ¬ FlushSucceeds q (.flush room) ∨
        epollFlushing.done q1 ∧ ¬ epollFlushing.failed q1 ∨
          epollFlushing.failed q1 ∧ ¬ FlushSucceeds q (.flush room) := by
    intro q1 hstep
    rcases epoll_round queued ctl hstep with ⟨ctl1, -, ok, -⟩ | ctl1 | ⟨ctl1, refused, -⟩
    · exact Or.inl ⟨⟨1, ctl1⟩, not_not.mpr ok⟩
    · exact Or.inr (Or.inl ⟨ctl1, by simp [epollFlushing, ctl1]⟩)
    · exact Or.inr (Or.inr ⟨ctl1, refused⟩)
  obtain ⟨_, ⟨P', R', queued', rfl⟩, kept⟩ := epollFlushing.kept_iff ⟨0, ctl⟩ ⟨P, R, queued, rfl⟩
    (epoll_filed queued) counts (epoll_flushes (room :: rooms)) first reached failed
  exact ⟨P', R', queued', kept⟩

end Epoll

section IoUring

open Nebase.Evdp.Poll

variable {q q' : Poll.State}

/-- One round of the flush of the io_uring driver. -/
private theorem ioUring_round {count : Nat} {sqe : Bool} {taken : Option Nat}
    (filed : (ioUringLedger q).Filed) (ctl : q.ctl = .flushing count)
    (h : Poll.step .ioUring q (.flush sqe taken) = some q') :
    (q'.ctl = .flushing (count + 1) ∧ q.pendingQs ≠ [] ∧ sqe = true ∧
        ioUringLedger q' = (ioUringLedger q).transfer) ∨
      q'.ctl = .ready ∨
      q'.ctl = .user ∧ (q.pendingQs = [] → count ≠ 0) ∧ (q.pendingQs ≠ [] → sqe = false) ∧
        ioUringLedger q' = ioUringLedger q := by
  simp only [Poll.step, ctl] at h
  obtain rfl := Option.some.inj h
  unfold flushIoUring
  cases head : q.pendingQs.head? with
  | none =>
    have empty := List.head?_eq_none_iff.mp head
    rw [show (q.pendingQs = []) = True by simp [empty]]
    by_cases hcount : count = 0
    · exact Or.inr (Or.inl (by simp [hcount, Poll.State.goto]))
    · cases taken with
      | none => exact Or.inr (Or.inr (by simp [hcount, Kernel.ioUringSubmit, ioUringLedger, empty]))
      | some n => exact Or.inr (Or.inl (by simp [hcount, Kernel.ioUringSubmit]))
  | some p =>
    have hne : q.pendingQs ≠ [] := by
      rintro empty
      simp [empty] at head
    obtain ⟨src, hsrc, hbit⟩ := Option.bind_eq_some_iff.mp (filed.bit_head head)
    simp only [hsrc]
    cases sqe with
    | false => exact Or.inr (Or.inr ⟨rfl, fun h => absurd h hne, fun _ => rfl, rfl⟩)
    | true =>
      refine Or.inl ⟨rfl, hne, rfl, ?_⟩
      rw [filed.transfer_eq head]
      simp only [ioUringLedger, slistRunningInsertNoStats, slistRemove, Poll.State.goto, if_true]
      congr 1
      funext r
      by_cases hr : r = p
      · subst hr
        simp [((pendingBit_eq _ _ _).mp hbit).1]
      · simp [hr]

/-- The flush of the io_uring driver. -/
def ioUringFlushing : Flushing (Poll.step .ioUring) where
  flush := fun a => ∃ sqe taken, a = .flush sqe taken
  busy := fun q => ∃ n, q.ctl = .flushing n
  done := fun q => q.ctl = .ready
  failed := fun q => q.ctl = .user
  shows := fun q l => l.Filed ∧ l = ioUringLedger q
  idle := by
    rintro q ctl ⟨n, flushing⟩
    rw [ctl] at flushing
    cases flushing
  stuck := by
    rintro q _ (ctl | ctl) ⟨sqe, taken, rfl⟩ <;> simp only [Poll.step, ctl]
  round := by
    rintro q l _ q1 ⟨n, ctl⟩ ⟨filed, rfl⟩ ⟨sqe, taken, rfl⟩ h
    rcases ioUring_round filed ctl h with ⟨ctl1, hne, -, ledger⟩ | ctl1 | ⟨ctl1, -, -, ledger⟩
    · exact Or.inl ⟨⟨n + 1, ctl1⟩, hne, filed.transfer, ledger.symm⟩
    · exact Or.inr (Or.inl ⟨ctl1, by simp [ctl1]⟩)
    · exact Or.inr (Or.inr ⟨ctl1, filed, ledger.symm⟩)

private theorem ioUring_flushes (entries : List (Bool × Option Nat)) :
    ∀ a ∈ entries.map (fun e => Poll.Action.flush e.1 e.2), ioUringFlushing.flush a := by
  intro a ha
  obtain ⟨e, -, rfl⟩ := List.mem_map.mp ha
  exact ⟨e.1, e.2, rfl⟩

/-- What a failed flush of the io_uring driver leaves. -/
private theorem ioUring_kept_iff {e : Bool × Option Nat} {es : List (Bool × Option Nat)}
    (filed : (ioUringLedger q).Filed) (counts : (ioUringLedger q).Counts)
    (ctl : q.ctl = .flushing 0)
    (reached : Machine.run (Poll.step .ioUring) q
      ((e :: es).map (fun e => .flush e.1 e.2)) = some q')
    (failed : q'.ctl = .user) : (ioUringLedger q').Kept ↔ e.1 = false := by
  have first : ∀ q1, Poll.step .ioUring q (.flush e.1 e.2) = some q1 →
      ioUringFlushing.busy q1 ∧ ¬ e.1 = false ∨
        ioUringFlushing.done q1 ∧ ¬ ioUringFlushing.failed q1 ∨
          ioUringFlushing.failed q1 ∧ e.1 = false := by
    intro q1 hstep
    rcases ioUring_round filed ctl hstep with ⟨ctl1, -, ok, -⟩ | ctl1 | ⟨ctl1, hempty, hne, -⟩
    · exact Or.inl ⟨⟨1, ctl1⟩, by simp [ok]⟩
    · exact Or.inr (Or.inl ⟨ctl1, by simp [ioUringFlushing, ctl1]⟩)
    · exact Or.inr (Or.inr ⟨ctl1, hne (fun empty => hempty empty rfl)⟩)
  obtain ⟨_, ⟨-, rfl⟩, kept⟩ := ioUringFlushing.kept_iff ⟨0, ctl⟩ ⟨filed, rfl⟩ filed counts
    (ioUring_flushes (e :: es)) first reached failed
  exact kept

end IoUring

section EventPort

open Nebase.Evdp.EventPort

variable {q q' : EventPort.State}

/-- There is no request for the first pending source: it is a timer. -/
def EventPort.State.HeadUnsupported (q : EventPort.State) : Prop :=
  ∃ p src, q.pendingQs.head? = some p ∧ q.sources p = some src ∧ src.type.isTimer = true

/-- A request changes nothing of a source that the accounts look at. -/
private theorem associate_keeps (p : Ptr) (src : EventPort.Source) (ok : Bool) (port : Port) :
    (associate p src ok port).2.1.qInUse = src.qInUse ∧
      (associate p src ok port).2.1.pending = src.pending := by
  unfold associate doAssociateRoFd doAssociateOsFd
  cases src.type <;> cases ok <;> exact ⟨rfl, rfl⟩

private theorem associate_fails_iff (p : Ptr) (src : EventPort.Source) (ok : Bool) (port : Port) :
    (associate p src ok port).1 ≠ 0 ↔ ok = false ∨ src.type.isTimer = true := by
  unfold associate doAssociateRoFd doAssociateOsFd portAssociate
  cases src.type <;> cases ok <;> simp [Epoll.SourceType.isTimer]

/-- One round of the flush of the event_port driver. -/
private theorem eventPort_round {count : Nat} {ok : Bool} (filed : (eventPortLedger q).Filed)
    (ctl : q.ctl = .flushing count) (h : EventPort.step q (.flush ok) = some q') :
    (q'.ctl = .flushing (count + 1) ∧ q.pendingQs ≠ [] ∧ ¬ (ok = false ∨ q.HeadUnsupported) ∧
        eventPortLedger q' = (eventPortLedger q).transfer) ∨
      q'.ctl = .ready ∨
      q'.ctl = .user ∧ (ok = false ∨ q.HeadUnsupported) ∧ eventPortLedger q' = eventPortLedger q := by
  simp only [EventPort.step, ctl] at h
  obtain rfl := Option.some.inj h
  unfold flushEventPort
  cases head : q.pendingQs.head? with
  | none =>
    refine Or.inr (Or.inl ?_)
    simp only
    split_ifs <;> rfl
  | some p =>
    have hne : q.pendingQs ≠ [] := by
      rintro empty
      simp [empty] at head
    obtain ⟨src, hsrc, hbit⟩ := Option.bind_eq_some_iff.mp (filed.bit_head head)
    obtain ⟨huse, hpending⟩ := (pendingBit_eq _ _ _).mp hbit
    obtain ⟨sameUse, samePending⟩ := associate_keeps p src ok q.port
    have fails := associate_fails_iff p src ok q.port
    have unsupported : q.HeadUnsupported ↔ src.type.isTimer = true :=
      ⟨fun ⟨_, _, head', hsrc', timer⟩ => by
        obtain rfl := Option.some.inj (head.symm.trans head')
        obtain rfl := Option.some.inj (hsrc.symm.trans hsrc')
        exact timer, fun timer => ⟨p, src, head, hsrc, timer⟩⟩
    rw [unsupported, ← fails]
    simp only [hsrc]
    split_ifs with refused
    · refine Or.inr (Or.inr ⟨rfl, refused, ?_⟩)
      simp only [eventPortLedger, EventPort.State.goto]
      congr 1
      funext r
      by_cases hr : r = p
      · subst hr
        simp [hsrc, sameUse, samePending]
      · simp [hr]
    · refine Or.inl ⟨rfl, hne, refused, ?_⟩
      rw [filed.transfer_eq head]
      simp only [eventPortLedger, slistRunningInsertNoStats, slistRemove, EventPort.State.goto]
      congr 1
      funext r
      by_cases hr : r = p
      · subst hr
        simp [sameUse, huse]
      · simp [hr]

/-- The flush of the event_port driver. -/
def eventPortFlushing : Flushing EventPort.step where
  flush := fun a => ∃ ok, a = .flush ok
  busy := fun q => ∃ n, q.ctl = .flushing n
  done := fun q => q.ctl = .ready
  failed := fun q => q.ctl = .user
  shows := fun q l => l.Filed ∧ l = eventPortLedger q
  idle := by
    rintro q ctl ⟨n, flushing⟩
    rw [ctl] at flushing
    cases flushing
  stuck := by
    rintro q _ (ctl | ctl) ⟨ok, rfl⟩ <;> simp only [EventPort.step, ctl]
  round := by
    rintro q l _ q1 ⟨n, ctl⟩ ⟨filed, rfl⟩ ⟨ok, rfl⟩ h
    rcases eventPort_round filed ctl h with ⟨ctl1, hne, -, ledger⟩ | ctl1 | ⟨ctl1, -, ledger⟩
    · exact Or.inl ⟨⟨n + 1, ctl1⟩, hne, filed.transfer, ledger.symm⟩
    · exact Or.inr (Or.inl ⟨ctl1, by simp [ctl1]⟩)
    · exact Or.inr (Or.inr ⟨ctl1, filed, ledger.symm⟩)

private theorem eventPort_flushes (oks : List Bool) :
    ∀ a ∈ oks.map EventPort.Action.flush, eventPortFlushing.flush a := by
  intro a ha
  obtain ⟨ok, -, rfl⟩ := List.mem_map.mp ha
  exact ⟨ok, rfl⟩

/-- What a failed flush of the event_port driver leaves. -/
private theorem eventPort_kept_iff {ok : Bool} {oks : List Bool}
    (filed : (eventPortLedger q).Filed) (counts : (eventPortLedger q).Counts)
    (ctl : q.ctl = .flushing 0)
    (reached : Machine.run EventPort.step q ((ok :: oks).map .flush) = some q')
    (failed : q'.ctl = .user) :
    (eventPortLedger q').Kept ↔ ok = false ∨ q.HeadUnsupported := by
  have first : ∀ q1, EventPort.step q (.flush ok) = some q1 →
      eventPortFlushing.busy q1 ∧ ¬ (ok = false ∨ q.HeadUnsupported) ∨
        eventPortFlushing.done q1 ∧ ¬ eventPortFlushing.failed q1 ∨
          eventPortFlushing.failed q1 ∧ (ok = false ∨ q.HeadUnsupported) := by
    intro q1 hstep
    rcases eventPort_round filed ctl hstep with ⟨ctl1, -, accepted, -⟩ | ctl1 | ⟨ctl1, refused, -⟩
    · exact Or.inl ⟨⟨1, ctl1⟩, accepted⟩
    · exact Or.inr (Or.inl ⟨ctl1, by simp [eventPortFlushing, ctl1]⟩)
    · exact Or.inr (Or.inr ⟨ctl1, refused⟩)
  obtain ⟨_, ⟨-, rfl⟩, kept⟩ := eventPortFlushing.kept_iff ⟨0, ctl⟩ ⟨filed, rfl⟩ filed counts
    (eventPort_flushes (ok :: oks)) first reached failed
  exact kept

end EventPort

/-- After a flush that fails, the accounts are right if and only if it failed before it moved any
source: with the epoll driver `qe`, the io_uring driver `qu` and the event_port driver `qp`. -/
theorem evdpQueueFlushPendingSources_kept_iff (qe qe' : Epoll.State) (P R : List Ptr) (room : Bool)
    (rooms : List Bool) (qu qu' : Poll.State) (e : Bool × Option Nat)
    (es : List (Bool × Option Nat)) (qp qp' : EventPort.State) (ok : Bool) (oks : List Bool) :
    (Epoll.Queued qe P R → (epollLedger qe P R).Counts → qe.ctl = .flushing 0 →
      Machine.run Epoll.step qe ((room :: rooms).map .flush) = some qe' → qe'.ctl = .user →
      ∃ P' R', Epoll.Queued qe' P' R' ∧
        ((epollLedger qe' P' R').Kept ↔ ¬ Epoll.FlushSucceeds qe (.flush room))) ∧
    ((ioUringLedger qu).Filed → (ioUringLedger qu).Counts → qu.ctl = .flushing 0 →
      Machine.run (Poll.step .ioUring) qu ((e :: es).map (fun e => .flush e.1 e.2)) = some qu' →
      qu'.ctl = .user → ((ioUringLedger qu').Kept ↔ e.1 = false)) ∧
    ((eventPortLedger qp).Filed → (eventPortLedger qp).Counts → qp.ctl = .flushing 0 →
      Machine.run EventPort.step qp ((ok :: oks).map .flush) = some qp' → qp'.ctl = .user →
      ((eventPortLedger qp').Kept ↔ ok = false ∨ qp.HeadUnsupported)) :=
  ⟨epoll_kept_iff, ioUring_kept_iff, eventPort_kept_iff⟩

/-- Two ro_fd sources of the epoll driver are attached, and the queue is run. -/
def twoPending : List Epoll.Action :=
  [.openFd 5, .openFd 6, .newSource 1 .roFd 5, .newSource 2 .roFd 6, .attach 1 true,
    .attach 2 true, .run]

private theorem twoPending_filed {rooms : List Bool} {q' : Epoll.State}
    (reached : Machine.run Epoll.step (Epoll.nebEvdpQueueCreate 10)
      (twoPending ++ rooms.map .flush) = some q') : ∃ q P R,
    Machine.run Epoll.step (Epoll.nebEvdpQueueCreate 10) twoPending = some q ∧
      Epoll.Queued q P R ∧ (epollLedger q P R).Counts ∧ q.ctl = .flushing 0 ∧
        Machine.run Epoll.step q (rooms.map .flush) = some q' := by
  obtain ⟨q, hq, hrun⟩ := Machine.run_append_eq_some.mp reached
  obtain ⟨q1, hq1, ctl⟩ : ∃ q,
      Machine.run Epoll.step (Epoll.nebEvdpQueueCreate 10) twoPending = some q ∧
        q.ctl = .flushing 0 :=
    Machine.run_reaches (by decide)
  obtain rfl := Option.some.inj (hq.symm.trans hq1)
  obtain ⟨P, R, base, hp, hr⟩ := Epoll.Base.ofRun (by decide) (by decide) hq
  rw [ctl] at hp hr
  simp only [Epoll.Ctl.uncounted] at hp hr
  refine ⟨q, P, R, hq, base.queued, ⟨?_, ?_⟩, ctl, hrun⟩
  · simpa [epollLedger] using hp
  · simpa [epollLedger] using hr

private theorem twoPending_refuses (room : Bool) {q : Epoll.State}
    (hq : Machine.run Epoll.step (Epoll.nebEvdpQueueCreate 10) twoPending = some q) :
    Epoll.FlushSucceeds q (.flush room) ↔ room = true := by
  obtain ⟨q1, hq1, h⟩ : ∃ q,
      Machine.run Epoll.step (Epoll.nebEvdpQueueCreate 10) twoPending = some q ∧
        decide (Epoll.FlushSucceeds q (.flush room)) = room :=
    Machine.run_reaches (by cases room <;> decide)
  obtain rfl := Option.some.inj (hq.symm.trans hq1)
  exact (decide_eq_true_iff.symm).trans (by rw [h])

/-- A queue of the io_uring driver that is about to flush the ro_fd sources `ps`. -/
def ioUringPending (ps : List Ptr) : Poll.State :=
  { Poll.nebEvdpQueueCreate 10 with
    sources := fun p =>
      if p ∈ ps then
        some { Poll.newSource .ioUring .roFd p with
          qInUse := true, pending := true, ctlEvent := ⟨true, false⟩ }
      else
        none
    pendingQs := ps
    statsPending := 1 + ps.length
    ctl := .flushing 0 }

private theorem ioUringPending_filed {ps : List Ptr} (nodup : ps.Nodup) :
    (ioUringLedger (ioUringPending ps)).Filed ∧ (ioUringLedger (ioUringPending ps)).Counts := by
  refine ⟨⟨?_, ?_, ?_⟩, rfl, rfl⟩
  · simpa [ioUringLedger, ioUringPending, Poll.nebEvdpQueueCreate] using nodup
  · intro p
    by_cases hp : p ∈ ps <;> simp [ioUringLedger, ioUringPending, hp]
  · intro p
    by_cases hp : p ∈ ps <;> simp [ioUringLedger, ioUringPending, Poll.nebEvdpQueueCreate, hp]

/-- A queue of the event_port driver that is about to flush the ro_fd sources `ps`. -/
def eventPortPending (ps : List Ptr) : EventPort.State where
  sources := fun p =>
    if p ∈ ps then
      some { type := .roFd, qInUse := true, pending := true, fd := p, events := ⟨true, false⟩,
             associated := false }
    else
      none
  pendingQs := ps
  runningQs := []
  statsPending := 1 + ps.length
  statsRunning := 1
  port := fun _ => none
  ctl := .flushing 0

private theorem eventPortPending_filed {ps : List Ptr} (nodup : ps.Nodup) :
    (eventPortLedger (eventPortPending ps)).Filed ∧
      (eventPortLedger (eventPortPending ps)).Counts := by
  refine ⟨⟨?_, ?_, ?_⟩, rfl, rfl⟩
  · simpa [eventPortLedger, eventPortPending] using nodup
  · intro p
    by_cases hp : p ∈ ps <;> simp [eventPortLedger, eventPortPending, hp]
  · intro p
    by_cases hp : p ∈ ps <;> simp [eventPortLedger, eventPortPending, hp]

theorem evdpQueueFlushPendingSources_kept_iff_first :
    (∃ q P R, Machine.run Epoll.step (Epoll.nebEvdpQueueCreate 10)
        (twoPending ++ [.flush false]) = some q ∧
      Epoll.Queued q P R ∧ (epollLedger q P R).Kept) ∧
    (∃ q, Machine.run (Poll.step .ioUring) (ioUringPending [1, 2]) [.flush false none] = some q ∧
      (ioUringLedger q).Kept) ∧
    (∃ q, Machine.run EventPort.step (eventPortPending [1, 2]) [.flush false] = some q ∧
      (eventPortLedger q).Kept) := by
  obtain ⟨qe', hqe', failed⟩ : ∃ q, Machine.run Epoll.step (Epoll.nebEvdpQueueCreate 10)
      (twoPending ++ [.flush false]) = some q ∧ q.ctl = .user :=
    Machine.run_reaches (by decide)
  obtain ⟨qe, P, R, hqe, queued, counts, ctl, hrun⟩ := @twoPending_filed [false] qe' hqe'
  obtain ⟨qu, hqu, failedU⟩ : ∃ q, Machine.run (Poll.step .ioUring) (ioUringPending [1, 2])
      [.flush false none] = some q ∧ q.ctl = .user :=
    Machine.run_reaches (by decide)
  obtain ⟨filedU, countsU⟩ := @ioUringPending_filed [1, 2] (by decide)
  obtain ⟨qp, hqp, failedP⟩ : ∃ q, Machine.run EventPort.step (eventPortPending [1, 2])
      [.flush false] = some q ∧ q.ctl = .user :=
    Machine.run_reaches (by decide)
  obtain ⟨filedP, countsP⟩ := @eventPortPending_filed [1, 2] (by decide)
  obtain ⟨epoll, ioUring, eventPort⟩ := evdpQueueFlushPendingSources_kept_iff qe qe' P R false []
    (ioUringPending [1, 2]) qu (false, none) [] (eventPortPending [1, 2]) qp false []
  obtain ⟨P', R', queued', kept⟩ := epoll queued counts ctl hrun failed
  refine ⟨⟨qe', P', R', hqe', queued', kept.mpr ?_⟩, ⟨qu, hqu, ?_⟩, ⟨qp, hqp, ?_⟩⟩
  · rw [twoPending_refuses false hqe]
    decide
  · exact (ioUring filedU countsU rfl hqu failedU).mpr rfl
  · exact (eventPort filedP countsP rfl hqp failedP).mpr (Or.inl rfl)

/-- The request for the second of two sources fails, or the final submit of io_uring. -/
theorem evdpQueueFlushPendingSources_kept_fails :
    (∃ q, Machine.run Epoll.step (Epoll.nebEvdpQueueCreate 10)
        (twoPending ++ [.flush true, .flush false]) = some q ∧ q.ctl = .user ∧
      ∀ P R, Epoll.Queued q P R → ¬ (epollLedger q P R).Kept) ∧
    (∃ q, Machine.run (Poll.step .ioUring) (ioUringPending [1, 2])
        [.flush true none, .flush false none] = some q ∧ q.ctl = .user ∧
      ¬ (ioUringLedger q).Kept) ∧
    (∃ q, Machine.run (Poll.step .ioUring) (ioUringPending [1, 2])
        [.flush true none, .flush true none, .flush true none] = some q ∧ q.ctl = .user ∧
      ¬ (ioUringLedger q).Kept) ∧
    (∃ q, Machine.run EventPort.step (eventPortPending [1, 2])
        [.flush true, .flush false] = some q ∧ q.ctl = .user ∧ ¬ (eventPortLedger q).Kept) := by
  refine ⟨?_, ?_, ?_, ?_⟩
  · obtain ⟨q', hq', failed⟩ : ∃ q, Machine.run Epoll.step (Epoll.nebEvdpQueueCreate 10)
        (twoPending ++ [.flush true, .flush false]) = some q ∧ q.ctl = .user :=
      Machine.run_reaches (by decide)
    obtain ⟨q, P, R, hq, queued, counts, ctl, hrun⟩ := @twoPending_filed [true, false] q' hq'
    obtain ⟨P', R', queued', kept⟩ :=
      @epoll_kept_iff q q' P R true [false] queued counts ctl hrun failed
    refine ⟨q', hq', failed, fun P'' R'' queued'' => ?_⟩
    obtain ⟨rfl, rfl⟩ := queued'.unique queued''
    rw [kept, not_not]
    exact (twoPending_refuses true hq).mpr rfl
  · obtain ⟨filed, counts⟩ := @ioUringPending_filed [1, 2] (by decide)
    obtain ⟨q, hq, failed⟩ : ∃ q, Machine.run (Poll.step .ioUring) (ioUringPending [1, 2])
        [.flush true none, .flush false none] = some q ∧ q.ctl = .user :=
      Machine.run_reaches (by decide)
    refine ⟨q, hq, failed, ?_⟩
    rw [@ioUring_kept_iff _ q (true, none) [(false, none)] filed counts rfl hq failed]
    decide
  · obtain ⟨filed, counts⟩ := @ioUringPending_filed [1, 2] (by decide)
    obtain ⟨q, hq, failed⟩ : ∃ q, Machine.run (Poll.step .ioUring) (ioUringPending [1, 2])
        [.flush true none, .flush true none, .flush true none] = some q ∧ q.ctl = .user :=
      Machine.run_reaches (by decide)
    refine ⟨q, hq, failed, ?_⟩
    rw [@ioUring_kept_iff _ q (true, none) [(true, none), (true, none)] filed counts rfl hq failed]
    decide
  · obtain ⟨filed, counts⟩ := @eventPortPending_filed [1, 2] (by decide)
    obtain ⟨q, hq, failed⟩ : ∃ q, Machine.run EventPort.step (eventPortPending [1, 2])
        [.flush true, .flush false] = some q ∧ q.ctl = .user :=
      Machine.run_reaches (by decide)
    refine ⟨q, hq, failed, ?_⟩
    rw [@eventPort_kept_iff _ q true [false] filed counts rfl hq failed]
    rintro (h | ⟨p, src, head, hsrc, timer⟩)
    · cases h
    · obtain rfl : 1 = p := Option.some.inj head
      obtain rfl := Option.some.inj hsrc
      cases timer

end Nebase.Evdp
