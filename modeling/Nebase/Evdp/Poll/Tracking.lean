/- The flags and the poll requests over whole runs: io_uring loses track with the first request it
   submits in a flush, and aio_poll keeps track under conditions. -/

import Nebase.Evdp.Poll.AioPoll
import Nebase.Foundation.Machine

set_option autoImplicit false
set_option relaxedAutoImplicit false

namespace Nebase.Evdp.Poll

open Nebase.Foundation
open Nebase.Evdp.Epoll (Ptr Fd Handler SourceType Dir NebEvdpCbRet Stage)

/-- The program is not among the events of a batch. -/
def Ctl.quiet : Ctl → Bool
  | .user => true
  | .flushing _ => true
  | .ready => true
  | .events _ => true
  | .undefined => true
  | _ => false

/-- The io_uring driver has not submitted anything: no flag is set, and the entries that it has
prepared are all new requests. -/
structure Unsubmitted (q : State) : Prop where
  flag : ∀ p src, q.sources p = some src → src.submitted = false
  requests : q.kernel.requests = []
  polls : ∀ e ∈ q.kernel.sq, ∃ r, e = .pollAdd r ∧ r.cancelled = false
  ee : q.ee = []
  ring : q.ring = []
  quiet : q.ctl.quiet = true
  prepared : ∀ count, q.ctl = .flushing count → count ≠ 0 → q.kernel.sq ≠ []

/-- The flush of io_uring comes to its `io_uring_submit`. -/
def State.submitting (q : State) : Bool :=
  match q.ctl with
  | .flushing count => count ≠ 0 && q.pendingQs.isEmpty
  | _ => false

/-- The kernel takes nothing of what a flush submits. -/
def SubmitsNothing (q : State) : Action → Prop
  | .flush _ taken => q.submitting = true → ∀ n ∈ taken, n = 0
  | _ => True

instance (q : State) : ∀ a, Decidable (SubmitsNothing q a)
  | .flush _ taken => inferInstanceAs (Decidable (q.submitting = true → ∀ n ∈ taken, n = 0))
  | .newSource .. => isTrue trivial
  | .delSource _ => isTrue trivial
  | .resetFd .. => isTrue trivial
  | .next .. => isTrue trivial
  | .attach .. => isTrue trivial
  | .detach .. => isTrue trivial
  | .run => isTrue trivial
  | .wait _ => isTrue trivial
  | .waitFails => isTrue trivial
  | .proceed _ => isTrue trivial
  | .cbReturn _ => isTrue trivial

theorem Unsubmitted.tracks {q : State} (unsubmitted : Unsubmitted q) : Tracks q := by
  have hcarried : q.kernel.carried = [] := by
    unfold Kernel.carried
    rw [unsubmitted.requests]
    rfl
  have hlive : ∀ p, ¬ q.Live p := by
    intro p h
    unfold State.Live at h
    rw [hcarried] at h
    cases h
  refine ⟨fun p _ _ h => absurd h (hlive p), ?_, ?_, fun p h => absurd h (hlive p)⟩
  · intro p src hsrc hsub
    rw [unsubmitted.flag p src hsrc] at hsub
    cases hsub
  · intro p _ _ _
    rw [hcarried]
    exact Nat.zero_le 1

theorem Unsubmitted.create (batchSize : Nat) : Unsubmitted (nebEvdpQueueCreate batchSize) where
  flag := fun _ _ h => by cases h
  requests := rfl
  polls := fun _ h => by cases h
  ee := rfl
  ring := rfl
  quiet := rfl
  prepared := fun _ h => by cases h

section Step

variable {q q' : State} {p : Ptr} {src : Source}

private theorem Unsubmitted.update (unsubmitted : Unsubmitted q) {o : Option Source}
    (flag : ∀ s, o = some s → s.submitted = false) (r : Ptr) (s : Source)
    (hs : Function.update q.sources p o r = some s) : s.submitted = false := by
  by_cases hr : r = p
  · subst hr
    rw [Function.update_self] at hs
    exact flag s hs
  · rw [Function.update_of_ne hr] at hs
    exact unsubmitted.flag r s hs

/-- The kernel and the batch stay as they are, and no source that is written has a flag. -/
private theorem Unsubmitted.write (unsubmitted : Unsubmitted q) {o : Option Source}
    (sources : q'.sources = Function.update q.sources p o)
    (flag : ∀ s, o = some s → s.submitted = false) (kernel : q'.kernel = q.kernel)
    (ee : q'.ee = q.ee) (ring : q'.ring = q.ring) (ctl : q'.ctl = q.ctl) : Unsubmitted q' := by
  refine ⟨?_, kernel ▸ unsubmitted.requests, kernel ▸ unsubmitted.polls, ee ▸ unsubmitted.ee,
    ring ▸ unsubmitted.ring, ctl ▸ unsubmitted.quiet, ?_⟩
  · intro r s hs
    rw [sources] at hs
    exact unsubmitted.update flag r s hs
  · intro count hctl hcount
    rw [kernel]
    exact unsubmitted.prepared count (ctl ▸ hctl) hcount

/-- The program goes on to another place where it is not in a flush. -/
private theorem Unsubmitted.moveOn (unsubmitted : Unsubmitted q) (sources : q'.sources = q.sources)
    (requests : q'.kernel.requests = [])
    (polls : ∀ e ∈ q'.kernel.sq, ∃ r, e = Sqe.pollAdd r ∧ r.cancelled = false)
    (ee : q'.ee = []) (ring : q'.ring = []) (quiet : q'.ctl.quiet = true)
    (settled : q'.ctl.settled = true) : Unsubmitted q' := by
  refine ⟨sources ▸ unsubmitted.flag, requests, polls, ee, ring, quiet, ?_⟩
  intro count hctl
  rw [hctl] at settled
  cases settled

private theorem Unsubmitted.next (unsubmitted : Unsubmitted q) (hsrc : q.sources p = some src)
    (d : Dir) (h : Option Handler) (sqe : Bool) (taken : Option Nat) :
    Unsubmitted (nebEvdpSourceOsFdNext .ioUring d p src h sqe taken q).2 := by
  have hflag := unsubmitted.flag p src hsrc
  have hset : ∀ s : Source, s.submitted = src.submitted → Unsubmitted (q.setSource p s) := by
    intro s hs
    refine unsubmitted.write rfl (fun s' hs' => ?_) rfl rfl rfl rfl
    rw [← Option.some.inj hs', hs, hflag]
  have hsub : (src.setHandler d h).submitted = src.submitted := by
    cases d <;> rfl
  have hint : ∀ b, ((src.setHandler d h).setInterest d b).submitted = src.submitted := fun _ => hsub
  unfold nebEvdpSourceOsFdNext
  simp only
  split_ifs
  · unfold evdpSourceOsFdReset
    rw [if_neg (by rw [hsub, hflag]; simp)]
    simp only
    split_ifs
    · refine unsubmitted.write rfl (fun s' hs' => ?_) rfl rfl rfl rfl
      rw [← Option.some.inj hs']
      exact (hint true).trans hflag
    · exact hset _ (hint true)
  · unfold evdpSourceOsFdUnset
    rw [if_neg (by rw [hsub, hflag]; simp)]
    simp only
    split_ifs
    · exact hset _ (hint false)
    · refine unsubmitted.write rfl (fun s' hs' => ?_) rfl rfl rfl rfl
      rw [← Option.some.inj hs']
      exact (hint false).trans hflag
    · exact hset _ (hint false)
  · exact hset _ (hint h.isSome)

private theorem Unsubmitted.attach (unsubmitted : Unsubmitted q) (hsrc : q.sources p = some src)
    (settime : Bool) : Unsubmitted (nebEvdpQueueAttach p src settime q).2 := by
  have hflag := unsubmitted.flag p src hsrc
  have hro : ∀ s : Source, s.submitted = false → Unsubmitted (evdpSourceRoFdAttach p s q).2 := by
    intro s hs
    refine unsubmitted.write rfl (fun s' hs' => ?_) rfl rfl rfl rfl
    rw [← Option.some.inj hs']
    exact hs
  have htimer : ∀ s : Source, s.submitted = false →
      Unsubmitted (evdpSourceTimerAttach p s settime q).2 := by
    intro s hs
    unfold evdpSourceTimerAttach
    split_ifs
    · exact hro _ hs
    · exact hro _ hs
    · exact unsubmitted
  unfold nebEvdpQueueAttach
  split_ifs
  · exact unsubmitted
  · split
    · exact htimer _ hflag
    · exact htimer _ hflag
    · exact hro _ hflag
    · unfold evdpSourceOsFdAttach
      split_ifs
      · refine unsubmitted.write rfl (fun s' hs' => ?_) rfl rfl rfl rfl
        rw [← Option.some.inj hs']
        exact hflag
      · refine unsubmitted.write rfl (fun s' hs' => ?_) rfl rfl rfl rfl
        rw [← Option.some.inj hs']
        exact hflag

/-- Without a flag there is nothing to cancel. -/
private theorem detach_of_not_submitted (r : Ptr) (toClose : Bool) (k : Kernel)
    (hflag : src.submitted = false) :
    (evdpSourceDetach .ioUring r src toClose k).1.submitted = false ∧
      (evdpSourceDetach .ioUring r src toClose k).2 = k := by
  have hcancel : ∀ s : Source, s.submitted = false →
      (cancelIfSubmitted .ioUring r s k).1.submitted = false ∧
        (cancelIfSubmitted .ioUring r s k).2 = k := by
    intro s hs
    unfold cancelIfSubmitted
    rw [if_neg (by rw [hs]; simp)]
    exact ⟨hs, rfl⟩
  unfold evdpSourceDetach
  split
  · exact hcancel _ hflag
  · exact hcancel _ hflag
  · unfold evdpSourceRoFdDetach
    split_ifs
    · exact ⟨rfl, rfl⟩
    · exact hcancel _ hflag
  · unfold evdpSourceOsFdDetach
    split_ifs with _ hsub
    · exact ⟨rfl, rfl⟩
    · rw [hflag] at hsub
      cases hsub
    · exact ⟨hflag, rfl⟩

private theorem Unsubmitted.detach (unsubmitted : Unsubmitted q) (hsrc : q.sources p = some src)
    (toClose : Bool) : Unsubmitted (nebEvdpQueueDetach .ioUring p src toClose q).2 := by
  obtain ⟨hflag, hkernel⟩ := detach_of_not_submitted p toClose q.kernel
    (unsubmitted.flag p src hsrc)
  have hee : (evdpQueueRmPendingEvents p q).ee = q.ee := by
    simp [evdpQueueRmPendingEvents, unsubmitted.ee]
  unfold nebEvdpQueueDetach
  split_ifs
  · exact unsubmitted
  · exact unsubmitted
  · simp only [doDetachFromQueue]
    split_ifs
    · refine unsubmitted.write rfl (fun s' hs' => ?_) hkernel hee rfl rfl
      rw [← Option.some.inj hs']
      exact hflag
    · refine unsubmitted.write rfl (fun s' hs' => ?_) hkernel hee rfl rfl
      rw [← Option.some.inj hs']
      exact hflag

/-- The kernel takes new requests only. -/
private theorem foldl_poll_add {sq : List Sqe}
    (polls : ∀ e ∈ sq, ∃ r, e = Sqe.pollAdd r ∧ r.cancelled = false) (requests : List Request) :
    (carriedBy (sq.foldl Sqe.apply requests)).length = (carriedBy requests).length + sq.length := by
  induction sq generalizing requests with
  | nil => rfl
  | cons e sq ih =>
    obtain ⟨r, rfl, hr⟩ := polls e List.mem_cons_self
    rw [List.foldl_cons, ih (fun e he => polls e (List.mem_cons_of_mem _ he)), Sqe.apply,
      carriedBy_append, carriedBy_cons, hr, if_neg Bool.false_ne_true, List.length_append,
      List.length_cons, List.length_cons]
    have hnil : (carriedBy []).length = 0 := rfl
    omega

private theorem Unsubmitted.flush (unsubmitted : Unsubmitted q) {count : Nat}
    (ctl : q.ctl = .flushing count) (sqe : Bool) (taken : Option Nat)
    (nothing : SubmitsNothing q (.flush sqe taken)) :
    Unsubmitted (flushIoUring count sqe taken q) := by
  have hgoto : ∀ c : Ctl, c.quiet = true → c.settled = true → Unsubmitted (q.goto c) :=
    fun c h1 h2 =>
    unsubmitted.moveOn rfl unsubmitted.requests unsubmitted.polls unsubmitted.ee unsubmitted.ring
      h1 h2
  unfold flushIoUring
  cases hhead : q.pendingQs.head? with
  | some p =>
    simp only
    cases hsrc : q.sources p with
    | none => exact hgoto _ rfl rfl
    | some src =>
      cases sqe with
      | false => exact hgoto _ rfl rfl
      | true =>
        have hflag := unsubmitted.flag p src hsrc
        simp only [if_true]
        refine ⟨?_, unsubmitted.requests, ?_, unsubmitted.ee, unsubmitted.ring, rfl, ?_⟩
        · refine unsubmitted.update (p := p) (o := some { src with pending := false }) ?_
          intro s hs
          rw [← Option.some.inj hs]
          exact hflag
        · intro e he
          rcases List.mem_append.1 he with he | he
          · exact unsubmitted.polls e he
          · exact ⟨_, List.mem_singleton.1 he, rfl⟩
        · exact fun _ _ _ => List.append_ne_nil_of_right_ne_nil _ (List.cons_ne_nil _ _)
  | none =>
    simp only
    have hpending : q.pendingQs = [] := List.head?_eq_none_iff.1 hhead
    by_cases hcount : count = 0
    · rw [if_pos hcount]
      exact hgoto .ready rfl rfl
    · rw [if_neg hcount]
      cases taken with
      | none => exact hgoto _ rfl rfl
      | some n =>
        have hsubmitting : q.submitting = true := by
          simp [State.submitting, ctl, hcount, hpending]
        obtain rfl := nothing hsubmitting n rfl
        exact unsubmitted.moveOn rfl unsubmitted.requests unsubmitted.polls unsubmitted.ee
          unsubmitted.ring rfl rfl

/-- A run of a completion needs a request. -/
private theorem complete_of_no_request {k k' : Kernel} {done : List (Nat × Reported × Bool)}
    {cs : List Completion} (requests : k.requests = []) (h : k.complete done = some (k', cs)) :
    k' = k ∧ cs = [] := by
  cases done with
  | nil =>
    simp only [Kernel.complete, Option.some.injEq, Prod.mk.injEq] at h
    exact ⟨h.1.symm, h.2.symm⟩
  | cons d done =>
    rw [Kernel.complete, requests] at h
    cases h

end Step

/-- What one step preserves, when it submits nothing. -/
theorem Unsubmitted.ofStep {q q' : State} {a : Action} (unsubmitted : Unsubmitted q)
    (nothing : SubmitsNothing q a) (h : step .ioUring q a = some q') : Unsubmitted q' := by
  have hcall : ∀ {p : Ptr} {f : Source → State}, q.call p f = some q' →
      ∃ src, q.sources p = some src ∧ f src = q' := by
    intro p f hc
    unfold State.call at hc
    split at hc
    · exact Option.map_eq_some_iff.1 hc
    · cases hc
  have hquiet := unsubmitted.quiet
  have hgoto : ∀ c : Ctl, c.quiet = true → c.settled = true → Unsubmitted (q.goto c) :=
    fun c h1 h2 =>
    unsubmitted.moveOn rfl unsubmitted.requests unsubmitted.polls unsubmitted.ee unsubmitted.ring
      h1 h2
  cases a with
  | newSource p type fd =>
    simp only [step] at h
    split at h
    · cases h
      refine unsubmitted.write rfl (fun s hs => ?_) rfl rfl rfl rfl
      rw [← Option.some.inj hs]
      rfl
    · cases h
  | delSource p =>
    obtain ⟨src, hsrc, rfl⟩ := hcall h
    unfold nebEvdpSourceDel
    split_ifs
    · exact unsubmitted
    · exact unsubmitted.write (p := p) (o := none) rfl (fun s hs => by cases hs) rfl rfl rfl rfl
  | resetFd p fd =>
    obtain ⟨src, hsrc, rfl⟩ := hcall h
    unfold nebEvdpSourceOsFdReset
    split_ifs
    · exact unsubmitted
    · exact unsubmitted
    · refine unsubmitted.write rfl (fun s hs => ?_) rfl rfl rfl rfl
      rw [← Option.some.inj hs]
      rfl
  | next d p handler sqe taken =>
    simp only [step] at h
    split at h
    · obtain ⟨src, hsrc, rfl⟩ := hcall h
      exact unsubmitted.next hsrc d handler sqe taken
    · cases h
  | attach p settime =>
    obtain ⟨src, hsrc, rfl⟩ := hcall h
    exact unsubmitted.attach hsrc settime
  | detach p toClose =>
    obtain ⟨src, hsrc, rfl⟩ := hcall h
    exact unsubmitted.detach hsrc toClose
  | run =>
    simp only [step] at h
    split at h
    · cases h
      refine ⟨unsubmitted.flag, unsubmitted.requests, unsubmitted.polls, unsubmitted.ee,
        unsubmitted.ring, rfl, ?_⟩
      intro count hctl hcount
      cases hctl
      exact absurd rfl hcount
    · cases h
  | flush sqe taken =>
    simp only [step] at h
    split at h
    · cases h
      exact unsubmitted.flush ‹_› sqe taken nothing
    · rename_i hctl
      rw [hctl] at hquiet
      cases hquiet
    · cases h
  | wait done =>
    simp only [step] at h
    split at h
    · unfold evdpQueueWaitEvents at h
      split at h
      · cases h
      · rename_i k cs hcomplete
        obtain ⟨rfl, rfl⟩ := complete_of_no_request unsubmitted.requests hcomplete
        cases h
        refine unsubmitted.moveOn rfl unsubmitted.requests unsubmitted.polls ?_ ?_ rfl rfl
        · simp [unsubmitted.ee, unsubmitted.ring]
        · simp [unsubmitted.ee, unsubmitted.ring]
    · cases h
  | waitFails =>
    simp only [step] at h
    split at h
    · unfold evdpQueueWaitFails at h
      split at h
      · cases h
      · cases h
        exact unsubmitted.moveOn rfl unsubmitted.requests unsubmitted.polls rfl unsubmitted.ring
          rfl rfl
    · cases h
  | proceed ok =>
    simp only [step] at h
    split at h
    · rename_i i hctl
      cases h
      have hnone : q.ee[i]? = none := by
        rw [unsubmitted.ee]
        rfl
      unfold handleEvent
      rw [hnone]
      simp only
      rw [if_pos (by rw [unsubmitted.ee]; rfl)]
      exact hgoto .user rfl rfl
    · rename_i hctl
      rw [hctl] at hquiet
      cases hquiet
    · rename_i hctl
      rw [hctl] at hquiet
      cases hquiet
    · rename_i hctl
      rw [hctl] at hquiet
      cases hquiet
    · cases h
  | cbReturn ret =>
    simp only [step] at h
    split at h
    · rename_i hctl
      rw [hctl] at hquiet
      cases hquiet
    · cases h

theorem submitting_spec {q : State} (submitting : q.submitting = true) :
    ∃ count, q.ctl = .flushing count ∧ count ≠ 0 ∧ q.pendingQs = [] := by
  unfold State.submitting at submitting
  split at submitting
  · rename_i count hctl
    simp only [ne_eq, Bool.and_eq_true, decide_eq_true_eq, List.isEmpty_iff] at submitting
    exact ⟨count, hctl, submitting.1, submitting.2⟩
  · cases submitting

/-- The first request that a flush of io_uring submits is for a source without its flag. -/
theorem Unsubmitted.broken {q q' : State} {a : Action} (unsubmitted : Unsubmitted q)
    (submits : ¬ SubmitsNothing q a) (h : step .ioUring q a = some q') : ¬ Tracks q' := by
  cases a with
  | flush sqe taken =>
    simp only [SubmitsNothing, not_forall] at submits
    obtain ⟨hsubmitting, n, hn, hn0⟩ := submits
    obtain ⟨count, hctl, hcount, hpending⟩ := submitting_spec hsubmitting
    obtain rfl := Option.mem_def.1 hn
    simp only [step, hctl, flushIoUring, hpending, List.head?_nil, if_neg hcount,
      Kernel.ioUringSubmit, if_true, Option.some.injEq] at h
    have hsq : 0 < q.kernel.sq.length :=
      List.length_pos_iff.2 (unsubmitted.prepared count hctl hcount)
    have hpolls : ∀ e ∈ q.kernel.sq.take n, ∃ r, e = .pollAdd r ∧ r.cancelled = false :=
      fun e he => unsubmitted.polls e (List.mem_of_mem_take he)
    have hlength := foldl_poll_add hpolls q.kernel.requests
    intro tracks
    have hpos : 0 < q'.kernel.carried.length := by
      rw [← h]
      unfold Kernel.carried
      rw [hlength, List.length_take]
      omega
    obtain ⟨p, hlive⟩ := List.exists_mem_of_length_pos hpos
    obtain ⟨s, hs, -⟩ := tracks.released p hlive
    have hflag := unsubmitted.flag p s (by rw [← hs, ← h])
    rw [tracks.flagged p s hs hlive] at hflag
    cases hflag
  | _ => exact absurd trivial submits

/-- With io_uring the flags agree with the requests as long as no flush submits any; with aio_poll
they agree in every run that keeps track of them. -/
theorem nebEvdpSource_tracks (batchSize : Nat) (us as : List Action) (q : State)
    (reached : Machine.run (step .ioUring) (nebEvdpQueueCreate batchSize) us = some q) :
    (Machine.AllStates (step .ioUring) Tracks (nebEvdpQueueCreate batchSize) us ↔
      Machine.StepsMeet (step .ioUring) SubmitsNothing (nebEvdpQueueCreate batchSize) us) ∧
    (Machine.StepsMeet (step .aioPoll) KeepsTrack (nebEvdpQueueCreate batchSize) as →
      Machine.AllStates (step .aioPoll) Tracks (nebEvdpQueueCreate batchSize) as) := by
  constructor
  · exact Machine.all_states_iff_steps_meet (fun _ h => h.tracks)
      (fun _ _ _ h hc hs => h.ofStep hc hs)
      (fun _ _ _ h hc hs => h.broken hc hs) (Unsubmitted.create batchSize) reached
  · exact Machine.AllStates.of_invariant (fun _ h => h.tracks) (fun _ _ _ h hc hs => h.ofStep hc hs)
      (Sound.create batchSize)

/-- An os_fd source is watched for reading, and reads. -/
def readOnce : List Action :=
  [.newSource 1 .osFd 5, .next .read 1 (some 7) true none, .attach 1 true, .run,
    .flush true none, .flush true (some 1), .wait [(0, ⟨true, false, false⟩, false)],
    .proceed true, .proceed true, .cbReturn .continue, .proceed true, .proceed true,
    .proceed true, .proceed true, .proceed true]

/-- It is then watched for writing. -/
def watchWrite : List Action :=
  [.next .write 1 (some 8) true none, .run, .flush true none, .flush true (some 1), .wait [],
    .proceed true]

/-- Its handler is removed, and the next batch has the completion of the cancelled request. -/
def writeCancelled : List Action :=
  [.next .write 1 none true none, .run, .flush true none,
    .wait [(0, ⟨false, false, false⟩, false)], .proceed true, .proceed true, .proceed true,
    .proceed true, .proceed true, .proceed true, .proceed true]

/-- The flush of io_uring fails, and a source of aio_poll is detached at last with its request. -/
theorem nebEvdpSource_tracks_read_then_write :
    Machine.AllStates (step .ioUring) Tracks (nebEvdpQueueCreate 4)
      [.newSource 1 .roFd 5, .attach 1 true, .run, .flush true none, .flush true none] ∧
    Machine.AllStates (step .aioPoll) Tracks (nebEvdpQueueCreate 4)
      (readOnce ++ watchWrite ++ writeCancelled ++ watchWrite ++ [.detach 1 false]) := by
  have huser : (Machine.run (step .ioUring) (nebEvdpQueueCreate 4)
      [.newSource 1 .roFd 5, .attach 1 true, .run, .flush true none, .flush true none]).map (·.ctl)
      = some .user := by decide
  obtain ⟨q, hq, -⟩ := Machine.run_reaches huser
  obtain ⟨hio, haio⟩ := nebEvdpSource_tracks 4 _
    (readOnce ++ watchWrite ++ writeCancelled ++ watchWrite ++ [.detach 1 false]) q hq
  exact ⟨hio.2 (by decide), haio (by decide)⟩

/-- An os_fd source of aio_poll has a read request in the kernel. -/
def requested : List Action :=
  [.newSource 1 .osFd 5, .next .read 1 (some 7) true none, .attach 1 true, .run,
    .flush true none, .flush true (some 1), .wait [], .proceed true]

/-- It is detached and attached again, and the next batch has the completion of the request that was
cancelled. -/
def attachedAgain : List Action :=
  [.detach 1 false, .attach 1 true, .run, .flush true none, .flush true (some 1),
    .wait [(0, ⟨false, false, false⟩, false)], .proceed true]

/-- With io_uring the request that a flush submits leaves the flag clear. With aio_poll a second
direction of a source that has a request makes a second request, and the completion of a request
that was cancelled clears the flag of the next one. -/
theorem nebEvdpSource_tracks_fails :
    ¬ Machine.AllStates (step .ioUring) Tracks (nebEvdpQueueCreate 4)
      [.newSource 1 .roFd 5, .attach 1 true, .run, .flush true none, .flush true (some 1)] ∧
    ¬ Machine.AllStates (step .aioPoll) Tracks (nebEvdpQueueCreate 4)
      (requested ++ [.next .write 1 (some 8) true (some 1)]) ∧
    ¬ Machine.AllStates (step .aioPoll) Tracks (nebEvdpQueueCreate 4)
      (requested ++ attachedAgain) := by
  -- in the first and the last run a source has a request without its flag
  have unflagged : ∀ {drv : Driver} {as : List Action},
      (Machine.run (step drv) (nebEvdpQueueCreate 4) as).map
        (fun q => ((q.sources 1).map (·.submitted), q.kernel.carried)) = some (some false, [1]) →
      ¬ Machine.AllStates (step drv) Tracks (nebEvdpQueueCreate 4) as := by
    intro drv as hrun all
    obtain ⟨q, hq, hreached⟩ := Machine.run_reaches hrun
    obtain ⟨hflag, hcarried⟩ := Prod.mk.inj hreached
    obtain ⟨src, hsrc, hsub⟩ := Option.map_eq_some_iff.1 hflag
    have hlive : q.Live 1 := by
      unfold State.Live
      rw [hcarried]
      exact List.mem_cons_self
    rw [(all.reached hq).flagged 1 src hsrc hlive] at hsub
    cases hsub
  refine ⟨unflagged (by decide), ?_, unflagged (by decide)⟩
  intro all
  have hrun : (Machine.run (step .aioPoll) (nebEvdpQueueCreate 4)
      (requested ++ [.next .write 1 (some 8) true (some 1)])).map
      (fun q => ((q.sources 1).map (·.type), q.kernel.carried)) = some (some .osFd, [1, 1]) := by
    decide
  obtain ⟨q, hq, hreached⟩ := Machine.run_reaches hrun
  obtain ⟨htype, hcarried⟩ := Prod.mk.inj hreached
  obtain ⟨src, hsrc, hos⟩ := Option.map_eq_some_iff.1 htype
  have honce := (all.reached hq).once 1 src hsrc hos
  rw [hcarried] at honce
  exact absurd honce (by decide)

end Nebase.Evdp.Poll
