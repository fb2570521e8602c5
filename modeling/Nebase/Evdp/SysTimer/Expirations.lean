/- The timers of the kernel under the queue of the epoll driver: which events of them are read after
   a callback has set the timer anew. -/

import Nebase.Evdp.Epoll.Origins
import Nebase.Evdp.SysTimer.Timerfd

set_option autoImplicit false
set_option relaxedAutoImplicit false

namespace Nebase.Evdp.Expirations

open Nebase.Foundation
open Nebase.Evdp.Epoll (Ptr Fd Source SourceType Data NebEvdpEvent Descends Origins Progress)
open Nebase.Evdp.SysTimer (nebDaytimeAbsNearest TOTAL_DAY_SECONDS)

/-! The kernel. -/

/-- How often each timer has expired since it was set or read; `none` for other descriptors. -/
abbrev Timerfds := Fd → Option Nat

/-- `timerfd_settime` resets the expirations. -/
def timerfdSettime (fd : Fd) (timers : Timerfds) : Timerfds :=
  Function.update timers fd ((timers fd).map (fun _ => 0))

/-- `read` takes the expirations; without any it fails with `EAGAIN`. -/
def timerfdRead (fd : Fd) (timers : Timerfds) : Bool × Timerfds :=
  match timers fd with
  | some (_ + 1) => (true, Function.update timers fd (some 0))
  | _ => (false, timers)

/-! The timer sources. -/

/-- `evdp_source_itimer_attach` and `evdp_source_abstimer_attach`. -/
def evdpSourceTimerAttach (src : Source) (settime : Bool) (timers : Timerfds) : Timerfds :=
  if src.inAction then timers
  else if settime then timerfdSettime src.fd timers
  else timers

/-- `evdp_source_itimer_detach` and `evdp_source_abstimer_detach`. -/
def evdpSourceTimerDetach (src : Source) (timers : Timerfds) : Timerfds :=
  if src.inAction then timerfdSettime src.fd timers else timers

/-- `settime` says that `timerfd_settime` succeeds. -/
def evdpSourceAbstimerRegulate (time alarm : Option Int) (settime : Bool) (src : Source)
    (timers : Timerfds) : Int × Timerfds :=
  match nebDaytimeAbsNearest time alarm with
  | none => (-1, timers)
  | some _ =>
    if src.inAction then
      if settime then (0, timerfdSettime src.fd timers) else (-1, timers)
    else
      (0, timers)

def nebEvdpSourceAbstimerRegulate (secOfDay : Int) (time alarm : Option Int) (settime : Bool)
    (src : Source) (timers : Timerfds) : Int × Timerfds :=
  if src.type ≠ .abstimer then
    (-1, timers)
  else if secOfDay ≥ 0 then
    if secOfDay ≥ TOTAL_DAY_SECONDS then
      (-1, timers)
    else
      evdpSourceAbstimerRegulate time alarm settime src timers
  else
    evdpSourceAbstimerRegulate time alarm settime src timers

/-! The queue. -/

/-- The queue with the timers of the kernel. The last two fields are ghosts: what the latest
`neb_evdp_queue_run` has returned because of an event, and whether a callback of it has returned
`NEB_EVDP_CB_BREAK_ERR`. -/
structure State where
  base : Epoll.State
  timers : Timerfds
  returned : Option Int
  userBroke : Bool

def nebEvdpQueueCreate (batchSize : Nat) : State :=
  ⟨Epoll.nebEvdpQueueCreate batchSize, fun _ => none, none, false⟩

/-- The timer source whose handle function is to read its timer. -/
def reading (q : Epoll.State) : Epoll.Action → Option Source
  | .proceed _ =>
    match q.ctl with
    | .handle ne _ => (q.sources ne.source).filter (fun src => src.type.isTimer)
    | _ => none
  | _ => none

/-- What the handle function and `do_detach_from_queue` do to the timers. -/
def State.timersHandled (s : State) (a : Epoll.Action) : Timerfds :=
  match reading s.base a, s.base.detaching a with
  | some src, _ => (timerfdRead src.fd s.timers).2
  | none, some (_, src, _) =>
    if src.type.isTimer then evdpSourceTimerDetach src s.timers else s.timers
  | none, none => s.timers

/-- What a step of the queue does to the timers. -/
def State.timersAfter (s : State) : Epoll.Action → Timerfds
  | .newSource _ type fd =>
    if type.isTimer then Function.update s.timers fd (some 0) else s.timers
  | .delSource p =>
    match s.base.sources p with
    | some src =>
      if src.type.isTimer && !src.qInUse then Function.update s.timers src.fd none else s.timers
    | none => s.timers
  | .attach p settime =>
    match s.base.sources p with
    | some src =>
      if src.type.isTimer && !src.qInUse then evdpSourceTimerAttach src settime s.timers
      else s.timers
    | none => s.timers
  | a => s.timersHandled a

/-- What the kernel decides: a wait reports a timer that has expired, and a `read` succeeds if there
is an expiration. The descriptor of a timer belongs to its source, so that the user does not close
it. -/
def State.allows (s : State) : Epoll.Action → Bool
  | .closeFd fd => (s.timers fd).isNone
  | .wait evs => evs.all (fun ev => s.timers ev.1 ≠ some 0)
  | .proceed ok =>
    match reading s.base (.proceed ok) with
    | some src => ok = (timerfdRead src.fd s.timers).1
    | none => true
  | _ => true

def State.returnedAfter (s : State) : Epoll.Action → Option Int
  | .run => none
  | .proceed _ =>
    match s.base.ctl with
    | .finish _ .breakErr => some (-1)
    | .finish _ .breakExp => some 0
    | _ => s.returned
  | _ => s.returned

def State.userBrokeAfter (s : State) : Epoll.Action → Bool
  | .run => false
  | .cbReturn ret => ret = .breakErr || s.userBroke
  | _ => s.userBroke

/-- `expire` is an expiration of a timer, at any time. -/
inductive Action
  | base (a : Epoll.Action)
  | expire (fd : Fd)
  | regulate (p : Ptr) (secOfDay : Int) (time alarm : Option Int) (settime : Bool)
  deriving DecidableEq

def step (s : State) : Action → Option State
  | .base a =>
    if s.allows a then
      (Epoll.step s.base a).map (fun q =>
        ⟨q, s.timersAfter a, s.returnedAfter a, s.userBrokeAfter a⟩)
    else
      none
  | .expire fd =>
    (s.timers fd).map (fun n => { s with timers := Function.update s.timers fd (some (n + 1)) })
  | .regulate p secOfDay time alarm settime =>
    if s.base.ctl.userTurn then
      (s.base.sources p).map (fun src => { s with
        timers := (nebEvdpSourceAbstimerRegulate secOfDay time alarm settime src s.timers).2 })
    else
      none

/-- Handling events has broken the loop only if a callback asked for it. -/
def Sound (s : State) : Prop := s.returned = some (-1) → s.userBroke = true

/-- An event of the source is fetched and still to be handled. -/
def waiting (q : Epoll.State) (p : Ptr) : Bool :=
  match q.ctl.upcoming with
  | some i => (q.ee.drop i).any (fun e => e.data.map (·.ptr) = some p)
  | none => false

/-- The call on the source sets its timer. -/
def sets (secOfDay : Int) (time alarm : Option Int) (settime : Bool) (src : Source) : Bool :=
  src.type = .abstimer && secOfDay < TOTAL_DAY_SECONDS && (nebDaytimeAbsNearest time alarm).isSome &&
    src.inAction && settime

/-- An event that is handled is one of an attached source, for a timer of its present attachment. -/
def HandlesOwn (q : Epoll.State) (a : Epoll.Action) : Prop :=
  ∀ d ∈ q.fetching a, ∃ src ∈ q.sources d.ptr, src.qInUse = true ∧
    (src.type.isTimer = true → src.ctlEvent.data = some d)

/-- No timer is set anew between the wait that has fetched its event and the handling of it. -/
def KeepsTimers (s : State) : Action → Prop
  | .base a => HandlesOwn s.base a
  | .expire _ => True
  | .regulate p secOfDay time alarm settime =>
    ∀ src ∈ s.base.sources p, sets secOfDay time alarm settime src = true →
      waiting s.base p = false

/-! What a step does to one timer. -/

/-- The step attaches the timer source, detaches it or reads its timer. -/
inductive Resets (q : Epoll.State) (a : Epoll.Action) (p : Ptr) (src : Source) : Prop
  | attached {settime : Bool} (action : a = .attach p settime) (unattached : src.qInUse = false)
  | detached {toClose : Bool} (detaching : q.detaching a = some (p, src, toClose))
  | read {ok : Bool} {ne : NebEvdpEvent} {stage : Epoll.Stage} (action : a = .proceed ok)
      (ctl : q.ctl = .handle ne stage) (source : p = ne.source)

/-- What a step makes of the timer `fd`. -/
inductive After (s : State) (a : Epoll.Action) (fd : Fd) (n : Option Nat) : Prop
  | same (value : n = s.timers fd)
  | created {p : Ptr} {type : SourceType} (action : a = .newSource p type fd)
      (timer : type.isTimer = true) (value : n = some 0)
  | freed {p : Ptr} {src : Source} (action : a = .delSource p)
      (hsrc : s.base.sources p = some src) (timer : src.type.isTimer = true)
      (unattached : src.qInUse = false) (own : src.fd = fd) (value : n = none)
  | reset {p : Ptr} {src : Source} (hsrc : s.base.sources p = some src)
      (timer : src.type.isTimer = true) (own : src.fd = fd) (resets : Resets s.base a p src)
      (value : n = (s.timers fd).map (fun _ => 0))

private theorem settime_other {fd x : Fd} (timers : Timerfds) (h : x ≠ fd) :
    timerfdSettime fd timers x = timers x := Function.update_of_ne h _ _

private theorem settime_self (fd : Fd) (timers : Timerfds) :
    timerfdSettime fd timers fd = (timers fd).map (fun _ => 0) := Function.update_self ..

private theorem read_other {fd x : Fd} (timers : Timerfds) (h : x ≠ fd) :
    (timerfdRead fd timers).2 x = timers x := by
  unfold timerfdRead
  split
  · exact Function.update_of_ne h _ _
  · rfl

/-- A `read` leaves no expiration, whether it succeeds or not. -/
private theorem read_self (fd : Fd) (timers : Timerfds) :
    (timerfdRead fd timers).2 fd = (timers fd).map (fun _ => 0) := by
  unfold timerfdRead
  split
  · rename_i heq
    simp [heq]
  · rename_i hne
    cases h : timers fd with
    | none => exact h
    | some n =>
      cases n with
      | zero => exact h
      | succ n => exact absurd h (hne n)

private theorem detaching_source {q : Epoll.State} {a : Epoll.Action} {p : Ptr} {src : Source}
    {toClose : Bool} (h : q.detaching a = some (p, src, toClose)) : q.sources p = some src := by
  cases a with
  | detach r b =>
    simp only [Epoll.State.detaching, Option.map_eq_some_iff, Option.filter_eq_some_iff,
      Prod.mk.injEq] at h
    obtain ⟨src', ⟨hsrc, -⟩, rfl, rfl, rfl⟩ := h
    exact hsrc
  | proceed ok =>
    simp only [Epoll.State.detaching] at h
    split at h
    · simp only [Option.map_eq_some_iff, Prod.mk.injEq] at h
      obtain ⟨src', hsrc, rfl, rfl, rfl⟩ := h
      exact hsrc
    · simp only [Option.map_eq_some_iff, Prod.mk.injEq] at h
      obtain ⟨src', hsrc, rfl, rfl, rfl⟩ := h
      exact hsrc
    · cases h
  | _ => cases h

private theorem handled_cases (s : State) (a : Epoll.Action) (fd : Fd) :
    After s a fd (s.timersHandled a fd) := by
  unfold State.timersHandled
  cases hread : reading s.base a with
  | some src =>
    cases a with
    | proceed ok =>
      cases ctl : s.base.ctl with
      | handle ne stage =>
        simp only [reading, ctl, Option.filter_eq_some_iff] at hread
        by_cases hfd : fd = src.fd
        · subst hfd
          simp only [read_self]
          exact .reset hread.1 hread.2 rfl (.read rfl ctl rfl) rfl
        · simp only [read_other s.timers hfd]
          exact .same rfl
      | _ => simp [reading, ctl] at hread
    | _ => cases hread
  | none =>
    cases hdet : s.base.detaching a with
    | none => exact .same rfl
    | some f =>
      obtain ⟨p, src, toClose⟩ := f
      simp only
      by_cases timer : src.type.isTimer = true
      · rw [if_pos timer]
        unfold evdpSourceTimerDetach
        split_ifs
        · by_cases hfd : fd = src.fd
          · subst hfd
            rw [settime_self]
            exact .reset (detaching_source hdet) timer rfl (.detached hdet) rfl
          · rw [settime_other s.timers hfd]
            exact .same rfl
        · exact .same rfl
      · rw [if_neg timer]
        exact .same rfl

theorem after_cases (s : State) (a : Epoll.Action) (fd : Fd) :
    After s a fd (s.timersAfter a fd) := by
  cases a with
  | newSource p type x =>
    simp only [State.timersAfter]
    split_ifs with timer
    · by_cases hfd : fd = x
      · subst hfd
        rw [Function.update_self]
        exact .created rfl timer rfl
      · rw [Function.update_of_ne hfd]
        exact .same rfl
    · exact .same rfl
  | delSource p =>
    simp only [State.timersAfter]
    cases hsrc : s.base.sources p with
    | none => exact .same rfl
    | some src =>
      simp only
      split_ifs with guard
      · simp only [Bool.and_eq_true, Bool.not_eq_true'] at guard
        by_cases hfd : fd = src.fd
        · subst hfd
          rw [Function.update_self]
          exact .freed rfl hsrc guard.1 guard.2 rfl rfl
        · rw [Function.update_of_ne hfd]
          exact .same rfl
      · exact .same rfl
  | attach p settime =>
    simp only [State.timersAfter]
    cases hsrc : s.base.sources p with
    | none => exact .same rfl
    | some src =>
      simp only [evdpSourceTimerAttach]
      split_ifs with guard
      · exact .same rfl
      · simp only [Bool.and_eq_true, Bool.not_eq_true'] at guard
        by_cases hfd : fd = src.fd
        · subst hfd
          rw [settime_self]
          exact .reset hsrc guard.1 rfl (.attached rfl guard.2) rfl
        · rw [settime_other s.timers hfd]
          exact .same rfl
      · exact .same rfl
      · exact .same rfl
  | _ => exact handled_cases s _ fd

/-! The present attachments of timers. -/

/-- `d` was given to the kernel by the present attachment of the timer source `src`. -/
structure TimerOf (q : Epoll.State) (d : Data) (src : Source) : Prop where
  hsrc : q.sources d.ptr = some src
  timer : src.type.isTimer = true
  attached : src.qInUse = true
  data : src.ctlEvent.data = some d

/-- The attachments are told apart, and each timer has one registration and one entry of a batch. -/
structure Numbered (q : Epoll.State) : Prop where
  sources : Epoll.Told q
  registered : ∀ fd r d, q.kernel.reg fd = some r → r.event.data = some d →
    d.attachment < q.attachments
  entries : ∀ j d, q.Holds j d → d.attachment < q.attachments
  own : ∀ fd r d src, q.kernel.reg fd = some r → r.event.data = some d → TimerOf q d src →
    src.fd = fd
  unique : ∀ j k d src, q.Holds j d → q.Holds k d → TimerOf q d src → j = k

section Numbered

variable {q q' : Epoll.State} {a : Epoll.Action} {d : Data} {src src' : Source}

/-- An attachment that is not new was there before. -/
private theorem TimerOf.before (after : TimerOf q' d src') (origins : Origins q a q')
    (old : d.attachment < q.attachments) : ∃ src, TimerOf q d src ∧ src.fd = src'.fd := by
  obtain ⟨hsrc, timer, attached, data⟩ := after
  cases origins.sources d.ptr src' hsrc with
  | heir src hsrc0 heir =>
    exact ⟨src, ⟨hsrc0, heir.type ▸ timer, heir.qInUse attached, heir.data ▸ data⟩,
      (heir.fd timer).symm⟩
  | joined src hsrc0 type fd new count =>
    rw [Option.some.inj (data.symm.trans new)] at old
    exact absurd old (lt_irrefl _)
  | created type fd action new free =>
    rw [new] at attached
    cases attached

/-- What a wait fetches is what is registered. -/
private theorem wait_holds (numbered : Numbered q) {evs : List (Fd × Epoll.Reported)}
    (h : Epoll.step q (.wait evs) = some q') {j : Nat} (holds : q'.Holds j d) :
    d.attachment < q.attachments ∧
      ∀ src, TimerOf q d src → ∃ ev, evs[j]? = some ev ∧ ev.1 = src.fd := by
  obtain ⟨-, -, -, fetches⟩ := Epoll.wait_origins h
  obtain ⟨ev, r, hev, hr, hdata⟩ := fetches j d holds
  exact ⟨numbered.registered ev.1 r d hr hdata,
    fun src timer => ⟨ev, hev, (numbered.own ev.1 r d src hr hdata timer).symm⟩⟩

private theorem Numbered.entry_before (numbered : Numbered q) (h : Epoll.step q a = some q')
    {j : Nat} (holds : q'.Holds j d) : d.attachment < q.attachments := by
  by_cases hwait : ∃ evs, a = .wait evs
  · obtain ⟨evs, rfl⟩ := hwait
    exact (wait_holds numbered h holds).1
  · exact numbered.entries j d
      ((Epoll.step_origins h).entries (fun evs heq => hwait ⟨evs, heq⟩) j d holds)

theorem Numbered.ofStep (numbered : Numbered q) (h : Epoll.step q a = some q') : Numbered q' := by
  have origins := Epoll.step_origins h
  have le := origins.attachments
  have registered : ∀ fd r d, q'.kernel.reg fd = some r → r.event.data = some d →
      d.attachment < q.attachments ∧ ∀ src, TimerOf q d src → src.fd = fd := by
    intro fd r d hr hdata
    rcases origins.registered fd r hr with ⟨r0, hr0, hsame⟩ | ⟨p, src, hsrc, hfd, hsame⟩
    · rw [← hsame] at hdata
      exact ⟨numbered.registered fd r0 d hr0 hdata, fun src => numbered.own fd r0 d src hr0 hdata⟩
    · rw [← hsame] at hdata
      obtain ⟨rfl, old⟩ := numbered.sources p src d hsrc hdata
      refine ⟨old, fun src' timer => ?_⟩
      obtain rfl := Option.some.inj (hsrc.symm.trans timer.hsrc)
      exact hfd
  refine ⟨numbered.sources.ofOrigins origins, ?_, ?_, ?_, ?_⟩
  · intro fd r d hr hdata
    exact lt_of_lt_of_le (registered fd r d hr hdata).1 le
  · intro j d holds
    exact lt_of_lt_of_le (numbered.entry_before h holds) le
  · intro fd r d src' hr hdata timer
    obtain ⟨old, own⟩ := registered fd r d hr hdata
    obtain ⟨src, timer0, hfd⟩ := timer.before origins old
    exact hfd.symm.trans (own src timer0)
  · intro j k d src' hj hk timer
    obtain ⟨src, timer0, -⟩ := timer.before origins (numbered.entry_before h hj)
    by_cases hwait : ∃ evs, a = .wait evs
    · obtain ⟨evs, rfl⟩ := hwait
      obtain ⟨-, nodup, -, -⟩ := Epoll.wait_origins h
      obtain ⟨ev, hev, hfd⟩ := (wait_holds numbered h hj).2 src timer0
      obtain ⟨ev', hev', hfd'⟩ := (wait_holds numbered h hk).2 src timer0
      have hj' : (evs.map Prod.fst)[j]? = some src.fd := by rw [List.getElem?_map, hev, ← hfd]; rfl
      have hk' : (evs.map Prod.fst)[k]? = some src.fd := by rw [List.getElem?_map, hev', ← hfd']; rfl
      exact (List.getElem?_inj (List.getElem?_eq_some_iff.mp hj').1 nodup).mp (hj'.trans hk'.symm)
    · have entries := origins.entries (fun evs heq => hwait ⟨evs, heq⟩)
      exact numbered.unique j k d src (entries j d hj) (entries k d hk) timer0

end Numbered

/-! The descriptors of timers. -/

/-- Every timer source has a timer of its own. -/
structure Owned (q : Epoll.State) (timers : Timerfds) : Prop where
  timer : ∀ p src, q.sources p = some src → src.type.isTimer = true → ∃ n, timers src.fd = some n
  opened : ∀ fd n, timers fd = some n → q.kernel.isOpen fd = true
  distinct : ∀ p r src src', q.sources p = some src → q.sources r = some src' →
    src.type.isTimer = true → src'.type.isTimer = true → src.fd = src'.fd → p = r

section Owned

variable {s : State} {q' : Epoll.State} {a : Epoll.Action}

/-- A timer source after a step was there before, or is new. -/
private theorem timer_before (h : Epoll.step s.base a = some q') {p : Ptr} {src' : Source}
    (hsrc : q'.sources p = some src') (timer : src'.type.isTimer = true) :
    (∃ src, s.base.sources p = some src ∧ src.type.isTimer = true ∧ src.fd = src'.fd) ∨
      ∃ type, a = .newSource p type src'.fd ∧ type.isTimer = true := by
  cases (Epoll.step_origins h).sources p src' hsrc with
  | heir src hsrc0 heir => exact .inl ⟨src, hsrc0, heir.type ▸ timer, (heir.fd timer).symm⟩
  | joined src hsrc0 type fd new count => exact .inl ⟨src, hsrc0, type ▸ timer, fd.symm⟩
  | created type fd action new free =>
    subst new
    exact .inr ⟨type, action, timer⟩

/-- The timer of a source that is deleted is gone. -/
private theorem freed_none {p : Ptr} {src : Source} (hsrc : s.base.sources p = some src)
    (timer : src.type.isTimer = true) (unattached : src.qInUse = false) :
    s.timersAfter (.delSource p) src.fd = none := by
  simp [State.timersAfter, hsrc, timer, unattached]

/-- A timer that is there after a step was there before, or is new. -/
private theorem timer_old {fd : Fd} {n : Nat} (h : s.timersAfter a fd = some n) :
    (∃ m, s.timers fd = some m) ∨ ∃ p type, a = .newSource p type fd ∧ type.isTimer = true := by
  cases after_cases s a fd with
  | same value => exact .inl ⟨n, value.symm.trans h⟩
  | created action timer value => exact .inr ⟨_, _, action, timer⟩
  | freed action hsrc timer unattached own value =>
    rw [value] at h
    cases h
  | reset hsrc timer own resets value =>
    rw [value, Option.map_eq_some_iff] at h
    obtain ⟨m, hm, -⟩ := h
    exact .inl ⟨m, hm⟩

theorem Owned.ofStep (owned : Owned s.base s.timers) (allowed : s.allows a = true)
    (h : Epoll.step s.base a = some q') : Owned q' (s.timersAfter a) := by
  refine ⟨?_, ?_, ?_⟩
  · intro p src' hsrc timer
    rcases timer_before h hsrc timer with ⟨src, hsrc0, timer0, hfd⟩ | ⟨type, rfl, htype⟩
    · obtain ⟨n, hn⟩ := owned.timer p src hsrc0 timer0
      rw [hfd] at hn
      cases after_cases s a src'.fd with
      | same value => exact ⟨n, value.trans hn⟩
      | created action timer1 value => exact ⟨0, value⟩
      | @freed r src1 action hsrc1 timer1 unattached own value =>
        obtain rfl := owned.distinct r p src1 src hsrc1 hsrc0 timer1 timer0 (own.trans hfd.symm)
        subst action
        rw [Epoll.delSource_gone hsrc1 unattached h] at hsrc
        cases hsrc
      | reset hsrc1 timer1 own resets value => exact ⟨0, by rw [value, hn]; rfl⟩
    · exact ⟨0, by simp [State.timersAfter, htype]⟩
  · intro fd n hn
    rcases timer_old hn with ⟨m, hm⟩ | ⟨p, type, rfl, htype⟩
    · rcases (Epoll.step_origins h).isOpen fd (owned.opened fd m hm) with
        hopen | rfl | ⟨p, src, rfl, hsrc, timer, rfl⟩
      · exact hopen
      · simp [State.allows, hm] at allowed
      · by_cases unattached : src.qInUse = false
        · rw [freed_none hsrc timer unattached] at hn
          cases hn
        · simp only [Epoll.step, Epoll.State.call] at h
          split_ifs at h
          rw [hsrc, Option.map_some] at h
          obtain rfl := Option.some.inj h
          simpa [Epoll.nebEvdpSourceDel, unattached] using owned.opened src.fd m hm
    · exact (Epoll.newSource_opened htype h).2
  · intro p r src' src1' hsrc hsrc1 timer timer1 same
    have new : ∀ {x y : Ptr} {s1 s2 : Source} {type : SourceType},
        s.base.sources y = some s2 → s2.type.isTimer = true →
        a = .newSource x type s1.fd → type.isTimer = true → s2.fd ≠ s1.fd := by
      intro x y s1 s2 type hs2 htimer haction htype heq
      obtain ⟨n, hn⟩ := owned.timer y s2 hs2 htimer
      subst haction
      have hopen := owned.opened _ n hn
      rw [heq, (Epoll.newSource_opened htype h).1] at hopen
      cases hopen
    rcases timer_before h hsrc timer with ⟨src, hsrc0, timer0, hfd⟩ | ⟨type, haction, htype⟩
    · rcases timer_before h hsrc1 timer1 with ⟨src1, hsrc10, timer10, hfd1⟩ | ⟨type, haction, htype⟩
      · exact owned.distinct p r src src1 hsrc0 hsrc10 timer0 timer10
          (hfd.trans (same.trans hfd1.symm))
      · exact absurd (hfd.trans same) (new hsrc0 timer0 haction htype)
    · rcases timer_before h hsrc1 timer1 with ⟨src1, hsrc10, timer10, hfd1⟩ | ⟨type1, haction1, -⟩
      · exact absurd (hfd1.trans same.symm) (new hsrc10 timer10 haction htype)
      · rw [haction, Epoll.Action.newSource.injEq] at haction1
        exact haction1.1

end Owned

/-! The invariant. -/

/-- The timer has expired since it was set or read. -/
def Expired (timers : Timerfds) (fd : Fd) : Prop := ∃ n, timers fd = some (n + 1)

/-- The timers of the events that are still to be handled have expired. -/
structure Inv (s : State) : Prop where
  base : ∃ P R, Epoll.Base s.base P R
  numbered : Numbered s.base
  owned : Owned s.base s.timers
  fetched : ∀ i, s.base.ctl.upcoming = some i → ∀ j, i ≤ j → ∀ d src, s.base.Holds j d →
    TimerOf s.base d src → Expired s.timers src.fd
  handling : ∀ ne stage, s.base.ctl = .handle ne stage → ∀ src, s.base.sources ne.source = some src →
    src.type.isTimer = true →
      Expired s.timers src.fd ∧ ∃ d, src.ctlEvent.data = some d ∧ s.base.Holds ne.index d
  callback : ∀ ne stage, s.base.ctl = .callback ne stage → s.base.HandlesTimer ne → stage = .last
  broke : ∀ ne, s.base.ctl = .finish ne .breakErr → s.userBroke = true
  sound : Sound s

section Step

variable {s : State} {q' : Epoll.State} {a : Epoll.Action}

/-- The program goes on in its batch. -/
private theorem upcoming_before (h : Epoll.step s.base a = some q') (wait : ∀ evs, a ≠ .wait evs)
    {i' : Nat} (upcoming : q'.ctl.upcoming = some i') :
    ∃ i, s.base.ctl.upcoming = some i ∧ i ≤ i' := by
  have same : ∀ {ne : NebEvdpEvent}, s.base.ctl.event = some ne →
      s.base.ctl.upcoming = some (ne.index + 1) := by
    intro ne event
    cases ctl : s.base.ctl <;> simp_all [Epoll.Ctl.event, Epoll.Ctl.upcoming]
  have progress := Epoll.step_progress h
  generalize hc : q'.ctl = c at progress upcoming
  cases progress with
  | turn turn => exact ⟨i', upcoming, le_rfl⟩
  | outside none event =>
    rw [none] at upcoming
    cases upcoming
  | @fetched i e d src ctl entry data hsrc fetching =>
    obtain rfl := Option.some.inj upcoming
    exact ⟨i, by rw [ctl]; rfl, Nat.le_succ i⟩
  | waited action => exact absurd action (wait _)
  | @next i j before le =>
    obtain rfl := Option.some.inj upcoming
    exact ⟨i, before, le⟩
  | @removed ne event =>
    obtain rfl := Option.some.inj upcoming
    exact ⟨_, same event, le_rfl⟩
  | @called ne stage stage' ctl timer =>
    obtain rfl := Option.some.inj upcoming
    exact ⟨_, same (by rw [ctl]; rfl), le_rfl⟩
  | @handled ne stage stage' ctl other =>
    obtain rfl := Option.some.inj upcoming
    exact ⟨_, same (by rw [ctl]; rfl), le_rfl⟩
  | @returned ne stage stage' ctl notLast =>
    obtain rfl := Option.some.inj upcoming
    exact ⟨_, same (by rw [ctl]; rfl), le_rfl⟩
  | @finished ne ret event broke =>
    obtain rfl := Option.some.inj upcoming
    exact ⟨_, same event, le_rfl⟩

/-- A step that is no wait keeps the expirations for the events to come. -/
private theorem Inv.keeps_expired (inv : Inv s) (h : Epoll.step s.base a = some q')
    (wait : ∀ evs, a ≠ .wait evs) {i j : Nat} (upcoming : q'.ctl.upcoming = some i) (le : i ≤ j)
    {d : Data} {src' : Source} (holds : q'.Holds j d) (timer' : TimerOf q' d src') :
    Expired (s.timersAfter a) src'.fd := by
  have origins := Epoll.step_origins h
  obtain ⟨src, timer, hfd⟩ := timer'.before origins (inv.numbered.entry_before h holds)
  have holds0 := origins.entries wait j d holds
  obtain ⟨i0, upcoming0, le0⟩ := upcoming_before h wait upcoming
  obtain ⟨n, hn⟩ := inv.fetched i0 upcoming0 j (le0.trans le) d src holds0 timer
  rw [← hfd]
  -- whatever resets this timer concerns this source
  have mine : ∀ p src1, s.base.sources p = some src1 → src1.type.isTimer = true →
      src1.fd = src.fd → p = d.ptr ∧ src1 = src := by
    intro p src1 hsrc1 timer1 own
    obtain rfl := inv.owned.distinct p d.ptr src1 src hsrc1 timer.hsrc timer1 timer.timer own
    exact ⟨rfl, Option.some.inj (hsrc1.symm.trans timer.hsrc)⟩
  cases after_cases s a src.fd with
  | same value => exact ⟨n, value.trans hn⟩
  | created action timer1 value =>
    subst action
    have hopen := inv.owned.opened _ _ hn
    rw [(Epoll.newSource_opened timer1 h).1] at hopen
    cases hopen
  | freed action hsrc1 timer1 unattached own value =>
    obtain ⟨-, rfl⟩ := mine _ _ hsrc1 timer1 own
    rw [timer.attached] at unattached
    cases unattached
  | reset hsrc1 timer1 own resets value =>
    obtain ⟨rfl, rfl⟩ := mine _ _ hsrc1 timer1 own
    cases resets with
    | attached action unattached =>
      rw [timer.attached] at unattached
      cases unattached
    | detached detaching =>
      have gone := Epoll.detaching_gone detaching h timer'.hsrc
      rw [timer'.attached] at gone
      cases gone
    | @read ok ne stage action ctl source =>
      obtain ⟨-, d0, hd0, holdsd0⟩ := inv.handling ne stage ctl _ (source ▸ timer.hsrc) timer.timer
      obtain rfl := Option.some.inj (hd0.symm.trans timer.data)
      have hj := inv.numbered.unique j ne.index d0 _ holds0 holdsd0 timer
      rw [ctl] at upcoming0
      obtain rfl := Option.some.inj upcoming0
      omega

/-- A wait fetches events of timers that have expired. -/
private theorem Inv.wait_expired (inv : Inv s) {evs : List (Fd × Epoll.Reported)}
    (allowed : s.allows (.wait evs) = true) (h : Epoll.step s.base (.wait evs) = some q') {j : Nat}
    {d : Data} {src : Source} (holds : q'.Holds j d) (timer' : TimerOf q' d src) :
    Expired (s.timersAfter (.wait evs)) src.fd := by
  obtain ⟨sources, -, -, -⟩ := Epoll.wait_origins h
  have timer : TimerOf s.base d src := ⟨sources ▸ timer'.hsrc, timer'.timer, timer'.attached,
    timer'.data⟩
  obtain ⟨ev, hev, hfd⟩ := (wait_holds inv.numbered h holds).2 src timer
  obtain ⟨n, hn⟩ := inv.owned.timer d.ptr src timer.hsrc timer.timer
  have hne : s.timers ev.1 ≠ some 0 := by
    simpa using List.all_eq_true.mp allowed ev (List.mem_of_getElem? hev)
  rw [hfd, hn] at hne
  cases n with
  | zero => exact absurd rfl hne
  | succ n => exact ⟨n, hn⟩

/-- The source that is handled is a timer from the beginning. -/
private theorem handlesTimer_before (inv : Inv s) (h : Epoll.step s.base a = some q')
    {ne : NebEvdpEvent} (event : s.base.ctl.event = some ne) (timer : q'.HandlesTimer ne) :
    s.base.HandlesTimer ne := by
  obtain ⟨src', hsrc, htimer⟩ := timer
  obtain ⟨P, R, base⟩ := inv.base
  obtain ⟨src0, hsrc0, -⟩ := base.handled ne event
  cases (Epoll.step_origins h).sources ne.source src' hsrc with
  | heir src hsrc0 heir => exact ⟨src, hsrc0, heir.type ▸ htimer⟩
  | joined src hsrc0 type fd new count => exact ⟨src, hsrc0, type ▸ htimer⟩
  | created type fd action new free =>
    rw [hsrc0] at free
    cases free

private theorem Inv.handling_step (inv : Inv s) (own : HandlesOwn s.base a)
    (h : Epoll.step s.base a = some q') {ne : NebEvdpEvent} {stage : Epoll.Stage}
    (ctl' : q'.ctl = .handle ne stage) {src' : Source} (hsrc' : q'.sources ne.source = some src')
    (timer : src'.type.isTimer = true) :
    Expired (s.timersAfter a) src'.fd ∧
      ∃ d, src'.ctlEvent.data = some d ∧ q'.Holds ne.index d := by
  have progress := Epoll.step_progress h
  rw [ctl'] at progress
  generalize hc : (Epoll.Ctl.handle ne stage) = c at progress
  cases progress with
  | turn turn =>
    rw [← hc] at turn
    cases turn
  | outside upcoming event =>
    rw [← hc] at event
    cases event
  | @fetched i e d src ctl entry data hsrc fetching =>
    obtain ⟨rfl, rfl⟩ := Epoll.Ctl.handle.inj hc
    obtain ⟨src0, hsrc0, attached, hown⟩ := own d fetching
    obtain rfl := Option.some.inj (hsrc.symm.trans hsrc0)
    obtain ⟨hee, src1, hsrc1, stays⟩ := Epoll.fetch_keeps ctl entry data hsrc fetching h
    obtain rfl := Option.some.inj (hsrc1.symm.trans hsrc')
    have timerOf : TimerOf s.base d src := ⟨hsrc, stays.type ▸ timer, attached,
      hown (stays.type ▸ timer)⟩
    obtain ⟨n, hn⟩ := inv.fetched i (by rw [ctl]; rfl) i le_rfl d src ⟨e, entry, data⟩ timerOf
    refine ⟨⟨n, ?_⟩, d, stays.data.trans timerOf.data, e, hee ▸ entry, data⟩
    cases a with
    | proceed ok =>
      simpa [State.timersAfter, State.timersHandled, reading, Epoll.State.detaching, ctl,
        stays.fd] using hn
    | _ => cases fetching
  | waited action => cases hc
  | next upcoming le => cases hc
  | removed event => cases hc
  | called ctl timer' => cases hc
  | handled ctl other =>
    obtain ⟨rfl, -⟩ := Epoll.Ctl.handle.inj hc
    exact absurd (handlesTimer_before inv h (by rw [ctl]; rfl) ⟨src', hsrc', timer⟩) other
  | returned ctl notLast =>
    obtain ⟨rfl, -⟩ := Epoll.Ctl.handle.inj hc
    exact absurd (inv.callback _ _ ctl
      (handlesTimer_before inv h (by rw [ctl]; rfl) ⟨src', hsrc', timer⟩)) notLast
  | finished event broke => cases hc

private theorem Inv.callback_step (inv : Inv s) (h : Epoll.step s.base a = some q')
    {ne : NebEvdpEvent} {stage : Epoll.Stage} (ctl' : q'.ctl = .callback ne stage)
    (timer : q'.HandlesTimer ne) : stage = .last := by
  have progress := Epoll.step_progress h
  rw [ctl'] at progress
  generalize hc : (Epoll.Ctl.callback ne stage) = c at progress
  cases progress with
  | turn turn =>
    have ctl := hc.symm
    exact inv.callback ne stage ctl (handlesTimer_before inv h (by rw [ctl]; rfl) timer)
  | outside upcoming event =>
    rw [← hc] at event
    cases event
  | called ctl last =>
    obtain ⟨rfl, rfl⟩ := Epoll.Ctl.callback.inj hc
    exact last (handlesTimer_before inv h (by rw [ctl]; rfl) timer)
  | _ => cases hc

private theorem Inv.broke_step (inv : Inv s) (allowed : s.allows a = true)
    (h : Epoll.step s.base a = some q') {ne : NebEvdpEvent} (ctl' : q'.ctl = .finish ne .breakErr) :
    s.userBrokeAfter a = true := by
  have progress := Epoll.step_progress h
  rw [ctl'] at progress
  generalize hc : (Epoll.Ctl.finish ne .breakErr) = c at progress
  cases progress with
  | turn turn =>
    rw [← hc] at turn
    cases turn
  | outside upcoming event =>
    rw [← hc] at event
    cases event
  | finished event broke =>
    obtain ⟨rfl, rfl⟩ := Epoll.Ctl.finish.inj hc
    rcases broke rfl with rfl | ⟨rfl, ⟨src, hsrc, timer⟩, stage, ctl⟩
    · rfl
    · -- the `read` does not fail
      obtain ⟨⟨n, hn⟩, -⟩ := inv.handling ne stage ctl src hsrc timer
      have hread : reading s.base (.proceed false) = some src := by
        simp only [reading, ctl, hsrc, Option.filter_some, timer, if_true]
      have hok : (timerfdRead src.fd s.timers).1 = true := by
        unfold timerfdRead
        rw [hn]
      simp [State.allows, hread, hok] at allowed
  | _ => cases hc

private theorem Inv.sound_step (inv : Inv s) (a : Epoll.Action)
    (returned : s.returnedAfter a = some (-1)) : s.userBrokeAfter a = true := by
  cases a with
  | run => cases returned
  | cbReturn ret =>
    have := inv.sound returned
    simp [State.userBrokeAfter, this]
  | proceed ok =>
    simp only [State.returnedAfter] at returned
    split at returned
    · exact inv.broke _ ‹_›
    · cases returned
    · exact inv.sound returned
  | _ => exact inv.sound returned

/-- A step of the queue. -/
theorem Inv.base_step (inv : Inv s) (own : HandlesOwn s.base a) (allowed : s.allows a = true)
    (h : Epoll.step s.base a = some q') :
    Inv ⟨q', s.timersAfter a, s.returnedAfter a, s.userBrokeAfter a⟩ where
  base := by
    obtain ⟨P, R, base⟩ := inv.base
    have fetches : Epoll.FetchesAttached s.base a := by
      intro d hd
      obtain ⟨src, hsrc, attached, -⟩ := own d hd
      exact ⟨src, hsrc, attached⟩
    obtain ⟨P', R', base', -⟩ := base.ofStep fetches h
    exact ⟨P', R', base'⟩
  numbered := inv.numbered.ofStep h
  owned := inv.owned.ofStep allowed h
  fetched := by
    intro i upcoming j le d src holds timer
    by_cases hwait : ∃ evs, a = .wait evs
    · obtain ⟨evs, rfl⟩ := hwait
      exact inv.wait_expired allowed h holds timer
    · exact inv.keeps_expired h (fun evs heq => hwait ⟨evs, heq⟩) upcoming le holds timer
  handling := fun _ _ ctl' _ hsrc' timer => inv.handling_step own h ctl' hsrc' timer
  callback := fun _ _ ctl' timer => inv.callback_step h ctl' timer
  broke := fun _ ctl' => inv.broke_step allowed h ctl'
  sound := inv.sound_step a

/-- The timers change and the queue does not. -/
private theorem Inv.timers_step (inv : Inv s) {timers : Timerfds}
    (same : ∀ fd, (timers fd).isSome = (s.timers fd).isSome)
    (fetched : ∀ i, s.base.ctl.upcoming = some i → ∀ j, i ≤ j → ∀ d src, s.base.Holds j d →
      TimerOf s.base d src → Expired s.timers src.fd → Expired timers src.fd)
    (handling : ∀ ne stage, s.base.ctl = .handle ne stage → ∀ fd, Expired s.timers fd →
      Expired timers fd) : Inv { s with timers := timers } where
  base := inv.base
  numbered := inv.numbered
  owned := by
    have some_iff : ∀ fd, (∃ n, timers fd = some n) ↔ ∃ n, s.timers fd = some n := by
      intro fd
      rw [← Option.isSome_iff_exists, ← Option.isSome_iff_exists, same fd]
    refine ⟨?_, ?_, inv.owned.distinct⟩
    · intro p src hsrc timer
      exact (some_iff src.fd).mpr (inv.owned.timer p src hsrc timer)
    · intro fd n hn
      obtain ⟨m, hm⟩ := (some_iff fd).mp ⟨n, hn⟩
      exact inv.owned.opened fd m hm
  fetched := by
    intro i upcoming j le d src holds timer
    exact fetched i upcoming j le d src holds timer
      (inv.fetched i upcoming j le d src holds timer)
  handling := by
    intro ne stage ctl src hsrc timer
    obtain ⟨expired, rest⟩ := inv.handling ne stage ctl src hsrc timer
    exact ⟨handling ne stage ctl src.fd expired, rest⟩
  callback := inv.callback
  broke := inv.broke
  sound := inv.sound

/-- What regulating does to the timers. -/
theorem regulate_timers (secOfDay : Int) (time alarm : Option Int) (settime : Bool) (src : Source)
    (timers : Timerfds) :
    (nebEvdpSourceAbstimerRegulate secOfDay time alarm settime src timers).2 = timers ∨
      sets secOfDay time alarm settime src = true ∧
        (nebEvdpSourceAbstimerRegulate secOfDay time alarm settime src timers).2 =
          timerfdSettime src.fd timers := by
  have inner : (evdpSourceAbstimerRegulate time alarm settime src timers).2 = timers ∨
      ((nebDaytimeAbsNearest time alarm).isSome = true ∧ src.inAction = true ∧ settime = true) ∧
        (evdpSourceAbstimerRegulate time alarm settime src timers).2 =
          timerfdSettime src.fd timers := by
    unfold evdpSourceAbstimerRegulate
    cases nebDaytimeAbsNearest time alarm with
    | none => exact .inl rfl
    | some absTs =>
      simp only
      split_ifs with inAction hset
      · exact .inr ⟨⟨rfl, inAction, hset⟩, rfl⟩
      · exact .inl rfl
      · exact .inl rfl
  unfold nebEvdpSourceAbstimerRegulate sets
  have total : (0 : Int) < TOTAL_DAY_SECONDS := by decide
  split_ifs with type pos big
  · exact .inl rfl
  · exact .inl rfl
  · rcases inner with h | ⟨⟨hnear, haction, hset⟩, h⟩
    · exact .inl h
    · exact .inr ⟨by simp [not_not.mp type, hnear, haction, hset, not_le.mp big], h⟩
  · rcases inner with h | ⟨⟨hnear, haction, hset⟩, h⟩
    · exact .inl h
    · have hday : secOfDay < TOTAL_DAY_SECONDS := by omega
      exact .inr ⟨by simp [not_not.mp type, hnear, haction, hset, hday], h⟩

/-- An event to come makes its source wait. -/
private theorem waiting_of_holds {q : Epoll.State} {i j : Nat} {d : Data}
    (upcoming : q.ctl.upcoming = some i) (le : i ≤ j) (holds : q.Holds j d) :
    waiting q d.ptr = true := by
  obtain ⟨e, he, hd⟩ := holds
  simp only [waiting, upcoming]
  refine List.any_eq_true.mpr ⟨e, ?_, by simp [hd]⟩
  refine List.mem_of_getElem? (i := j - i) ?_
  rw [List.getElem?_drop, show i + (j - i) = j by omega]
  exact he

/-- Every step that sets no timer with a waiting event keeps the invariant. -/
theorem Inv.ofStep {s s' : State} {a : Action} (inv : Inv s) (keeps : KeepsTimers s a)
    (h : step s a = some s') : Inv s' := by
  cases a with
  | base a =>
    simp only [step] at h
    split_ifs at h with allowed
    obtain ⟨q, hq, rfl⟩ := Option.map_eq_some_iff.mp h
    exact inv.base_step keeps allowed hq
  | expire fd =>
    obtain ⟨n, hn, rfl⟩ := Option.map_eq_some_iff.mp h
    have grows : ∀ x, Expired s.timers x →
        Expired (Function.update s.timers fd (some (n + 1))) x := by
      rintro x ⟨m, hm⟩
      by_cases hx : x = fd
      · exact ⟨n, by rw [hx, Function.update_self]⟩
      · exact ⟨m, by rw [Function.update_of_ne hx, hm]⟩
    refine inv.timers_step ?_ (fun _ _ _ _ _ src _ _ => grows src.fd) (fun _ _ _ => grows)
    intro x
    by_cases hx : x = fd
    · subst hx
      simp [hn]
    · rw [Function.update_of_ne hx]
  | regulate p secOfDay time alarm settime =>
    simp only [step] at h
    split_ifs at h with turn
    obtain ⟨src, hsrc, rfl⟩ := Option.map_eq_some_iff.mp h
    rcases regulate_timers secOfDay time alarm settime src s.timers with hsame | ⟨hsets, hset⟩
    · rw [hsame]
      exact inv
    · rw [hset]
      have quiet := keeps src hsrc hsets
      have timer : src.type.isTimer = true := by
        simp only [sets, Bool.and_eq_true, decide_eq_true_eq] at hsets
        rw [hsets.1.1.1.1]
        rfl
      refine inv.timers_step ?_ ?_ ?_
      · intro x
        by_cases hx : x = src.fd
        · rw [hx, settime_self, Option.isSome_map]
        · rw [settime_other s.timers hx]
      · rintro i upcoming j le d src1 holds timer1 ⟨n, hn⟩
        by_cases hfd : src1.fd = src.fd
        · -- it is the source itself, which does not wait
          obtain rfl := inv.owned.distinct d.ptr p src1 src timer1.hsrc hsrc timer1.timer timer hfd
          rw [waiting_of_holds upcoming le holds] at quiet
          cases quiet
        · exact ⟨n, (settime_other s.timers hfd).trans hn⟩
      · intro ne stage ctl
        rw [ctl] at turn
        cases turn

end Step

theorem Inv.create (batchSize : Nat) : Inv (nebEvdpQueueCreate batchSize) where
  base := ⟨[], [], (Epoll.Base.create batchSize).1⟩
  numbered := by
    refine ⟨Epoll.Told.create batchSize, ?_, ?_, ?_, ?_⟩ <;>
      simp [nebEvdpQueueCreate, Epoll.nebEvdpQueueCreate, Epoll.State.Holds]
  owned := by
    refine ⟨?_, ?_, ?_⟩ <;> simp [nebEvdpQueueCreate, Epoll.nebEvdpQueueCreate]
  fetched := by
    rintro i ⟨⟩
  handling := by
    rintro ne stage ⟨⟩
  callback := by
    rintro ne stage ⟨⟩
  broke := by
    rintro ne ⟨⟩
  sound := by
    rintro ⟨⟩

/-- In every run in which no timer is set anew while its event waits to be handled, and no event of
a former attachment is handled, handling events breaks the loop only if a callback asks for it. -/
theorem nebEvdpSourceAbstimerRegulate_sound (batchSize : Nat) (as : List Action) (s : State)
    (keeps : Machine.StepsMeet step KeepsTimers (nebEvdpQueueCreate batchSize) as)
    (reached : Machine.run step (nebEvdpQueueCreate batchSize) as = some s) : Sound s :=
  (Machine.invariant_run (fun _ _ _ inv ok h => Inv.ofStep inv ok h) (Inv.create batchSize) keeps
    reached).sound

instance (q : Epoll.State) (a : Epoll.Action) : Decidable (HandlesOwn q a) :=
  inferInstanceAs (Decidable (∀ d ∈ q.fetching a, ∃ src ∈ q.sources d.ptr, src.qInUse = true ∧
    (src.type.isTimer = true → src.ctlEvent.data = some d)))

instance (s : State) (a : Action) : Decidable (KeepsTimers s a) :=
  match a with
  | .base a => inferInstanceAs (Decidable (HandlesOwn s.base a))
  | .expire _ => isTrue trivial
  | .regulate p secOfDay time alarm settime =>
    inferInstanceAs (Decidable (∀ src ∈ s.base.sources p,
      sets secOfDay time alarm settime src = true → waiting s.base p = false))

/-- An os_fd source and an abstimer are attached and flushed. -/
def socketAndTimer : List Action :=
  [.base (.openFd 5), .base (.newSource 1 .osFd 5), .base (.nextRead 1 (some 0) true),
    .base (.newSource 2 .abstimer 6), .regulate 2 60 (some 0) (some 60) true,
    .base (.attach 1 true), .base (.attach 2 true),
    .base .run, .base (.flush true), .base (.flush true), .base (.flush true)]

/-- The timer is regulated in the read callback of the os_fd source, for the next day. -/
def regulateInCallback : List Action :=
  [.base (.proceed true), .base (.proceed true), .regulate 2 (-1) (some 70) (some 60) true,
    .base (.cbReturn .continue), .base (.proceed true), .base (.proceed true),
    .base (.proceed true), .base (.proceed true)]

theorem nebEvdpSourceAbstimerRegulate_sound_alone :
    ∃ s, Machine.run step (nebEvdpQueueCreate 10) (socketAndTimer ++
      [.expire 6, .base (.wait [(5, ⟨true, false, false⟩)])] ++ regulateInCallback ++
        [.base (.proceed true)]) = some s ∧ Sound s := by
  obtain ⟨s, hs, -⟩ : ∃ s, Machine.run step (nebEvdpQueueCreate 10) (socketAndTimer ++
      [.expire 6, .base (.wait [(5, ⟨true, false, false⟩)])] ++ regulateInCallback ++
        [.base (.proceed true)]) = some s ∧ s.base.ctl = .user :=
    Machine.run_reaches (by decide)
  exact ⟨s, hs, nebEvdpSourceAbstimerRegulate_sound 10 _ s (by decide) hs⟩

/-- The timer has expired, and its event is in the batch, when the callback runs. -/
theorem nebEvdpSourceAbstimerRegulate_sound_fails :
    ¬ ∀ (batchSize : Nat) (as : List Action) (s : State),
      Machine.run step (nebEvdpQueueCreate batchSize) as = some s → Sound s := by
  intro claim
  obtain ⟨s, hs, hfacts⟩ : ∃ s, Machine.run step (nebEvdpQueueCreate 10) (socketAndTimer ++
      [.expire 6, .base (.wait [(5, ⟨true, false, false⟩), (6, ⟨true, false, false⟩)])] ++
      regulateInCallback ++
        [.base (.proceed true), .base (.proceed false), .base (.proceed true)]) = some s ∧
      (s.returned, s.userBroke) = (some (-1), false) :=
    Machine.run_reaches (by decide)
  obtain ⟨returned, broke⟩ := Prod.mk.inj hfacts
  have := claim 10 _ s hs returned
  rw [broke] at this
  cases this

end Nebase.Evdp.Expirations
