/- The system timer sources of the drivers that use timerfd: what attaching, detaching and
   regulating do to the timer, over every history of one source. -/

import Nebase.Foundation.Machine
import Nebase.Time.Timespec

set_option autoImplicit false
set_option relaxedAutoImplicit false

namespace Nebase.Evdp.SysTimer

open Nebase.Foundation
open Nebase.Time (Timespec)

/-- `struct itimerspec`. -/
structure Itimerspec where
  itValue : Timespec
  itInterval : Timespec
  deriving DecidableEq

inductive Driver
  | epoll
  | aioPoll
  | ioUring

inductive SourceType
  | itimerSec
  | itimerMsec
  | abstimer
  deriving DecidableEq

/-- A timer source with its configuration and its context. `polled` is the driver's `added` or
`submitted`. `programmed` is a ghost: the successful `timerfd_settime` calls, latest first, with
`TFD_TIMER_ABSTIME`. -/
structure Source where
  type : SourceType
  secOfDay : Int
  qInUse : Bool
  pending : Bool
  its : Itimerspec
  inAction : Bool
  polled : Bool
  programmed : List (Bool × Itimerspec)

/-- `timerfd_settime`. -/
def Source.settime (src : Source) (abstime : Bool) : Source :=
  { src with programmed := (abstime, src.its) :: src.programmed }

/-! Creation. -/

def TOTAL_DAY_SECONDS : Int := 24 * 3600

/-- The loop of `neb_daytime_abs_nearest`, with `k` iterations left. -/
def alarmLoop (curr : Int) : Nat → Int → Int
  | 0, alarm => alarm
  | k + 1, alarm => if alarm ≤ curr then alarmLoop curr k (alarm + 24 * 60 * 60) else alarm

/-- `abs_ts` of `neb_daytime_abs_nearest`; `time` is the result of `time(NULL)`, and `alarm` that of
`mktime`. -/
def nebDaytimeAbsNearest (time alarm : Option Int) : Option Int :=
  time.bind (fun curr => alarm.map (fun a => alarmLoop curr ((curr - a).toNat + 1) a))

/-- The context of a timer source: nothing of it is in use yet. -/
def evdpCreateSourceTimerContext (type : SourceType) (secOfDay : Int) (its : Itimerspec) :
    Source where
  type := type
  secOfDay := secOfDay
  qInUse := false
  pending := false
  its := its
  inAction := false
  polled := false
  programmed := []

def nebEvdpSourceNewItimerS (val : Int) : Source :=
  evdpCreateSourceTimerContext .itimerSec 0 ⟨⟨val, 0⟩, ⟨val, 0⟩⟩

def nebEvdpSourceNewItimerMs (val : Int) : Source :=
  evdpCreateSourceTimerContext .itimerMsec 0 ⟨⟨0, val * 1000000⟩, ⟨0, val * 1000000⟩⟩

/-- `settime` says that `timerfd_settime` succeeds. -/
def evdpSourceAbstimerRegulate (time alarm : Option Int) (settime : Bool) (src : Source) :
    Int × Source :=
  match nebDaytimeAbsNearest time alarm with
  | none => (-1, src)
  | some absTs =>
    let src := { src with its := { src.its with itValue := ⟨absTs, 0⟩ } }
    if src.inAction then
      if settime then (0, src.settime true) else (-1, src)
    else
      (0, src)

def nebEvdpSourceNewAbstimer (secOfDay : Int) (time alarm : Option Int) : Option Source :=
  if secOfDay < 0 ∨ secOfDay ≥ TOTAL_DAY_SECONDS then
    none
  else
    let src := evdpCreateSourceTimerContext .abstimer secOfDay
      ⟨⟨0, 0⟩, ⟨TOTAL_DAY_SECONDS, 0⟩⟩
    let (r, src) := evdpSourceAbstimerRegulate time alarm true src
    if r = 0 then some src else none

def nebEvdpSourceAbstimerRegulate (secOfDay : Int) (time alarm : Option Int) (settime : Bool)
    (src : Source) : Int × Source :=
  if src.type ≠ .abstimer then
    (-1, src)
  else if secOfDay ≥ 0 then
    if secOfDay ≥ TOTAL_DAY_SECONDS then
      (-1, src)
    else
      evdpSourceAbstimerRegulate time alarm settime { src with secOfDay := secOfDay }
  else
    evdpSourceAbstimerRegulate time alarm settime src

/-! Attaching and detaching. -/

/-- The attach function of a timer source; it ends with the poll request of its driver, which the
flush makes. -/
def evdpSourceTimerAttach (abstime settime : Bool) (src : Source) : Int × Source :=
  if src.inAction then
    (0, { src with pending := true })
  else if settime then
    (0, { src.settime abstime with inAction := true, pending := true })
  else
    (-1, src)

def evdpSourceItimerAttach (settime : Bool) (src : Source) : Int × Source :=
  evdpSourceTimerAttach false settime src

def evdpSourceAbstimerAttach (settime : Bool) (src : Source) : Int × Source :=
  evdpSourceTimerAttach true settime src

/-- The detach function of a timer source: the timer is disarmed by its own `its`. -/
def evdpSourceTimerDetach (abstime settime : Bool) (src : Source) : Source :=
  let src :=
    if src.inAction then
      let src := { src with its := { src.its with itValue := ⟨0, 0⟩ } }
      { (if settime then src.settime abstime else src) with inAction := false }
    else
      src
  { src with polled := false }

def evdpSourceItimerDetach (settime : Bool) (src : Source) : Source :=
  evdpSourceTimerDetach false settime src

def evdpSourceAbstimerDetach (settime : Bool) (src : Source) : Source :=
  evdpSourceTimerDetach true settime src

def nebEvdpQueueAttach (settime : Bool) (src : Source) : Int × Source :=
  if src.qInUse then
    (-1, src)
  else
    let (r, src') := match src.type with
      | .itimerSec => evdpSourceItimerAttach settime { src with qInUse := true }
      | .itimerMsec => evdpSourceItimerAttach settime { src with qInUse := true }
      | .abstimer => evdpSourceAbstimerAttach settime { src with qInUse := true }
    if r = 0 then (0, src') else (-1, src)

def nebEvdpQueueDetach (settime : Bool) (src : Source) : Int × Source :=
  if src.qInUse then
    let src := match src.type with
      | .itimerSec => evdpSourceItimerDetach settime src
      | .itimerMsec => evdpSourceItimerDetach settime src
      | .abstimer => evdpSourceAbstimerDetach settime src
    (0, { src with pending := false, qInUse := false })
  else
    (-1, src)

/-- `evdp_source_itimer_handle` and `evdp_source_abstimer_handle`; a callback that they call returns
`NEB_EVDP_CB_CONTINUE`. -/
def evdpSourceTimerHandle : Driver → Source → Source
  | .epoll, src => src
  | .aioPoll, src => { src with polled := false, pending := true }
  | .ioUring, src => { src with polled := false }

inductive Call
  | attach (settime : Bool)
  | detach (settime : Bool)
  | regulate (secOfDay : Int) (time alarm : Option Int) (settime : Bool)
  | flush
  | handle

def step (d : Driver) (src : Source) : Call → Option Source
  | .attach settime => some (nebEvdpQueueAttach settime src).2
  | .detach settime => some (nebEvdpQueueDetach settime src).2
  | .regulate secOfDay time alarm settime =>
    some (nebEvdpSourceAbstimerRegulate secOfDay time alarm settime src).2
  | .flush =>
    if src.pending then some { src with pending := false, polled := true } else none
  | .handle =>
    if src.qInUse && !src.pending then some (evdpSourceTimerHandle d src) else none

/-! Histories. -/

/-- What a call has done to the expiration of the timer. -/
inductive Event
  | detached
  | regulated
  deriving DecidableEq

def observe (src : Source) : Call → List Event
  | .detach settime => if (nebEvdpQueueDetach settime src).1 = 0 then [.detached] else []
  | .regulate secOfDay time alarm settime =>
    if (nebEvdpSourceAbstimerRegulate secOfDay time alarm settime src).1 = 0 then
      [.regulated]
    else
      []
  | _ => []

/-- `none` before the first detach, and then whether the timer was regulated since the
latest one. -/
def regulatedSince (b : Option Bool) : Event → Option Bool
  | .detached => some false
  | .regulated => b.map (fun _ => true)

/-- All kernel calls succeed, and the clock is not before its epoch. -/
def Call.Succeeds : Call → Prop
  | .attach settime => settime = true
  | .detach settime => settime = true
  | .regulate _ time _ settime => settime = true ∧ ∀ now ∈ time, 0 ≤ now
  | _ => True

theorem alarm_loop_gt {curr alarm : Int} {k : Nat} (hk : curr - alarm < k) (pos : 0 < k) :
    curr < alarmLoop curr k alarm := by
  induction k generalizing alarm with
  | zero => omega
  | succ k ih =>
    unfold alarmLoop
    split_ifs with h
    · rcases Nat.eq_zero_or_pos k with hzero | hpos
      · subst hzero
        simp only [alarmLoop]
        omega
      · exact ih (by omega) hpos
    · omega

/-- The next alarm is after the present time. -/
theorem nebDaytimeAbsNearest_gt {time alarm : Option Int} {absTs : Int}
    (h : nebDaytimeAbsNearest time alarm = some absTs) : ∃ now, time = some now ∧ now < absTs := by
  obtain ⟨curr, rfl, hmap⟩ := Option.bind_eq_some_iff.mp h
  obtain ⟨a, -, rfl⟩ := Option.map_eq_some_iff.mp hmap
  exact ⟨curr, rfl, alarm_loop_gt (by omega) (by omega)⟩

/-- The outcomes of regulating. -/
theorem regulate_cases (secOfDay : Int) (time alarm : Option Int) (src : Source) :
    (nebEvdpSourceAbstimerRegulate secOfDay time alarm true src).1 = -1 ∧
        (∃ s, (nebEvdpSourceAbstimerRegulate secOfDay time alarm true src).2 =
          { src with secOfDay := s }) ∨
      src.type = .abstimer ∧ ∃ s absTs p, nebDaytimeAbsNearest time alarm = some absTs ∧
        nebEvdpSourceAbstimerRegulate secOfDay time alarm true src =
          (0, { src with
            secOfDay := s
            its := { src.its with itValue := ⟨absTs, 0⟩ }
            programmed := p }) := by
  have inner : ∀ s, (evdpSourceAbstimerRegulate time alarm true { src with secOfDay := s }).1 = -1 ∧
        (evdpSourceAbstimerRegulate time alarm true { src with secOfDay := s }).2 =
          { src with secOfDay := s } ∨
      ∃ absTs p, nebDaytimeAbsNearest time alarm = some absTs ∧
        evdpSourceAbstimerRegulate time alarm true { src with secOfDay := s } =
          (0, { src with
            secOfDay := s
            its := { src.its with itValue := ⟨absTs, 0⟩ }
            programmed := p }) := by
    intro s
    unfold evdpSourceAbstimerRegulate
    cases nebDaytimeAbsNearest time alarm with
    | none => exact .inl ⟨rfl, rfl⟩
    | some absTs =>
      refine .inr ⟨absTs, ?_⟩
      rcases src with ⟨_, _, _, _, _, inAction⟩
      cases inAction with
      | true => exact ⟨_, rfl, rfl⟩
      | false => exact ⟨_, rfl, rfl⟩
  unfold nebEvdpSourceAbstimerRegulate
  split_ifs with htype hday hbig
  · exact .inl ⟨rfl, src.secOfDay, rfl⟩
  · exact .inl ⟨rfl, src.secOfDay, rfl⟩
  · rcases inner secOfDay with ⟨hr, hsrc⟩ | ⟨absTs, p, habs, heq⟩
    · exact .inl ⟨hr, secOfDay, hsrc⟩
    · exact .inr ⟨by simpa using htype, secOfDay, absTs, p, habs, heq⟩
  · rcases inner src.secOfDay with ⟨hr, hsrc⟩ | ⟨absTs, p, habs, heq⟩
    · exact .inl ⟨hr, src.secOfDay, hsrc⟩
    · exact .inr ⟨by simpa using htype, src.secOfDay, absTs, p, habs, heq⟩

/-- The timer is in action while its source is attached. Its first expiration is zero after a detach
until it is regulated. -/
structure Timed (interval : Timespec) (src : Source) (b : Option Bool) : Prop where
  inAction : src.inAction = src.qInUse
  interval : src.its.itInterval = interval
  value : src.its.itValue = ⟨0, 0⟩ ↔ b = some false
  regulated : b = some true → src.type = .abstimer

private theorem attach_eq {src : Source} (inAction : src.inAction = src.qInUse)
    (unattached : src.qInUse = false) :
    ∃ abstime, (nebEvdpQueueAttach true src).2 =
      { src.settime abstime with qInUse := true, inAction := true, pending := true } := by
  rcases src with ⟨type⟩
  simp only at inAction unattached
  subst unattached inAction
  cases type with
  | itimerSec => exact ⟨false, rfl⟩
  | itimerMsec => exact ⟨false, rfl⟩
  | abstimer => exact ⟨true, rfl⟩

private theorem detach_eq {src : Source} (inAction : src.inAction = src.qInUse)
    (attached : src.qInUse = true) :
    ∃ p, nebEvdpQueueDetach true src = (0, { src with
      qInUse := false
      pending := false
      its := { src.its with itValue := ⟨0, 0⟩ }
      inAction := false
      polled := false
      programmed := p }) := by
  rcases src with ⟨type⟩
  simp only at inAction attached
  subst attached inAction
  cases type <;> exact ⟨_, rfl⟩

/-- One call. -/
theorem Timed.ofStep {d : Driver} {interval : Timespec} {src src' : Source} {b : Option Bool}
    (timed : Timed interval src b) {c : Call} (succeeds : c.Succeeds)
    (h : step d src c = some src') :
    Timed interval src' ((observe src c).foldl regulatedSince b) ∧ src'.type = src.type := by
  cases c with
  | attach settime =>
    obtain rfl : settime = true := succeeds
    obtain rfl := Option.some.inj h
    cases huse : src.qInUse with
    | true =>
      have hsame : (nebEvdpQueueAttach true src).2 = src := by simp [nebEvdpQueueAttach, huse]
      rw [hsame]
      exact ⟨timed, rfl⟩
    | false =>
      obtain ⟨abstime, heq⟩ := attach_eq timed.inAction huse
      rw [heq]
      exact ⟨⟨rfl, timed.interval, timed.value, timed.regulated⟩, rfl⟩
  | detach settime =>
    obtain rfl : settime = true := succeeds
    obtain rfl := Option.some.inj h
    cases huse : src.qInUse with
    | true =>
      obtain ⟨p, heq⟩ := detach_eq timed.inAction huse
      simp only [observe, heq, if_true, List.foldl_cons, List.foldl_nil, regulatedSince]
      exact ⟨⟨rfl, timed.interval, by simp, by simp⟩, trivial⟩
    | false =>
      have hsame : nebEvdpQueueDetach true src = (-1, src) := by simp [nebEvdpQueueDetach, huse]
      simp only [observe, hsame]
      exact ⟨timed, trivial⟩
  | regulate secOfDay time alarm settime =>
    obtain ⟨rfl, hnow⟩ : settime = true ∧ ∀ now ∈ time, 0 ≤ now := succeeds
    obtain rfl := Option.some.inj h
    rcases regulate_cases secOfDay time alarm src with ⟨hr, s, hsrc⟩ |
      ⟨htype, s, absTs, p, habs, heq⟩
    · rw [hsrc]
      simp only [observe, hr]
      exact ⟨⟨timed.inAction, timed.interval, timed.value, timed.regulated⟩, trivial⟩
    · obtain ⟨now, htime, hlt⟩ := nebDaytimeAbsNearest_gt habs
      have hpos := hnow now htime
      simp only [observe, heq, if_true, List.foldl_cons, List.foldl_nil, regulatedSince]
      refine ⟨⟨timed.inAction, timed.interval, ?_, fun _ => htype⟩, trivial⟩
      have hne : absTs ≠ 0 := by omega
      cases b <;> simp [hne]
  | flush =>
    simp only [step] at h
    split_ifs at h
    obtain rfl := Option.some.inj h
    exact ⟨⟨timed.inAction, timed.interval, timed.value, timed.regulated⟩, rfl⟩
  | handle =>
    simp only [step] at h
    split_ifs at h
    obtain rfl := Option.some.inj h
    cases d <;> exact ⟨⟨timed.inAction, timed.interval, timed.value, timed.regulated⟩, rfl⟩

/-- A new timer source: an itimer with a positive period, or an abstimer. -/
inductive New : Source → Prop
  | itimerS {val : Int} (pos : 0 < val) : New (nebEvdpSourceNewItimerS val)
  | itimerMs {val : Int} (pos : 0 < val) : New (nebEvdpSourceNewItimerMs val)
  | abstimer {secOfDay : Int} {time alarm : Option Int} {src : Source}
      (epoch : ∀ now ∈ time, 0 ≤ now)
      (created : nebEvdpSourceNewAbstimer secOfDay time alarm = some src) : New src

theorem New.timed {src : Source} (new : New src) : Timed src.its.itInterval src none := by
  cases new with
  | @itimerS val pos =>
    refine ⟨rfl, rfl, ?_, by simp⟩
    have hne : val ≠ 0 := by omega
    simp [nebEvdpSourceNewItimerS, evdpCreateSourceTimerContext, hne]
  | @itimerMs val pos =>
    refine ⟨rfl, rfl, ?_, by simp⟩
    have hne : val ≠ 0 := by omega
    simp [nebEvdpSourceNewItimerMs, evdpCreateSourceTimerContext, hne]
  | @abstimer secOfDay time alarm src epoch created =>
    unfold nebEvdpSourceNewAbstimer at created
    split_ifs at created with hday
    simp only [evdpSourceAbstimerRegulate] at created
    cases habs : nebDaytimeAbsNearest time alarm with
    | none => simp [habs] at created
    | some absTs =>
      simp only [habs, evdpCreateSourceTimerContext, Bool.false_eq_true, if_false, if_true,
        Option.some.injEq] at created
      obtain ⟨now, htime, hlt⟩ := nebDaytimeAbsNearest_gt habs
      have hpos := epoch now htime
      have hne : absTs ≠ 0 := by omega
      rw [← created]
      exact ⟨rfl, rfl, by simp [hne], by simp⟩

/-- The attach call programs the timer with a non-zero first expiration and the given interval. -/
def Rearms (interval : Timespec) (src : Source) : Prop :=
  ∃ abstime its, (nebEvdpQueueAttach true src).2.programmed = (abstime, its) :: src.programmed ∧
    its.itValue ≠ ⟨0, 0⟩ ∧ its.itInterval = interval

/-- After any history with a detach in it, an attach re-arms the timer if and only if it is an
abstimer that was regulated since the latest detach. -/
theorem nebEvdpSource_rearms_iff (d : Driver) (src0 : Source) (new : New src0) (calls : List Call)
    (succeed : ∀ c ∈ calls, c.Succeeds) (src : Source)
    (reached : Machine.run (step d) src0 calls = some src) (unattached : src.qInUse = false)
    (b : Bool) (detached : (Machine.trace (step d) observe src0 calls).foldl regulatedSince none =
      some b) : Rearms src0.its.itInterval src ↔ src.type = .abstimer ∧ b = true := by
  have hstep : ∀ s c t x, Timed src0.its.itInterval s x → Call.Succeeds c → step d s c = some t →
      ∃ y, Machine.Accepts (fun x e y => y = regulatedSince x e) x (observe s c) y ∧
        Timed src0.its.itInterval t y :=
    fun s c t x timed ok h => ⟨_, Machine.Accepts.foldl _ _ _, (timed.ofStep ok h).1⟩
  obtain ⟨x, haccepts, timed⟩ := Machine.simulation_run hstep new.timed
    (Machine.StepsMeet.of_labels succeed src0) reached
  obtain rfl : x = some b := haccepts.eq_foldl.trans detached
  obtain ⟨abstime, hattach⟩ := attach_eq timed.inAction unattached
  unfold Rearms
  rw [hattach]
  constructor
  · rintro ⟨abstime', its, hprogrammed, hvalue, -⟩
    obtain ⟨hhead, -⟩ := List.cons.inj hprogrammed
    obtain ⟨-, rfl⟩ := Prod.mk.inj hhead
    have hb : b = true := by
      cases b with
      | true => rfl
      | false => exact absurd (timed.value.mpr rfl) hvalue
    exact ⟨timed.regulated (by rw [hb]), hb⟩
  · rintro ⟨-, rfl⟩
    refine ⟨abstime, src.its, rfl, ?_, timed.interval⟩
    intro hzero
    cases timed.value.mp hzero

theorem nebEvdpSource_rearms_iff_regulated :
    ∃ src0 src, nebEvdpSourceNewAbstimer 60 (some 1000) (some 60) = some src0 ∧
      Machine.run (step .epoll) src0 [.attach true, .detach true,
        .regulate (-1) (some 2000) (some 60) true] = some src ∧
      Rearms ⟨TOTAL_DAY_SECONDS, 0⟩ src := by
  refine ⟨_, _, rfl, rfl, ?_⟩
  have new := @New.abstimer 60 (some 1000) (some 60) _ (by simp) rfl
  have succeed : ∀ c ∈ [Call.attach true, .detach true, .regulate (-1) (some 2000) (some 60) true],
      c.Succeeds := by
    simp [Call.Succeeds]
  exact (nebEvdpSource_rearms_iff .epoll _ new _ succeed _ rfl rfl true rfl).mpr ⟨rfl, rfl⟩

/-- An itimer of one second is attached and detached. -/
theorem nebEvdpSource_rearms_fails :
    ¬ ∀ (d : Driver) (src0 : Source), New src0 → ∀ (calls : List Call),
      (∀ c ∈ calls, c.Succeeds) → ∀ src, Machine.run (step d) src0 calls = some src →
      src.qInUse = false → ∀ b,
      (Machine.trace (step d) observe src0 calls).foldl regulatedSince none =
        some b → Rearms src0.its.itInterval src := by
  intro claim
  obtain ⟨abstime, its, hprogrammed, hvalue, -⟩ := claim .epoll (nebEvdpSourceNewItimerS 1)
    (.itimerS (by decide)) [.attach true, .detach true] (by simp [Call.Succeeds])
    _ rfl rfl false rfl
  obtain ⟨hhead, -⟩ := List.cons.inj hprogrammed
  obtain ⟨-, rfl⟩ := Prod.mk.inj hhead
  exact hvalue rfl

end Nebase.Evdp.SysTimer
