/- The period that each driver programs for an interval timer source, in seconds or in
   milliseconds. -/

import Nebase.Evdp.SysTimer.Timerfd

set_option autoImplicit false
set_option relaxedAutoImplicit false

namespace Nebase.Evdp.SysTimer

open Nebase.Time (Timespec)

/-- The drivers by the timer they program; `noteSeconds` says that `NOTE_SECONDS` is defined. -/
inductive TimerDriver
  | timerfd (driver : Driver)
  | eventPort
  | kevent (noteSeconds : Bool)

/-- What goes to `timerfd_settime` or `timer_settime`, or the `fflags` and the `data` of an
`EVFILT_TIMER`. -/
inductive Programmed
  | settime (its : Itimerspec)
  | kevent (noteSeconds : Bool) (data : Int)
  deriving DecidableEq

/-- The timer in the context that `evdp_create_source_itimer_context` makes; `val` is the `sec` or
`msec` of the configuration, an `int64_t`. -/
def evdpCreateSourceItimerContext (driver : TimerDriver) (type : SourceType) (val : Int) :
    Option Programmed :=
  match driver, type with
  | .timerfd _, .itimerSec => some (.settime (nebEvdpSourceNewItimerS val).its)
  | .timerfd _, .itimerMsec => some (.settime (nebEvdpSourceNewItimerMs val).its)
  | .eventPort, .itimerSec => some (.settime ⟨⟨val, 0⟩, ⟨val, 0⟩⟩)
  | .eventPort, .itimerMsec => some (.settime ⟨⟨0, val * 1000000⟩, ⟨0, val * 1000000⟩⟩)
  | .kevent true, .itimerSec => some (.kevent true val)
  | .kevent false, .itimerSec => some (.kevent false (val * 1000))
  | .kevent _, .itimerMsec => some (.kevent false val)
  | _, .abstimer => none

/-- The kernel takes the value, and it starts the timer. -/
def Itimerspec.Accepted (its : Itimerspec) : Prop :=
  its.itValue.Normalised ∧ its.itInterval.Normalised ∧ its.itValue ≠ ⟨0, 0⟩

instance (its : Itimerspec) : Decidable its.Accepted :=
  inferInstanceAs (Decidable (_ ∧ _ ∧ _ ≠ _))

/-- The first expiration and the period after it, in nanoseconds; `none` when the kernel refuses
the timer or does not start it. -/
def Programmed.period : Programmed → Option (Int × Int)
  | .settime its => if its.Accepted then some (its.itValue.ns, its.itInterval.ns) else none
  | .kevent true data => some (data * 1000000000, data * 1000000000)
  | .kevent false data => some (data * 1000000, data * 1000000)

def itimerPeriod (driver : TimerDriver) (type : SourceType) (val : Int) : Option (Int × Int) :=
  (evdpCreateSourceItimerContext driver type val).bind Programmed.period

/-- Every driver programs `val` milliseconds: with `settime` the value is accepted and exact. -/
def PeriodExact (val : Int) : Prop :=
  ∀ driver p, evdpCreateSourceItimerContext driver .itimerMsec val = some p →
    (∀ its, p = .settime its → its.Accepted) ∧ p.period = some (val * 1000000, val * 1000000)

/-- All drivers program one period, also when it is given in whole seconds. -/
def PeriodAgrees (val : Int) : Prop :=
  (∀ d e, itimerPeriod d .itimerMsec val = itimerPeriod e .itimerMsec val) ∧
    ∀ k, val = 1000 * k → ∀ d, itimerPeriod d .itimerMsec val = itimerPeriod d .itimerSec k

private theorem accepted_msec {val : Int} (pos : 0 < val) :
    (⟨⟨0, val * 1000000⟩, ⟨0, val * 1000000⟩⟩ : Itimerspec).Accepted ↔ val ≤ 999 := by
  unfold Itimerspec.Accepted Timespec.Normalised
  simp only [ne_eq, Timespec.mk.injEq]
  omega

/-- A period in seconds is what every driver makes of it. -/
theorem itimerPeriod_sec (driver : TimerDriver) {sec : Int} (pos : 0 < sec) :
    itimerPeriod driver .itimerSec sec = some (sec * 1000000000, sec * 1000000000) := by
  have hits : (⟨⟨sec, 0⟩, ⟨sec, 0⟩⟩ : Itimerspec).Accepted := by
    unfold Itimerspec.Accepted Timespec.Normalised
    simp only [ne_eq, Timespec.mk.injEq]
    omega
  have hset : Programmed.period (.settime ⟨⟨sec, 0⟩, ⟨sec, 0⟩⟩) =
      some (sec * 1000000000, sec * 1000000000) := by
    show (if _ then _ else _) = _
    rw [if_pos hits]
    simp [Timespec.ns]
  rcases driver with _ | _ | ⟨_ | _⟩
  · exact hset
  · exact hset
  · show some (sec * 1000 * 1000000, sec * 1000 * 1000000) = _
    rw [Int.mul_assoc]
    rfl
  · rfl

private theorem settime_msec (val : Int) (driver : TimerDriver) :
    evdpCreateSourceItimerContext driver .itimerMsec val =
        some (.settime ⟨⟨0, val * 1000000⟩, ⟨0, val * 1000000⟩⟩) ∨
      evdpCreateSourceItimerContext driver .itimerMsec val = some (.kevent false val) := by
  rcases driver with _ | _ | ⟨_ | _⟩
  · exact .inl rfl
  · exact .inl rfl
  · exact .inr rfl
  · exact .inr rfl

theorem periodExact_iff {val : Int} (pos : 0 < val) : PeriodExact val ↔ val ≤ 999 := by
  constructor
  · intro hexact
    obtain ⟨hacc, -⟩ := hexact .eventPort _ rfl
    exact (accepted_msec pos).1 (hacc _ rfl)
  · intro hle driver p hp
    have hacc := (accepted_msec pos).2 hle
    rcases settime_msec val driver with h | h
    · rw [h] at hp
      obtain rfl := Option.some.inj hp
      constructor
      · rintro its ⟨⟩
        exact hacc
      · show (if _ then _ else _) = _
        rw [if_pos hacc]
        simp [Timespec.ns]
    · rw [h] at hp
      obtain rfl := Option.some.inj hp
      constructor
      · intro its h
        cases h
      · rfl

/-- Below a second all drivers agree; no whole second is below a second. -/
theorem PeriodExact.agrees {val : Int} (pos : 0 < val) (exact : PeriodExact val) :
    PeriodAgrees val := by
  have hle := (periodExact_iff pos).1 exact
  have hall : ∀ d, itimerPeriod d .itimerMsec val = some (val * 1000000, val * 1000000) := by
    intro d
    unfold itimerPeriod
    rcases settime_msec val d with h | h
    · rw [h]
      exact (exact d _ h).2
    · rw [h]
      rfl
  constructor
  · intro d e
    rw [hall d, hall e]
  · intro k hk d
    omega

/-- A period in milliseconds has to be shorter than a second. -/
theorem nebEvdpSourceNewItimerMs_exact_iff (val : Int) (pos : 0 < val) :
    PeriodExact val ∧ PeriodAgrees val ↔ val ≤ 999 := by
  constructor
  · rintro ⟨hexact, -⟩
    exact (periodExact_iff pos).1 hexact
  · intro hle
    have hexact := (periodExact_iff pos).2 hle
    exact ⟨hexact, hexact.agrees pos⟩

theorem nebEvdpSourceNewItimerMs_exact_iff_half :
    PeriodExact 500 ∧ PeriodAgrees 500 :=
  (nebEvdpSourceNewItimerMs_exact_iff 500 (by decide)).mpr (by decide)

/-- A period of one second in milliseconds is refused, and one in seconds is taken. -/
theorem nebEvdpSourceNewItimerMs_exact_fails : ¬ PeriodExact 1000 ∧ ¬ PeriodAgrees 1000 := by
  constructor
  · intro hexact
    obtain ⟨hacc, -⟩ := hexact .eventPort _ rfl
    exact absurd (hacc _ rfl) (by decide)
  · rintro ⟨-, hsec⟩
    exact absurd (hsec 1 rfl .eventPort) (by decide)

end Nebase.Evdp.SysTimer
