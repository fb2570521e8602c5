/- The next time of day: what neb_daytime_abs_nearest makes of a time zone whose offset changes. -/

import Nebase.Evdp.SysTimer.Timerfd

set_option autoImplicit false
set_option relaxedAutoImplicit false

namespace Nebase.Time

open Nebase.Evdp.SysTimer (alarmLoop)

/-- `tm_year`, `tm_mon` and `tm_mday` as the number of the day. -/
structure Tm where
  day : Int
  hour : Int
  min : Int
  sec : Int
  isdst : Bool

/-- What a clock shows, in seconds. -/
def Tm.reading (tm : Tm) : Int := tm.day * 86400 + tm.hour * 3600 + tm.min * 60 + tm.sec

/-- A time zone: at every instant its offset from UTC in seconds, and whether daylight saving time
is in effect. -/
structure Zone where
  utcOffset : Int → Int
  isdst : Int → Bool
  range : ∀ t, -1000000000 < utcOffset t ∧ utcOffset t < 1000000000

/-- What a clock in the zone shows at `t`. -/
def Zone.reading (z : Zone) (t : Int) : Int := t + z.utcOffset t

def Zone.brokenDown (z : Zone) (t : Int) : Tm where
  day := z.reading t / 86400
  hour := z.reading t % 86400 / 3600
  min := z.reading t % 86400 % 3600 / 60
  sec := z.reading t % 86400 % 60
  isdst := z.isdst t

/-- `localtime_r`, `none` when it fails, and `mktime`. -/
structure Libc where
  localtimeR : Int → Option Tm
  mktime : Tm → Int

/-- They work in the zone `z`. Which offset `mktime` takes is not said but for this: it is one that
goes with the `tm_isdst` it is given, if the zone has one. -/
structure Libc.Lawful (libc : Libc) (z : Zone) (presumed : Tm → Int) : Prop where
  localtime : ∀ t tm, libc.localtimeR t = some tm → tm = z.brokenDown t
  mktime : ∀ tm, libc.mktime tm ≠ -1 → libc.mktime tm = tm.reading - presumed tm
  offset : ∀ tm t, z.isdst t = tm.isdst → ∃ u, z.isdst u = tm.isdst ∧ presumed tm = z.utcOffset u

/-- The time of day of `tm` is replaced. -/
def Tm.at (tm : Tm) (secOfDay : Int) : Tm :=
  { tm with
    hour := secOfDay / 3600
    min := secOfDay % 3600 / 60
    sec := secOfDay % 3600 % 60 }

/-- `*abs_ts` and `*delta_sec`; `timeCurr` is what `time(NULL)` returns. -/
def nebDaytimeAbsNearest (libc : Libc) (timeCurr secOfDay : Int) : Option (Int × Int) :=
  if timeCurr = -1 then
    none
  else
    match libc.localtimeR timeCurr with
    | none => none
    | some tm =>
      let timeAlarm := libc.mktime (tm.at secOfDay)
      if timeAlarm = -1 then
        none
      else
        let timeAlarm := alarmLoop timeCurr ((timeCurr - timeAlarm).toNat + 1) timeAlarm
        some (timeAlarm, (timeAlarm - timeCurr).bmod 4294967296)

/-- The alarm time of the timer sources is this one. -/
theorem nebDaytimeAbsNearest_abs_ts (libc : Libc) (timeCurr secOfDay : Int) :
    (nebDaytimeAbsNearest libc timeCurr secOfDay).map Prod.fst =
      Evdp.SysTimer.nebDaytimeAbsNearest (if timeCurr = -1 then none else some timeCurr)
        (((libc.localtimeR timeCurr).map (fun tm => libc.mktime (tm.at secOfDay))).filter
          (fun alarm => decide (alarm ≠ -1))) := by
  unfold nebDaytimeAbsNearest Evdp.SysTimer.nebDaytimeAbsNearest
  by_cases hcurr : timeCurr = -1
  · rw [if_pos hcurr, if_pos hcurr]
    rfl
  rw [if_neg hcurr, if_neg hcurr]
  cases libc.localtimeR timeCurr with
  | none => rfl
  | some tm =>
    by_cases halarm : libc.mktime (tm.at secOfDay) = -1
    · simp [halarm, Option.filter]
    · simp [halarm, Option.filter]

/-! What it is for. -/

/-- A clock in the zone shows this time of day at `t`. -/
def Zone.Shows (z : Zone) (secOfDay t : Int) : Prop := z.reading t % 86400 = secOfDay

/-- The earliest instant after `curr` at which the clock shows this time of day. -/
structure Zone.Next (z : Zone) (secOfDay curr t : Int) : Prop where
  after : curr < t
  shows : z.Shows secOfDay t
  first : ∀ u, curr < u → u < t → ¬ z.Shows secOfDay u

/-- What the clock shows when it comes to this time of day the next time: later on the same day, or
else on the next day. -/
def Zone.nextReading (z : Zone) (secOfDay curr : Int) : Int :=
  let today := z.reading curr / 86400 * 86400 + secOfDay
  if z.reading curr < today then today else today + 86400

/-- This time of day exists on the day concerned. -/
def Zone.Exists (z : Zone) (secOfDay curr : Int) : Prop :=
  ∃ t, z.reading t = z.nextReading secOfDay curr

/-- Where 0 is returned, `*abs_ts` is the next time of day and `*delta_sec` the time until then. -/
def Nearest (z : Zone) (secOfDay curr : Int) (res : Option (Int × Int)) : Prop :=
  ∀ absTs deltaSec, res = some (absTs, deltaSec) →
    (z.Exists secOfDay curr → z.Next secOfDay curr absTs) ∧ deltaSec = absTs - curr

/-- The first instant after `curr` at which a clock that keeps the offset `offset` shows this time of
day, on the day `day` at the earliest. -/
structure Due (offset day secOfDay curr t : Int) : Prop where
  after : curr < t
  notBefore : day ≤ (t + offset) / 86400
  shows : (t + offset) % 86400 = secOfDay
  first : ∀ u, curr < u → day ≤ (u + offset) / 86400 → (u + offset) % 86400 = secOfDay → t ≤ u

/-- How far the clock of the zone is ahead of one that keeps the offset `offset`. -/
def Zone.gain (z : Zone) (offset t : Int) : Int := z.utcOffset t - offset

/-- When a clock that keeps the offset is due, the one of the zone is not ahead of it, and until then
it is never ahead by just the time that is left. Whole days are left aside. -/
def Zone.InStep (z : Zone) (offset secOfDay curr : Int) : Prop :=
  ∃ t, Due offset (z.reading curr / 86400) secOfDay curr t ∧ z.gain offset t % 86400 = 0 ∧
    ∀ u, curr < u → u < t → (z.gain offset u - (t - u)) % 86400 ≠ 0

/-- The alarm is the first after now of those a whole number of days after the one of today. -/
private theorem alarm_loop_spec {curr alarm : Int} {k : Nat} (hk : (curr - alarm).toNat < k) :
    curr < alarmLoop curr k alarm ∧ alarm ≤ alarmLoop curr k alarm ∧
      (alarmLoop curr k alarm - alarm) % 86400 = 0 ∧
      (alarmLoop curr k alarm = alarm ∨ alarmLoop curr k alarm ≤ curr + 86400) := by
  induction k generalizing alarm with
  | zero => omega
  | succ k ih =>
    unfold alarmLoop
    split_ifs with h
    · rcases Nat.eq_zero_or_pos k with rfl | hpos
      · simp only [alarmLoop]
        omega
      · have hk' : (curr - (alarm + 24 * 60 * 60)).toNat < k := by omega
        obtain ⟨hafter, hle, hdays, hnear⟩ := ih hk'
        omega
    · omega

private theorem reading_at (z : Zone) (curr secOfDay : Int) :
    ((z.brokenDown curr).at secOfDay).reading = z.reading curr / 86400 * 86400 + secOfDay := by
  simp only [Tm.reading, Tm.at, Zone.brokenDown]
  omega

/-- A library call has failed, or returned the instant that stands for a failure. -/
def Fails (libc : Libc) (z : Zone) (secOfDay curr : Int) : Prop :=
  curr = -1 ∨ libc.localtimeR curr = none ∨ libc.mktime ((z.brokenDown curr).at secOfDay) = -1

section Alarm

variable {libc : Libc} {z : Zone} {presumed : Tm → Int} {secOfDay curr : Int}

private theorem daytime_of_fails (lawful : libc.Lawful z presumed)
    (fails : Fails libc z secOfDay curr) :
    nebDaytimeAbsNearest libc curr secOfDay = none := by
  unfold nebDaytimeAbsNearest
  by_cases hcurr : curr = -1
  · rw [if_pos hcurr]
  rw [if_neg hcurr]
  cases htm : libc.localtimeR curr with
  | none => rfl
  | some tm =>
    obtain rfl := lawful.localtime curr tm htm
    rcases fails with h | h | h
    · exact absurd h hcurr
    · rw [htm] at h
      cases h
    · exact if_pos h

/-- The alarm that is returned is when a clock that keeps the offset of `mktime` is due. -/
private theorem daytime_spec (lawful : libc.Lawful z presumed) (low : 0 ≤ secOfDay)
    (high : secOfDay < 86400) (works : ¬ Fails libc z secOfDay curr) :
    ∃ absTs, nebDaytimeAbsNearest libc curr secOfDay = some (absTs, absTs - curr) ∧
      Due (presumed ((z.brokenDown curr).at secOfDay)) (z.reading curr / 86400) secOfDay curr
        absTs := by
  obtain ⟨hcurr, hnotnone⟩ := not_or.mp works
  obtain ⟨hlocal, hmktime⟩ := not_or.mp hnotnone
  obtain ⟨tm, htm⟩ := Option.ne_none_iff_exists'.mp hlocal
  obtain rfl := lawful.localtime curr tm htm
  have htaken := lawful.mktime _ hmktime
  obtain ⟨u, -, hu⟩ := lawful.offset ((z.brokenDown curr).at secOfDay) curr rfl
  rw [reading_at] at htaken
  have hnow := z.range curr
  have hthen := z.range u
  have hreading : z.reading curr = curr + z.utcOffset curr := rfl
  let alarm := libc.mktime ((z.brokenDown curr).at secOfDay)
  have halarm : libc.mktime ((z.brokenDown curr).at secOfDay) = alarm := rfl
  rw [halarm] at htaken hmktime
  obtain ⟨hafter, hle, hdays, hnear⟩ :=
    alarm_loop_spec (Nat.lt_add_one (curr - alarm).toNat)
  refine ⟨_, ?_, ⟨hafter, by omega, by omega, fun v hv hday hshows => by omega⟩⟩
  -- the difference fits an int, since offsets differ by less than that
  have hdelta : ∀ d : Int, 0 ≤ d → d < 2147483648 → d.bmod 4294967296 = d := by
    intro d h0 h1
    exact Int.bmod_eq_of_le (by omega) (by omega)
  unfold nebDaytimeAbsNearest
  simp only [if_neg hcurr, htm, halarm, if_neg hmktime]
  rw [hdelta _ (by omega) (by omega)]

end Alarm

/-- What a clock with the offset is due for is the next time of day exactly when the clock of the zone
is in step with it. -/
private theorem next_iff_inStep {z : Zone} {offset secOfDay curr t : Int}
    (due : Due offset (z.reading curr / 86400) secOfDay curr t) :
    z.Next secOfDay curr t ↔ z.InStep offset secOfDay curr := by
  have hshows := due.shows
  -- an instant shows the time of day when the zone is ahead by the time left until `t`
  have hahead : ∀ u, z.Shows secOfDay u ↔ (z.gain offset u - (t - u)) % 86400 = 0 := by
    intro u
    unfold Zone.Shows Zone.reading Zone.gain
    omega
  constructor
  · intro next
    refine ⟨t, due, ?_, fun u hu hut h => next.first u hu hut ((hahead u).mpr h)⟩
    have h := (hahead t).mp next.shows
    rwa [Int.sub_self, Int.sub_zero] at h
  · rintro ⟨t', due', hstep, hbefore⟩
    obtain rfl : t' = t :=
      Int.le_antisymm (due'.first t due.after due.notBefore due.shows)
        (due.first t' due'.after due'.notBefore due'.shows)
    refine ⟨due.after, (hahead t').mpr ?_, fun u hu hut h => hbefore u hu hut ((hahead u).mp h)⟩
    rwa [Int.sub_self, Int.sub_zero]

/-- The present offset is enough if it does not change for a day. -/
theorem Zone.InStep.of_steady {z : Zone} {secOfDay curr : Int} (low : 0 ≤ secOfDay)
    (high : secOfDay < 86400)
    (steady : ∀ t, curr < t → t ≤ curr + 86400 → z.utcOffset t = z.utcOffset curr) :
    z.InStep (z.utcOffset curr) secOfDay curr := by
  have hcurr : z.reading curr = curr + z.utcOffset curr := rfl
  let today := z.reading curr / 86400 * 86400 + secOfDay - z.utcOffset curr
  let t := if curr < today then today else today + 86400
  have hwindow : curr < t ∧ t ≤ curr + 86400 ∧ (t = today ∨ t = today + 86400) := by
    simp only [t]
    split_ifs with h
    · omega
    · omega
  obtain ⟨hafter, hday, hor⟩ := hwindow
  have hgain : ∀ u, curr < u → u ≤ t → z.gain (z.utcOffset curr) u = 0 := by
    intro u hu hut
    rw [Zone.gain, steady u hu (by omega), Int.sub_self]
  refine ⟨t, ⟨hafter, by omega, by omega, fun u hu _ hshows => by omega⟩, ?_, fun u hu hut => ?_⟩
  · rw [hgain t hafter (Int.le_refl t)]
    rfl
  · rw [hgain u hu (Int.le_of_lt hut)]
    omega

/-- A zone without daylight saving time. -/
private def utc : Zone := ⟨fun _ => 0, fun _ => false, fun _ => by decide⟩

private def utcLibc : Libc := ⟨fun t => some (utc.brokenDown t), Tm.reading⟩

private theorem utc_lawful : utcLibc.Lawful utc (fun _ => 0) where
  localtime := fun _ _ h => (Option.some.inj h).symm
  mktime := fun tm _ => (Int.sub_zero tm.reading).symm
  offset := fun _ t h => ⟨t, h, rfl⟩

/-- Two hours ahead of UTC, and one hour once daylight saving time has ended at 100000. -/
private def autumn : Zone where
  utcOffset := fun t => if t < 100000 then 7200 else 3600
  isdst := fun t => decide (t < 100000)
  range := by
    intro t
    split_ifs <;> decide

private def autumnLibc : Libc where
  localtimeR := fun t => some (autumn.brokenDown t)
  mktime := fun tm => tm.reading - if tm.isdst then 7200 else 3600

private theorem autumn_lawful :
    autumnLibc.Lawful autumn (fun tm => if tm.isdst then 7200 else 3600) where
  localtime := fun _ _ h => (Option.some.inj h).symm
  mktime := fun _ _ => rfl
  offset := by
    intro tm t h
    refine ⟨t, h, ?_⟩
    simp only [autumn, ← h, decide_eq_true_eq]

end Nebase.Time
