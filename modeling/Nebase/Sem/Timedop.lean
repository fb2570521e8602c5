/- The wait of the systems without semtimedop: semop is polled once a millisecond. -/

import Nebase.Foundation.Machine
import Nebase.Time.Timespec

set_option autoImplicit false
set_option relaxedAutoImplicit false

namespace Nebase.Sem

open Nebase.Foundation
open Nebase.Time (Timespec)

inductive Errno
  | EINTR
  | EAGAIN
  | ETIMEDOUT
  | other (code : Nat)
  deriving DecidableEq

/-- What `semop` and the waits return: 0, or -1 with an `errno`. -/
abbrev Answer := Except Errno Unit

/-- The conversion of a `long` to an `int`. -/
def longToInt (n : Int) : Int := n.bmod 4294967296

/-- A product of `time_t`s, `none` where it overflows. -/
def longMul (a b : Int) : Option Int :=
  if -9223372036854775808 ≤ a * b ∧ a * b ≤ 9223372036854775807 then some (a * b) else none

/-- `timeout_ms += 1`, `none` where it overflows. -/
def intSucc (n : Int) : Option Int := if n < 2147483647 then some (n + 1) else none

/-- `timeout_ms`. -/
def timeoutMs (timeout : Timespec) : Option Int :=
  let sec := if timeout.tvSec ≠ 0 then (longMul timeout.tvSec 1000).map longToInt else some 0
  sec.bind (fun ms =>
    if timeout.tvNsec ≠ 0 then
      let ms := longToInt (ms + timeout.tvNsec / 1000000)
      if timeout.tvNsec % 1000000 ≠ 0 then intSucc ms else some ms
    else
      some ms)

/-- Where `neb_sem_timedop` is; `undefined` after an overflow. -/
inductive Ctl
  | undefined
  /-- `semop` is called at turn `i` of `ms` -/
  | polling (ms i : Int)
  | returned (answer : Answer)

/-- The head of the loop. -/
def turn (ms i : Int) : Ctl := if i < ms then .polling ms i else .returned (.error .ETIMEDOUT)

/-- `neb_sem_timedop` is called. -/
def nebSemTimedop (timeout : Timespec) : Ctl :=
  match timeoutMs timeout with
  | none => .undefined
  | some ms => turn ms 0

/-- What becomes of it when `semop` answers. -/
def step (c : Ctl) (semop : Answer) : Option Ctl :=
  match c with
  | .polling ms i =>
    match semop with
    | .ok () => some (.returned (.ok ()))
    | .error .EINTR => some (turn ms (i - 1 + 1))
    | .error .EAGAIN => some (turn ms (i + 1))
    | .error e => some (.returned (.error e))
  | _ => none

/-- The operation of a wait; `nowait` is `IPC_NOWAIT`. -/
structure Sembuf where
  semNum : Int
  semOp : Int
  nowait : Bool

def nebSemProcWaitCount (subid count : Int) (timeout : Timespec) : Sembuf × Ctl :=
  (⟨subid, 0 - count, true⟩, nebSemTimedop timeout)

def nebSemProcWaitZeroed (subid : Int) (timeout : Timespec) : Sembuf × Ctl :=
  (⟨subid, 0, true⟩, nebSemTimedop timeout)

/-! What a wait is for. -/

/-- The timeout in milliseconds, rounded up. -/
def ceilMs (timeout : Timespec) : Int := timeout.tvSec * 1000 + (timeout.tvNsec + 999999) / 1000000

/-- How often `semop` is tried: once a millisecond, and once at least. -/
def attempts (timeout : Timespec) : Nat := max 1 (ceilMs timeout).toNat

/-- The wait, after these answers of `semop`, is what `semtimedop` would be: the bound is exact, the
first attempt is made, a success within the bound is returned and nothing else is taken for one, an
interruption ends the wait at once, and so does the end of the time. -/
structure Honours (timeout : Timespec) (answers : List Answer) (c : Ctl) : Prop where
  bound : timeoutMs timeout = some (ceilMs timeout)
  tried : ∀ answer, c = .returned answer → answers ≠ []
  success : c = .returned (.ok ()) ↔ ∃ i < attempts timeout, answers[i]? = some (.ok ())
  interrupted : ∀ i : Nat, answers[i]? = some (.error .EINTR) →
    i + 1 = answers.length ∧ c = .returned (.error .EINTR)
  ends : attempts timeout ≤ answers.length → ∃ answer, c = .returned answer

/-! The bound. -/

private theorem long_to_int_of_le {n : Int} (low : 0 ≤ n) (high : n ≤ 2147483647) :
    longToInt n = n := Int.bmod_eq_of_le (by omega) (by omega)

private theorem long_to_int_le (n : Int) : longToInt n ≤ 2147483647 := by
  have hlt : n.bmod 4294967296 < 2147483648 := Int.bmod_lt (by decide)
  unfold longToInt
  omega

private theorem timeout_ms_le {timeout : Timespec} {ms : Int} (h : timeoutMs timeout = some ms) :
    ms ≤ 2147483647 := by
  obtain ⟨sec, hsec, hms⟩ := Option.bind_eq_some_iff.mp h
  have hseconds : sec ≤ 2147483647 := by
    split at hsec
    · obtain ⟨product, -, rfl⟩ := Option.map_eq_some_iff.mp hsec
      exact long_to_int_le product
    · obtain rfl := Option.some.inj hsec
      decide
  split at hms
  · simp only at hms
    split at hms
    · unfold intSucc at hms
      split at hms
      · obtain rfl := Option.some.inj hms
        omega
      · cases hms
    · obtain rfl := Option.some.inj hms
      exact long_to_int_le _
  · obtain rfl := Option.some.inj hms
    exact hseconds

/-- The bound is exact as far as an `int` goes. -/
theorem timeout_ms_exact_iff {timeout : Timespec} (normalised : timeout.Normalised)
    (nonneg : 0 ≤ timeout.tvSec) :
    timeoutMs timeout = some (ceilMs timeout) ↔ ceilMs timeout ≤ 2147483647 := by
  obtain ⟨hlow, hhigh⟩ := normalised
  refine ⟨timeout_ms_le, fun hle => ?_⟩
  unfold ceilMs at hle ⊢
  have hsec : (if timeout.tvSec ≠ 0 then (longMul timeout.tvSec 1000).map longToInt else some 0) =
      some (timeout.tvSec * 1000) := by
    by_cases hzero : timeout.tvSec = 0
    · rw [if_neg (not_not.mpr hzero), hzero]
      rfl
    · rw [if_pos hzero, longMul, if_pos (by omega), Option.map_some,
        long_to_int_of_le (by omega) (by omega)]
  unfold timeoutMs
  simp only [hsec, Option.bind_some]
  by_cases hzero : timeout.tvNsec = 0
  · rw [if_neg (not_not.mpr hzero)]
    congr 1
    omega
  rw [if_pos hzero, long_to_int_of_le (by omega) (by omega)]
  by_cases hwhole : timeout.tvNsec % 1000000 = 0
  · rw [if_neg (not_not.mpr hwhole)]
    congr 1
    omega
  · rw [if_pos hwhole, intSucc, if_pos (by omega)]
    congr 1
    omega

/-! The loop. -/

private theorem run_returned {answer : Answer} {answers : List Answer} {c : Ctl}
    (h : Machine.run step (.returned answer) answers = some c) :
    answers = [] ∧ c = .returned answer := by
  cases answers with
  | nil => exact ⟨rfl, (Option.some.inj h).symm⟩
  | cons a as =>
    obtain ⟨t, ht, -⟩ := Machine.run_cons_eq_some.mp h
    cases ht

/-- An answer that ends the wait is its result. -/
private theorem step_ends {ms i : Int} {a : Answer} (hintr : a ≠ .error .EINTR)
    (hagain : a ≠ .error .EAGAIN) : step (.polling ms i) a = some (.returned a) := by
  cases a with
  | ok u => rfl
  | error e =>
    cases e with
    | EINTR => exact absurd rfl hintr
    | EAGAIN => exact absurd rfl hagain
    | ETIMEDOUT => rfl
    | other code => rfl

/-- Without an interruption the loop counts its attempts, and returns the first success. -/
private theorem run_polling {ms i : Int} {answers : List Answer} {c : Ctl}
    (h : Machine.run step (turn ms i) answers = some c) (calm : .error .EINTR ∉ answers) :
    (c = .returned (.ok ()) ↔ ∃ j < (ms - i).toNat, answers[j]? = some (.ok ())) ∧
      ((ms - i).toNat ≤ answers.length → ∃ answer, c = .returned answer) := by
  induction answers generalizing i with
  | nil =>
    obtain rfl := Option.some.inj h
    unfold turn
    split_ifs with hlt
    · refine ⟨iff_of_false (fun hc => by cases hc) ?_, fun hlen => ?_⟩
      · rintro ⟨j, -, hj⟩
        cases hj
      · rw [List.length_nil] at hlen
        omega
    · refine ⟨iff_of_false (fun hc => by cases hc) ?_, fun _ => ⟨_, rfl⟩⟩
      rintro ⟨j, -, hj⟩
      cases hj
  | cons a answers ih =>
    obtain ⟨hintr, calm'⟩ := not_or.mp (List.mem_cons.not.mp calm)
    by_cases hlt : i < ms
    · rw [turn, if_pos hlt] at h
      obtain ⟨t, ht, hrest⟩ := Machine.run_cons_eq_some.mp h
      by_cases hagain : a = .error .EAGAIN
      · subst hagain
        obtain rfl := Option.some.inj ht
        obtain ⟨hsuccess, hends⟩ := ih hrest calm'
        have hleft : (ms - i).toNat = (ms - (i + 1)).toNat + 1 := by omega
        rw [hsuccess, hleft]
        refine ⟨⟨?_, ?_⟩, fun hlen => hends (Nat.le_of_succ_le_succ hlen)⟩
        · rintro ⟨j, hj, hok⟩
          exact ⟨j + 1, Nat.succ_lt_succ hj, hok⟩
        · rintro ⟨j, hj, hok⟩
          cases j with
          | zero => cases hok
          | succ j => exact ⟨j, Nat.lt_of_succ_lt_succ hj, hok⟩
      · rw [step_ends (Ne.symm hintr) hagain] at ht
        obtain rfl := Option.some.inj ht
        obtain ⟨rfl, rfl⟩ := run_returned hrest
        refine ⟨⟨?_, ?_⟩, fun _ => ⟨a, rfl⟩⟩
        · intro hc
          obtain rfl := Ctl.returned.inj hc
          exact ⟨0, by omega, rfl⟩
        · rintro ⟨j, -, hok⟩
          cases j with
          | zero => rw [Option.some.inj hok]
          | succ j => cases hok
    · rw [turn, if_neg hlt] at h
      cases (run_returned h).1

/-- An interruption is never the result. -/
private theorem interruption_unreported {timeout : Timespec} {answers : List Answer} {c : Ctl}
    (reached : Machine.run step (nebSemTimedop timeout) answers = some c)
    (honours : Honours timeout answers c) : .error .EINTR ∉ answers := by
  intro hmem
  obtain ⟨i, hi, hat⟩ := List.mem_iff_getElem.mp hmem
  obtain ⟨hlast, rfl⟩ := honours.interrupted i (List.getElem?_eq_some_iff.mpr ⟨hi, hat⟩)
  have hsplit : answers = answers.take i ++ [.error .EINTR] := by
    rw [← hat, List.take_append_getElem, List.take_of_length_le (by omega)]
  rw [hsplit] at reached
  obtain ⟨t, -, hstep⟩ := Machine.run_append_eq_some.mp reached
  obtain ⟨u, hu, hend⟩ := Machine.run_cons_eq_some.mp hstep
  obtain rfl := Option.some.inj hend
  cases t with
  | undefined => cases hu
  | returned answer => cases hu
  | polling ms j =>
    have hturn : turn ms (j - 1 + 1) = .returned (.error .EINTR) := Option.some.inj hu
    unfold turn at hturn
    split at hturn <;> cases hturn

/-- The polled wait is what `semtimedop` would be exactly when the timeout is not zero, fits an
`int` in milliseconds, and nothing interrupts it. -/
theorem nebSemTimedop_honours_iff (timeout : Timespec) (normalised : timeout.Normalised)
    (nonneg : 0 ≤ timeout.tvSec) (answers : List Answer) (c : Ctl)
    (reached : Machine.run step (nebSemTimedop timeout) answers = some c) :
    Honours timeout answers c ↔
      0 < ceilMs timeout ∧ ceilMs timeout ≤ 2147483647 ∧ .error .EINTR ∉ answers := by
  have hexact := timeout_ms_exact_iff normalised nonneg
  constructor
  · intro honours
    refine ⟨?_, hexact.mp honours.bound, interruption_unreported reached honours⟩
    by_contra hzero
    -- no attempt is made
    have hstart : nebSemTimedop timeout = .returned (.error .ETIMEDOUT) := by
      rw [nebSemTimedop, honours.bound]
      exact if_neg hzero
    rw [hstart] at reached
    obtain ⟨hnone, hc⟩ := run_returned reached
    exact honours.tried _ hc hnone
  · rintro ⟨hpos, hle, calm⟩
    have hstart : nebSemTimedop timeout = turn (ceilMs timeout) 0 := by
      rw [nebSemTimedop, hexact.mpr hle]
    have hattempts : attempts timeout = (ceilMs timeout - 0).toNat := by
      unfold attempts
      omega
    rw [hstart] at reached
    obtain ⟨hsuccess, hends⟩ := run_polling reached calm
    rw [← hattempts] at hsuccess hends
    refine ⟨hexact.mpr hle, fun answer hc hnone => ?_, hsuccess, fun i hi => ?_, hends⟩
    · subst hnone
      obtain rfl := Option.some.inj reached
      rw [turn, if_pos hpos] at hc
      cases hc
    · exact absurd (List.mem_of_getElem? hi) calm

/-- A timeout of one and a half milliseconds; the second attempt succeeds. -/
theorem nebSemTimedop_honours_iff_second :
    Honours ⟨0, 1500000⟩ [.error .EAGAIN, .ok ()] (.returned (.ok ())) :=
  (nebSemTimedop_honours_iff ⟨0, 1500000⟩ (by decide) (by decide) [.error .EAGAIN, .ok ()]
    (.returned (.ok ())) rfl).mpr (by decide)

/-- With a timeout of zero no attempt is made, 2147484 seconds are as good as none, and an
interruption is passed over. -/
theorem nebSemTimedop_fails :
    nebSemTimedop ⟨0, 0⟩ = .returned (.error .ETIMEDOUT) ∧
      nebSemTimedop ⟨2147484, 0⟩ = .returned (.error .ETIMEDOUT) ∧
      Machine.run step (nebSemTimedop ⟨1, 0⟩) [.error .EINTR, .ok ()] =
        some (.returned (.ok ())) ∧
      ¬ Honours ⟨0, 0⟩ [] (.returned (.error .ETIMEDOUT)) ∧
      ¬ Honours ⟨2147484, 0⟩ [] (.returned (.error .ETIMEDOUT)) ∧
      ¬ Honours ⟨1, 0⟩ [.error .EINTR, .ok ()] (.returned (.ok ())) := by
  refine ⟨rfl, rfl, rfl, fun h => h.tried _ rfl rfl, fun h => h.tried _ rfl rfl, fun h => ?_⟩
  exact absurd (h.interrupted 0 rfl).1 (by decide)

end Nebase.Sem
