/- struct timespec: the order neb_timespeccmp puts on it, its sums and differences, and the time a
   normalised value stands for. -/

import Mathlib.Data.Prod.Lex
import Mathlib.Order.Lattice

set_option autoImplicit false
set_option relaxedAutoImplicit false

namespace Nebase.Time

/-- `struct timespec`; nothing below needs `tvNsec` to be normalised. -/
@[ext] structure Timespec where
  tvSec : Int
  tvNsec : Int
  deriving DecidableEq, Repr

/-- `neb_timespeccmp(tvp, uvp, cmp)`. -/
def nebTimespeccmp (cmp : Int → Int → Bool) (t u : Timespec) : Bool :=
  if t.tvSec = u.tvSec then cmp t.tvNsec u.tvNsec else cmp t.tvSec u.tvSec

private def key (t : Timespec) : Lex (Int × Int) := toLex (t.tvSec, t.tvNsec)

private theorem key_injective : Function.Injective key := by
  intro t u h
  have hp : (t.tvSec, t.tvNsec) = (u.tvSec, u.tvNsec) := toLex.injective h
  exact Timespec.ext (congrArg Prod.fst hp) (congrArg Prod.snd hp)

/-- Seconds first, then nanoseconds. -/
instance : LinearOrder Timespec := LinearOrder.lift' key key_injective

theorem Timespec.lt_iff (t u : Timespec) :
    t < u ↔ t.tvSec < u.tvSec ∨ t.tvSec = u.tvSec ∧ t.tvNsec < u.tvNsec := by
  change key t < key u ↔ _
  rw [key, key, Prod.Lex.toLex_lt_toLex]

theorem nebTimespeccmp_gt (t u : Timespec) :
    nebTimespeccmp (fun a b => decide (a > b)) t u = true ↔ u < t := by
  rw [Timespec.lt_iff]
  unfold nebTimespeccmp
  split
  · rename_i h
    simp [h]
  · rename_i h
    simp only [decide_eq_true_eq, gt_iff_lt]
    constructor
    · exact Or.inl
    · rintro (hlt | ⟨heq, -⟩)
      · exact hlt
      · exact absurd heq.symm h

/-- `neb_timespecadd`; `time_t` is unbounded here. -/
def nebTimespecadd (t u : Timespec) : Timespec :=
  if t.tvNsec + u.tvNsec ≥ 1000000000 then
    ⟨t.tvSec + u.tvSec + 1, t.tvNsec + u.tvNsec - 1000000000⟩
  else
    ⟨t.tvSec + u.tvSec, t.tvNsec + u.tvNsec⟩

/-- `neb_timespecsub`. -/
def nebTimespecsub (t u : Timespec) : Timespec :=
  if t.tvNsec - u.tvNsec < 0 then
    ⟨t.tvSec - u.tvSec - 1, t.tvNsec - u.tvNsec + 1000000000⟩
  else
    ⟨t.tvSec - u.tvSec, t.tvNsec - u.tvNsec⟩

def Timespec.Normalised (t : Timespec) : Prop := 0 ≤ t.tvNsec ∧ t.tvNsec < 1000000000

instance (t : Timespec) : Decidable t.Normalised :=
  inferInstanceAs (Decidable (0 ≤ t.tvNsec ∧ t.tvNsec < 1000000000))

/-- The time `t` stands for, in nanoseconds. -/
def Timespec.ns (t : Timespec) : Int := t.tvSec * 1000000000 + t.tvNsec

theorem nebTimespecadd_ns (t u : Timespec) : (nebTimespecadd t u).ns = t.ns + u.ns := by
  unfold nebTimespecadd Timespec.ns
  split
  · simp only
    omega
  · simp only
    omega

theorem nebTimespecsub_ns (t u : Timespec) : (nebTimespecsub t u).ns = t.ns - u.ns := by
  unfold nebTimespecsub Timespec.ns
  split
  · simp only
    omega
  · simp only
    omega

/-- One carry is enough below two seconds of nanoseconds. -/
theorem nebTimespecadd_normalised_iff {t u : Timespec} (ht : t.Normalised) (hu : 0 ≤ u.tvNsec) :
    (nebTimespecadd t u).Normalised ↔ t.tvNsec + u.tvNsec < 2000000000 := by
  obtain ⟨hlow, -⟩ := ht
  unfold nebTimespecadd Timespec.Normalised
  split
  · simp only
    omega
  · simp only
    omega

theorem nebTimespecsub_normalised {t u : Timespec} (ht : t.Normalised) (hu : u.Normalised) :
    (nebTimespecsub t u).Normalised := by
  unfold Timespec.Normalised at ht hu
  unfold nebTimespecsub Timespec.Normalised
  split
  · simp only
    omega
  · simp only
    omega

theorem Timespec.lt_iff_ns {t u : Timespec} (ht : t.Normalised) (hu : u.Normalised) :
    t < u ↔ t.ns < u.ns := by
  unfold Timespec.Normalised at ht hu
  rw [Timespec.lt_iff]
  unfold Timespec.ns
  omega

theorem Timespec.eq_iff_ns {t u : Timespec} (ht : t.Normalised) (hu : u.Normalised) :
    t = u ↔ t.ns = u.ns := by
  unfold Timespec.Normalised at ht hu
  rw [Timespec.ext_iff]
  unfold Timespec.ns
  omega

end Nebase.Time
