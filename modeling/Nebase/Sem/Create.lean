/- System V semaphore sets: what neb_sem_proc_create leaves in a set with any initial contents. -/

import Mathlib.Data.List.Basic

set_option autoImplicit false
set_option relaxedAutoImplicit false

namespace Nebase.Sem

/-- How the system calls of one call turn out; `semctl` is asked at each turn of the loop. -/
structure Outcome where
  ftok : Bool
  semget : Option Nat
  semctl : Nat → Bool

/-- `semctl(semid, semnum, SETVAL, val)` on the values of the set; a `semnum` beyond the set is
refused. -/
def semctlSetval (succeeds : Bool) (semnum val : Nat) (sems : List Nat) : Option (List Nat) :=
  if succeeds && decide (semnum < sems.length) then some (sems.set semnum val) else none

/-- The loop of `neb_sem_proc_create` at turn `i`, with `k` turns left; `none` when the set has been
destroyed. -/
def setvalLoop (semctl : Nat → Bool) : Nat → Nat → List Nat → Option (List Nat)
  | _, 0, sems => some sems
  | i, k + 1, sems => (semctlSetval (semctl i) 0 0 sems).bind (setvalLoop semctl (i + 1) k)

/-- The id of the new set and its values. `path` says that one is given, `initial` is what `semget`
leaves in the set. -/
def nebSemProcCreate (o : Outcome) (path : Bool) (nsems : Nat) (initial : List Nat) :
    Option (Nat × List Nat) :=
  if path && !o.ftok then
    none
  else
    match o.semget with
    | none => none
    | some semid => (setvalLoop o.semctl 0 nsems initial).map (fun sems => (semid, sems))

/-- All semaphores of a set that is returned have the value 0. -/
def Initialised (res : Option (Nat × List Nat)) : Prop :=
  ∀ semid sems, res = some (semid, sems) → ∀ v ∈ sems, v = 0

/-- All calls of `neb_sem_proc_create` succeed. -/
def Succeeds (o : Outcome) (path : Bool) (nsems : Nat) : Prop :=
  (path = true → o.ftok = true) ∧ o.semget ≠ none ∧ ∀ i < nsems, o.semctl i = true

/-- Each turn of the loop sets the first semaphore. -/
private theorem setval_loop_spec (semctl : Nat → Bool) (rest : List Nat) (k i v : Nat) :
    (∀ j < k, semctl (i + j) = true) ∧
        setvalLoop semctl i k (v :: rest) = some ((if k = 0 then v else 0) :: rest) ∨
      ¬ (∀ j < k, semctl (i + j) = true) ∧ setvalLoop semctl i k (v :: rest) = none := by
  induction k generalizing i v with
  | zero => exact .inl ⟨by omega, rfl⟩
  | succ k ih =>
    cases hfirst : semctl i with
    | false =>
      refine .inr ⟨fun h => ?_, ?_⟩
      · have hzero := h 0 (Nat.succ_pos k)
        rw [Nat.add_zero, hfirst] at hzero
        cases hzero
      · simp [setvalLoop, semctlSetval, hfirst]
    | true =>
      have hstep : setvalLoop semctl i (k + 1) (v :: rest) =
          setvalLoop semctl (i + 1) k (0 :: rest) := by
        simp [setvalLoop, semctlSetval, hfirst]
      have hshift : ∀ j, i + (j + 1) = i + 1 + j := by omega
      have hall : (∀ j < k + 1, semctl (i + j) = true) ↔ ∀ j < k, semctl (i + 1 + j) = true := by
        rw [Nat.forall_lt_succ_left]
        refine ⟨fun h j hj => ?_, fun h => ⟨hfirst, fun j hj => ?_⟩⟩
        · rw [← hshift]
          exact h.2 j hj
        · rw [hshift]
          exact h j hj
      rw [hstep, hall, if_neg (Nat.succ_ne_zero k)]
      have hrest := ih (i + 1) 0
      rwa [ite_self] at hrest

/-- The set that a call returns. -/
private theorem create_spec (o : Outcome) (path : Bool) {nsems v : Nat} (pos : 1 ≤ nsems)
    (rest : List Nat) :
    (∃ semid, Succeeds o path nsems ∧
      nebSemProcCreate o path nsems (v :: rest) = some (semid, 0 :: rest)) ∨
      ¬ Succeeds o path nsems ∧ nebSemProcCreate o path nsems (v :: rest) = none := by
  unfold nebSemProcCreate Succeeds
  by_cases hftok : path = true → o.ftok = true
  · have hkey : ¬ (path && !o.ftok) = true := by
      cases path with
      | false => simp
      | true => simp [hftok rfl]
    rw [if_neg hkey]
    cases o.semget with
    | none => exact .inr ⟨fun h => h.2.1 rfl, rfl⟩
    | some semid =>
      have hloop := setval_loop_spec o.semctl rest nsems 0 v
      simp only [Nat.zero_add, if_neg (show ¬ nsems = 0 by omega)] at hloop
      rcases hloop with ⟨hall, hloop⟩ | ⟨hnot, hloop⟩
      · exact .inl ⟨semid, ⟨hftok, by simp, hall⟩, by simp [hloop]⟩
      · exact .inr ⟨fun h => hnot h.2.2, by simp [hloop]⟩
  · have hkey : (path && !o.ftok) = true := by simpa using hftok
    rw [if_pos hkey]
    exact .inr ⟨fun h => hftok h.1, rfl⟩

/-- The set that is returned is all zero exactly when a call fails or `semget` has left all
semaphores but the first at 0. -/
theorem nebSemProcCreate_initialised_iff (o : Outcome) (path : Bool) (nsems : Nat)
    (pos : 1 ≤ nsems) (initial : List Nat) (size : initial.length = nsems) :
    Initialised (nebSemProcCreate o path nsems initial) ↔
      ¬ Succeeds o path nsems ∨ ∀ v ∈ initial.tail, v = 0 := by
  obtain ⟨v, rest, rfl⟩ := List.exists_cons_of_length_pos (show 0 < initial.length by omega)
  rw [List.tail_cons]
  rcases create_spec o path pos rest with ⟨semid, succeeds, hres⟩ | ⟨fails, hres⟩
  · rw [hres, or_iff_right (not_not.mpr succeeds)]
    constructor
    · exact fun h w hw => h semid _ rfl w (List.mem_cons_of_mem 0 hw)
    · intro h id sems hid
      obtain ⟨rfl, rfl⟩ := Prod.mk.inj (Option.some.inj hid)
      exact List.forall_mem_cons.mpr ⟨rfl, h⟩
  · rw [hres]
    exact iff_of_true (fun semid sems h => by cases h) (.inl fails)

/-- Two semaphores, the second of which is 0 already. -/
theorem nebSemProcCreate_initialised_iff_two :
    Initialised (nebSemProcCreate ⟨true, some 7, fun _ => true⟩ true 2 [3, 0]) :=
  (nebSemProcCreate_initialised_iff ⟨true, some 7, fun _ => true⟩ true 2 (by decide) [3, 0]
    rfl).mpr (.inr (by decide))

/-- The second semaphore keeps what it had. -/
theorem nebSemProcCreate_leaves_second :
    nebSemProcCreate ⟨true, some 7, fun _ => true⟩ true 2 [3, 5] = some (7, [0, 5]) ∧
      ¬ Initialised (nebSemProcCreate ⟨true, some 7, fun _ => true⟩ true 2 [3, 5]) := by
  have hres : nebSemProcCreate ⟨true, some 7, fun _ => true⟩ true 2 [3, 5] = some (7, [0, 5]) := by
    decide
  exact ⟨hres, fun h => absurd (h 7 [0, 5] hres 5 (by decide)) (by decide)⟩

end Nebase.Sem
