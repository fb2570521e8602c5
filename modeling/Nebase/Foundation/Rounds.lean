/- Histories of picks that go round: complete rounds, each an arrangement of the same items, and the
   round under way. -/

import Mathlib.Data.List.Perm.Basic

set_option autoImplicit false
set_option relaxedAutoImplicit false

namespace Nebase.Foundation.Rounds

universe u

variable {ν : Type u} {items c h : List ν}

/-- The history `h` consists of complete rounds over `items` and of the picks `c` of the round under
way. -/
def Dealt (items c h : List ν) : Prop :=
  ∃ rounds : List (List ν), (∀ r ∈ rounds, r.Perm items) ∧ h = rounds.flatten ++ c

theorem Dealt.start (items : List ν) : Dealt items [] [] := ⟨[], by simp, rfl⟩

theorem Dealt.pick (dealt : Dealt items c h) (x : ν) : Dealt items (c ++ [x]) (h ++ [x]) := by
  obtain ⟨rounds, hrounds, rfl⟩ := dealt
  exact ⟨rounds, hrounds, by rw [List.append_assoc]⟩

/-- The round under way is complete. -/
theorem Dealt.turn (dealt : Dealt items c h) (full : c.Perm items) : Dealt items [] h := by
  obtain ⟨rounds, hrounds, rfl⟩ := dealt
  refine ⟨rounds ++ [c], ?_, by simp⟩
  intro r hr
  rcases List.mem_append.mp hr with hr | hr
  · exact hrounds r hr
  · rw [List.mem_singleton.mp hr]
    exact full

private theorem drop_rounds {n : Nat} {rounds : List (List ν)} (hlen : ∀ r ∈ rounds, r.length = n)
    {k : Nat} (hk : k ≤ rounds.length) (t : List ν) :
    (rounds.flatten ++ t).drop (k * n) = (rounds.drop k).flatten ++ t := by
  induction k generalizing rounds with
  | zero => simp
  | succ k ih =>
    cases rounds with
    | nil => simp at hk
    | cons r rounds =>
      have hr : r.length = n := hlen r List.mem_cons_self
      rw [List.flatten_cons, List.append_assoc, Nat.succ_mul, Nat.add_comm, ← List.drop_drop,
        List.drop_left' hr, List.drop_succ_cons]
      exact ih (fun s hs => hlen s (List.mem_cons_of_mem r hs)) (Nat.le_of_succ_le_succ hk)

private theorem length_rounds {n : Nat} {rounds : List (List ν)}
    (hlen : ∀ r ∈ rounds, r.length = n) :
    rounds.flatten.length = rounds.length * n := by
  induction rounds with
  | nil => simp
  | cons r rounds ih =>
    rw [List.flatten_cons, List.length_append, hlen r List.mem_cons_self,
      ih (fun s hs => hlen s (List.mem_cons_of_mem r hs)), List.length_cons, Nat.succ_mul]
    omega

private theorem round_block {rounds : List (List ν)} (hrounds : ∀ r ∈ rounds, r.Perm items)
    (t : List ν) {k : Nat} (hk : k < rounds.length) :
    (((rounds.flatten ++ t).drop (k * items.length)).take items.length).Perm items := by
  have hlen : ∀ r ∈ rounds, r.length = items.length := fun r hr => (hrounds r hr).length_eq
  rw [drop_rounds hlen (Nat.le_of_lt hk), List.drop_eq_getElem_cons hk, List.flatten_cons,
    List.append_assoc, List.take_left' (hlen _ (List.getElem_mem hk))]
  exact hrounds _ (List.getElem_mem hk)

/-- Every block of a history that starts with a round is a round. -/
theorem Dealt.block (dealt : Dealt items c h) (full : items.length ≤ c.length → c.Perm items)
    {k : Nat} (hk : k * items.length + items.length ≤ h.length) :
    ((h.drop (k * items.length)).take items.length).Perm items := by
  obtain ⟨rounds, hrounds, rfl⟩ := dealt
  rw [List.length_append, length_rounds (fun r hr => (hrounds r hr).length_eq)] at hk
  by_cases hlt : k < rounds.length
  · exact round_block hrounds c hlt
  · -- the round under way is complete, and is the block
    have hle : rounds.length * items.length ≤ k * items.length :=
      Nat.mul_le_mul_right _ (Nat.le_of_not_lt hlt)
    have hc : c.Perm items := full (by omega)
    rcases Nat.eq_zero_or_pos items.length with hzero | hpos
    · rw [hzero, List.take_zero, List.eq_nil_of_length_eq_zero hzero]
    · obtain ⟨rounds', hrounds', hsame⟩ := Dealt.turn ⟨rounds, hrounds, rfl⟩ hc
      have hlength := congrArg List.length hsame
      simp only [List.append_nil, List.length_append,
        length_rounds (fun r hr => (hrounds r hr).length_eq),
        length_rounds (fun r hr => (hrounds' r hr).length_eq)] at hlength
      rw [hsame]
      refine round_block hrounds' [] ?_
      have hbound : (k + 1) * items.length ≤ rounds'.length * items.length := by
        rw [Nat.succ_mul, ← hlength]
        exact hk
      exact Nat.le_of_mul_le_mul_right hbound hpos

end Nebase.Foundation.Rounds
