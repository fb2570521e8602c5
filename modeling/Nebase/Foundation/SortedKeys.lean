/- The first and the last element with a property, in a list that is sorted by distinct keys. -/

import Mathlib.Order.Lattice
import Mathlib.Data.List.Basic

set_option autoImplicit false
set_option relaxedAutoImplicit false

namespace Nebase.Foundation.SortedKeys

universe u v

variable {α : Type u} {ρ : Type v} [LinearOrder ρ]

/-- The element with the least key among those with `P`, if there is one. -/
def Least (key : α → ρ) (P : α → Prop) : Option α → Prop
  | none => ∀ b, ¬ P b
  | some a => P a ∧ ∀ b, P b → key a ≤ key b

/-- The element with the greatest key among those with `P`, if there is one. -/
def Greatest (key : α → ρ) (P : α → Prop) : Option α → Prop
  | none => ∀ b, ¬ P b
  | some a => P a ∧ ∀ b, P b → key b ≤ key a

theorem Least.congr {key : α → ρ} {P Q : α → Prop} {r : Option α} (least : Least key P r)
    (same : ∀ a, Q a ↔ P a) : Least key Q r := by
  cases r with
  | none => exact fun b hb => least b ((same b).mp hb)
  | some a => exact ⟨(same a).mpr least.1, fun b hb => least.2 b ((same b).mp hb)⟩

theorem Greatest.congr {key : α → ρ} {P Q : α → Prop} {r : Option α} (greatest : Greatest key P r)
    (same : ∀ a, Q a ↔ P a) : Greatest key Q r := by
  cases r with
  | none => exact fun b hb => greatest b ((same b).mp hb)
  | some a => exact ⟨(same a).mpr greatest.1, fun b hb => greatest.2 b ((same b).mp hb)⟩

def Sorted (key : α → ρ) (xs : List α) : Prop := xs.Pairwise (fun a b => key a < key b)

section Sorted

variable {key : α → ρ} {xs ys zs : List α} {a : α}

theorem Sorted.nodup (sorted : Sorted key xs) : xs.Nodup :=
  List.Pairwise.imp (fun h => by rintro rfl; exact lt_irrefl _ h) sorted

/-- The keys around an element. -/
theorem Sorted.around (sorted : Sorted key (ys ++ a :: zs)) :
    (∀ b ∈ ys, key b < key a) ∧ ∀ b ∈ zs, key a < key b := by
  rw [Sorted, List.pairwise_append, List.pairwise_cons] at sorted
  exact ⟨fun b hb => sorted.2.2 b hb a List.mem_cons_self, sorted.2.1.1⟩

theorem Sorted.injective (sorted : Sorted key xs) {b c : α} (hb : b ∈ xs) (hc : c ∈ xs)
    (same : key b = key c) : b = c := by
  obtain ⟨ys, zs, rfl⟩ := List.append_of_mem hb
  obtain ⟨less, greater⟩ := sorted.around
  rcases List.mem_append.mp hc with hc | hc
  · exact absurd same.symm (ne_of_lt (less c hc))
  · rcases List.mem_cons.mp hc with rfl | hc
    · rfl
    · exact absurd same (ne_of_lt (greater c hc))

theorem Sorted.remove (sorted : Sorted key (ys ++ a :: zs)) : Sorted key (ys ++ zs) :=
  sorted.sublist (List.Sublist.append_left (List.sublist_cons_self a zs) ys)

theorem Sorted.insert (sorted : Sorted key (ys ++ zs)) (less : ∀ b ∈ ys, key b < key a)
    (greater : ∀ b ∈ zs, key a < key b) : Sorted key (ys ++ a :: zs) := by
  rw [Sorted, List.pairwise_append] at sorted ⊢
  refine ⟨sorted.1, List.pairwise_cons.mpr ⟨greater, sorted.2.1⟩, ?_⟩
  intro b hb c hc
  rcases List.mem_cons.mp hc with rfl | hc
  · exact less b hb
  · exact sorted.2.2 b hb c hc

theorem Sorted.congr {key' : α → ρ} (sorted : Sorted key xs) (same : ∀ b ∈ xs, key' b = key b) :
    Sorted key' xs := by
  refine List.Pairwise.imp_of_mem (fun {b c} hb hc h => ?_) sorted
  rw [same b hb, same c hc]
  exact h

theorem Sorted.least_head (sorted : Sorted key xs) : Least key (· ∈ xs) xs.head? := by
  cases xs with
  | nil => exact fun b => List.not_mem_nil
  | cons a xs =>
    refine ⟨List.mem_cons_self, fun b hb => ?_⟩
    rcases List.mem_cons.mp hb with rfl | hb
    · exact le_rfl
    · exact le_of_lt ((List.pairwise_cons.mp sorted).1 b hb)

theorem Sorted.greatest_last (sorted : Sorted key xs) : Greatest key (· ∈ xs) xs.getLast? := by
  rcases List.eq_nil_or_concat' xs with rfl | ⟨ys, a, rfl⟩
  · exact fun b => List.not_mem_nil
  · rw [List.getLast?_concat]
    refine ⟨by simp, fun b hb => ?_⟩
    rcases List.mem_append.mp hb with hb | hb
    · exact le_of_lt (sorted.around.1 b hb)
    · rw [List.mem_singleton.mp hb]

theorem Sorted.least_find (sorted : Sorted key xs) (p : α → Bool) :
    Least key (fun b => b ∈ xs ∧ p b = true) (xs.find? p) := by
  have heads : Least key (· ∈ xs.filter p) (xs.filter p).head? :=
    Sorted.least_head (List.Pairwise.filter p sorted)
  rw [List.head?_filter] at heads
  exact heads.congr (fun b => List.mem_filter.symm)

theorem Sorted.greatest_filter (sorted : Sorted key xs) (p : α → Bool) :
    Greatest key (fun b => b ∈ xs ∧ p b = true) (xs.filter p).getLast? := by
  have lasts : Greatest key (· ∈ xs.filter p) (xs.filter p).getLast? :=
    Sorted.greatest_last (List.Pairwise.filter p sorted)
  exact lasts.congr (fun b => List.mem_filter.symm)

theorem Sorted.least_next (sorted : Sorted key (ys ++ a :: zs)) :
    Least key (fun b => b ∈ ys ++ a :: zs ∧ key a < key b) zs.head? := by
  obtain ⟨less, greater⟩ := sorted.around
  have heads : Least key (· ∈ zs) zs.head? :=
    Sorted.least_head (List.pairwise_append.mp sorted).2.1.of_cons
  refine heads.congr (fun b => ⟨?_, fun hb => ⟨by simp [hb], greater b hb⟩⟩)
  rintro ⟨hb, h⟩
  rcases List.mem_append.mp hb with hb | hb
  · exact absurd h (not_lt_of_gt (less b hb))
  · rcases List.mem_cons.mp hb with rfl | hb
    · exact absurd h (lt_irrefl _)
    · exact hb

theorem Sorted.greatest_prev (sorted : Sorted key (ys ++ a :: zs)) :
    Greatest key (fun b => b ∈ ys ++ a :: zs ∧ key b < key a) ys.getLast? := by
  obtain ⟨less, greater⟩ := sorted.around
  have lasts : Greatest key (· ∈ ys) ys.getLast? :=
    Sorted.greatest_last (List.pairwise_append.mp sorted).1
  refine lasts.congr (fun b => ⟨?_, fun hb => ⟨by simp [hb], less b hb⟩⟩)
  rintro ⟨hb, h⟩
  rcases List.mem_append.mp hb with hb | hb
  · exact hb
  · rcases List.mem_cons.mp hb with rfl | hb
    · exact absurd h (lt_irrefl _)
    · exact absurd h (not_lt_of_gt (greater b hb))

end Sorted

end Nebase.Foundation.SortedKeys
