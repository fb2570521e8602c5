/- The search for a place in a tree by the sign of a comparison. -/

import Nebase.Foundation.RedBlack.Tree

set_option autoImplicit false
set_option relaxedAutoImplicit false

namespace Nebase.Foundation.RedBlack

universe u

variable {α : Type u}

open ColorTree

/-- Down from `t`: to the right of what is smaller, to the left of what is greater. It ends at what
is equal, or at a leaf. -/
def search (diff : α → Int) : Context α → ColorTree α → Context α × ColorTree α
  | k, leaf => (k, leaf)
  | k, node c l a r =>
    if diff a = 0 then (k, node c l a r)
    else if diff a < 0 then search diff (⟨.right, c, a, l⟩ :: k) r
    else search diff (⟨.left, c, a, r⟩ :: k) l

/-- Smaller elements come first, then at most one equal one, then greater ones. -/
def Graded (diff : α → Int) (xs : List α) : Prop :=
  xs.Pairwise (fun a b => 0 ≤ diff a → 0 < diff b)

/-- The context lies between the smaller elements and the greater ones. -/
structure Splits (diff : α → Int) (k : Context α) : Prop where
  before : ∀ a ∈ before k, diff a < 0
  after : ∀ a ∈ after k, 0 < diff a

theorem splits_nil (diff : α → Int) : Splits diff [] :=
  ⟨fun _ h => (List.not_mem_nil h).elim, fun _ h => (List.not_mem_nil h).elim⟩

theorem plug_search (diff : α → Int) (k : Context α) (t : ColorTree α) :
    plug (search diff k t).1 (search diff k t).2 = plug k t := by
  induction t generalizing k with
  | leaf => rfl
  | node c l a r ihl ihr =>
    rw [search]
    split_ifs with h0 hneg
    · rfl
    · exact ihr _
    · exact ihl _

theorem search_root {diff : α → Int} {k : Context α} {t : ColorTree α} :
    (search diff k t).2 = leaf ∨
      ∃ c l a r, (search diff k t).2 = node c l a r ∧ diff a = 0 := by
  induction t generalizing k with
  | leaf => exact .inl rfl
  | node c l a r ihl ihr =>
    rw [search]
    split_ifs with h0 hneg
    · exact .inr ⟨c, l, a, r, rfl, h0⟩
    · exact ihr
    · exact ihl

theorem search_splits {diff : α → Int} {k : Context α} {t : ColorTree α} (splits : Splits diff k)
    (graded : Graded diff (plug k t).inorder) : Splits diff (search diff k t).1 := by
  induction t generalizing k with
  | leaf => exact splits
  | node c l a r ihl ihr =>
    rw [search]
    have order : (plug k (node c l a r)).inorder =
        before k ++ (l.inorder ++ a :: (r.inorder ++ after k)) := by
      simp [inorder_plug, inorder]
    have graded' := graded
    rw [order, Graded, List.pairwise_append, List.pairwise_append, List.pairwise_cons] at graded'
    obtain ⟨-, ⟨-, ⟨ha, -⟩, hl⟩, -⟩ := graded'
    split_ifs with h0 hneg
    · exact splits
    · refine ihr ⟨?_, splits.after⟩ graded
      intro b hb
      simp only [before, List.mem_append, List.mem_singleton] at hb
      rcases hb with (hb | hb) | rfl
      · exact splits.before b hb
      · by_contra h
        have := hl b hb a List.mem_cons_self (by omega)
        omega
      · exact hneg
    · refine ihl ⟨splits.before, ?_⟩ graded
      intro b hb
      simp only [after, List.mem_cons, List.mem_append] at hb
      rcases hb with rfl | hb | hb
      · omega
      · exact ha b (List.mem_append_left _ hb) (by omega)
      · exact splits.after b hb

/-- The search in a whole tree: an equal element with the smaller ones before it and the greater
ones behind it, or a leaf between them. -/
theorem search_spec {diff : α → Int} {t : ColorTree α} (graded : Graded diff t.inorder) :
    ∃ k s, search diff [] t = (k, s) ∧ plug k s = t ∧ Splits diff k ∧
      (s = leaf ∨ ∃ c l a r, s = node c l a r ∧ diff a = 0) :=
  ⟨_, _, rfl, plug_search diff [] t, search_splits (splits_nil diff) graded, search_root⟩

/-- Around an equal element. -/
theorem Graded.around {diff : α → Int} {ys zs : List α} {a : α}
    (graded : Graded diff (ys ++ a :: zs)) (ha : diff a = 0) :
    (∀ b ∈ ys, diff b < 0) ∧ ∀ b ∈ zs, 0 < diff b := by
  rw [Graded, List.pairwise_append, List.pairwise_cons] at graded
  obtain ⟨-, ⟨hzs, -⟩, hys⟩ := graded
  refine ⟨fun b hb => ?_, fun b hb => hzs b hb (by omega)⟩
  by_contra h
  have := hys b hb a List.mem_cons_self (by omega)
  omega

theorem find_equal {diff : α → Int} {ys zs : List α} (hys : ∀ b ∈ ys, diff b < 0)
    (hzs : ∀ b ∈ zs, 0 < diff b) :
    (ys ++ zs).find? (fun b => diff b = 0) = none ∧
      ∀ a, diff a = 0 → (ys ++ a :: zs).find? (fun b => diff b = 0) = some a := by
  have none_ys : ys.find? (fun b => diff b = 0) = none := by
    simpa using fun b hb => ne_of_lt (hys b hb)
  refine ⟨?_, fun a ha => ?_⟩
  · rw [List.find?_append, none_ys, Option.none_or]
    simpa using fun b hb => ne_of_gt (hzs b hb)
  · rw [List.find?_append, none_ys, Option.none_or]
    simp [ha]

theorem find_not_less {diff : α → Int} {ys zs : List α} (hys : ∀ b ∈ ys, diff b < 0)
    (hzs : ∀ b ∈ zs, 0 ≤ diff b) :
    (ys ++ zs).find? (fun b => 0 ≤ diff b) = zs.head? := by
  have none_ys : ys.find? (fun b => 0 ≤ diff b) = none := by
    simpa using hys
  rw [List.find?_append, none_ys, Option.none_or]
  cases zs with
  | nil => rfl
  | cons a zs => simp [hzs a List.mem_cons_self]

theorem last_not_greater {diff : α → Int} {ys zs : List α} (hys : ∀ b ∈ ys, diff b ≤ 0)
    (hzs : ∀ b ∈ zs, 0 < diff b) :
    ((ys ++ zs).filter (fun b => diff b ≤ 0)).getLast? = ys.getLast? := by
  have all_ys : ys.filter (fun b => diff b ≤ 0) = ys := by
    simpa [List.filter_eq_self] using hys
  have none_zs : zs.filter (fun b => diff b ≤ 0) = [] := by
    simpa [List.filter_eq_nil_iff] using hzs
  rw [List.filter_append, all_ys, none_zs, List.append_nil]

/-- Where a search ends: at the equal element, or at a leaf between the smaller ones and the
greater ones. -/
theorem search_cases {diff : α → Int} {s : ColorTree α} (graded : Graded diff s.inorder) :
    (∃ k, search diff [] s = (k, leaf) ∧ plug k leaf = s ∧ s.inorder = before k ++ after k ∧
      (∀ b ∈ before k, diff b < 0) ∧ ∀ b ∈ after k, 0 < diff b) ∨
    ∃ k c l r a ys zs, search diff [] s = (k, node c l a r) ∧ s.inorder = ys ++ a :: zs ∧
      diff a = 0 ∧ (∀ b ∈ ys, diff b < 0) ∧ ∀ b ∈ zs, 0 < diff b := by
  obtain ⟨k, s', hsearch, hplug, splits, rfl | ⟨c, l, a, r, rfl, ha⟩⟩ := search_spec graded
  · refine .inl ⟨k, hsearch, hplug, ?_, splits.before, splits.after⟩
    rw [← hplug, inorder_plug]
    rfl
  · have order : s.inorder = (before k ++ l.inorder) ++ a :: (r.inorder ++ after k) := by
      rw [← hplug, inorder_plug]
      simp [ColorTree.inorder]
    rw [order] at graded
    obtain ⟨hys, hzs⟩ := graded.around ha
    exact .inr ⟨k, c, l, r, a, _, _, hsearch, order, ha, hys, hzs⟩

end Nebase.Foundation.RedBlack
