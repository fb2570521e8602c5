/- Doubly linked lists at pointer level: lists that hang off heads which are nodes themselves, the
   insertion after a node, the removal of a node, and what they leave alone. -/

import Mathlib.Data.Set.Basic
import Mathlib.Data.List.Nodup
import Mathlib.Logic.Function.Basic

set_option autoImplicit false
set_option relaxedAutoImplicit false

namespace Nebase.Foundation.SentinelList

universe u

variable {ν : Type u}

/-- The two families of fields. -/
structure Links (ν : Type u) where
  prev : ν → Option ν
  next : ν → Option ν

/-- From `p` on, the nodes that follow are `xs`, linked both ways. -/
def Segment (l : Links ν) : ν → List ν → Prop
  | p, [] => l.next p = none
  | p, x :: xs => l.next p = some x ∧ l.prev x = some p ∧ Segment l x xs

theorem Segment.next_eq {l : Links ν} {p : ν} {xs : List ν} (seg : Segment l p xs) :
    l.next p = xs.head? := by
  cases xs with
  | nil => exact seg
  | cons x xs => exact seg.1

theorem Segment.unique {l : Links ν} {p : ν} {xs ys : List ν} (seg : Segment l p xs)
    (seg' : Segment l p ys) : xs = ys := by
  induction xs generalizing p ys with
  | nil =>
    cases ys with
    | nil => rfl
    | cons y ys => exact absurd (seg.symm.trans seg'.1) (by simp)
  | cons x xs ih =>
    cases ys with
    | nil => exact absurd (seg.1.symm.trans seg') (by simp)
    | cons y ys =>
      obtain rfl : x = y := Option.some.inj (seg.1.symm.trans seg'.1)
      rw [ih seg.2.2 seg'.2.2]

/-- A node of a segment follows another of its nodes. -/
theorem Segment.prev_mem {l : Links ν} {p x : ν} {xs : List ν} (seg : Segment l p xs)
    (nodup : (p :: xs).Nodup) (hx : x ∈ xs) : ∃ q ∈ p :: xs, q ≠ x ∧ l.prev x = some q := by
  induction xs generalizing p with
  | nil => cases hx
  | cons y ys ih =>
    obtain ⟨hp, nodup⟩ := List.nodup_cons.mp nodup
    rcases List.mem_cons.mp hx with rfl | hx
    · exact ⟨p, List.mem_cons_self, fun e => hp (e ▸ List.mem_cons_self), seg.2.1⟩
    · obtain ⟨q, hq, hqx, hprev⟩ := ih seg.2.2 nodup hx
      exact ⟨q, List.mem_cons_of_mem p hq, hqx, hprev⟩

/-- What follows a node of a segment is a node of it. -/
theorem Segment.next_mem {l : Links ν} {p x y : ν} {xs : List ν} (seg : Segment l p xs)
    (hx : x ∈ p :: xs) (hy : l.next x = some y) : y ∈ xs := by
  induction xs generalizing p with
  | nil =>
    obtain rfl : x = p := by simpa using hx
    exact absurd (seg.symm.trans hy) (by simp)
  | cons z zs ih =>
    rcases List.mem_cons.mp hx with rfl | hx
    · obtain rfl : z = y := Option.some.inj (seg.1.symm.trans hy)
      exact List.mem_cons_self
    · exact List.mem_cons_of_mem z (ih seg.2.2 hx)

theorem Segment.frame {l l' : Links ν} {p : ν} {xs : List ν} (seg : Segment l p xs)
    (next : ∀ x ∈ p :: xs, l'.next x = l.next x) (prev : ∀ x ∈ xs, l'.prev x = l.prev x) :
    Segment l' p xs := by
  induction xs generalizing p with
  | nil => exact (next p List.mem_cons_self).trans seg
  | cons x xs ih =>
    refine ⟨(next p List.mem_cons_self).trans seg.1,
      (prev x List.mem_cons_self).trans seg.2.1, ?_⟩
    exact ih seg.2.2 (fun y hy => next y (List.mem_cons_of_mem p hy))
      (fun y hy => prev y (List.mem_cons_of_mem x hy))

variable [DecidableEq ν]

def Links.setPrev (l : Links ν) (x : ν) (p : Option ν) : Links ν :=
  { l with prev := Function.update l.prev x p }

def Links.setNext (l : Links ν) (x : ν) (n : Option ν) : Links ν :=
  { l with next := Function.update l.next x n }

@[simp] theorem setPrev_next (l : Links ν) (x : ν) (p : Option ν) :
    (l.setPrev x p).next = l.next := rfl

@[simp] theorem setNext_prev (l : Links ν) (x : ν) (n : Option ν) :
    (l.setNext x n).prev = l.prev := rfl

theorem setPrev_prev (l : Links ν) (x y : ν) (p : Option ν) :
    (l.setPrev x p).prev y = if y = x then p else l.prev y := by
  simp [Links.setPrev, Function.update_apply]

theorem setNext_next (l : Links ν) (x y : ν) (n : Option ν) :
    (l.setNext x n).next y = if y = x then n else l.next y := by
  simp [Links.setNext, Function.update_apply]

/-- `x` becomes the successor of `h`. -/
def insertAfter (h x : ν) (l : Links ν) : Links ν :=
  let l1 := ((l.setNext x (l.next h)).setPrev x (some h)).setNext h (some x)
  match l1.next x with
  | some y => l1.setPrev y (some x)
  | none => l1

/-- `x` is unlinked from its neighbours, and they from it. -/
def remove (x : ν) (l : Links ν) : Links ν :=
  let l1 := match l.prev x with
    | some p => l.setNext p (l.next x)
    | none => l
  let l2 := match l1.next x with
    | some n => l1.setPrev n (l1.prev x)
    | none => l1
  (l2.setPrev x none).setNext x none

theorem insert_after_next {l : Links ν} {h x y : ν} :
    (insertAfter h x l).next y =
      if y = h then some x else if y = x then l.next h else l.next y := by
  have hl : (insertAfter h x l).next =
      (((l.setNext x (l.next h)).setPrev x (some h)).setNext h (some x)).next := by
    unfold insertAfter
    simp only
    split <;> rfl
  rw [hl, setNext_next, setPrev_next, setNext_next]

theorem insert_after_prev {l : Links ν} {h x y : ν} (hx : h ≠ x) :
    (insertAfter h x l).prev y =
      if l.next h = some y then some x else if y = x then some h else l.prev y := by
  have hnext : (((l.setNext x (l.next h)).setPrev x (some h)).setNext h (some x)).next x =
      l.next h := by
    simp [setNext_next, Ne.symm hx]
  unfold insertAfter
  simp only [hnext]
  cases hh : l.next h with
  | none => simp [setPrev_prev]
  | some z => simp only [setPrev_prev, setNext_prev, Option.some.injEq, eq_comm]

theorem remove_next {l : Links ν} {p x y : ν} (hprev : l.prev x = some p) :
    (remove x l).next y =
      if y = x then none else if y = p then l.next x else l.next y := by
  unfold remove
  rw [hprev]
  simp only
  split <;> simp only [setPrev_next, setNext_next]

theorem remove_prev {l : Links ν} {p x y : ν} (hprev : l.prev x = some p) (hp : p ≠ x) :
    (remove x l).prev y =
      if y = x then none else if l.next x = some y then some p else l.prev y := by
  have hnext : (l.setNext p (l.next x)).next x = l.next x := by
    simp [setNext_next, Ne.symm hp]
  unfold remove
  rw [hprev]
  simp only [hnext, setNext_prev, setPrev_prev]
  cases hh : l.next x with
  | none => simp
  | some z => simp only [setPrev_prev, setNext_prev, hprev, Option.some.injEq, eq_comm]

theorem Segment.insertAfter {l : Links ν} {h x : ν} {xs : List ν} (seg : Segment l h xs)
    (nodup : (h :: xs).Nodup) (new : x ∉ h :: xs) :
    Segment (insertAfter h x l) h (x :: xs) := by
  have hx : h ≠ x := fun e => new (e ▸ List.mem_cons_self)
  have hxs : x ∉ xs := fun e => new (List.mem_cons_of_mem h e)
  obtain ⟨hh, nodup⟩ := List.nodup_cons.mp nodup
  refine ⟨by simp [insert_after_next], ?_, ?_⟩
  · rw [insert_after_prev hx, if_neg, if_pos rfl]
    intro hnext
    exact hxs (seg.next_mem List.mem_cons_self hnext)
  · cases xs with
    | nil => rw [Segment, insert_after_next, if_neg hx.symm, if_pos rfl, seg.next_eq]; rfl
    | cons y ys =>
      obtain ⟨hy, nodup⟩ := List.nodup_cons.mp nodup
      refine ⟨?_, ?_, ?_⟩
      · rw [insert_after_next, if_neg hx.symm, if_pos rfl, seg.1]
      · rw [insert_after_prev hx, if_pos seg.1]
      · refine seg.2.2.frame ?_ ?_
        · intro z hz
          rw [insert_after_next, if_neg (fun e : z = h => hh (e ▸ hz)),
            if_neg (fun e : z = x => hxs (e ▸ hz))]
        · intro z hz
          rw [insert_after_prev hx, seg.1, if_neg, if_neg]
          · rintro rfl
            exact hxs (List.mem_cons_of_mem y hz)
          · intro e
            exact hy (Option.some.inj e ▸ hz)

/-- An insertion after a node of the list. -/
theorem Segment.insertInside {l : Links ν} {h i x : ν} {xs ys : List ν}
    (seg : Segment l h (xs ++ i :: ys)) (nodup : (h :: (xs ++ i :: ys)).Nodup)
    (new : x ∉ h :: (xs ++ i :: ys)) :
    Segment (SentinelList.insertAfter i x l) h (xs ++ i :: x :: ys) := by
  induction xs generalizing h with
  | nil =>
    obtain ⟨hh, nodup⟩ := List.nodup_cons.mp nodup
    have hih : i ≠ h := fun e => hh (e ▸ List.mem_cons_self)
    have hxi : i ≠ x := fun e => new (e ▸ List.mem_cons_of_mem h List.mem_cons_self)
    have hhx : h ≠ x := fun e => new (e ▸ List.mem_cons_self)
    refine ⟨?_, ?_, ?_⟩
    · rw [insert_after_next, if_neg hih.symm, if_neg hhx, seg.1]
    · rw [insert_after_prev hxi, if_neg, if_neg hxi, seg.2.1]
      exact fun hi => (List.nodup_cons.mp nodup).1 (seg.2.2.next_mem List.mem_cons_self hi)
    · exact seg.2.2.insertAfter nodup (fun hx => new (List.mem_cons_of_mem h hx))
  | cons y xs ih =>
    obtain ⟨hh, nodup⟩ := List.nodup_cons.mp nodup
    have hi : i ∈ y :: (xs ++ i :: ys) := by simp
    have hhi : h ≠ i := fun e => hh (e ▸ hi)
    have hhx : h ≠ x := fun e => new (e ▸ List.mem_cons_self)
    have hxi : i ≠ x := fun e => new (e ▸ List.mem_cons_of_mem h hi)
    have hyx : y ≠ x := fun e => new (e ▸ List.mem_cons_of_mem h List.mem_cons_self)
    refine ⟨?_, ?_, ih seg.2.2 nodup (fun hx => new (List.mem_cons_of_mem h hx))⟩
    · rw [insert_after_next, if_neg hhi, if_neg hhx, seg.1]
    · rw [insert_after_prev hxi, if_neg, if_neg hyx, seg.2.1]
      exact fun hy => (List.nodup_cons.mp nodup).1 (seg.2.2.next_mem hi hy)

theorem Segment.remove {l : Links ν} {p x : ν} {xs : List ν} (seg : Segment l p xs)
    (nodup : (p :: xs).Nodup) (hx : x ∈ xs) : Segment (remove x l) p (xs.erase x) := by
  induction xs generalizing p with
  | nil => cases hx
  | cons y ys ih =>
    obtain ⟨hp, nodup'⟩ := List.nodup_cons.mp nodup
    obtain ⟨hy, nodup''⟩ := List.nodup_cons.mp nodup'
    by_cases hyx : y = x
    · subst hyx
      have hpy : p ≠ y := fun e => hp (e ▸ List.mem_cons_self)
      rw [List.erase_cons_head]
      cases ys with
      | nil => rw [Segment, remove_next seg.2.1, if_neg hpy, if_pos rfl, seg.2.2.next_eq]; rfl
      | cons z zs =>
        have hz := (List.nodup_cons.mp nodup'').1
        refine ⟨?_, ?_, seg.2.2.2.2.frame ?_ ?_⟩
        · rw [remove_next seg.2.1, if_neg hpy, if_pos rfl, seg.2.2.1]
        · rw [remove_prev seg.2.1 hpy, if_neg (fun e : z = y => hy (e ▸ List.mem_cons_self)),
            if_pos seg.2.2.1]
        · intro u hu
          rw [remove_next seg.2.1, if_neg (fun e : u = y => hy (e ▸ hu)),
            if_neg (fun e : u = p => hp (e ▸ List.mem_cons_of_mem y hu))]
        · intro u hu
          rw [remove_prev seg.2.1 hpy, seg.2.2.1,
            if_neg (fun e : u = y => hy (e ▸ List.mem_cons_of_mem z hu)), if_neg]
          exact fun e => hz (Option.some.inj e ▸ hu)
    · rw [List.erase_cons_tail (by simpa using hyx)]
      have hx' : x ∈ ys := by
        rcases List.mem_cons.mp hx with rfl | h
        · exact absurd rfl hyx
        · exact h
      obtain ⟨q, hq, hqx, hprev⟩ := seg.2.2.prev_mem nodup' hx'
      refine ⟨?_, ?_, ih seg.2.2 nodup' hx'⟩
      · rw [remove_next hprev, if_neg (fun e : p = x => hp (e ▸ hx)),
          if_neg (fun e : p = q => hp (e ▸ hq)), seg.1]
      · rw [remove_prev hprev hqx, if_neg hyx, if_neg, seg.2.1]
        exact fun e => hy (seg.2.2.next_mem (List.mem_cons_of_mem y hx') e)

/-- The heads `H` carry the lists `L`: each is linked both ways from its head on, no node occurs
twice, and no head has a predecessor. -/
structure Lists (l : Links ν) (H : Set ν) (L : ν → List ν) : Prop where
  first : ∀ h ∈ H, l.prev h = none
  segment : ∀ h ∈ H, Segment l h (L h)
  nodup : ∀ h ∈ H, (h :: L h).Nodup
  apart : ∀ h ∈ H, ∀ k ∈ H, h ≠ k → (h :: L h).Disjoint (k :: L k)

variable {l : Links ν} {H : Set ν} {L : ν → List ν}

omit [DecidableEq ν] in
theorem Lists.next_eq (lists : Lists l H L) {h : ν} (hh : h ∈ H) : l.next h = (L h).head? :=
  (lists.segment h hh).next_eq

omit [DecidableEq ν] in
private theorem head_notMem (lists : Lists l H L) {h k : ν} (hh : h ∈ H) (hk : k ∈ H) :
    h ∉ L k := by
  by_cases hkh : h = k
  · subst hkh
    exact (List.nodup_cons.mp (lists.nodup h hh)).1
  · exact fun hm => lists.apart h hh k hk hkh List.mem_cons_self (List.mem_cons_of_mem k hm)

theorem Lists.insertAfter (lists : Lists l H L) {h x : ν} (hh : h ∈ H)
    (new : ∀ k ∈ H, x ∉ k :: L k) :
    Lists (insertAfter h x l) H (Function.update L h (x :: L h)) := by
  have hx : h ≠ x := fun e => new h hh (e ▸ List.mem_cons_self)
  have hsucc : ∀ k ∈ H, ∀ y ∈ k :: L k, l.next h = some y → k = h := by
    intro k hk y hy hnext
    by_contra hkh
    exact lists.apart k hk h hh hkh hy
      (List.mem_cons_of_mem h ((lists.segment h hh).next_mem List.mem_cons_self hnext))
  refine ⟨?_, ?_, ?_, ?_⟩
  · intro k hk
    rw [insert_after_prev hx, if_neg, if_neg (fun e : k = x => new k hk (e ▸ List.mem_cons_self)),
      lists.first k hk]
    exact fun hnext => head_notMem lists hk hh
      ((lists.segment h hh).next_mem List.mem_cons_self hnext)
  · intro k hk
    by_cases hkh : k = h
    · subst hkh
      rw [Function.update_self]
      exact (lists.segment k hk).insertAfter (lists.nodup k hk) (new k hk)
    · rw [Function.update_of_ne hkh]
      refine (lists.segment k hk).frame ?_ ?_
      · intro y hy
        rw [insert_after_next, if_neg, if_neg (fun e : y = x => new k hk (e ▸ hy))]
        rintro rfl
        exact lists.apart k hk y hh hkh hy List.mem_cons_self
      · intro y hy
        rw [insert_after_prev hx,
          if_neg (fun e => hkh (hsucc k hk y (List.mem_cons_of_mem k hy) e)),
          if_neg (fun e : y = x => new k hk (e ▸ List.mem_cons_of_mem k hy))]
  · intro k hk
    by_cases hkh : k = h
    · subst hkh
      rw [Function.update_self]
      obtain ⟨hk', nodup⟩ := List.nodup_cons.mp (lists.nodup k hk)
      have hxk := new k hk
      simp only [List.mem_cons, not_or] at hxk
      simp [hk', nodup, hxk.2, hx]
    · rw [Function.update_of_ne hkh]
      exact lists.nodup k hk
  · have key : ∀ k ∈ H, k ≠ h → (h :: x :: L h).Disjoint (k :: L k) := by
      intro k hk hkh y hy hyk
      simp only [List.mem_cons] at hy
      rcases hy with rfl | rfl | hy
      · exact lists.apart y hh k hk (Ne.symm hkh) List.mem_cons_self hyk
      · exact new k hk hyk
      · exact lists.apart h hh k hk (Ne.symm hkh) (List.mem_cons_of_mem h hy) hyk
    intro k hk j hj hkj
    by_cases hkh : k = h
    · subst hkh
      rw [Function.update_self, Function.update_of_ne (Ne.symm hkj)]
      exact key j hj (Ne.symm hkj)
    · by_cases hjh : j = h
      · subst hjh
        rw [Function.update_self, Function.update_of_ne hkh]
        exact fun y hy hy' => key k hk hkh hy' hy
      · rw [Function.update_of_ne hkh, Function.update_of_ne hjh]
        exact lists.apart k hk j hj hkj

theorem Lists.remove (lists : Lists l H L) {h x : ν} (hh : h ∈ H) (hx : x ∈ L h) :
    Lists (remove x l) H (Function.update L h ((L h).erase x)) := by
  have seg := lists.segment h hh
  obtain ⟨q, hq, hqx, hprev⟩ := seg.prev_mem (lists.nodup h hh) hx
  have hxh : x ∈ h :: L h := List.mem_cons_of_mem h hx
  refine ⟨?_, ?_, ?_, ?_⟩
  · intro k hk
    rw [remove_prev hprev hqx, if_neg (fun e : k = x => head_notMem lists hk hh (e ▸ hx)), if_neg,
      lists.first k hk]
    exact fun hnext => head_notMem lists hk hh (seg.next_mem hxh hnext)
  · intro k hk
    by_cases hkh : k = h
    · subst hkh
      rw [Function.update_self]
      exact seg.remove (lists.nodup k hk) hx
    · rw [Function.update_of_ne hkh]
      have apart := lists.apart k hk h hh hkh
      refine (lists.segment k hk).frame ?_ ?_
      · intro y hy
        rw [remove_next hprev, if_neg (fun e : y = x => apart (e ▸ hy) hxh),
          if_neg (fun e : y = q => apart (e ▸ hy) hq)]
      · intro y hy
        have hy' := List.mem_cons_of_mem k hy
        rw [remove_prev hprev hqx, if_neg (fun e : y = x => apart (e ▸ hy') hxh), if_neg]
        exact fun hnext => apart hy' (List.mem_cons_of_mem h (seg.next_mem hxh hnext))
  · intro k hk
    by_cases hkh : k = h
    · subst hkh
      rw [Function.update_self]
      obtain ⟨hk', nodup⟩ := List.nodup_cons.mp (lists.nodup k hk)
      exact List.nodup_cons.mpr ⟨fun e => hk' (List.mem_of_mem_erase e), nodup.erase x⟩
    · rw [Function.update_of_ne hkh]
      exact lists.nodup k hk
  · have sub : ∀ k, Function.update L h ((L h).erase x) k ⊆ L k := by
      intro k
      by_cases hkh : k = h
      · subst hkh
        rw [Function.update_self]
        exact List.erase_subset
      · rw [Function.update_of_ne hkh]
        exact fun _ => id
    intro k hk j hj hkj y hyk hyj
    exact lists.apart k hk j hj hkj (List.cons_subset_cons k (sub k) hyk)
      (List.cons_subset_cons j (sub j) hyj)

omit [DecidableEq ν] in
/-- The nodes of the lists are closed under the links. -/
private theorem next_known (lists : Lists l H L) {h x y : ν} (hh : h ∈ H) (hx : x ∈ h :: L h)
    (hy : l.next x = some y) : y ∈ L h :=
  (lists.segment h hh).next_mem hx hy

/-- An insertion after a node of the list of `h`. -/
theorem Lists.insertInside (lists : Lists l H L) {h i x : ν} {xs ys : List ν} (hh : h ∈ H)
    (hL : L h = xs ++ i :: ys) (new : ∀ k ∈ H, x ∉ k :: L k) :
    Lists (SentinelList.insertAfter i x l) H (Function.update L h (xs ++ i :: x :: ys)) := by
  have hi : i ∈ L h := by rw [hL]; simp
  have hxi : i ≠ x := fun e => new h hh (e ▸ List.mem_cons_of_mem h hi)
  have hsub : ∀ y ∈ xs ++ i :: x :: ys, y = x ∨ y ∈ L h := by
    intro y hy
    rw [hL]
    simp only [List.mem_append, List.mem_cons] at hy ⊢
    tauto
  have hother : ∀ k ∈ H, k ≠ h → ∀ y ∈ k :: L k, y ≠ i ∧ y ≠ x ∧ l.next i ≠ some y := by
    intro k hk hkh y hy
    have apart := lists.apart k hk h hh hkh
    refine ⟨fun e => apart (e ▸ hy) (List.mem_cons_of_mem h hi), fun e => new k hk (e ▸ hy), ?_⟩
    intro hnext
    exact apart hy (List.mem_cons_of_mem h
      (next_known lists hh (List.mem_cons_of_mem h hi) hnext))
  refine ⟨?_, ?_, ?_, ?_⟩
  · intro k hk
    rw [insert_after_prev hxi, if_neg, if_neg (fun e : k = x => new k hk (e ▸ List.mem_cons_self)),
      lists.first k hk]
    exact fun hnext => head_notMem lists hk hh
      (next_known lists hh (List.mem_cons_of_mem h hi) hnext)
  · intro k hk
    by_cases hkh : k = h
    · subst hkh
      rw [Function.update_self]
      have seg := lists.segment k hk
      have nodup := lists.nodup k hk
      have hnew := new k hk
      rw [hL] at seg nodup hnew
      exact seg.insertInside nodup hnew
    · rw [Function.update_of_ne hkh]
      refine (lists.segment k hk).frame ?_ ?_
      · intro y hy
        obtain ⟨hyi, hyx, -⟩ := hother k hk hkh y hy
        rw [insert_after_next, if_neg hyi, if_neg hyx]
      · intro y hy
        obtain ⟨-, hyx, hnext⟩ := hother k hk hkh y (List.mem_cons_of_mem k hy)
        rw [insert_after_prev hxi, if_neg hnext, if_neg hyx]
  · intro k hk
    by_cases hkh : k = h
    · subst hkh
      rw [Function.update_self]
      have nodup := lists.nodup k hk
      have hnew := new k hk
      rw [hL] at nodup hnew
      simp only [List.nodup_cons, List.mem_append, List.mem_cons, List.nodup_append, not_or,
        ne_eq] at nodup hnew ⊢
      grind
    · rw [Function.update_of_ne hkh]
      exact lists.nodup k hk
  · have key : ∀ k ∈ H, k ≠ h → (h :: (xs ++ i :: x :: ys)).Disjoint (k :: L k) := by
      intro k hk hkh y hy hyk
      rcases List.mem_cons.mp hy with rfl | hy
      · exact lists.apart k hk y hh hkh hyk List.mem_cons_self
      · rcases hsub y hy with rfl | hy
        · exact new k hk hyk
        · exact lists.apart k hk h hh hkh hyk (List.mem_cons_of_mem h hy)
    intro k hk j hj hkj
    by_cases hkh : k = h
    · subst hkh
      rw [Function.update_self, Function.update_of_ne (Ne.symm hkj)]
      exact key j hj (Ne.symm hkj)
    · by_cases hjh : j = h
      · subst hjh
        rw [Function.update_self, Function.update_of_ne hkh]
        exact fun y hy hy' => key k hk hkh hy' hy
      · rw [Function.update_of_ne hkh, Function.update_of_ne hjh]
        exact lists.apart k hk j hj hkj

/-! Nodes that are in no list. -/

/-- A node that is linked to nothing. -/
def Loose (l : Links ν) (x : ν) : Prop := l.prev x = none ∧ l.next x = none

theorem Loose.insertAfter (lists : Lists l H L) {h i x y : ν} (hh : h ∈ H) (hi : i ∈ h :: L h)
    (hxi : i ≠ x) (hyx : y ≠ x) (hy : y ∉ h :: L h) (loose : Loose l y) :
    Loose (SentinelList.insertAfter i x l) y := by
  refine ⟨?_, ?_⟩
  · rw [insert_after_prev hxi, if_neg, if_neg hyx, loose.1]
    exact fun hnext => hy (List.mem_cons_of_mem h (next_known lists hh hi hnext))
  · rw [insert_after_next, if_neg (fun e : y = i => hy (e ▸ hi)), if_neg hyx, loose.2]

theorem Loose.remove (lists : Lists l H L) {h x y : ν} (hh : h ∈ H) (hx : x ∈ L h)
    (hy : y = x ∨ y ∉ h :: L h ∧ Loose l y) : Loose (remove x l) y := by
  obtain ⟨q, hq, hqx, hprev⟩ := (lists.segment h hh).prev_mem (lists.nodup h hh) hx
  rcases hy with rfl | ⟨hy, loose⟩
  · exact ⟨by rw [remove_prev hprev hqx, if_pos rfl], by rw [remove_next hprev, if_pos rfl]⟩
  · have hyx : y ≠ x := fun e => hy (e ▸ List.mem_cons_of_mem h hx)
    refine ⟨?_, ?_⟩
    · rw [remove_prev hprev hqx, if_neg hyx, if_neg, loose.1]
      exact fun hnext => hy (List.mem_cons_of_mem h
        (next_known lists hh (List.mem_cons_of_mem h hx) hnext))
    · rw [remove_next hprev, if_neg hyx, if_neg (fun e : y = q => hy (e ▸ hq)), loose.2]

/-- The removal of a node that is linked to nothing. -/
theorem Loose.remove_eq {x : ν} (loose : Loose l x) : SentinelList.remove x l = l := by
  unfold SentinelList.remove
  rw [loose.1]
  simp only [loose.2, Links.setPrev, Links.setNext]
  rw [show Function.update l.prev x none = l.prev from by rw [← loose.1, Function.update_eq_self],
    show Function.update l.next x none = l.next from by rw [← loose.2, Function.update_eq_self]]

omit [DecidableEq ν] in
/-- What stands behind a node in the list of the nodes. -/
theorem behind_eq [DecidableEq ν] {xs ys : List ν} {x : ν} (first : x ∉ xs) :
    ((xs ++ x :: ys).dropWhile (· ≠ x)).tail = ys := by
  have hne : ∀ y ∈ xs, y ≠ x := fun y hy e => first (e ▸ hy)
  rw [List.dropWhile_append_of_pos (by simpa using hne)]
  simp

end Nebase.Foundation.SentinelList
