/- Tail queues at pointer level: heads, back pointers to cells, the five macro operations,
   and the lists they represent. -/

import Mathlib.Data.Set.Basic
import Mathlib.Data.List.Nodup
import Mathlib.Logic.Function.Basic

set_option autoImplicit false
set_option relaxedAutoImplicit false
set_option linter.unusedSectionVars false

namespace Nebase.Foundation.TailQueue

universe u v

variable {η : Type u} {ν : Type v}

/-- The address of a forward pointer: `&head->tqh_first` or `&elm->tqe_next`. -/
inductive Cell (η : Type u) (ν : Type v)
  | first (h : η)
  | next (n : ν)
  deriving DecidableEq

/-- The four families of fields: `tqh_first`, `tqh_last`, `tqe_next`, `tqe_prev`. -/
structure Mem (η : Type u) (ν : Type v) where
  first : η → Option ν
  last : η → Cell η ν
  next : ν → Option ν
  prev : ν → Cell η ν

def Mem.read (m : Mem η ν) : Cell η ν → Option ν
  | .first h => m.first h
  | .next n => m.next n

variable [DecidableEq η] [DecidableEq ν]

def Mem.write (m : Mem η ν) (c : Cell η ν) (p : Option ν) : Mem η ν :=
  match c with
  | .first h => { m with first := Function.update m.first h p }
  | .next n => { m with next := Function.update m.next n p }

def Mem.setLast (m : Mem η ν) (h : η) (c : Cell η ν) : Mem η ν :=
  { m with last := Function.update m.last h c }

def Mem.setPrev (m : Mem η ν) (n : ν) (c : Cell η ν) : Mem η ν :=
  { m with prev := Function.update m.prev n c }

@[simp] theorem read_write_same (m : Mem η ν) (c : Cell η ν) (p : Option ν) :
    (m.write c p).read c = p := by
  cases c <;> simp [Mem.write, Mem.read]

theorem read_write (m : Mem η ν) (c d : Cell η ν) (p : Option ν) :
    (m.write c p).read d = if d = c then p else m.read d := by
  cases c <;> cases d <;> simp [Mem.write, Mem.read, Function.update_apply]

@[simp] theorem write_last (m : Mem η ν) (c : Cell η ν) (p : Option ν) :
    (m.write c p).last = m.last := by
  cases c <;> rfl

@[simp] theorem write_prev (m : Mem η ν) (c : Cell η ν) (p : Option ν) :
    (m.write c p).prev = m.prev := by
  cases c <;> rfl

@[simp] theorem read_setLast (m : Mem η ν) (h : η) (c d : Cell η ν) :
    (m.setLast h c).read d = m.read d := by
  cases d <;> rfl

@[simp] theorem setLast_prev (m : Mem η ν) (h : η) (c : Cell η ν) :
    (m.setLast h c).prev = m.prev := rfl

theorem setLast_last (m : Mem η ν) (h k : η) (c : Cell η ν) :
    (m.setLast h c).last k = if k = h then c else m.last k := by
  simp [Mem.setLast, Function.update_apply]

@[simp] theorem read_setPrev (m : Mem η ν) (n : ν) (c d : Cell η ν) :
    (m.setPrev n c).read d = m.read d := by
  cases d <;> rfl

@[simp] theorem setPrev_last (m : Mem η ν) (n : ν) (c : Cell η ν) :
    (m.setPrev n c).last = m.last := rfl

theorem setPrev_prev (m : Mem η ν) (n k : ν) (c : Cell η ν) :
    (m.setPrev n c).prev k = if k = n then c else m.prev k := by
  simp [Mem.setPrev, Function.update_apply]

/-- `TAILQ_INIT`. -/
def init (h : η) (m : Mem η ν) : Mem η ν :=
  (m.write (.first h) none).setLast h (.first h)

/-- `TAILQ_INSERT_HEAD`. -/
def insertHead (h : η) (n : ν) (m : Mem η ν) : Mem η ν :=
  let m1 := m.write (.next n) (m.first h)
  let m2 := match m.first h with
    | some x => m1.setPrev x (.next n)
    | none => m1.setLast h (.next n)
  (m2.write (.first h) (some n)).setPrev n (.first h)

/-- `TAILQ_INSERT_TAIL`. -/
def insertTail (h : η) (n : ν) (m : Mem η ν) : Mem η ν :=
  let m1 := (m.write (.next n) none).setPrev n (m.last h)
  (m1.write (m.last h) (some n)).setLast h (.next n)

/-- `TAILQ_REMOVE`. -/
def remove (h : η) (n : ν) (m : Mem η ν) : Mem η ν :=
  let m1 := match m.next n with
    | some x => m.setPrev x (m.prev n)
    | none => m.setLast h (m.prev n)
  m1.write (m.prev n) (m.next n)

/-- Assignment of a whole head structure; the nodes and their back pointers stay as they are. -/
def assignHead (h k : η) (m : Mem η ν) : Mem η ν :=
  (m.write (.first h) (m.first k)).setLast h (m.last k)

omit [DecidableEq η] [DecidableEq ν]

/-- Starting at the cell `c`, the forward pointers visit `xs`, every back pointer designates
the cell it was reached from, and `d` is the cell left behind. -/
def Segment (m : Mem η ν) : Cell η ν → List ν → Cell η ν → Prop
  | c, [], d => c = d
  | c, x :: xs, d => m.read c = some x ∧ m.prev x = c ∧ Segment m (.next x) xs d

/-- The queue headed by `h` represents `xs`: the last cell is recorded and holds `NULL`. -/
def IsTailq (m : Mem η ν) (h : η) (xs : List ν) : Prop :=
  Segment m (.first h) xs (m.last h) ∧ m.read (m.last h) = none

theorem segment_append (m : Mem η ν) (c d : Cell η ν) (xs ys : List ν) :
    Segment m c (xs ++ ys) d ↔ ∃ e, Segment m c xs e ∧ Segment m e ys d := by
  induction xs generalizing c with
  | nil => simp [Segment]
  | cons x xs ih => simp [Segment, ih, and_assoc]

theorem Segment.read_prev {m : Mem η ν} {c d : Cell η ν} {xs : List ν}
    (seg : Segment m c xs d) {x : ν} (hx : x ∈ xs) : m.read (m.prev x) = some x := by
  induction xs generalizing c with
  | nil => simp at hx
  | cons y xs ih =>
    rcases List.mem_cons.mp hx with rfl | hx
    · rw [seg.2.1]
      exact seg.1
    · exact ih seg.2.2 hx

/-- A back pointer designates the starting cell or the next pointer of a visited node. -/
theorem Segment.prev_cell {m : Mem η ν} {c d : Cell η ν} {xs : List ν}
    (seg : Segment m c xs d) {x : ν} (hx : x ∈ xs) :
    m.prev x = c ∨ ∃ y ∈ xs, m.prev x = .next y := by
  induction xs generalizing c with
  | nil => simp at hx
  | cons y xs ih =>
    rcases List.mem_cons.mp hx with rfl | hx
    · exact Or.inl seg.2.1
    · rcases ih seg.2.2 hx with h | ⟨z, hz, h⟩
      · exact Or.inr ⟨y, List.mem_cons_self, h⟩
      · exact Or.inr ⟨z, List.mem_cons_of_mem y hz, h⟩

theorem Segment.last_cell {m : Mem η ν} {c d : Cell η ν} {xs : List ν}
    (seg : Segment m c xs d) : d = c ∨ ∃ y ∈ xs, d = .next y := by
  induction xs generalizing c with
  | nil => exact Or.inl (Eq.symm seg)
  | cons y xs ih =>
    rcases ih seg.2.2 with h | ⟨z, hz, h⟩
    · exact Or.inr ⟨y, List.mem_cons_self, h⟩
    · exact Or.inr ⟨z, List.mem_cons_of_mem y hz, h⟩

/-- Frame rule: a segment only depends on the cells its nodes were reached from. -/
theorem Segment.frame {m m' : Mem η ν} {c d : Cell η ν} {xs : List ν}
    (seg : Segment m c xs d) (hprev : ∀ x ∈ xs, m'.prev x = m.prev x)
    (hread : ∀ x ∈ xs, m'.read (m.prev x) = m.read (m.prev x)) : Segment m' c xs d := by
  induction xs generalizing c with
  | nil => exact seg
  | cons x xs ih =>
    have hx := hread x List.mem_cons_self
    rw [seg.2.1] at hx
    refine ⟨hx.trans seg.1, (hprev x List.mem_cons_self).trans seg.2.1, ih seg.2.2 ?_ ?_⟩
    · exact fun y hy => hprev y (List.mem_cons_of_mem x hy)
    · exact fun y hy => hread y (List.mem_cons_of_mem x hy)

theorem IsTailq.first_eq {m : Mem η ν} {h : η} {xs : List ν} (q : IsTailq m h xs) :
    m.first h = xs.head? := by
  cases xs with
  | nil =>
    have hlast : Cell.first h = m.last h := q.1
    have hnull := q.2
    rw [← hlast] at hnull
    simpa [Mem.read] using hnull
  | cons x xs => simpa [Mem.read] using q.1.1

/-- The last cell is no predecessor cell: it holds `NULL`. -/
theorem Segment.prev_ne_null {m : Mem η ν} {c d e : Cell η ν} {xs : List ν}
    (seg : Segment m c xs d) (null : m.read e = none) {x : ν} (hx : x ∈ xs) :
    m.prev x ≠ e := by
  intro heq
  have := seg.read_prev hx
  rw [heq, null] at this
  cases this

/-- A family of queues on pairwise disjoint sets of nodes. -/
structure Queues (m : Mem η ν) (H : Set η) (L : η → List ν) : Prop where
  repr : ∀ h ∈ H, IsTailq m h (L h)
  nodup : ∀ h ∈ H, (L h).Nodup
  disjoint : ∀ h ∈ H, ∀ k ∈ H, h ≠ k → (L h).Disjoint (L k)

theorem Queues.prev_ne_first {m : Mem η ν} {H : Set η} {L : η → List ν} (Q : Queues m H L)
    {h k : η} (hk : k ∈ H) (ne : k ≠ h) {x : ν} (hx : x ∈ L k) : m.prev x ≠ .first h := by
  rcases (Q.repr k hk).1.prev_cell hx with hc | ⟨y, _, hc⟩
  · rw [hc]
    intro heq
    exact ne (Cell.first.inj heq)
  · rw [hc]
    simp

theorem Queues.prev_ne_next {m : Mem η ν} {H : Set η} {L : η → List ν} (Q : Queues m H L)
    {k : η} (hk : k ∈ H) {x n : ν} (hx : x ∈ L k) (fresh : n ∉ L k) : m.prev x ≠ .next n := by
  rcases (Q.repr k hk).1.prev_cell hx with hc | ⟨y, hy, hc⟩
  · rw [hc]
    simp
  · rw [hc]
    intro heq
    exact fresh (Cell.next.inj heq ▸ hy)

theorem Queues.last_ne_next {m : Mem η ν} {H : Set η} {L : η → List ν} (Q : Queues m H L)
    {k : η} (hk : k ∈ H) {n : ν} (fresh : n ∉ L k) : m.last k ≠ .next n := by
  rcases (Q.repr k hk).1.last_cell with hc | ⟨y, hy, hc⟩
  · rw [hc]
    simp
  · rw [hc]
    intro heq
    exact fresh (Cell.next.inj heq ▸ hy)

theorem Queues.last_ne_first {m : Mem η ν} {H : Set η} {L : η → List ν} (Q : Queues m H L)
    {h k : η} (hk : k ∈ H) (ne : k ≠ h) : m.last k ≠ .first h := by
  rcases (Q.repr k hk).1.last_cell with hc | ⟨y, _, hc⟩
  · rw [hc]
    intro heq
    exact ne (Cell.first.inj heq)
  · rw [hc]
    simp

theorem Queues.last_inj {m : Mem η ν} {H : Set η} {L : η → List ν} (Q : Queues m H L)
    {h k : η} (hh : h ∈ H) (hk : k ∈ H) (ne : k ≠ h) : m.last k ≠ m.last h := by
  intro heq
  rcases (Q.repr h hh).1.last_cell with hc | ⟨y, hy, hc⟩
  · exact Q.last_ne_first hk ne (heq.trans hc)
  · exact Q.last_ne_next hk (Q.disjoint h hh k hk (Ne.symm ne) hy) (heq.trans hc)

variable [DecidableEq η] [DecidableEq ν]

theorem Queues.update_nodup {m : Mem η ν} {H : Set η} {L : η → List ν} (Q : Queues m H L)
    {h : η} {xs : List ν} (hxs : xs.Nodup) :
    ∀ k ∈ H, (Function.update L h xs k).Nodup := by
  intro k hk
  by_cases heq : k = h
  · subst heq
    simpa using hxs
  · simpa [heq] using Q.nodup k hk

theorem Queues.update_disjoint {m : Mem η ν} {H : Set η} {L : η → List ν} (Q : Queues m H L)
    {h : η} {xs : List ν} (apart : ∀ k ∈ H, k ≠ h → xs.Disjoint (L k)) :
    ∀ k ∈ H, ∀ l ∈ H, k ≠ l →
      (Function.update L h xs k).Disjoint (Function.update L h xs l) := by
  intro k hk l hl ne
  by_cases hkh : k = h
  · subst hkh
    simpa [Ne.symm ne] using apart l hl (Ne.symm ne)
  · by_cases hlh : l = h
    · subst hlh
      rw [Function.update_self, Function.update_of_ne hkh]
      exact fun x hx hxs => apart k hk hkh hxs hx
    · simpa [hkh, hlh] using Q.disjoint k hk l hl ne

theorem Queues.init {m : Mem η ν} {H : Set η} {L : η → List ν} (Q : Queues m H L) {h : η}
    (new : h ∉ H) : Queues (init h m) (insert h H) (Function.update L h []) := by
  have keep : ∀ k ∈ H, k ≠ h := fun k hk e => new (e ▸ hk)
  have hread : ∀ c, c ≠ .first h → (TailQueue.init h m).read c = m.read c := by
    intro c hc
    simp [TailQueue.init, read_write, hc]
  refine ⟨?_, ?_, ?_⟩
  · intro k hk
    rcases hk with rfl | hk
    · simp [IsTailq, Segment, TailQueue.init, setLast_last]
    · have hl : (TailQueue.init h m).last k = m.last k := by
        simp [TailQueue.init, setLast_last, keep k hk]
      rw [Function.update_of_ne (keep k hk), IsTailq, hl]
      refine ⟨(Q.repr k hk).1.frame (fun _ _ => by simp [TailQueue.init]) ?_, ?_⟩
      · exact fun x hx => hread _ (Q.prev_ne_first hk (keep k hk) hx)
      · rw [hread _ (Q.last_ne_first hk (keep k hk))]
        exact (Q.repr k hk).2
  · intro k hk
    rcases hk with rfl | hk
    · simp
    · rw [Function.update_of_ne (keep k hk)]
      exact Q.nodup k hk
  · intro k hk l hl ne
    rcases hk with rfl | hk
    · simp
    · rcases hl with rfl | hl
      · simp
      · rw [Function.update_of_ne (keep k hk), Function.update_of_ne (keep l hl)]
        exact Q.disjoint k hk l hl ne

theorem Queues.mono {m : Mem η ν} {H K : Set η} {L : η → List ν} (Q : Queues m H L)
    (sub : K ⊆ H) : Queues m K L :=
  ⟨fun h hh => Q.repr h (sub hh), fun h hh => Q.nodup h (sub hh),
    fun h hh k hk ne => Q.disjoint h (sub hh) k (sub hk) ne⟩

theorem Queues.congr {m : Mem η ν} {H : Set η} {L L' : η → List ν} (Q : Queues m H L)
    (agree : ∀ h ∈ H, L' h = L h) : Queues m H L' := by
  refine ⟨?_, ?_, ?_⟩
  · intro h hh
    rw [agree h hh]
    exact Q.repr h hh
  · intro h hh
    rw [agree h hh]
    exact Q.nodup h hh
  · intro h hh k hk ne
    rw [agree h hh, agree k hk]
    exact Q.disjoint h hh k hk ne

/-- Overwriting a head outside the family leaves the family as it is. -/
theorem Queues.assignHead {m : Mem η ν} {H : Set η} {L : η → List ν} (Q : Queues m H L)
    {h : η} (out : h ∉ H) (k : η) : Queues (assignHead h k m) H L := by
  have keep : ∀ l ∈ H, l ≠ h := fun l hl e => out (e ▸ hl)
  have hread : ∀ c, c ≠ .first h → (TailQueue.assignHead h k m).read c = m.read c := by
    intro c hc
    simp [TailQueue.assignHead, read_write, hc]
  refine ⟨?_, Q.nodup, Q.disjoint⟩
  intro l hl
  have hlast : (TailQueue.assignHead h k m).last l = m.last l := by
    simp [TailQueue.assignHead, setLast_last, keep l hl]
  rw [IsTailq, hlast]
  refine ⟨(Q.repr l hl).1.frame (fun _ _ => by simp [TailQueue.assignHead]) ?_, ?_⟩
  · exact fun x hx => hread _ (Q.prev_ne_first hl (keep l hl) hx)
  · rw [hread _ (Q.last_ne_first hl (keep l hl))]
    exact (Q.repr l hl).2

theorem Queues.insertTail {m : Mem η ν} {H : Set η} {L : η → List ν} (Q : Queues m H L)
    {h : η} (hh : h ∈ H) {n : ν} (fresh : ∀ k ∈ H, n ∉ L k) :
    Queues (insertTail h n m) H (Function.update L h (L h ++ [n])) := by
  have null := (Q.repr h hh).2
  have hlast : m.last h ≠ .next n := Q.last_ne_next hh (fresh h hh)
  have hread : ∀ c, c ≠ m.last h → c ≠ .next n →
      (TailQueue.insertTail h n m).read c = m.read c := by
    intro c h1 h2
    simp [TailQueue.insertTail, read_write, h1, h2]
  have hprev : ∀ x, x ≠ n → (TailQueue.insertTail h n m).prev x = m.prev x := by
    intro x hx
    simp [TailQueue.insertTail, setPrev_prev, hx]
  -- the nodes of every queue keep their back pointers and the cells these designate
  have old : ∀ k ∈ H, ∀ c d, Segment m c (L k) d →
      Segment (TailQueue.insertTail h n m) c (L k) d := by
    intro k hk c d seg
    refine seg.frame ?_ ?_
    · intro x hx
      exact hprev x (fun heq => fresh k hk (heq ▸ hx))
    · intro x hx
      exact hread _ (seg.prev_ne_null null hx) (Q.prev_ne_next hk hx (fresh k hk))
  refine ⟨?_, ?_, ?_⟩
  · intro k hk
    by_cases heq : k = h
    · subst heq
      rw [Function.update_self]
      refine ⟨(segment_append _ _ _ _ _).mpr ⟨m.last k, old k hk _ _ (Q.repr k hk).1, ?_⟩, ?_⟩
      · refine ⟨?_, ?_, ?_⟩
        · simp [TailQueue.insertTail]
        · simp [TailQueue.insertTail, setPrev_prev]
        · simp [Segment, TailQueue.insertTail, setLast_last]
      · have hne : Cell.next n ≠ m.last k := Ne.symm hlast
        simp [TailQueue.insertTail, setLast_last, read_write, hne]
    · rw [Function.update_of_ne heq]
      have hl : (TailQueue.insertTail h n m).last k = m.last k := by
        simp [TailQueue.insertTail, setLast_last, heq]
      refine ⟨hl ▸ old k hk _ _ (Q.repr k hk).1, ?_⟩
      rw [hl, hread _ (Q.last_inj hh hk heq) (Q.last_ne_next hk (fresh k hk))]
      exact (Q.repr k hk).2
  · exact Q.update_nodup (List.nodup_append.mpr
      ⟨Q.nodup h hh, List.nodup_singleton n, by
        intro a ha b hb heq
        rw [List.mem_singleton] at hb
        exact fresh h hh (hb ▸ heq ▸ ha)⟩)
  · refine Q.update_disjoint ?_
    intro k hk ne
    rw [List.disjoint_append_left]
    exact ⟨Q.disjoint h hh k hk (Ne.symm ne), by simpa using fresh k hk⟩

theorem Queues.insertHead {m : Mem η ν} {H : Set η} {L : η → List ν} (Q : Queues m H L)
    {h : η} (hh : h ∈ H) {n : ν} (fresh : ∀ k ∈ H, n ∉ L k) :
    Queues (insertHead h n m) H (Function.update L h (n :: L h)) := by
  have hfirst := (Q.repr h hh).first_eq
  have hread : ∀ c, c ≠ .first h → c ≠ .next n →
      (TailQueue.insertHead h n m).read c = m.read c := by
    intro c h1 h2
    unfold TailQueue.insertHead
    cases m.first h <;> simp [read_write, h1, h2]
  have hself : (TailQueue.insertHead h n m).read (.first h) = some n := by
    simp [TailQueue.insertHead]
  have hnext : (TailQueue.insertHead h n m).read (.next n) = m.first h := by
    unfold TailQueue.insertHead
    cases m.first h <;> simp [read_write]
  have hback : (TailQueue.insertHead h n m).prev n = .first h := by
    simp [TailQueue.insertHead, setPrev_prev]
  have hprev : ∀ x, x ≠ n → m.first h ≠ some x →
      (TailQueue.insertHead h n m).prev x = m.prev x := by
    intro x hx hf
    unfold TailQueue.insertHead
    cases hc : m.first h with
    | none => simp [setPrev_prev, hx]
    | some y =>
      have hy : x ≠ y := fun heq => hf (by rw [hc, heq])
      simp [setPrev_prev, hx, hy]
  have hlast : ∀ k, k ≠ h → (TailQueue.insertHead h n m).last k = m.last k := by
    intro k hk
    unfold TailQueue.insertHead
    cases m.first h <;> simp [setLast_last, hk]
  refine ⟨?_, ?_, ?_⟩
  · intro k hk
    by_cases heq : k = h
    · subst heq
      rw [Function.update_self]
      obtain ⟨seg, null⟩ := Q.repr k hk
      cases hL : L k with
      | nil =>
        have hnone : m.first k = none := by rw [hfirst, hL]; rfl
        have hl : (TailQueue.insertHead k n m).last k = .next n := by
          simp [TailQueue.insertHead, hnone, setLast_last]
        exact ⟨⟨hself, hback, hl.symm⟩, by rw [hl, hnext, hnone]⟩
      | cons x xs =>
        have hsome : m.first k = some x := by rw [hfirst, hL]; rfl
        have hl : (TailQueue.insertHead k n m).last k = m.last k := by
          simp [TailQueue.insertHead, hsome]
        have hxn : x ≠ n := by
          rintro rfl
          exact fresh k hk (hL ▸ List.mem_cons_self)
        have hx : (TailQueue.insertHead k n m).prev x = .next n := by
          simp [TailQueue.insertHead, hsome, setPrev_prev, hxn]
        have nodup := Q.nodup k hk
        have fresh' := fresh k hk
        rw [hL] at seg nodup fresh'
        -- past the former first node nothing the segment reads has changed
        have rest : Segment (TailQueue.insertHead k n m) (.next x) xs (m.last k) := by
          refine seg.2.2.frame ?_ ?_
          · intro y hy
            refine hprev y (fun heq => fresh' (heq ▸ List.mem_cons_of_mem x hy)) ?_
            rw [hsome]
            intro heq
            exact (List.nodup_cons.mp nodup).1 (Option.some.inj heq ▸ hy)
          · intro y hy
            rcases seg.2.2.prev_cell hy with hc | ⟨z, hz, hc⟩
            · rw [hc]
              refine hread _ (by simp) (fun heq => hxn (Cell.next.inj heq))
            · rw [hc]
              refine hread _ (by simp) ?_
              intro heq
              exact fresh' (Cell.next.inj heq ▸ List.mem_cons_of_mem x hz)
        refine ⟨⟨hself, hback, hnext.trans hsome, hx, hl ▸ rest⟩, ?_⟩
        rw [hl, hread _ ?_ (Q.last_ne_next hk (fresh k hk))]
        · exact null
        · intro heq
          rw [heq, Mem.read, hsome] at null
          cases null
    · rw [Function.update_of_ne heq, IsTailq, hlast k heq]
      have headOf : ∀ x, m.first h = some x → x ∉ L k := by
        intro x hx hmem
        have hxh : x ∈ L h := List.mem_of_mem_head? (by rw [← hfirst, hx]; rfl)
        exact Q.disjoint k hk h hh heq hmem hxh
      refine ⟨(Q.repr k hk).1.frame ?_ ?_, ?_⟩
      · intro x hx
        exact hprev x (fun hn => fresh k hk (hn ▸ hx)) (fun hf => headOf x hf hx)
      · intro x hx
        exact hread _ (Q.prev_ne_first hk heq hx) (Q.prev_ne_next hk hx (fresh k hk))
      · rw [hread _ (Q.last_ne_first hk heq) (Q.last_ne_next hk (fresh k hk))]
        exact (Q.repr k hk).2
  · exact Q.update_nodup (List.nodup_cons.mpr ⟨fresh h hh, Q.nodup h hh⟩)
  · refine Q.update_disjoint ?_
    intro k hk ne
    rw [List.disjoint_cons_left]
    exact ⟨fresh k hk, Q.disjoint h hh k hk (Ne.symm ne)⟩

theorem Queues.remove {m : Mem η ν} {H : Set η} {L : η → List ν} (Q : Queues m H L)
    {h : η} (hh : h ∈ H) {n : ν} (hn : n ∈ L h) :
    Queues (remove h n m) H (Function.update L h ((L h).erase n)) := by
  obtain ⟨seg, null⟩ := Q.repr h hh
  obtain ⟨xs, ys, hL⟩ := List.append_of_mem hn
  have nodup := Q.nodup h hh
  rw [hL] at seg nodup
  obtain ⟨c, hxs, hread_c, hprev_n, hys⟩ := (segment_append _ _ _ _ _).mp seg
  have hnxs : n ∉ xs := fun hx => (List.nodup_append.mp nodup).2.2 n hx n List.mem_cons_self rfl
  have hnys : n ∉ ys := (List.nodup_cons.mp (List.nodup_append.mp nodup).2.1).1
  have herase : (L h).erase n = xs ++ ys := by
    rw [hL, List.erase_append_right _ hnxs, List.erase_cons_head]
  have hread : ∀ d, d ≠ c → (TailQueue.remove h n m).read d = m.read d := by
    intro d hd
    unfold TailQueue.remove
    cases m.next n <;> simp [read_write, hprev_n, hd]
  have hcell : (TailQueue.remove h n m).read c = m.next n := by
    unfold TailQueue.remove
    cases m.next n <;> simp [hprev_n]
  have hprev : ∀ x, m.next n ≠ some x → (TailQueue.remove h n m).prev x = m.prev x := by
    intro x hx
    unfold TailQueue.remove
    cases hc : m.next n with
    | none => simp
    | some y =>
      have hy : x ≠ y := fun heq => hx (by rw [hc, heq])
      simp [setPrev_prev, hy]
  have hlast : ∀ k, k ≠ h → (TailQueue.remove h n m).last k = m.last k := by
    intro k hk
    unfold TailQueue.remove
    cases m.next n <;> simp [setLast_last, hk]
  -- a back pointer designates `c` only in the removed node
  have unique : ∀ x, m.read (m.prev x) = some x → x ≠ n → m.prev x ≠ c := by
    intro x hx hne heq
    rw [heq, hread_c] at hx
    exact hne (Option.some.inj hx).symm
  refine ⟨?_, ?_, ?_⟩
  · intro k hk
    by_cases heq : k = h
    · subst heq
      rw [Function.update_self, herase]
      have left : m.next n ∉ xs.map some → Segment (TailQueue.remove k n m) (.first k) xs c := by
        intro hnot
        refine hxs.frame ?_ ?_
        · intro x hx
          refine hprev x (fun hnx => hnot ?_)
          rw [hnx]
          exact List.mem_map.mpr ⟨x, hx, rfl⟩
        · intro x hx
          exact hread _ (unique x (hxs.read_prev hx) (fun e => hnxs (e ▸ hx)))
      cases ys with
      | nil =>
        have hnone : m.next n = none := by
          have hd : Cell.next n = m.last k := hys
          rw [← hd] at null
          exact null
        have hl : (TailQueue.remove k n m).last k = c := by
          simp [TailQueue.remove, hnone, setLast_last, hprev_n]
        rw [List.append_nil]
        refine ⟨hl ▸ left (by rw [hnone]; simp), ?_⟩
        rw [hl, hcell, hnone]
      | cons y ys =>
        have hsome : m.next n = some y := hys.1
        have hl : (TailQueue.remove k n m).last k = m.last k := by
          simp [TailQueue.remove, hsome]
        have hy : (TailQueue.remove k n m).prev y = c := by
          simp [TailQueue.remove, hsome, setPrev_prev, hprev_n]
        have hyys : y ∉ ys :=
          (List.nodup_cons.mp (List.nodup_cons.mp (List.nodup_append.mp nodup).2.1).2).1
        have hyxs : y ∉ xs := fun hx =>
          (List.nodup_append.mp nodup).2.2 y hx y (List.mem_cons_of_mem n List.mem_cons_self) rfl
        refine ⟨(segment_append _ _ _ _ _).mpr ⟨c, left ?_, hcell.trans hsome, hy, ?_⟩, ?_⟩
        · rw [hsome]
          simpa using hyxs
        · rw [hl]
          refine hys.2.2.frame ?_ ?_
          · intro x hx
            refine hprev x ?_
            rw [hsome]
            intro e
            exact hyys (Option.some.inj e ▸ hx)
          · intro x hx
            exact hread _ (unique x (hys.2.2.read_prev hx)
              (fun e => hnys (e ▸ List.mem_cons_of_mem y hx)))
        · rw [hl, hread]
          · exact null
          · intro e
            rw [e, hread_c] at null
            cases null
    · rw [Function.update_of_ne heq, IsTailq, hlast k heq]
      have other : ∀ x ∈ L k, x ≠ n := fun x hx e =>
        Q.disjoint k hk h hh heq hx (e ▸ hn)
      have nextOf : ∀ x ∈ L k, m.next n ≠ some x := by
        intro x hx e
        cases ys with
        | nil =>
          have hd : Cell.next n = m.last h := hys
          rw [← hd, Mem.read, e] at null
          cases null
        | cons y ys =>
          have hxy : y = x := Option.some.inj (hys.1.symm.trans e)
          refine Q.disjoint k hk h hh heq hx ?_
          rw [hL, ← hxy]
          simp
      refine ⟨(Q.repr k hk).1.frame (fun x hx => hprev x (nextOf x hx)) ?_, ?_⟩
      · intro x hx
        exact hread _ (unique x ((Q.repr k hk).1.read_prev hx) (other x hx))
      · rw [hread]
        · exact (Q.repr k hk).2
        · intro e
          have hnull := (Q.repr k hk).2
          rw [e, hread_c] at hnull
          cases hnull
  · exact Q.update_nodup ((Q.nodup h hh).erase n)
  · refine Q.update_disjoint ?_
    intro k hk ne x hx
    exact Q.disjoint h hh k hk (Ne.symm ne) (List.mem_of_mem_erase hx)

end Nebase.Foundation.TailQueue
