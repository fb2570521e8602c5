/- Runs of the random pool and of the random ring, and what confuse does to them. -/

import Nebase.Random.Confuse

set_option autoImplicit false
set_option relaxedAutoImplicit false

namespace Nebase.Random

open Nebase.Foundation
open Nebase.Foundation.Machine (run invariant_run StepsMeet)
open Nebase.Foundation.TailQueue (Queues IsTailq)

theorem BucketOk.congr {b : NebRandomBucket} {L L' : ListHead → List NodeAddr}
    (ok : BucketOk b L) (agree : ∀ s, L' (b.nlist s) = L (b.nlist s)) : BucketOk b L' :=
  ⟨ok.distinct, fun s => by rw [agree s]; exact ok.counts s, ok.total, ok.ascending, ok.idle⟩

/-- Taking a node from a bucket and linking it into the list of nodes in use. -/
theorem pick_to_inUse {b : NebRandomBucket} {m : NodeMem} {H : Set ListHead}
    {L : ListHead → List NodeAddr} (Q : Queues m H L) (ok : BucketOk b L)
    (heads : ∀ s, b.nlist s ∈ H) (hin : .inUse ∈ H) (pos : 0 < b.count) {draw : Nat}
    (hdraw : draw ≤ 5) :
    ∃ n b' m' L', nebRandomBucketPick draw b m = some (some n, b', m') ∧ b'.addr = b.addr ∧
      b'.count + 1 = b.count ∧ Queues (TailQueue.insertHead .inUse n m') H L' ∧ BucketOk b' L' ∧
      L' .inUse = n :: L .inUse ∧ (∃ s, n ∈ L (b.nlist s)) ∧
      (∀ s, ∀ k ∈ L' (b.nlist s), k ∈ L (b.nlist s) ∧ k ≠ n) ∧
      (∀ h, (∀ s, h ≠ b.nlist s) → h ≠ .inUse → L' h = L h) ∧
      ∀ h ∈ H, ∀ k ∈ L' h, ∃ h' ∈ H, k ∈ L h' := by
  obtain ⟨s, n, b', m', hpick, haddr, hcount, hn, Q1, ok1⟩ :=
    nebRandomBucketPick_spec Q ok heads pos hdraw
  have hne : ListHead.inUse ≠ b.nlist s := by simp [NebRandomBucket.nlist]
  have fresh : ∀ h ∈ H, n ∉ Function.update L (b.nlist s) ((L (b.nlist s)).erase n) h := by
    intro h hh
    by_cases heq : h = b.nlist s
    · rw [heq, Function.update_self]
      exact fun hmem => ((Q.nodup _ (heads s)).mem_erase_iff.mp hmem).1 rfl
    · rw [Function.update_of_ne heq]
      exact fun hmem => Q.disjoint h hh _ (heads s) heq hmem hn
  refine ⟨n, b', m', _, hpick, haddr, hcount, Q1.insertHead hin fresh, ok1.congr ?_, ?_, ⟨s, hn⟩,
    ?_, ?_, ?_⟩
  · intro t
    exact Function.update_of_ne (by simp [NebRandomBucket.nlist]) _ _
  · rw [Function.update_self, Function.update_of_ne hne]
  · intro t k hk
    rw [Function.update_of_ne (by simp [NebRandomBucket.nlist])] at hk
    refine ⟨?_, ?_⟩
    · by_cases ht : b.nlist t = b.nlist s
      · rw [ht, Function.update_self] at hk
        rw [ht]
        exact List.mem_of_mem_erase hk
      · rwa [Function.update_of_ne ht] at hk
    · rintro rfl
      exact fresh _ (heads t) hk
  · intro h hb hu
    rw [Function.update_of_ne hu, Function.update_of_ne (hb s)]
  · intro h hh k hk
    by_cases hu : h = .inUse
    · rw [hu, Function.update_self, Function.update_of_ne hne] at hk
      rcases List.mem_cons.mp hk with rfl | hk
      · exact ⟨_, heads s, hn⟩
      · exact ⟨_, hin, hk⟩
    · rw [Function.update_of_ne hu] at hk
      by_cases hs : h = b.nlist s
      · rw [hs, Function.update_self] at hk
        exact ⟨_, heads s, List.mem_of_mem_erase hk⟩
      · rw [Function.update_of_ne hs] at hk
        exact ⟨h, hh, hk⟩

/-- Unlinking a node from the list of nodes in use and putting it into a bucket. -/
theorem put_from_inUse {b : NebRandomBucket} {m : NodeMem} {H : Set ListHead}
    {L : ListHead → List NodeAddr} (Q : Queues m H L) (ok : BucketOk b L)
    (heads : ∀ s, b.nlist s ∈ H) (hin : .inUse ∈ H) {n : NodeAddr} (hn : n ∈ L .inUse)
    {draw : Nat} (hdraw : draw < 8) :
    ∃ b' m' L', nebRandomBucketPut draw n b (TailQueue.remove .inUse n m) = some (b', m') ∧
      b'.addr = b.addr ∧ b'.count = b.count + 1 ∧ Queues m' H L' ∧ BucketOk b' L' ∧
      L' .inUse = (L .inUse).erase n ∧
      (∀ h, (∀ s, h ≠ b.nlist s) → h ≠ .inUse → L' h = L h) ∧
      ∀ h ∈ H, ∀ k ∈ L' h, ∃ h' ∈ H, k ∈ L h' := by
  have hne : ∀ s, b.nlist s ≠ .inUse := fun s => by simp [NebRandomBucket.nlist]
  have Q1 := Q.remove hin hn
  have ok1 : BucketOk b (Function.update L .inUse ((L .inUse).erase n)) :=
    ok.congr (fun s => Function.update_of_ne (hne s) _ _)
  have fresh : ∀ h ∈ H, n ∉ Function.update L .inUse ((L .inUse).erase n) h := by
    intro h hh
    by_cases heq : h = .inUse
    · rw [heq, Function.update_self]
      exact fun hmem => ((Q.nodup _ hin).mem_erase_iff.mp hmem).1 rfl
    · rw [Function.update_of_ne heq]
      exact fun hmem => Q.disjoint h hh _ hin heq hmem hn
  obtain ⟨s, b', m', hput, haddr, hcount, Q2, ok2⟩ :=
    nebRandomBucketPut_spec Q1 ok1 heads hdraw fresh
  refine ⟨b', m', _, hput, haddr, hcount, Q2, ok2, ?_, ?_, ?_⟩
  · rw [Function.update_of_ne (Ne.symm (hne s)), Function.update_self]
  · intro h hb hu
    rw [Function.update_of_ne (hb s), Function.update_of_ne hu]
  · intro h hh k hk
    by_cases hs : h = b.nlist s
    · rw [hs, Function.update_self, Function.update_of_ne (hne s)] at hk
      rcases List.mem_append.mp hk with hk | hk
      · exact ⟨_, heads s, hk⟩
      · exact ⟨_, hin, List.mem_singleton.mp hk ▸ hn⟩
    · rw [Function.update_of_ne hs] at hk
      by_cases hu : h = .inUse
      · rw [hu, Function.update_self] at hk
        exact ⟨_, hin, List.mem_of_mem_erase hk⟩
      · rw [Function.update_of_ne hu] at hk
        exact ⟨h, hh, hk⟩

/-- Putting a node that is in no list yet. -/
theorem put_new {b : NebRandomBucket} {m : NodeMem} {H : Set ListHead}
    {L : ListHead → List NodeAddr} (Q : Queues m H L) (ok : BucketOk b L)
    (heads : ∀ s, b.nlist s ∈ H) {n : NodeAddr} (fresh : ∀ h ∈ H, n ∉ L h) {draw : Nat}
    (hdraw : draw < 8) :
    ∃ b' m' L', nebRandomBucketPut draw n b m = some (b', m') ∧ b'.addr = b.addr ∧
      b'.count = b.count + 1 ∧ Queues m' H L' ∧ BucketOk b' L' ∧
      (∀ h, (∀ s, h ≠ b.nlist s) → L' h = L h) ∧
      ∀ h, ∀ k ∈ L' h, k ∈ L h ∨ k = n := by
  obtain ⟨s, b', m', hput, haddr, hcount, Q', ok'⟩ :=
    nebRandomBucketPut_spec Q ok heads hdraw fresh
  refine ⟨b', m', _, hput, haddr, hcount, Q', ok', fun h hb => Function.update_of_ne (hb s) _ _, ?_⟩
  intro h k hk
  by_cases hs : h = b.nlist s
  · rw [hs, Function.update_self] at hk
    rcases List.mem_append.mp hk with hk | hk
    · exact Or.inl (hs ▸ hk)
    · exact Or.inr (List.mem_singleton.mp hk)
  · rw [Function.update_of_ne hs] at hk
    exact Or.inl hk

/-- The calls on a pool. `n` of `add` is the address `obstack_alloc` returns; the draws are the
values of `arc4random_uniform`. -/
inductive PoolCall
  | add (n : NodeAddr) (value : Int) (draw : Nat)
  | pick (draw : Nat)
  | put (n : NodeAddr) (draw : Nat)
  | confuse (fuel : Nat) (draw : Nat → Nat)

/-- A pool and the nodes its caller holds. -/
structure PoolState where
  pool : NebRandomPool
  picked : List NodeAddr

def poolInit (addr : Nat) (mem : NodeMem) : PoolState := ⟨nebRandomPoolCreate addr mem, []⟩

/-- One call. A new node is none of the old ones, and only a picked node is put back. -/
def poolStep (st : PoolState) : PoolCall → Option PoolState
  | .add n value draw =>
    if n ∉ st.pool.nodes ∧ draw < 8 then
      (nebRandomPoolAdd draw n value st.pool).map (fun p => ⟨p, st.picked⟩)
    else none
  | .pick draw =>
    if draw < 8 then
      (nebRandomPoolPick draw st.pool).map (fun r => ⟨r.2, r.1.toList ++ st.picked⟩)
    else none
  | .put n draw =>
    if n ∈ st.picked ∧ draw < 8 then
      (nebRandomPoolPut draw n st.pool).map (fun p => ⟨p, st.picked.erase n⟩)
    else none
  | .confuse fuel draw => (nebRandomPoolConfuse fuel draw st.pool).map (fun p => ⟨p, st.picked⟩)

/-- The list heads of a pool whose bucket is at `addr`. -/
def poolHeads (addr : Nat) : Set ListHead := {.inUse} ∪ sliceHeads addr

/-- The invariant of a pool as long as confuse is not called. -/
def PoolOk (st : PoolState) : Prop :=
  ∃ L, Queues st.pool.mem (poolHeads st.pool.bucket.addr) L ∧ BucketOk st.pool.bucket L ∧
    L .inUse = st.picked ∧
    ∀ h ∈ poolHeads st.pool.bucket.addr, ∀ n ∈ L h, n ∈ st.pool.nodes

def PoolCall.isConfuse : PoolCall → Bool
  | .confuse _ _ => true
  | _ => false

private theorem inUse_queue (mem : NodeMem) :
    Queues (TailQueue.init .inUse mem) ({.inUse} : Set ListHead) (fun _ => []) := by
  have base : Queues mem (∅ : Set ListHead) (fun _ => []) :=
    ⟨fun _ hh => hh.elim, fun _ hh => hh.elim, fun _ hh => hh.elim⟩
  refine ((base.init (fun h => h)).mono (fun h hh => Or.inl hh)).congr ?_
  intro h hh
  rw [Set.mem_singleton_iff.mp hh, Function.update_self]

private theorem poolInit_ok (addr : Nat) (mem : NodeMem) : PoolOk (poolInit addr mem) := by
  obtain ⟨Q, ok, -⟩ := nebRandomBucketCreate_spec _ (inUse_queue mem)
    (fun s h => by cases Set.mem_singleton_iff.mp h : ∀ s, ListHead.slice addr s ∉ _)
  exact ⟨fun _ => [], Q, ok, rfl, fun _ _ n hn => by simp at hn⟩

private theorem poolStep_ok (st : PoolState) (call : PoolCall) (st' : PoolState)
    (hok : PoolOk st) (plain : call.isConfuse = false) (step : poolStep st call = some st') :
    PoolOk st' := by
  obtain ⟨L, Q, ok, hpicked, hnodes⟩ := hok
  have heads : ∀ s, st.pool.bucket.nlist s ∈ poolHeads st.pool.bucket.addr :=
    fun s => Or.inr ⟨s, rfl⟩
  have hin : ListHead.inUse ∈ poolHeads st.pool.bucket.addr := Or.inl rfl
  have hother : ∀ s, ListHead.inUse ≠ st.pool.bucket.nlist s :=
    fun s => by simp [NebRandomBucket.nlist]
  cases call with
  | add n value draw =>
    simp only [poolStep] at step
    split at step
    · rename_i guard
      obtain ⟨b', m', L', hput, haddr, -, Q', ok', hkeep, hmem⟩ := put_new Q ok heads
        (fun h hh hn => guard.1 (hnodes h hh n hn)) guard.2
      simp only [nebRandomPoolAdd, hput, Option.bind_eq_bind, Option.bind_some,
        Option.map_some, Option.some.injEq] at step
      obtain rfl := step
      refine ⟨L', by rw [haddr]; exact Q', ok', by rw [hkeep _ hother]; exact hpicked, ?_⟩
      intro h hh k hk
      rw [haddr] at hh
      rcases hmem h k hk with hk | rfl
      · exact List.mem_cons_of_mem n (hnodes h hh k hk)
      · exact List.mem_cons_self
    · cases step
  | pick draw =>
    simp only [poolStep] at step
    split at step
    · rename_i hdraw
      rcases Nat.eq_zero_or_pos st.pool.bucket.count with hzero | hpos
      · simp only [nebRandomPoolPick, nebRandomBucketPick_empty draw hzero, Option.bind_eq_bind,
          Option.bind_some, Option.map_some, Option.some.injEq] at step
        obtain rfl := step
        exact ⟨L, Q, ok, by simpa using hpicked, hnodes⟩
      · rcases Nat.lt_or_ge 5 draw with high | low
        · simp [nebRandomPoolPick, nebRandomBucketPick_wild Q ok heads hpos high hdraw] at step
        · obtain ⟨n, b', m', L', hpick, haddr, -, Q', ok', huse, -, -, -, hmem⟩ :=
            pick_to_inUse Q ok heads hin hpos low
          simp only [nebRandomPoolPick, hpick, Option.bind_eq_bind, Option.bind_some,
            Option.map_some, Option.some.injEq] at step
          obtain rfl := step
          refine ⟨L', by rw [haddr]; exact Q', ok', by rw [huse, hpicked]; rfl, ?_⟩
          intro h hh k hk
          rw [haddr] at hh
          obtain ⟨h', hh', hk'⟩ := hmem h hh k hk
          exact hnodes h' hh' k hk'
    · cases step
  | put n draw =>
    simp only [poolStep] at step
    split at step
    · rename_i guard
      obtain ⟨b', m', L', hput, haddr, -, Q', ok', huse, -, hmem⟩ :=
        put_from_inUse Q ok heads hin (hpicked ▸ guard.1) guard.2
      simp only [nebRandomPoolPut, hput, Option.bind_eq_bind, Option.bind_some,
        Option.map_some, Option.some.injEq] at step
      obtain rfl := step
      refine ⟨L', by rw [haddr]; exact Q', ok', by rw [huse, hpicked], ?_⟩
      intro h hh k hk
      rw [haddr] at hh
      obtain ⟨h', hh', hk'⟩ := hmem h hh k hk
      exact hnodes h' hh' k hk'
    · cases step
  | confuse fuel draw => simp [PoolCall.isConfuse] at plain

/-- A run without confuse keeps the invariant. -/
theorem poolRun_ok (addr : Nat) (mem : NodeMem) (calls : List PoolCall) (st : PoolState)
    (reached : run poolStep (poolInit addr mem) calls = some st)
    (plain : ∀ c ∈ calls, c.isConfuse = false) : PoolOk st := by
  exact invariant_run (fun s a t hI hC hstep => poolStep_ok s a t hI hC hstep)
    (poolInit_ok addr mem) (StepsMeet.of_labels plain _) reached

/-- The calls on a ring; confuse draws for the pick bucket and then for the put bucket. -/
inductive RingCall
  | add (n : NodeAddr) (value : Int) (draw : Nat)
  | pick (draw : Nat)
  | put (n : NodeAddr) (draw : Nat)
  | confuse (fuel : Nat) (pickDraw putDraw : Nat → Nat)

structure RingState where
  ring : NebRandomRing
  picked : List NodeAddr

def ringInit (pickAddr putAddr : Nat) (mem : NodeMem) : RingState :=
  ⟨nebRandomRingCreate pickAddr putAddr mem, []⟩

def ringStep (st : RingState) : RingCall → Option RingState
  | .add n value draw =>
    if n ∉ st.ring.nodes ∧ draw < 8 then
      (nebRandomRingAdd draw n value st.ring).map (fun r => ⟨r, st.picked⟩)
    else none
  | .pick draw =>
    if draw < 8 then
      (nebRandomRingPick draw st.ring).map (fun r => ⟨r.2, r.1.toList ++ st.picked⟩)
    else none
  | .put n draw =>
    if n ∈ st.picked ∧ draw < 8 then
      (nebRandomRingPut draw n st.ring).map (fun r => ⟨r, st.picked.erase n⟩)
    else none
  | .confuse fuel pickDraw putDraw =>
    (nebRandomRingConfuse fuel pickDraw putDraw st.ring).map (fun r => ⟨r, st.picked⟩)

def RingCall.isConfuse : RingCall → Bool
  | .confuse _ _ _ => true
  | _ => false

def ringHeads (r : NebRandomRing) : Set ListHead :=
  {.inUse} ∪ sliceHeads r.pickBucket.addr ∪ sliceHeads r.putBucket.addr

/-- The invariant of a ring as long as confuse is not called. -/
def RingOk (st : RingState) : Prop :=
  ∃ L, Queues st.ring.mem (ringHeads st.ring) L ∧ BucketOk st.ring.pickBucket L ∧
    BucketOk st.ring.putBucket L ∧ st.ring.pickBucket.addr ≠ st.ring.putBucket.addr ∧
    L .inUse = st.picked ∧ ∀ h ∈ ringHeads st.ring, ∀ n ∈ L h, n ∈ st.ring.nodes

theorem ringInit_ok (pickAddr putAddr : Nat) (ne : pickAddr ≠ putAddr) (mem : NodeMem) :
    RingOk (ringInit pickAddr putAddr mem) := by
  obtain ⟨Q1, ok1, -⟩ := nebRandomBucketCreate_spec _ (inUse_queue mem)
    (fun s h => by cases Set.mem_singleton_iff.mp h : ∀ s, ListHead.slice pickAddr s ∉ _)
  obtain ⟨Q2, ok2, -⟩ := nebRandomBucketCreate_spec _ Q1
    (fun s h => by
      rcases h with h | ⟨t, h⟩
      · cases Set.mem_singleton_iff.mp h
      · exact ne (ListHead.slice.inj h).1.symm : ∀ s, ListHead.slice putAddr s ∉ _)
  exact ⟨fun _ => [], Q2, ok1, ok2, ne, rfl, fun _ _ n hn => by simp at hn⟩

theorem other_bucket {b c : NebRandomBucket} (ne : b.addr ≠ c.addr) (s t : Fin 10) :
    c.nlist s ≠ b.nlist t := by
  intro h
  exact ne (ListHead.slice.inj h).1.symm

/-- Exchanging the two buckets keeps the invariant, and the pick bucket is not empty then. -/
private theorem ringTurn_ok {st : RingState} (hok : RingOk st) {r : NebRandomRing}
    (turn : ringTurn st.ring = some r) : RingOk ⟨r, st.picked⟩ ∧ 0 < r.pickBucket.count := by
  unfold ringTurn at turn
  split at turn
  · split at turn
    · cases turn
    · rename_i hput
      obtain ⟨L, Q, ok1, ok2, ne, hpicked, hnodes⟩ := hok
      obtain rfl := Option.some.inj turn
      have hsub : ∀ h, h ∈ ({.inUse} ∪ sliceHeads st.ring.putBucket.addr ∪
          sliceHeads st.ring.pickBucket.addr : Set ListHead) → h ∈ ringHeads st.ring := by
        rintro h ((hu | hp) | hq)
        · exact Or.inl (Or.inl hu)
        · exact Or.inr hp
        · exact Or.inl (Or.inr hq)
      exact ⟨⟨L, Q.mono hsub, ok2, ok1, Ne.symm ne, hpicked, fun h hh => hnodes h (hsub h hh)⟩,
        Nat.pos_of_ne_zero hput⟩
  · rename_i hpick
    obtain rfl := Option.some.inj turn
    exact ⟨hok, Nat.pos_of_ne_zero hpick⟩

private theorem ringStep_ok (st : RingState) (call : RingCall) (st' : RingState)
    (hok : RingOk st) (plain : call.isConfuse = false) (step : ringStep st call = some st') :
    RingOk st' := by
  cases call with
  | add n value draw =>
    obtain ⟨L, Q, ok1, ok2, ne, hpicked, hnodes⟩ := hok
    simp only [ringStep] at step
    split at step
    · rename_i guard
      obtain ⟨b', m', L', hput, haddr, -, Q', ok', hkeep, hmem⟩ := put_new Q ok1
        (fun s => Or.inl (Or.inr ⟨s, rfl⟩)) (fun h hh hn => guard.1 (hnodes h hh n hn)) guard.2
      simp only [nebRandomRingAdd, hput, Option.bind_eq_bind, Option.bind_some,
        Option.map_some, Option.some.injEq] at step
      obtain rfl := step
      have hsame : ringHeads { st.ring with pickBucket := b' } = ringHeads st.ring := by
        simp [ringHeads, haddr]
      refine ⟨L', ?_, ok', ok2.congr (fun s => hkeep _ (fun t => other_bucket ne s t)),
        by rw [haddr]; exact ne,
        by rw [hkeep _ (fun s => by simp [NebRandomBucket.nlist])]; exact hpicked, ?_⟩
      · exact hsame ▸ Q'
      · intro h hh k hk
        rcases hmem h k hk with hk | rfl
        · exact List.mem_cons_of_mem n (hnodes h (hsame ▸ hh) k hk)
        · exact List.mem_cons_self
    · cases step
  | pick draw =>
    simp only [ringStep] at step
    split at step
    · rename_i hdraw
      simp only [nebRandomRingPick] at step
      cases hturn : ringTurn st.ring with
      | none =>
        simp only [hturn, Option.map_some, Option.some.injEq] at step
        obtain rfl := step
        exact hok
      | some r =>
        obtain ⟨⟨L, Q, ok1, ok2, ne, hpicked, hnodes⟩, hpos⟩ := ringTurn_ok hok hturn
        have heads : ∀ s, r.pickBucket.nlist s ∈ ringHeads r := fun s => Or.inl (Or.inr ⟨s, rfl⟩)
        rcases Nat.lt_or_ge 5 draw with high | low
        · simp [hturn, nebRandomBucketPick_wild Q ok1 heads hpos high hdraw] at step
        · obtain ⟨n, b', m', L', hpick, haddr, -, Q', ok', huse, -, -, hkeep, hmem⟩ :=
            pick_to_inUse Q ok1 heads (Or.inl (Or.inl rfl)) hpos low
          simp only [hturn, hpick, Option.bind_eq_bind, Option.bind_some,
            Option.map_some, Option.some.injEq] at step
          obtain rfl := step
          have hsame : ringHeads { r with pickBucket := b' } = ringHeads r := by
            simp [ringHeads, haddr]
          refine ⟨L', hsame ▸ Q', ok', ok2.congr (fun s => hkeep _
            (fun t => other_bucket ne s t) (by simp [NebRandomBucket.nlist])),
            by rw [haddr]; exact ne, by rw [huse, hpicked]; rfl, ?_⟩
          intro h hh k hk
          obtain ⟨h', hh', hk'⟩ := hmem h (hsame ▸ hh) k hk
          exact hnodes h' hh' k hk'
    · cases step
  | put n draw =>
    obtain ⟨L, Q, ok1, ok2, ne, hpicked, hnodes⟩ := hok
    simp only [ringStep] at step
    split at step
    · rename_i guard
      obtain ⟨b', m', L', hput, haddr, -, Q', ok', huse, hkeep, hmem⟩ :=
        put_from_inUse Q ok2 (fun s => Or.inr ⟨s, rfl⟩) (Or.inl (Or.inl rfl))
          (hpicked ▸ guard.1) guard.2
      simp only [nebRandomRingPut, hput, Option.bind_eq_bind, Option.bind_some,
        Option.map_some, Option.some.injEq] at step
      obtain rfl := step
      have hsame : ringHeads { st.ring with putBucket := b' } = ringHeads st.ring := by
        simp [ringHeads, haddr]
      refine ⟨L', hsame ▸ Q', ok1.congr (fun s => hkeep _
        (fun t => other_bucket (Ne.symm ne) s t) (by simp [NebRandomBucket.nlist])), ok',
        by rw [haddr]; exact ne, by rw [huse, hpicked], ?_⟩
      intro h hh k hk
      obtain ⟨h', hh', hk'⟩ := hmem h (hsame ▸ hh) k hk
      exact hnodes h' hh' k hk'
    · cases step
  | confuse fuel pickDraw putDraw => simp [RingCall.isConfuse] at plain

theorem ringRun_ok (pickAddr putAddr : Nat) (ne : pickAddr ≠ putAddr) (mem : NodeMem)
    (calls : List RingCall) (st : RingState)
    (reached : run ringStep (ringInit pickAddr putAddr mem) calls = some st)
    (plain : ∀ c ∈ calls, c.isConfuse = false) : RingOk st :=
  invariant_run (fun s a t hI hC hstep => ringStep_ok s a t hI hC hstep)
    (ringInit_ok pickAddr putAddr ne mem) (StepsMeet.of_labels plain _) reached

/-- Confuse leaves every slice of the bucket well formed with its former nodes, possibly
reversed. -/
def ConfuseKeeps (b : NebRandomBucket) (m m' : NodeMem) : Prop :=
  SlicesWellFormed b m' ∧
    ∀ s xs, IsTailq m (b.nlist s) xs →
      IsTailq m' (b.nlist s) xs ∨ IsTailq m' (b.nlist s) xs.reverse

private theorem pool_confuse_breaks {fuel : Nat} {draw : Nat → Nat} {p p' : NebRandomPool}
    (done : nebRandomPoolConfuse fuel draw p = some p') : ¬ ConfuseKeeps p.bucket p.mem p'.mem := by
  simp only [nebRandomPoolConfuse, Option.bind_eq_bind, Option.bind_eq_some_iff,
    Option.some.injEq] at done
  obtain ⟨m', hrun, rfl⟩ := done
  exact fun keeps => nebRandomBucketConfuse_breaks hrun keeps.1

private theorem pool_confuse_returns {st : PoolState} (hok : PoolOk st) {draw : Nat → Nat}
    (hdraw : ConfuseDraws draw) :
    ∃ fuel p', nebRandomPoolConfuse fuel draw st.pool = some p' := by
  obtain ⟨L, Q, ok, -⟩ := hok
  have htl : ListHead.tl ∉ poolHeads st.pool.bucket.addr := by
    simp [poolHeads, sliceHeads]
  obtain ⟨m', hrun, -⟩ := nebRandomBucketConfuse_returns hdraw Q ok
    (fun s => Or.inr ⟨s, rfl⟩) htl (Nat.lt_succ_self st.pool.bucket.count)
  exact ⟨st.pool.bucket.count + 1, { st.pool with mem := m' }, by simp [nebRandomPoolConfuse, hrun]⟩

private theorem ring_confuse_returns {st : RingState} (hok : RingOk st)
    {pickDraw putDraw : Nat → Nat} (hpick : ConfuseDraws pickDraw) (hput : ConfuseDraws putDraw) :
    ∃ fuel r', nebRandomRingConfuse fuel pickDraw putDraw st.ring = some r' := by
  obtain ⟨L, Q, ok1, ok2, ne, -⟩ := hok
  have htl : ListHead.tl ∉ ringHeads st.ring := by
    simp [ringHeads, sliceHeads]
  let fuel := st.ring.pickBucket.count + st.ring.putBucket.count + 1
  have h1 : st.ring.pickBucket.count < fuel := by omega
  have h2 : st.ring.putBucket.count < fuel := by omega
  obtain ⟨m1, hrun1, Q1⟩ := nebRandomBucketConfuse_returns hpick Q ok1
    (fun s => Or.inl (Or.inr ⟨s, rfl⟩)) htl h1
  obtain ⟨m2, hrun2, -⟩ := nebRandomBucketConfuse_returns hput Q1 ok2
    (fun s => ⟨Or.inr ⟨s, rfl⟩, fun t => other_bucket ne s t⟩) (fun h => htl h.1) h2
  exact ⟨fuel, { st.ring with mem := m2 }, by simp [nebRandomRingConfuse, hrun1, hrun2]⟩

/-- In no run does confuse keep a pool or a ring: whatever was called before and whatever is
drawn, a slice is broken afterwards; and where no confuse came before, the call does return. -/
theorem nebRandomConfuse_never_keeps (mem : NodeMem) (draw putDraw : Nat → Nat)
    (draws : ConfuseDraws draw) (putDraws : ConfuseDraws putDraw) :
    (∀ addr calls st, run poolStep (poolInit addr mem) calls = some st →
      (∀ fuel p', nebRandomPoolConfuse fuel draw st.pool = some p' →
        ¬ ConfuseKeeps st.pool.bucket st.pool.mem p'.mem) ∧
      ((∀ c ∈ calls, c.isConfuse = false) →
        ∃ fuel p', nebRandomPoolConfuse fuel draw st.pool = some p')) ∧
    (∀ pickAddr putAddr calls st, pickAddr ≠ putAddr →
      run ringStep (ringInit pickAddr putAddr mem) calls = some st →
      (∀ fuel r', nebRandomRingConfuse fuel draw putDraw st.ring = some r' →
        ¬ (ConfuseKeeps st.ring.pickBucket st.ring.mem r'.mem ∧
          ConfuseKeeps st.ring.putBucket st.ring.mem r'.mem)) ∧
      ((∀ c ∈ calls, c.isConfuse = false) →
        ∃ fuel r', nebRandomRingConfuse fuel draw putDraw st.ring = some r')) := by
  refine ⟨?_, ?_⟩
  · intro addr calls st reached
    refine ⟨?_,
      fun plain => pool_confuse_returns (poolRun_ok addr mem calls st reached plain) draws⟩
    exact fun fuel p' done => pool_confuse_breaks done
  · intro pickAddr putAddr calls st ne reached
    refine ⟨?_, fun plain => ring_confuse_returns
      (ringRun_ok pickAddr putAddr ne mem calls st reached plain) draws putDraws⟩
    intro fuel r' done keeps
    simp only [nebRandomRingConfuse, Option.bind_eq_bind, Option.bind_eq_some_iff,
      Option.some.injEq] at done
    obtain ⟨m1, -, m2, hrun, rfl⟩ := done
    exact nebRandomBucketConfuse_breaks hrun keeps.2.1

private theorem zero_draws : ConfuseDraws (fun _ => 0) := by
  intro i hi
  simp only [RANDOM_POOL_SLICE_TOTAL_NUMBER]
  omega

/-- A pool with one node, and an empty ring. -/
theorem nebRandomConfuse_never_keeps_small :
    (∃ st, run poolStep (poolInit 0 blankMem) [.add 1 7 0] = some st ∧
      ∃ fuel p', nebRandomPoolConfuse fuel (fun _ => 0) st.pool = some p') ∧
    ∃ fuel r', nebRandomRingConfuse fuel (fun _ => 0) (fun _ => 0) (ringInit 0 1 blankMem).ring =
      some r' := by
  obtain ⟨pool, ring⟩ := nebRandomConfuse_never_keeps blankMem (fun _ => 0) (fun _ => 0)
    zero_draws zero_draws
  refine ⟨⟨_, rfl, ?_⟩, ?_⟩
  · exact (pool 0 [.add 1 7 0] _ rfl).2 (by decide)
  · exact (ring 0 1 [] _ (by decide) rfl).2 (by decide)

/-- One node is added, and every draw is 0. -/
theorem nebRandomPoolConfuse_keeps_fails :
    ¬ ∀ (calls : List PoolCall) (st : PoolState) (draw : Nat → Nat),
      run poolStep (poolInit 0 blankMem) calls = some st → ConfuseDraws draw →
      ∀ fuel p', nebRandomPoolConfuse fuel draw st.pool = some p' →
        ConfuseKeeps st.pool.bucket st.pool.mem p'.mem := by
  intro claim
  obtain ⟨fuel, p', done⟩ := pool_confuse_returns
    (poolRun_ok 0 blankMem [.add 1 7 0] _ rfl (by decide)) zero_draws
  exact pool_confuse_breaks done (claim [.add 1 7 0] _ _ rfl zero_draws fuel p' done)

end Nebase.Random
