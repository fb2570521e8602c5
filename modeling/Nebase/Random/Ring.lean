/- The random ring goes round: every node is picked once before any node is picked again. -/

import Nebase.Random.Pool
import Nebase.Foundation.Rounds

set_option autoImplicit false
set_option relaxedAutoImplicit false

namespace Nebase.Random

open Nebase.Foundation
open Nebase.Foundation.Machine (run trace StepsMeet invariant_run simulation_run)
open Nebase.Foundation.Rounds (Dealt)
open Nebase.Foundation.TailQueue (Queues)

/-- A ring in a round in which the nodes `c` were picked, in this order: the others are in the pick
bucket, and those that are put back are in the put bucket. -/
structure InRound (st : RingState) (L : ListHead → List NodeAddr) (c : List NodeAddr) : Prop where
  queues : Queues st.ring.mem (ringHeads st.ring) L
  pick : BucketOk st.ring.pickBucket L
  put : BucketOk st.ring.putBucket L
  ne : st.ring.pickBucket.addr ≠ st.ring.putBucket.addr
  inUse : L .inUse = st.picked
  known : ∀ h ∈ ringHeads st.ring, ∀ n ∈ L h, n ∈ st.ring.nodes
  nodes : st.ring.nodes.Nodup
  nodup : c.Nodup
  subset : c ⊆ st.ring.nodes
  fresh : ∀ s, ∀ n ∈ L (st.ring.pickBucket.nlist s), n ∉ c
  remaining : st.ring.pickBucket.count + c.length = st.ring.nodes.length
  returned : st.ring.putBucket.count + st.picked.length = c.length

section Step

variable {st st' : RingState} {L : ListHead → List NodeAddr} {c h : List NodeAddr}

/-- A round is over when the pick bucket is empty. -/
theorem InRound.full (inRound : InRound st L c) (empty : st.ring.pickBucket.count = 0) :
    c.Perm st.ring.nodes := by
  have hsub : c.Subperm st.ring.nodes := List.subperm_of_subset inRound.nodup inRound.subset
  refine hsub.perm_of_length_le ?_
  have := inRound.remaining
  omega

/-- The buckets are exchanged at the end of a round. -/
private theorem InRound.turn (inRound : InRound st L c) (dealt : Dealt st.ring.nodes c h)
    (idle : st.picked = []) {r : NebRandomRing} (turn : ringTurn st.ring = some r) :
    r.nodes = st.ring.nodes ∧ 0 < r.pickBucket.count ∧
      ∃ c', InRound ⟨r, st.picked⟩ L c' ∧ Dealt st.ring.nodes c' h := by
  unfold ringTurn at turn
  split_ifs at turn with hpick hput
  · obtain rfl := Option.some.inj turn
    have hc := inRound.full hpick
    have hcount := inRound.returned
    have hlen := hc.length_eq
    rw [idle, List.length_nil] at hcount
    refine ⟨rfl, Nat.pos_of_ne_zero hput, [], ?_, dealt.turn hc⟩
    have hsub : ∀ h, h ∈ ({.inUse} ∪ sliceHeads st.ring.putBucket.addr ∪
        sliceHeads st.ring.pickBucket.addr : Set ListHead) → h ∈ ringHeads st.ring := by
      rintro h ((hu | hp) | hq)
      · exact Or.inl (Or.inl hu)
      · exact Or.inr hp
      · exact Or.inl (Or.inr hq)
    exact {
      queues := inRound.queues.mono hsub
      pick := inRound.put
      put := inRound.pick
      ne := Ne.symm inRound.ne
      inUse := inRound.inUse
      known := fun h hh => inRound.known h (hsub h hh)
      nodes := inRound.nodes
      nodup := List.nodup_nil
      subset := List.nil_subset _
      fresh := fun _ _ _ => List.not_mem_nil
      remaining := by
        change st.ring.putBucket.count + 0 = st.ring.nodes.length
        omega
      returned := by
        rw [idle]
        change st.ring.pickBucket.count + 0 = 0
        omega }
  · obtain rfl := Option.some.inj turn
    exact ⟨rfl, Nat.pos_of_ne_zero hpick, c, inRound, dealt⟩

/-- A pick finds a node that was not picked in the round yet. -/
private theorem InRound.pickNode (inRound : InRound st L c) (pos : 0 < st.ring.pickBucket.count)
    {draw : Nat} (hdraw : draw ≤ 5) :
    ∃ n bucket mem L', nebRandomBucketPick draw st.ring.pickBucket st.ring.mem =
        some (some n, bucket, mem) ∧
      InRound ⟨{ st.ring with
        pickBucket := bucket
        mem := TailQueue.insertHead .inUse n mem }, n :: st.picked⟩ L' (c ++ [n]) := by
  have heads : ∀ s, st.ring.pickBucket.nlist s ∈ ringHeads st.ring :=
    fun s => Or.inl (Or.inr ⟨s, rfl⟩)
  obtain ⟨n, b', m', L', hpick, haddr, hcount, Q', ok', huse, ⟨s, hs⟩, hrest, hkeep, hmem⟩ :=
    pick_to_inUse inRound.queues inRound.pick heads (Or.inl (Or.inl rfl)) pos hdraw
  have hsame : ringHeads { st.ring with
      pickBucket := b'
      mem := TailQueue.insertHead .inUse n m' } = ringHeads st.ring := by
    simp [ringHeads, haddr]
  have hnlist : ∀ s, b'.nlist s = st.ring.pickBucket.nlist s := by
    intro s
    simp only [NebRandomBucket.nlist, haddr]
  have hnc : n ∉ c := inRound.fresh s n hs
  have hremaining := inRound.remaining
  have hreturned := inRound.returned
  refine ⟨n, b', m', L', hpick, ?_⟩
  exact {
    queues := hsame ▸ Q'
    pick := ok'
    put := inRound.put.congr (fun s => hkeep _
      (fun t => other_bucket inRound.ne s t) (by simp [NebRandomBucket.nlist]))
    ne := by
      rw [haddr]
      exact inRound.ne
    inUse := by rw [huse, inRound.inUse]
    known := by
      intro h hh k hk
      obtain ⟨h', hh', hk'⟩ := hmem h (hsame ▸ hh) k hk
      exact inRound.known h' hh' k hk'
    nodes := inRound.nodes
    nodup := List.nodup_append.mpr ⟨inRound.nodup, List.nodup_singleton n, by
      rintro a ha b hb rfl
      exact hnc (List.mem_singleton.mp hb ▸ ha)⟩
    subset := by
      intro k hk
      rcases List.mem_append.mp hk with hk | hk
      · exact inRound.subset hk
      · rw [List.mem_singleton.mp hk]
        exact inRound.known _ (heads s) n hs
    fresh := by
      intro t k hk
      simp only [hnlist] at hk
      obtain ⟨hold, hkn⟩ := hrest t k hk
      simp only [List.mem_append, List.mem_singleton, not_or]
      exact ⟨inRound.fresh t k hold, hkn⟩
    remaining := by
      rw [List.length_append, List.length_singleton]
      change b'.count + (c.length + 1) = st.ring.nodes.length
      omega
    returned := by
      rw [List.length_append, List.length_singleton, List.length_cons]
      change st.ring.putBucket.count + (st.picked.length + 1) = c.length + 1
      omega }

/-- A picked node is put back. -/
private theorem InRound.putNode (inRound : InRound st L c) {n : NodeAddr} (hn : n ∈ st.picked)
    {draw : Nat} (hdraw : draw < 8) :
    ∃ r L', nebRandomRingPut draw n st.ring = some r ∧ r.nodes = st.ring.nodes ∧
      InRound ⟨r, st.picked.erase n⟩ L' c := by
  obtain ⟨b', m', L', hput, haddr, hcount, Q', ok', huse, hkeep, hmem⟩ :=
    put_from_inUse inRound.queues inRound.put (fun s => Or.inr ⟨s, rfl⟩) (Or.inl (Or.inl rfl))
      (inRound.inUse ▸ hn) hdraw
  have hsame : ringHeads { st.ring with putBucket := b', mem := m' } = ringHeads st.ring := by
    simp [ringHeads, haddr]
  have hother : ∀ s, L' (st.ring.pickBucket.nlist s) = L (st.ring.pickBucket.nlist s) :=
    fun s => hkeep _ (fun t => other_bucket (Ne.symm inRound.ne) s t)
      (by simp [NebRandomBucket.nlist])
  have hreturned := inRound.returned
  have hlen := List.length_erase_add_one hn
  refine ⟨{ st.ring with putBucket := b', mem := m' }, L', ?_, rfl, ?_⟩
  · simp only [nebRandomRingPut, hput, Option.bind_eq_bind, Option.bind_some]
  · exact {
      queues := hsame ▸ Q'
      pick := inRound.pick.congr hother
      put := ok'
      ne := by
        rw [haddr]
        exact inRound.ne
      inUse := by rw [huse, inRound.inUse]
      known := by
        intro h hh k hk
        obtain ⟨h', hh', hk'⟩ := hmem h (hsame ▸ hh) k hk
        exact inRound.known h' hh' k hk'
      nodes := inRound.nodes
      nodup := inRound.nodup
      subset := inRound.subset
      fresh := by
        intro s k hk
        rw [hother] at hk
        exact inRound.fresh s k hk
      remaining := inRound.remaining
      returned := by
        change b'.count + (st.picked.erase n).length = c.length
        omega }

/-- A node is added before the first pick. -/
private theorem InRound.addNode (inRound : InRound st L []) (value : Int) {n : NodeAddr}
    {draw : Nat} (hn : n ∉ st.ring.nodes) (hdraw : draw < 8) :
    ∃ r L', nebRandomRingAdd draw n value st.ring = some r ∧ r.nodes = n :: st.ring.nodes ∧
      InRound ⟨r, st.picked⟩ L' [] := by
  obtain ⟨b', m', L', hput, haddr, hcount, Q', ok', hkeep, hmem⟩ := put_new inRound.queues
    inRound.pick (fun s => Or.inl (Or.inr ⟨s, rfl⟩))
    (fun h hh hmem => hn (inRound.known h hh n hmem))
    hdraw
  have hsame : ringHeads { st.ring with
      pickBucket := b'
      nodes := n :: st.ring.nodes
      value := Function.update st.ring.value n value
      mem := m' } = ringHeads st.ring := by
    simp [ringHeads, haddr]
  have hremaining := inRound.remaining
  refine ⟨{ st.ring with
      pickBucket := b'
      nodes := n :: st.ring.nodes
      value := Function.update st.ring.value n value
      mem := m' }, L', ?_, rfl, ?_⟩
  · simp only [nebRandomRingAdd, hput, Option.bind_eq_bind, Option.bind_some]
  · exact {
      queues := hsame ▸ Q'
      pick := ok'
      put := inRound.put.congr (fun s => hkeep _ (fun t => other_bucket inRound.ne s t))
      ne := by
        rw [haddr]
        exact inRound.ne
      inUse := by
        rw [hkeep _ (fun s => by simp [NebRandomBucket.nlist])]
        exact inRound.inUse
      known := by
        intro h hh k hk
        rcases hmem h k hk with hk | rfl
        · exact List.mem_cons_of_mem n (inRound.known h (hsame ▸ hh) k hk)
        · exact List.mem_cons_self
      nodes := List.nodup_cons.mpr ⟨hn, inRound.nodes⟩
      nodup := List.nodup_nil
      subset := List.nil_subset _
      fresh := fun _ _ _ => List.not_mem_nil
      remaining := by
        rw [List.length_cons]
        rw [List.length_nil] at hremaining ⊢
        change b'.count + 0 = st.ring.nodes.length + 1
        omega
      returned := inRound.returned }

end Step

/-! Runs. -/

def RingCall.isAdd : RingCall → Bool
  | .add _ _ _ => true
  | _ => false

/-- A pick comes when every node is put back, and nothing is added or confused. -/
def GoesRound (st : RingState) (c : RingCall) : Prop :=
  match c with
  | .pick _ => st.picked = []
  | .put _ _ => True
  | _ => False

/-- What a pick returns. -/
def returns (st : RingState) : RingCall → List (Option NodeAddr)
  | .pick draw => (nebRandomRingPick draw st.ring).toList.map (·.1)
  | _ => []

private theorem ringInit_inRound (pickAddr putAddr : Nat) (ne : pickAddr ≠ putAddr)
    (mem : NodeMem) : ∃ L, InRound (ringInit pickAddr putAddr mem) L [] := by
  obtain ⟨L, Q, ok1, ok2, hne, hpicked, hnodes⟩ := ringInit_ok pickAddr putAddr ne mem
  exact ⟨L, Q, ok1, ok2, hne, hpicked, hnodes, List.nodup_nil, List.nodup_nil, List.nil_subset _,
    fun _ _ _ => List.not_mem_nil, rfl, rfl⟩

private theorem add_inRound (st : RingState) (call : RingCall) (st' : RingState)
    (inv : ∃ L, InRound st L []) (add : call.isAdd = true) (step : ringStep st call = some st') :
    ∃ L, InRound st' L [] := by
  obtain ⟨L, inRound⟩ := inv
  cases call with
  | add n value draw =>
    simp only [ringStep] at step
    split_ifs at step with guard
    obtain ⟨r, L', hadd, -, inRound'⟩ := inRound.addNode value guard.1 guard.2
    rw [hadd] at step
    obtain rfl := Option.some.inj step
    exact ⟨L', inRound'⟩
  | _ => cases add

/-- The history of picks, with the nodes of the ring dealt out round by round. -/
private def Deals (nodes : List NodeAddr) (st : RingState) (x : List (Option NodeAddr)) : Prop :=
  st.ring.nodes = nodes ∧ ∃ L c h, x = h.map some ∧ InRound st L c ∧ Dealt nodes c h

private theorem deals_step {nodes : List NodeAddr} (pos : 0 < nodes.length) (st : RingState)
    (call : RingCall) (st' : RingState) (x : List (Option NodeAddr)) (deals : Deals nodes st x)
    (goes : GoesRound st call) (step : ringStep st call = some st') :
    ∃ y, Machine.Accepts (fun x e y => y = x ++ [e]) x (returns st call) y ∧ Deals nodes st' y := by
  obtain ⟨hnodes, L, c, h, rfl, inRound, dealt⟩ := deals
  cases call with
  | add n value draw => exact goes.elim
  | confuse fuel pickDraw putDraw => exact goes.elim
  | put n draw =>
    simp only [ringStep] at step
    split_ifs at step with guard
    obtain ⟨r, L', hput, hsame, inRound'⟩ := inRound.putNode guard.1 guard.2
    rw [hput] at step
    obtain rfl := Option.some.inj step
    exact ⟨_, .nil _, hsame.trans hnodes, L', c, h, rfl, inRound', dealt⟩
  | pick draw =>
    have idle : st.picked = [] := goes
    simp only [ringStep] at step
    split_ifs at step with hdraw
    cases hturn : ringTurn st.ring with
    | none =>
      -- both buckets are empty, but the ring has nodes
      unfold ringTurn at hturn
      split_ifs at hturn with hpick hput
      have hlen := (inRound.full hpick).length_eq
      have hreturned := inRound.returned
      rw [hnodes] at hlen
      rw [idle, List.length_nil] at hreturned
      omega
    | some r =>
      subst hnodes
      obtain ⟨hsame, hpos, c', inRound', dealt'⟩ := inRound.turn dealt idle hturn
      rcases Nat.lt_or_ge 5 draw with high | low
      · have wild := nebRandomBucketPick_wild inRound'.queues inRound'.pick
          (fun s => Or.inl (Or.inr ⟨s, rfl⟩)) hpos high hdraw
        simp only at wild
        simp [nebRandomRingPick, hturn, wild] at step
      · obtain ⟨n, b, m, L', hpick, inRound''⟩ := inRound'.pickNode hpos low
        simp only at hpick
        have hring : nebRandomRingPick draw st.ring = some (some n,
            { r with pickBucket := b, mem := TailQueue.insertHead .inUse n m }) := by
          simp only [nebRandomRingPick, hturn, hpick, Option.bind_eq_bind, Option.bind_some]
        rw [hring] at step
        obtain rfl := Option.some.inj step
        refine ⟨h.map some ++ [some n], ?_, hsame, L', c' ++ [n], h ++ [n], by simp, inRound'',
          dealt'.pick n⟩
        simp only [returns, hring, Option.toList_some, List.map_cons, List.map_nil]
        exact .single rfl

private theorem foldl_concat {α : Type} (es x : List α) :
    es.foldl (fun x e => x ++ [e]) x = x ++ es := by
  induction es generalizing x with
  | nil => simp
  | cons e es ih => rw [List.foldl_cons, ih, List.append_assoc, List.singleton_append]

/-- In a ring of `n` nodes whose picked node is always put back before the next pick, the picks
`k * n + 1` to `k * n + n` return every node once, and every pick returns a node. -/
theorem nebRandomRing_goes_round (pickAddr putAddr : Nat) (ne : pickAddr ≠ putAddr) (mem : NodeMem)
    (setup : List RingCall) (adds : ∀ c ∈ setup, c.isAdd = true) (st0 : RingState)
    (created : run ringStep (ringInit pickAddr putAddr mem) setup = some st0)
    (pos : 1 ≤ st0.ring.nodes.length) (calls : List RingCall)
    (goes : StepsMeet ringStep GoesRound st0 calls) (st : RingState)
    (reached : run ringStep st0 calls = some st) :
    let picks := trace ringStep returns st0 calls
    let n := st0.ring.nodes.length
    (∀ k, k * n + n ≤ picks.length → ∃ block : List NodeAddr,
      (picks.drop (k * n)).take n = block.map some ∧ block.Nodup ∧
        ∀ a, a ∈ block ↔ a ∈ st0.ring.nodes) ∧
    none ∉ picks := by
  intro picks n
  obtain ⟨L0, inRound0⟩ := invariant_run (fun s a t hI hC hstep => add_inRound s a t hI hC hstep)
    (ringInit_inRound pickAddr putAddr ne mem) (StepsMeet.of_labels adds _) created
  obtain ⟨x, haccepts, hnodes, L, c, h, hx, inRound, dealt⟩ := simulation_run
    (fun s a t x hI hC hstep => deals_step pos s a t x hI hC hstep)
    (⟨rfl, L0, [], [], rfl, inRound0, Dealt.start _⟩ : Deals st0.ring.nodes st0 []) goes reached
  have hpicks : picks = h.map some := by
    rw [← hx, haccepts.eq_foldl, foldl_concat]
    rfl
  have full : n ≤ c.length → c.Perm st0.ring.nodes := by
    intro hle
    have hsub : c.Subperm st.ring.nodes := List.subperm_of_subset inRound.nodup inRound.subset
    rw [hnodes] at hsub
    exact hsub.perm_of_length_le hle
  refine ⟨?_, by simp [hpicks]⟩
  intro k hk
  rw [hpicks, List.length_map] at hk
  have hperm := dealt.block full hk
  refine ⟨(h.drop (k * n)).take n, ?_, ?_, fun a => hperm.mem_iff⟩
  · rw [hpicks, List.map_take, List.map_drop]
  · exact hperm.nodup_iff.mpr (hnodes ▸ inRound.nodes)

instance (st : RingState) (c : RingCall) : Decidable (GoesRound st c) :=
  match c with
  | .pick _ => inferInstanceAs (Decidable (st.picked = []))
  | .put _ _ => isTrue trivial
  | .add _ _ _ => isFalse id
  | .confuse _ _ _ => isFalse id

/-- Two nodes and two rounds. -/
private def twoRounds : List RingCall :=
  [.pick 5, .put 1 0, .pick 5, .put 2 0, .pick 5, .put 1 0, .pick 5]

theorem nebRandomRing_goes_round_twice :
    ∃ st0, run ringStep (ringInit 0 1 blankMem) [.add 1 10 0, .add 2 20 1] = some st0 ∧
      ∃ block : List NodeAddr, ((trace ringStep returns st0 twoRounds).drop 2).take 2 =
        block.map some ∧ block.Nodup := by
  obtain ⟨st0, hst0, hfacts⟩ : ∃ st0,
      run ringStep (ringInit 0 1 blankMem) [.add 1 10 0, .add 2 20 1] = some st0 ∧
      (decide (StepsMeet ringStep GoesRound st0 twoRounds), (run ringStep st0 twoRounds).isSome,
        st0.ring.nodes.length, (trace ringStep returns st0 twoRounds).length)
        = (true, true, 2, 4) :=
    Machine.run_reaches (by decide +kernel)
  simp only [Prod.mk.injEq, decide_eq_true_eq] at hfacts
  obtain ⟨hgoes, hruns, hnodes, hpicks⟩ := hfacts
  obtain ⟨st, hst⟩ := Option.isSome_iff_exists.mp hruns
  obtain ⟨blocks, -⟩ := nebRandomRing_goes_round 0 1 (by decide) blankMem
    [.add 1 10 0, .add 2 20 1] (by simp [RingCall.isAdd]) st0 hst0 (by omega) twoRounds hgoes st hst
  obtain ⟨block, heq, hnodup, -⟩ := blocks 1 (by omega)
  rw [hnodes] at heq
  exact ⟨st0, hst0, block, heq, hnodup⟩

end Nebase.Random
