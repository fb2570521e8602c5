/- The array of the kevent driver: which of its entries a flush writes, and when all of them are
   there. -/

import Nebase.Evdp.Kevent.Changes

set_option autoImplicit false
set_option relaxedAutoImplicit false

namespace Nebase.Evdp.Kevent

open Nebase.Foundation
open Nebase.Evdp.Epoll (Ptr Handler SourceType Dir NebEvdpCbRet Stage)

/-- The entries that a flush writes for a source of the queue. -/
def State.entries (q : State) (p : Ptr) : List KEvent :=
  match q.sources p with
  | some src => src.entries
  | none => []

/-- The number of changes of each pending source. -/
def State.changeCounts (q : State) : List Nat := q.pendingQs.map (fun p => (q.entries p).length)

/-- The indexes of `ee` that a round of the flush writes. -/
def eeWrites (q : State) : List Nat :=
  match q.ctl with
  | .flushing last (some p) count =>
    if last = some p then [] else List.range' count (q.entries p).length
  | _ => []

def Action.isFlush : Action → Bool
  | .flush _ => true
  | _ => false

/-- The pending list is linked, and its sources ask for registrations of their own. -/
structure Listed (q : State) : Prop where
  nodup : q.pendingQs.Nodup
  source : ∀ p ∈ q.pendingQs, (q.sources p).isSome = true
  own : ∀ p ∈ q.pendingQs, ∀ e ∈ q.entries p,
    e.udata = some p ∧ e.flags.evAdd = true ∧ e.flags.evDelete = false

/-- Where `c` changes are written, the changes of each source end within the batch that they start
in. -/
def Fits (batchSize : Nat) : Nat → List Nat → Prop
  | _, [] => True
  | c, n :: ls => c % batchSize + n ≤ batchSize ∧ Fits batchSize (c + n) ls

instance (batchSize : Nat) : ∀ (ls : List Nat) (c : Nat), Decidable (Fits batchSize c ls)
  | [], _ => isTrue trivial
  | n :: ls, c =>
    have := instDecidableFits batchSize ls (c + n)
    inferInstanceAs (Decidable (c % batchSize + n ≤ batchSize ∧ Fits batchSize (c + n) ls))

theorem Fits.congr {b c d : Nat} {ls : List Nat} (same : c % b = d % b) :
    Fits b c ls ↔ Fits b d ls := by
  induction ls generalizing c d with
  | nil => exact Iff.rfl
  | cons n ls ih =>
    have hnext : (c + n) % b = (d + n) % b := by rw [Nat.add_mod, same, ← Nat.add_mod]
    simp only [Fits, same, ih hnext]

/-- Sources without a change make no difference. -/
theorem Fits.zeros {b c : Nat} (pos : 0 < b) {zs ls : List Nat} (zero : ∀ n ∈ zs, n = 0) :
    Fits b c (zs ++ ls) ↔ Fits b c ls := by
  induction zs with
  | nil => exact Iff.rfl
  | cons n zs ih =>
    obtain rfl := zero n List.mem_cons_self
    have hlt := Nat.mod_lt c pos
    have htail := ih (fun k hk => zero k (List.mem_cons_of_mem _ hk))
    constructor
    · exact fun h => htail.mp h.2
    · exact fun h => ⟨by omega, htail.mpr h⟩

/-! A submitted batch. -/

section Batch

variable {q q' : State} {p : Ptr} {src : Source} {ps : List Ptr}

/-- A source has no change, one, or, if it is an os_fd, two. -/
private theorem entries_cases (src : Source) :
    src.entries = [] ∨ (∃ e, src.entries = [e]) ∨
      ∃ e e', src.type = .osFd ∧ src.entries = [e, e'] := by
  unfold Source.entries
  split_ifs with hos hr hw hw
  · exact Or.inr (Or.inr ⟨_, _, hos, rfl⟩)
  · exact Or.inr (Or.inl ⟨_, rfl⟩)
  · exact Or.inr (Or.inl ⟨_, rfl⟩)
  · exact Or.inl rfl
  · exact Or.inr (Or.inl ⟨_, rfl⟩)

/-- What a submitted entry leaves of the queue, that of the source `p`. -/
structure Submits (p : Ptr) (q q' : State) : Prop where
  pendingQs : q'.pendingQs = q.pendingQs.erase p
  sources : ∀ r, r ≠ p → q'.sources r = q.sources r
  batchSize : q'.batchSize = q.batchSize

/-- The first entry of a source moves it to the running list. -/
private theorem moveSubmitted_first {e : KEvent} (udata : e.udata = some p)
    (source : q.sources p = some src) (first : src.type = .osFd → src.statsUpdated = false) :
    ∃ q' src', moveSubmitted e q = some q' ∧ Submits p q q' ∧ q'.sources p = some src' ∧
      src'.type = src.type ∧ (src.type = .osFd → src'.statsUpdated = true) := by
  by_cases hos : src.type = .osFd
  · refine ⟨slistRunningInsertNoStats p { src.submitted e.filter with statsUpdated := true }
      (slistRemove p q), _, by simp [moveSubmitted, udata, source, hos, first hos],
      ⟨rfl, fun r hr => Function.update_of_ne hr _ _, rfl⟩, Function.update_self .., ?_,
      fun _ => rfl⟩
    cases e.filter <;> rfl
  · exact ⟨slistRunningInsertNoStats p src (slistRemove p q), _,
      by simp [moveSubmitted, udata, source, hos],
      ⟨rfl, fun r hr => Function.update_of_ne hr _ _, rfl⟩, Function.update_self .., rfl,
      fun h => absurd h hos⟩

/-- The second one finds it there. -/
private theorem moveSubmitted_second {e : KEvent} (udata : e.udata = some p)
    (source : q.sources p = some src) (os : src.type = .osFd) (moved : src.statsUpdated = true) :
    ∃ q', moveSubmitted e q = some q' ∧ q'.pendingQs = q.pendingQs ∧
      (∀ r, r ≠ p → q'.sources r = q.sources r) ∧ q'.batchSize = q.batchSize := by
  refine ⟨{ q with
      statsPending := q.statsPending + 1
      statsRunning := q.statsRunning - 1 }.setSource p (src.submitted e.filter),
    by simp [moveSubmitted, udata, source, os, moved], rfl, ?_, rfl⟩
  exact fun r hr => Function.update_of_ne hr _ _

/-- The entries of one source. -/
private theorem moveAllSubmitted_source (source : q.sources p = some src)
    (own : ∀ e ∈ src.entries, e.udata = some p) (changes : src.entries ≠ [])
    (first : src.type = .osFd → src.statsUpdated = false) :
    ∃ q', moveAllSubmitted src.entries q = some q' ∧ Submits p q q' := by
  rcases entries_cases src with h | ⟨e, h⟩ | ⟨e, e', hos, h⟩
  · exact absurd h changes
  · obtain ⟨q', -, hmove, hsubmits, -⟩ :=
      moveSubmitted_first (own e (by rw [h]; exact List.mem_cons_self)) source first
    exact ⟨q', by rw [h, moveAllSubmitted, hmove]; rfl, hsubmits⟩
  · obtain ⟨q1, src1, hmove, hsubmits, hsrc1, htype, hmoved⟩ :=
      moveSubmitted_first (own e (by rw [h]; exact List.mem_cons_self)) source first
    obtain ⟨q', hmove', hpending, hsources, hbatch⟩ := moveSubmitted_second
      (own e' (by rw [h]; exact List.mem_cons_of_mem _ List.mem_cons_self)) hsrc1
      (htype.trans hos) (hmoved hos)
    refine ⟨q', ?_, hpending.trans hsubmits.pendingQs, ?_, hbatch.trans hsubmits.batchSize⟩
    · rw [h, moveAllSubmitted, hmove]
      change (moveSubmitted e' q1).bind (moveAllSubmitted []) = _
      rw [hmove']
      rfl
    · exact fun r hr => (hsources r hr).trans (hsubmits.sources r hr)

private theorem moveAllSubmitted_append (es es' : List KEvent) (q : State) :
    moveAllSubmitted (es ++ es') q = (moveAllSubmitted es q).bind (moveAllSubmitted es') := by
  induction es generalizing q with
  | nil => rfl
  | cons e es ih =>
    rw [List.cons_append, moveAllSubmitted, moveAllSubmitted, Option.bind_assoc]
    exact congrArg _ (funext ih)

/-- The entries of a batch: the sources that have some leave the pending list, the others stay as
they are. -/
private theorem moveAllSubmitted_batch (nodup : ps.Nodup) (pending : q.pendingQs.Nodup)
    (source : ∀ p ∈ ps, ∃ src, q.sources p = some src ∧ (∀ e ∈ src.entries, e.udata = some p) ∧
      (src.type = .osFd → src.statsUpdated = false)) :
    ∃ q', moveAllSubmitted (ps.flatMap q.entries) q = some q' ∧
      q'.pendingQs = q.pendingQs.filter (fun r => ¬ (r ∈ ps ∧ q.entries r ≠ [])) ∧
      (∀ r, r ∉ ps ∨ q.entries r = [] → q'.sources r = q.sources r) ∧
      q'.batchSize = q.batchSize := by
  induction ps generalizing q with
  | nil => exact ⟨q, rfl, by simp, fun _ _ => rfl, rfl⟩
  | cons p ps ih =>
    obtain ⟨hp, hps⟩ := List.nodup_cons.mp nodup
    obtain ⟨src, hsrc, hown, hfirst⟩ := source p List.mem_cons_self
    have hentries : q.entries p = src.entries := by
      unfold State.entries
      rw [hsrc]
    by_cases hnone : src.entries = []
    · obtain ⟨q', hmove, hpend, hsources, hbatch⟩ := ih hps pending
        (fun r hr => source r (List.mem_cons_of_mem _ hr))
      refine ⟨q', ?_, ?_, ?_, hbatch⟩
      · rw [List.flatMap_cons, hentries, hnone, List.nil_append]
        exact hmove
      · rw [hpend]
        refine List.filter_congr ?_
        intro r _
        by_cases hrp : r = p
        · simp [hrp, hentries, hnone]
        · simp [hrp]
      · rintro r (hr | hr)
        · exact hsources r (Or.inl (fun h => hr (List.mem_cons_of_mem _ h)))
        · exact hsources r (Or.inr hr)
    · obtain ⟨q1, hmove1, hsubmits⟩ := moveAllSubmitted_source hsrc hown hnone hfirst
      have hsame : ∀ r ∈ ps, q1.sources r = q.sources r := by
        intro r hr
        exact hsubmits.sources r (fun h => hp (h ▸ hr))
      have hentries1 : ∀ r, r ≠ p → q1.entries r = q.entries r := by
        intro r hr
        unfold State.entries
        rw [hsubmits.sources r hr]
      obtain ⟨q', hmove, hpend, hsources, hbatch⟩ := ih (q := q1) hps
        (by rw [hsubmits.pendingQs]; exact pending.erase p)
        (fun r hr => by rw [hsame r hr]; exact source r (List.mem_cons_of_mem _ hr))
      refine ⟨q', ?_, ?_, ?_, hbatch.trans hsubmits.batchSize⟩
      · rw [List.flatMap_cons, hentries, moveAllSubmitted_append, hmove1, Option.bind_some,
          ← hmove]
        congr 1
        refine List.flatMap_congr ?_
        intro r hr
        exact (hentries1 r (fun h => hp (h ▸ hr))).symm
      · rw [hpend, hsubmits.pendingQs, pending.erase_eq_filter, List.filter_filter]
        refine List.filter_congr ?_
        intro r _
        by_cases hrp : r = p
        · simp [hrp, hentries, hnone]
        · simp [hrp, hentries1 r hrp]
      · intro r hr
        have hrp : r ≠ p := by
          rintro rfl
          rcases hr with hr | hr
          · exact hr List.mem_cons_self
          · exact hnone (hentries ▸ hr)
        rw [← hsubmits.sources r hrp]
        refine hsources r ?_
        rw [hentries1 r hrp]
        exact hr.imp (fun h hmem => h (List.mem_cons_of_mem _ hmem)) id

/-- Registrations succeed if there is memory for them. -/
private theorem changes_adds (k : Kernel) (es : List KEvent)
    (adds : ∀ e ∈ es, e.flags.evAdd = true ∧ e.flags.evDelete = false) :
    ∃ k', k.changes true es = (true, k') := by
  induction es generalizing k with
  | nil => exact ⟨k, rfl⟩
  | cons e es ih =>
    obtain ⟨hadd, hdelete⟩ := adds e List.mem_cons_self
    have hchange : k.change e true =
        some (Function.update k (e.ident, e.filter) (some ⟨e.udata, e.flags.evOneshot⟩)) := by
      simp [Kernel.change, hadd, hdelete]
    obtain ⟨k', hk'⟩ := ih
      (Function.update k (e.ident, e.filter) (some ⟨e.udata, e.flags.evOneshot⟩))
      (fun e' he' => adds e' (List.mem_cons_of_mem _ he'))
    exact ⟨k', by simp only [Kernel.changes, hchange, hk']⟩

/-- A full batch is refused, or its sources that have changes leave the pending list. -/
private theorem doBatchFlush_batch (nr : Nat) (room : Bool) (nodup : ps.Nodup)
    (pending : q.pendingQs.Nodup) (written : q.ee.take nr = ps.flatMap q.entries)
    (adds : ∀ p ∈ ps, ∀ e ∈ q.entries p, e.flags.evAdd = true ∧ e.flags.evDelete = false)
    (source : ∀ p ∈ ps, ∃ src, q.sources p = some src ∧ (∀ e ∈ src.entries, e.udata = some p) ∧
      (src.type = .osFd → src.statsUpdated = false)) :
    (room = false ∧ ∃ q', doBatchFlush nr room q = (false, q') ∧ q'.ctl = .user) ∨
      ∃ q', doBatchFlush nr room q = (true, q') ∧
        q'.pendingQs = q.pendingQs.filter (fun r => ¬ (r ∈ ps ∧ q.entries r ≠ [])) ∧
        (∀ r, r ∉ ps ∨ q.entries r = [] → q'.sources r = q.sources r) ∧
        q'.batchSize = q.batchSize := by
  cases hchanges : q.kernel.changes room (ps.flatMap q.entries) with
  | mk ok k =>
    cases ok with
    | false =>
      left
      refine ⟨?_, { q with kernel := k, ctl := .user }, ?_, rfl⟩
      · cases room with
        | false => rfl
        | true =>
          obtain ⟨k', hk'⟩ := changes_adds q.kernel (ps.flatMap q.entries) (by
            intro e he
            obtain ⟨r, hr, her⟩ := List.mem_flatMap.mp he
            exact adds r hr e her)
          rw [hk'] at hchanges
          cases hchanges
      · simp only [doBatchFlush, written, hchanges, Bool.false_eq_true, if_false]
    | true =>
      right
      obtain ⟨q', hmove, hpend, hsources, hbatch⟩ := moveAllSubmitted_batch (q := { q with
        kernel := k
        written := []
        statsPending := q.statsPending - nr
        statsRunning := q.statsRunning + nr }) nodup pending source
      refine ⟨q', ?_, hpend, hsources, hbatch⟩
      simp only [doBatchFlush, written, hchanges, if_true]
      rw [show moveAllSubmitted (ps.flatMap q.entries) _ = some q' from hmove]

end Batch

/-! The walk over the pending list. -/

/-- A flush that has written the `count` changes of the sources `pre`, the head of the list, and
goes on with `rest`. -/
structure Gathering (q : State) (last : Option Ptr) (pre rest : List Ptr) (count : Nat) :
    Prop where
  ctl : q.ctl = .flushing last rest.head? count
  pendingQs : q.pendingQs = pre ++ rest
  listed : Listed q
  first : ∀ p ∈ pre, ∀ src, q.sources p = some src → src.type = .osFd → src.statsUpdated = false
  written : q.ee.take count = pre.flatMap q.entries
  counted : count = (pre.flatMap q.entries).length
  room : count < q.batchSize
  ahead : ∀ p, last = some p → p ∉ rest

section Walk

variable {q q' : State} {last : Option Ptr} {pre rest : List Ptr} {count : Nat} {p : Ptr}

private theorem wrote_entries {src : Source} (source : q.sources p = some src) (count : Nat) :
    (q.wrote p src count).entries = q.entries := by
  obtain ⟨hother, src', hsrc', hentries, -⟩ := wrote_sources source count
  funext r
  unfold State.entries
  by_cases hr : r = p
  · rw [hr, hsrc', source]
    exact hentries
  · rw [hother r hr]

private theorem next_source {src : Source} (pendingQs : q.pendingQs = pre ++ p :: rest)
    (nodup : q.pendingQs.Nodup) (count : Nat) :
    (q.wrote p src count).nextPending p = rest.head? := by
  rw [pendingQs] at nodup
  unfold State.nextPending
  rw [(wrote_frame q p src count).1, pendingQs, SentinelList.behind_eq]
  exact fun hp => (List.nodup_append.mp nodup).2.2 p hp p List.mem_cons_self rfl

/-- What is left of a list is listed, if the sources in it ask for the same. -/
private theorem Listed.left (listed : Listed q) (sub : q'.pendingQs.Sublist q.pendingQs)
    (live : ∀ r ∈ q'.pendingQs, (q'.sources r).isSome = true)
    (same : ∀ r ∈ q'.pendingQs, q'.entries r = q.entries r) : Listed q' where
  nodup := listed.nodup.sublist sub
  source := live
  own := by
    intro r hr
    rw [same r hr]
    exact listed.own r (sub.subset hr)

/-- The changes of `ps`, the head of the list, are written, and the room that is left is yet to be
looked at. -/
structure Filled (q : State) (ps rest : List Ptr) (count : Nat) : Prop where
  pendingQs : q.pendingQs = ps ++ rest
  listed : Listed q
  first : ∀ p ∈ ps, ∀ src, q.sources p = some src → src.type = .osFd → src.statsUpdated = false
  written : q.ee.take count = ps.flatMap q.entries
  counted : count = (ps.flatMap q.entries).length

private theorem Gathering.filled (g : Gathering q last pre (p :: rest) count) {src : Source}
    (source : q.sources p = some src) :
    Filled (q.wrote p src count) (pre ++ [p]) rest (count + src.entries.length) := by
  have hentries : q.entries p = src.entries := by
    unfold State.entries
    rw [source]
  obtain ⟨hpending, -⟩ := wrote_frame q p src count
  obtain ⟨hee, -⟩ := wrote_array q p src count
  obtain ⟨hother, src', hsrc', -, hfirst'⟩ := wrote_sources source count
  have hsame := wrote_entries source count
  have hpre : p ∉ pre := by
    have hnodup := g.listed.nodup
    rw [g.pendingQs] at hnodup
    exact fun h => (List.nodup_append.mp hnodup).2.2 p h p List.mem_cons_self rfl
  have hlength : (q.ee.take count ++ src.entries).length = count + src.entries.length := by
    rw [List.length_append, g.written, ← g.counted]
  have hlive : ∀ r ∈ q.pendingQs, ((q.wrote p src count).sources r).isSome = true := by
    intro r hr
    by_cases hrp : r = p
    · rw [hrp, hsrc']
      rfl
    · rw [hother r hrp]
      exact g.listed.source r hr
  exact {
    pendingQs := by rw [hpending, g.pendingQs, List.append_assoc, List.singleton_append]
    listed := by
      refine g.listed.left (by rw [hpending]) ?_ (fun r _ => congrFun hsame r)
      rw [hpending]
      exact hlive
    first := by
      intro r hr s hs
      rcases List.mem_append.mp hr with hr | hr
      · rw [hother r (fun h => hpre (h ▸ hr))] at hs
        exact g.first r hr s hs
      · rw [List.mem_singleton.mp hr, hsrc'] at hs
        obtain rfl := Option.some.inj hs
        exact hfirst'
    written := by
      rw [hee, ← hlength, List.take_left, hsame, List.flatMap_append, g.written]
      simp [hentries]
    counted := by
      rw [hsame, List.flatMap_append, List.length_append, ← g.counted]
      simp [hentries] }

/-- With room left, the walk goes on behind the source. -/
private theorem Filled.continues {ps : List Ptr} (f : Filled q ps rest count)
    (room : count < q.batchSize) (ahead : p ∉ rest) :
    Gathering (q.goto (.flushing (some p) rest.head? count)) (some p) ps rest count where
  ctl := rfl
  pendingQs := f.pendingQs
  listed := ⟨f.listed.nodup, f.listed.source, f.listed.own⟩
  first := f.first
  written := f.written
  counted := f.counted
  room := room
  ahead := by
    intro r hr
    rwa [← Option.some.inj hr]

/-- A full batch is refused, or it leaves the sources without changes in the list. -/
private theorem Filled.flushed {ps : List Ptr} (f : Filled q ps rest count) (room : Bool) :
    (room = false ∧ ∃ q', doBatchFlush count room q = (false, q') ∧ q'.ctl = .user) ∨
      ∃ q', doBatchFlush count room q = (true, q') ∧ q'.batchSize = q.batchSize ∧ Listed q' ∧
        (∀ r ∈ q'.pendingQs, q'.entries r = q.entries r) ∧
        q'.pendingQs = ps.filter (fun r => q.entries r = []) ++ rest := by
  have hnodup : (ps ++ rest).Nodup := f.pendingQs ▸ f.listed.nodup
  have hin : ∀ r ∈ ps, r ∈ q.pendingQs := by
    intro r hr
    rw [f.pendingQs]
    exact List.mem_append_left _ hr
  have hready : ∀ r ∈ ps, ∃ s, q.sources r = some s ∧ (∀ e ∈ s.entries, e.udata = some r) ∧
      (s.type = .osFd → s.statsUpdated = false) := by
    intro r hr
    obtain ⟨s, hs⟩ := Option.isSome_iff_exists.mp (f.listed.source r (hin r hr))
    refine ⟨s, hs, ?_, f.first r hr s hs⟩
    intro e he
    refine (f.listed.own r (hin r hr) e ?_).1
    unfold State.entries
    rwa [hs]
  rcases doBatchFlush_batch count room (List.nodup_append.mp hnodup).1 f.listed.nodup f.written
      (fun r hr e he => (f.listed.own r (hin r hr) e he).2) hready with
    hrefused | ⟨q', hdo, hpend, hsources', hbatch⟩
  · exact Or.inl hrefused
  · have hsources : ∀ r ∈ q'.pendingQs, q'.sources r = q.sources r := by
      intro r hr
      rw [hpend, List.mem_filter] at hr
      refine hsources' r ?_
      by_contra hboth
      simp only [not_or, not_not] at hboth
      simp [hboth] at hr
    have hentries : ∀ r ∈ q'.pendingQs, q'.entries r = q.entries r := by
      intro r hr
      unfold State.entries
      rw [hsources r hr]
    refine Or.inr ⟨q', hdo, hbatch, ?_, hentries, ?_⟩
    · refine f.listed.left (by rw [hpend]; exact List.filter_sublist) ?_ hentries
      intro r hr
      rw [hsources r hr]
      exact f.listed.source r (by rw [hpend] at hr; exact List.mem_of_mem_filter hr)
    · rw [hpend, f.pendingQs, List.filter_append]
      congr 1
      · refine List.filter_congr ?_
        intro r hr
        simp [hr]
      · refine List.filter_eq_self.mpr ?_
        intro r hr
        have hr' : r ∉ ps := fun h => (List.nodup_append.mp hnodup).2.2 r h r hr rfl
        simp [hr']

/-- A round at a source whose changes fit writes them; then the walk goes on behind the source, or,
where the batch is full, from the head of what is left of the list. -/
private theorem Gathering.round (g : Gathering q last pre (p :: rest) count)
    (fits : count + (q.entries p).length ≤ q.batchSize) (room : Bool) :
    ∃ q', step q (.flush room) = some q' ∧ ((room = false ∧ q'.ctl = .user) ∨
      (q'.batchSize = q.batchSize ∧ ∃ pre' rest' count', Gathering q' (some p) pre' rest' count' ∧
        (∀ r ∈ rest', q'.entries r = q.entries r) ∧
        ((rest' = rest ∧ count' = count + (q.entries p).length) ∨
          (∃ zs, rest' = zs ++ rest ∧ count' = 0 ∧ (∀ r ∈ zs, q.entries r = []) ∧
            count + (q.entries p).length = q.batchSize)))) := by
  have hmem : p ∈ q.pendingQs := by rw [g.pendingQs]; simp
  obtain ⟨src, hsrc⟩ := Option.isSome_iff_exists.mp (g.listed.source p hmem)
  have hentries : q.entries p = src.entries := by
    unfold State.entries
    rw [hsrc]
  have hroom := g.room
  have hp : p ∉ rest := by
    have hnodup := g.listed.nodup
    rw [g.pendingQs] at hnodup
    exact (List.nodup_cons.mp (List.nodup_append.mp hnodup).2.1).1
  have hsame := wrote_entries hsrc count
  obtain ⟨-, hbatch, -⟩ := wrote_frame q p src count
  rw [hentries] at fits ⊢
  have hfilled := g.filled hsrc
  have hstep : step q (.flush room) =
      some (evdpQueueFlushPendingSources last (some p) count room q) := by
    have hctl := g.ctl
    rw [List.head?_cons] at hctl
    simp only [step, hctl]
  rw [flush_source (fun h => g.ahead p h List.mem_cons_self) hsrc, if_neg (by omega)] at hstep
  by_cases hfull : q.batchSize ≤ count + src.entries.length
  · rw [if_pos hfull] at hstep
    rcases hfilled.flushed room with
      ⟨hrefused, q', hdo, hctl⟩ | ⟨q', hdo, hbatch', listed, hkept, hleft⟩
    · rw [hdo] at hstep
      exact ⟨q', hstep, Or.inl ⟨hrefused, hctl⟩⟩
    · rw [hdo] at hstep
      rw [hsame] at hkept hleft
      have hgone : p ∉ q'.pendingQs := by
        rw [hleft, List.mem_append, List.mem_filter, hentries]
        rintro (⟨-, h⟩ | h)
        · rw [of_decide_eq_true h, List.length_nil] at hfull
          omega
        · exact hp h
      have hnext : Filled q' [] q'.pendingQs 0 :=
        ⟨rfl, listed, fun r hr => absurd hr List.not_mem_nil, rfl, rfl⟩
      refine ⟨_, hstep, Or.inr ⟨hbatch'.trans hbatch, [], q'.pendingQs, 0,
        hnext.continues (by omega) hgone, hkept, Or.inr ⟨_, hleft, rfl, ?_, by omega⟩⟩⟩
      intro r hr
      simpa using List.of_mem_filter hr
  · rw [if_neg hfull, next_source g.pendingQs g.listed.nodup] at hstep
    refine ⟨_, hstep, Or.inr ⟨hbatch, pre ++ [p], rest, _, hfilled.continues (by omega) hp, ?_,
      Or.inl ⟨rfl, rfl⟩⟩⟩
    intro r _
    exact congrFun hsame r

/-- The number of changes of each source. -/
private def needs (q : State) (ps : List Ptr) : List Nat := ps.map (fun r => (q.entries r).length)

/-- What a round leaves fits if and only if what it found did. -/
private theorem needs_fits (room : count < q.batchSize)
    (fits : count + (q.entries p).length ≤ q.batchSize) {rest' : List Ptr} {count' : Nat}
    (same : ∀ r ∈ rest', q'.entries r = q.entries r)
    (next : (rest' = rest ∧ count' = count + (q.entries p).length) ∨
      (∃ zs, rest' = zs ++ rest ∧ count' = 0 ∧ (∀ r ∈ zs, q.entries r = []) ∧
        count + (q.entries p).length = q.batchSize)) :
    Fits q.batchSize count' (needs q' rest') ↔
      Fits q.batchSize count (needs q (p :: rest)) := by
  have hmod : count % q.batchSize = count := Nat.mod_eq_of_lt room
  have hneeds : needs q' rest' = needs q rest' := by
    refine List.map_congr_left ?_
    intro r hr
    rw [same r hr]
  have htail : Fits q.batchSize count (needs q (p :: rest)) ↔
      Fits q.batchSize (count + (q.entries p).length) (needs q rest) := by
    change count % q.batchSize + (q.entries p).length ≤ q.batchSize ∧ _ ↔ _
    rw [hmod]
    exact and_iff_right fits
  rw [hneeds, htail]
  rcases next with ⟨rfl, rfl⟩ | ⟨zs, rfl, rfl, hzero, hfull⟩
  · exact Iff.rfl
  · rw [hfull, needs, List.map_append]
    have hz : ∀ n ∈ zs.map (fun r => (q.entries r).length), n = 0 := by
      intro n hn
      obtain ⟨r, hr, rfl⟩ := List.mem_map.mp hn
      rw [hzero r hr]
      rfl
    rw [Fits.zeros (by omega) hz]
    exact Fits.congr (by simp)

/-- A queue that is not in a flush writes nothing. -/
private theorem trace_idle (idle : ∀ last s count, q.ctl ≠ .flushing last s count)
    {as : List Action} (flush : ∀ a ∈ as, a.isFlush = true) :
    Machine.trace step (fun q _ => eeWrites q) q as = [] := by
  cases as with
  | nil => rfl
  | cons a as =>
    cases a with
    | flush room =>
      have hwrites : eeWrites q = [] := by
        unfold eeWrites
        split
        · rename_i last p count hctl
          exact absurd hctl (idle last (some p) count)
        · rfl
      have hstep : step q (.flush room) = none := by
        cases hctl : q.ctl with
        | flushing last s count => exact absurd hctl (idle last s count)
        | _ => simp only [step, hctl]
      simp [Machine.trace, hwrites, hstep]
    | _ => exact absurd (flush _ List.mem_cons_self) (by simp [Action.isFlush])

private theorem trace_round {a : Action} {as : List Action} (step_eq : step q a = some q') :
    Machine.trace step (fun q _ => eeWrites q) q (a :: as) =
      eeWrites q ++ Machine.trace step (fun q _ => eeWrites q) q' as := by
  simp [Machine.trace, step_eq]

private theorem Gathering.writes (g : Gathering q last pre (p :: rest) count) :
    eeWrites q = List.range' count (q.entries p).length := by
  have hahead : last ≠ some p := fun h => g.ahead p h List.mem_cons_self
  simp [eeWrites, g.ctl, hahead]

/-- Where the changes of the sources fit, no round writes outside the array. -/
private theorem Gathering.safe (g : Gathering q last pre rest count)
    (fits : Fits q.batchSize count (needs q rest)) (as : List Action)
    (flush : ∀ a ∈ as, a.isFlush = true) :
    ∀ i ∈ Machine.trace step (fun q _ => eeWrites q) q as, i < q.batchSize := by
  induction as generalizing q last pre rest count with
  | nil => exact fun i hi => by cases hi
  | cons a as ih =>
    have hflush : ∀ a ∈ as, a.isFlush = true := fun b hb => flush b (List.mem_cons_of_mem _ hb)
    cases a with
    | flush room =>
      cases rest with
      | nil =>
        have hstep : step q (.flush room) = some
            { q with nevents := if count = 0 then q.nevents else count, ctl := .ready } := by
          have hctl := g.ctl
          rw [List.head?_nil] at hctl
          simp [step, hctl, evdpQueueFlushPendingSources]
        have hwrites : eeWrites q = [] := by simp [eeWrites, g.ctl]
        rw [trace_round hstep, hwrites, trace_idle (fun _ _ _ h => by cases h) hflush]
        exact fun i hi => by cases hi
      | cons p rest =>
        have hfits : count + (q.entries p).length ≤ q.batchSize := by
          have h := fits.1
          rwa [Nat.mod_eq_of_lt g.room] at h
        obtain ⟨q', hstep, hnext⟩ := g.round hfits room
        intro i hi
        rw [trace_round hstep, List.mem_append, g.writes] at hi
        rcases hi with hi | hi
        · have := List.mem_range'_1.mp hi
          omega
        · rcases hnext with ⟨-, hctl⟩ | ⟨hbatch, pre', rest', count', g', hsame, hrest⟩
          · rw [trace_idle (fun _ _ _ h => by rw [hctl] at h; cases h) hflush] at hi
            cases hi
          · have hfits' := (needs_fits g.room hfits hsame hrest).mpr fits
            rw [← hbatch] at hfits' ⊢
            exact ih g' hfits' hflush i hi
    | _ => exact absurd (flush _ List.mem_cons_self) (by simp [Action.isFlush])

/-- Where they do not fit, the flush comes to a source that writes outside the array. The induction
is on the sources that have changes, which full batches use up, and then on the rest of the list. -/
private theorem Gathering.overruns (N : Nat) (g : Gathering q last pre rest count)
    (bound : (rest.filter (fun r => q.entries r ≠ [])).length ≤ N)
    (misfit : ¬ Fits q.batchSize count (needs q rest)) :
    ∃ as : List Action, (∀ a ∈ as, a.isFlush = true) ∧
      ∃ i ∈ Machine.trace step (fun q _ => eeWrites q) q as, q.batchSize ≤ i := by
  induction N generalizing q last pre rest count with
  | zero =>
    have hnone : ∀ r ∈ rest, q.entries r = [] := by
      simpa [List.filter_eq_nil_iff] using bound
    have hz : ∀ n ∈ needs q rest, n = 0 := by
      intro n hn
      obtain ⟨r, hr, rfl⟩ := List.mem_map.mp hn
      rw [hnone r hr]
      rfl
    have hroom := g.room
    refine absurd ?_ misfit
    rw [← List.append_nil (needs q rest)]
    exact (Fits.zeros (by omega) hz).mpr trivial
  | succ N ihN =>
    induction rest generalizing q last pre count with
    | nil => exact absurd trivial misfit
    | cons p rest ih =>
      have hroom := g.room
      by_cases hfits : count + (q.entries p).length ≤ q.batchSize
      · obtain ⟨q', hstep, hnext⟩ := g.round hfits true
        rcases hnext with ⟨h, -⟩ | ⟨hbatch, pre', rest', count', g', hsame, hrest⟩
        · cases h
        have hmisfit' : ¬ Fits q'.batchSize count' (needs q' rest') := by
          rw [hbatch, needs_fits hroom hfits hsame hrest]
          exact misfit
        have hfilter : rest'.filter (fun r => q'.entries r ≠ []) =
            rest'.filter (fun r => q.entries r ≠ []) := by
          refine List.filter_congr ?_
          intro r hr
          rw [hsame r hr]
        have hgo : (∃ as : List Action, (∀ a ∈ as, a.isFlush = true) ∧
            ∃ i ∈ Machine.trace step (fun q _ => eeWrites q) q' as, q'.batchSize ≤ i) →
            ∃ as : List Action, (∀ a ∈ as, a.isFlush = true) ∧
              ∃ i ∈ Machine.trace step (fun q _ => eeWrites q) q as, q.batchSize ≤ i := by
          rintro ⟨as, hflush, i, hi, hle⟩
          refine ⟨.flush true :: as, ?_, i, ?_, hbatch ▸ hle⟩
          · intro a ha
            rcases List.mem_cons.mp ha with rfl | ha
            · rfl
            · exact hflush a ha
          · rw [trace_round hstep]
            exact List.mem_append_right _ hi
        refine hgo ?_
        rcases hrest with ⟨rfl, rfl⟩ | ⟨zs, rfl, rfl, hzero, hfull⟩
        · refine ih g' ?_ hmisfit'
          rw [hfilter]
          refine le_trans ?_ bound
          exact ((List.sublist_cons_self p rest').filter _).length_le
        · refine ihN g' ?_ hmisfit'
          have hp : q.entries p ≠ [] := by
            intro h
            rw [h, List.length_nil] at hfull
            omega
          have hzs : zs.filter (fun r => q.entries r ≠ []) = [] := by
            rw [List.filter_eq_nil_iff]
            intro r hr
            simp [hzero r hr]
          rw [hfilter, List.filter_append, hzs, List.nil_append]
          rw [List.filter_cons_of_pos (by simpa using hp), List.length_cons] at bound
          omega
      · refine ⟨[.flush true], by simp [Action.isFlush], count + ((q.entries p).length - 1), ?_,
          by omega⟩
        rw [Machine.trace, g.writes]
        refine List.mem_append_left _ (List.mem_range'_1.mpr ?_)
        omega

end Walk

/-- Whatever the kernel answers, a flush writes only to the entries of the array exactly if in the
pending list the changes of each source end within the batch that they start in. -/
theorem evdpQueueFlushPendingSources_in_bounds_iff (q : State) (listed : Listed q)
    (batch : 1 ≤ q.batchSize) (ctl : q.ctl = .flushing none q.pendingQs.head? 0) :
    (∀ as : List Action, (∀ a ∈ as, a.isFlush = true) →
      ∀ i ∈ Machine.trace step (fun q _ => eeWrites q) q as, i < q.batchSize) ↔
    Fits q.batchSize 0 q.changeCounts := by
  have g : Gathering q none [] q.pendingQs 0 := {
    ctl := ctl
    pendingQs := rfl
    listed := listed
    first := fun r hr => by cases hr
    written := rfl
    counted := rfl
    room := batch
    ahead := fun r hr => by cases hr }
  constructor
  · intro inside
    by_contra misfit
    obtain ⟨as, hflush, i, hi, hle⟩ := g.overruns _ le_rfl misfit
    have hlt := inside as hflush i hi
    omega
  · exact fun fits as hflush => g.safe fits as hflush

/-- A queue with one os_fd source that is to be added for both directions. -/
private def oneOsFd (batchSize : Nat) : State :=
  { nebEvdpQueueCreate batchSize with
    sources := fun p =>
      if p = 1 then
        some { newSource 1 .osFd 5 with
          qInUse := true
          pending := true
          rd := ⟨false, true, ⟨5, .read, .add true, some 1⟩⟩
          wr := ⟨false, true, ⟨5, .write, .add true, some 1⟩⟩ }
      else
        none
    pendingQs := [1]
    statsPending := 2
    ctl := .flushing none (some 1) 0 }

private theorem oneOsFd_listed (batchSize : Nat) : Listed (oneOsFd batchSize) :=
  ⟨by simp [oneOsFd], by simp [oneOsFd],
    by simp [oneOsFd, State.entries, Source.entries, newSource, Flags.add]⟩

theorem evdpQueueFlushPendingSources_in_bounds_at_two :
    Fits 2 0 [2] ∧ ∀ as : List Action, (∀ a ∈ as, a.isFlush = true) →
      ∀ i ∈ Machine.trace step (fun q _ => eeWrites q) (oneOsFd 2) as, i < 2 := by
  have fits : Fits 2 0 [2] := by decide
  exact ⟨fits, (evdpQueueFlushPendingSources_in_bounds_iff (oneOsFd 2) (oneOsFd_listed 2)
    (by decide) rfl).mpr fits⟩

/-- With a batch size of 1 the two changes of a source are written to `ee[0]` and `ee[1]`. -/
theorem evdpQueueFlushPendingSources_in_bounds_fails :
    ¬ ∀ q : State, Listed q → 1 ≤ q.batchSize → q.ctl = .flushing none q.pendingQs.head? 0 →
      ∀ as : List Action, (∀ a ∈ as, a.isFlush = true) →
        ∀ i ∈ Machine.trace step (fun q _ => eeWrites q) q as, i < q.batchSize := by
  intro claim
  have hlt := claim (oneOsFd 1) (oneOsFd_listed 1) (by decide) rfl [.flush true] (by decide) 1
    (by decide)
  exact absurd hlt (by decide)

end Nebase.Evdp.Kevent
