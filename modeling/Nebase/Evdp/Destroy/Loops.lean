/- The loops of a destruction: what every step keeps, whatever the `on_remove` callbacks do, and
   what is left of its own steps. -/

import Nebase.Evdp.Destroy.Entry
import Nebase.Evdp.Destroy.Model

set_option autoImplicit false
set_option relaxedAutoImplicit false

namespace Nebase.Evdp.Destroy

open Nebase.Foundation SentinelList Nebase.Evdp.Epoll

/-- One call of its `on_remove`, if it has one, for each source, with `q_in_use` cleared. -/
def onRemoveCalls (onRemove : Ptr → Option Handler) (detached : List Ptr) : List Removal :=
  detached.filterMap (fun p => (onRemove p).map (fun h => ⟨p, h, false⟩))

/-- Where the destruction stands, from the lists `P₀` and `R₀` on, with `P` and `R` left. -/
def Stands (P₀ R₀ P R : List Ptr) (d : Destroying) : Prop :=
  match d.phase with
  | .pendingLoop => P₀ = [] → d.callbacks = [] ∧ R.length = R₀.length
  | .runningLoop => P = []
  | .done => d.callbacks = [] ∧ P = [] ∧
      (R = [] ∨ d.base.statsRunning = 0 ∧ (P₀ = [] → R.length = R₀.length))
  | .undefined => False

/-- The destruction of the queue `q`, which had the lists `P₀` and `R₀`. -/
structure Underway (q : State) (onRemove : Ptr → Option Handler) (P₀ R₀ P R : List Ptr)
    (d : Destroying) : Prop where
  threaded : Foreach.Threaded d.base none P R
  turn : d.base.ctl.userTurn = true
  single : ∀ p r, Guarded d.base p → Guarded d.base r → p = r
  destroying : d.destroying = true
  drift : d.base.statsRunning - R.length = q.statsRunning - R₀.length
  fewer : P.length ≤ P₀.length ∧ R.length ≤ R₀.length
  nodup : d.detached.Nodup
  gone : ∀ p ∈ d.detached, ¬ d.base.Attached p
  total : ∀ p, p ∈ d.detached ∨ d.base.Attached p ↔ q.Attached p
  removals : d.removals = onRemoveCalls onRemove d.detached
  onRemove : ∀ p, d.base.Attached p → d.onRemove p = onRemove p
  attaches : ∀ r ∈ d.attaches, r = -1
  stands : Stands P₀ R₀ P R d

/-- The own steps that a phase takes besides its rounds. -/
def Phase.rank : Phase → Nat
  | .pendingLoop => 2
  | .runningLoop => 1
  | .done => 0
  | .undefined => 0

/-- What is left of the own steps of the destruction. -/
def potential (P R : List Ptr) (d : Destroying) : Nat :=
  2 * (P.length + R.length) + d.callbacks.length + d.phase.rank

section Step

variable {q : State} {onRemove : Ptr → Option Handler} {P₀ R₀ P R : List Ptr} {d d' : Destroying}

theorem threaded_attached {b : State} (threaded : Foreach.Threaded b none P R) (p : Ptr) :
    b.Attached p ↔ p ∈ P ∨ p ∈ R := by
  rw [Foreach.attached_cases, threaded.pending, threaded.running]
  simp

theorem filter_ne_length {L : List Ptr} (nodup : L.Nodup) (p : Ptr) :
    (L.filter (· ≠ p)).length + (if p ∈ L then 1 else 0) = L.length := by
  have heq : L.filter (· ≠ p) = L.erase p := by
    rw [nodup.erase_eq_filter]
    exact List.filter_congr (fun x _ => by simp [bne, beq_eq_decide])
  rw [heq]
  split_ifs with hp
  · have := List.length_erase_of_mem hp
    have := List.length_pos_of_mem hp
    omega
  · rw [List.erase_of_not_mem hp]
    rfl

/-- The queue `b'`, with the lists `P'` and `R'`, after `p` was detached from `b`. -/
structure Leaves (p : Ptr) (b : State) (P R : List Ptr) (b' : State) (P' R' : List Ptr) :
    Prop where
  threaded : Foreach.Threaded b' none P' R'
  ctl : b'.ctl = b.ctl
  guarded : ∀ r, Guarded b' r → Guarded b r
  left : P'.length + R'.length + 1 = P.length + R.length
  fewer : P'.length ≤ P.length ∧ R'.length ≤ R.length
  drift : b'.statsRunning - R'.length = b.statsRunning - R.length
  attached : ∀ r, b'.Attached r ↔ b.Attached r ∧ r ≠ p
  cleared : (b'.sources p).any (·.qInUse) = false

theorem detach_leaves {b : State} (threaded : Foreach.Threaded b none P R) {p : Ptr}
    {src : Source} (toClose : Bool) (hsrc : b.sources p = some src) (huse : src.qInUse = true) :
    ∃ P' R', Leaves p b P R (Epoll.doDetachFromQueue p src toClose b) P' R' := by
  have det := Epoll.detached p src toClose b
  obtain ⟨src', hsources, huse', -⟩ := det.sources
  have threaded' := threaded.leave det.links hsources huse' (by rw [hsrc]; rfl)
  have hP := filter_ne_length threaded.nodup.1 p
  have hR := filter_ne_length threaded.nodup.2 p
  have hstats : (if src.pending then 0 else 1) = (if p ∈ R then (1 : Int) else 0) ∧
      (if p ∈ P then 1 else 0) + (if p ∈ R then 1 else 0) = 1 := by
    cases hpend : src.pending with
    | true =>
      have hp : p ∈ P := (threaded.pending p).mpr ⟨src, hsrc, huse, hpend⟩
      simp [hp, threaded.disjoint hp]
    | false =>
      have hp : p ∈ R := (threaded.running p).mpr (Or.inl ⟨src, hsrc, huse, hpend⟩)
      have hn : p ∉ P := fun h => threaded.disjoint h hp
      simp [hp, hn]
  refine ⟨P.filter (· ≠ p), R.filter (· ≠ p), threaded', det.ctl, ?_, by omega, by omega, ?_, ?_,
    ?_⟩
  · rintro r ⟨s, hs, hno⟩
    by_cases hr : r = p
    · subst hr
      have := do_detach_no_detach r src toClose b
      rw [hs, Option.map_some, Option.some.injEq] at this
      exact ⟨src, hsrc, this.symm.trans hno⟩
    · rw [hsources, Function.update_of_ne hr] at hs
      exact ⟨s, hs, hno⟩
  · rw [det.statsRunning, hstats.1]
    split_ifs at hR ⊢ <;> omega
  · intro r
    rw [threaded_attached threaded', threaded_attached threaded]
    simp only [List.mem_filter, decide_eq_true_eq]
    tauto
  · rw [hsources, Function.update_self]
    exact huse'

/-- An attached source is detached and its `on_remove` called. -/
theorem Underway.detach (underway : Underway q onRemove P₀ R₀ P R d) {p : Ptr} {src : Source}
    (toClose : Bool) (hsrc : d.base.sources p = some src) (huse : src.qInUse = true)
    (later : d.phase = .pendingLoop → P₀ ≠ []) (going : d.phase ≠ .done) :
    ∃ P' R', Underway q onRemove P₀ R₀ P' R' (doDetachFromQueue p src toClose d) ∧
      potential P' R' (doDetachFromQueue p src toClose d) + 1 ≤ potential P R d := by
  have hattached : d.base.Attached p := ⟨src, hsrc, huse⟩
  obtain ⟨P', R', leaves⟩ := detach_leaves underway.threaded toClose hsrc huse
  have hfewer := leaves.fewer
  refine ⟨P', R', ⟨leaves.threaded, leaves.ctl ▸ underway.turn,
    fun r s hr hs => underway.single r s (leaves.guarded r hr) (leaves.guarded s hs),
    underway.destroying, leaves.drift.trans underway.drift, ?_, ?_, ?_, ?_, ?_, ?_,
    underway.attaches, ?_⟩, ?_⟩
  · have := underway.fewer
    omega
  · exact List.nodup_cons.mpr ⟨fun h => underway.gone p h hattached, underway.nodup⟩
  · intro r hr h
    have h := (leaves.attached r).mp h
    rcases List.mem_cons.mp hr with rfl | hr
    · exact h.2 rfl
    · exact underway.gone r hr h.1
  · intro r
    rw [← underway.total r]
    change r ∈ p :: d.detached ∨ (Epoll.doDetachFromQueue p src toClose d.base).Attached r ↔ _
    rw [leaves.attached, List.mem_cons]
    by_cases hr : r = p
    · subst hr
      simp [hattached]
    · simp [hr]
  · change (d.onRemove p).toList.map (fun h => (⟨p, h, _⟩ : Removal)) ++ d.removals =
      onRemoveCalls onRemove (p :: d.detached)
    rw [leaves.cleared, underway.onRemove p hattached, underway.removals]
    unfold onRemoveCalls
    cases h : onRemove p <;> simp [h]
  · intro r hr
    exact underway.onRemove r ((leaves.attached r).mp hr).1
  · have stands := underway.stands
    unfold Stands at stands ⊢
    change match d.phase with
      | .pendingLoop => _
      | .runningLoop => _
      | .done => _
      | .undefined => False
    cases hphase : d.phase with
    | pendingLoop => exact fun h => absurd h (later hphase)
    | runningLoop =>
      simp only [hphase] at stands
      rw [stands] at hfewer
      exact List.eq_nil_of_length_eq_zero (Nat.le_zero.mp hfewer.1)
    | done => exact absurd hphase going
    | undefined =>
      simp only [hphase] at stands
  · have hlength : (doDetachFromQueue p src toClose d).callbacks.length =
        ((d.onRemove p).toList.map (fun _ => p)).length + d.callbacks.length :=
      List.length_append
    have hcallbacks : ((d.onRemove p).toList.map (fun _ => p)).length ≤ 1 := by
      cases d.onRemove p <;> simp
    have hphase : (doDetachFromQueue p src toClose d).phase = d.phase := rfl
    have hleft := leaves.left
    unfold potential
    rw [hlength, hphase]
    omega

/-- A call of the user that changes no attached source. -/
structure Untouched (b : State) (a : Epoll.Action) (b' : State) : Prop where
  links : b'.links = b.links
  statsRunning : b'.statsRunning = b.statsRunning
  ctl : b'.ctl = b.ctl
  pending : ∀ r, b'.Pending r ↔ b.Pending r
  running : ∀ r, b'.Running r ↔ b.Running r
  guarded : ∀ r, Guarded b' r → Guarded b r
  fresh : ∀ p type fd, a = .newSource p type fd → b.sources p = none

private theorem untouched_same {b b' : State} {a : Epoll.Action} (links : b'.links = b.links)
    (statsRunning : b'.statsRunning = b.statsRunning) (ctl : b'.ctl = b.ctl)
    (sources : b'.sources = b.sources)
    (fresh : ∀ p type fd, a = .newSource p type fd → b.sources p = none) : Untouched b a b' := by
  refine ⟨links, statsRunning, ctl, ?_, ?_, ?_, fresh⟩
  · intro r
    unfold State.Pending
    rw [sources]
  · intro r
    unfold State.Running
    rw [sources]
  · intro r
    unfold Guarded
    rw [sources]
    exact id

private theorem untouched_write {b b' : State} {a : Epoll.Action} {p : Ptr} {o : Option Source}
    (links : b'.links = b.links) (statsRunning : b'.statsRunning = b.statsRunning)
    (ctl : b'.ctl = b.ctl) (sources : b'.sources = Function.update b.sources p o)
    (before : ¬ b.Attached p) (after : ∀ s, o = some s → s.qInUse = false)
    (guarded : ∀ s, o = some s → s.noDetach = true → Guarded b p)
    (fresh : ∀ p type fd, a = .newSource p type fd → b.sources p = none) : Untouched b a b' := by
  obtain ⟨pending, running⟩ := Foreach.detached_write sources before after
  refine ⟨links, statsRunning, ctl, pending, running, ?_, fresh⟩
  rintro r ⟨s, hs, hno⟩
  rw [sources] at hs
  by_cases hr : r = p
  · subst hr
    rw [Function.update_self] at hs
    exact guarded s hs hno
  · rw [Function.update_of_ne hr] at hs
    exact ⟨s, hs, hno⟩

theorem plain_untouched {b b' : State} {a : Epoll.Action} (plain : isPlain a = true)
    (h : Epoll.step b a = some b') : Untouched b a b' := by
  have call_inv : ∀ {p : Ptr} {f : Source → State}, b.call p f = some b' →
      ∃ src, b.sources p = some src ∧ f src = b' := by
    intro p f hcall
    unfold State.call at hcall
    split_ifs at hcall
    exact Option.map_eq_some_iff.mp hcall
  have not_attached : ∀ {p : Ptr} {src : Source}, b.sources p = some src → ¬ src.qInUse = true →
      ¬ b.Attached p := by
    rintro p src hsrc unattached ⟨s, hs, huse⟩
    obtain rfl := Option.some.inj (hsrc.symm.trans hs)
    exact unattached huse
  cases a with
  | openFd fd =>
    simp only [Epoll.step] at h
    split_ifs at h
    obtain rfl := Option.some.inj h
    exact untouched_same rfl rfl rfl rfl (by simp)
  | closeFd fd =>
    simp only [Epoll.step] at h
    split_ifs at h
    obtain rfl := Option.some.inj h
    exact untouched_same rfl rfl rfl rfl (by simp)
  | newSource p type fd =>
    simp only [Epoll.step] at h
    split_ifs at h with hcond <;>
    · obtain rfl := Option.some.inj h
      have free : b.sources p = none := by
        simp only [Bool.and_eq_true] at hcond
        simpa using hcond.1.2
      refine untouched_write (p := p) rfl rfl rfl rfl ?_ ?_ ?_ ?_
      · rintro ⟨s, hs, -⟩
        rw [free] at hs
        cases hs
      · rintro _ ⟨⟩
        rfl
      · rintro _ ⟨⟩ hno
        cases hno
      · rintro r type' fd' ⟨⟩
        exact free
  | delSource p =>
    obtain ⟨src, hsrc, rfl⟩ := call_inv h
    unfold nebEvdpSourceDel
    split_ifs with huse
    · exact untouched_same rfl rfl rfl rfl (by simp)
    · exact untouched_write (p := p) rfl rfl rfl rfl (not_attached hsrc huse) (by simp) (by simp)
        (by simp)
    · exact untouched_write (p := p) rfl rfl rfl rfl (not_attached hsrc huse) (by simp) (by simp)
        (by simp)
  | resetFd p fd =>
    obtain ⟨src, hsrc, rfl⟩ := call_inv h
    unfold nebEvdpSourceOsFdReset
    split_ifs with huse
    · exact untouched_same rfl rfl rfl rfl (by simp)
    · exact untouched_same rfl rfl rfl rfl (by simp)
    · refine untouched_write (p := p) rfl rfl rfl rfl (not_attached hsrc huse) ?_ ?_ (by simp)
      · rintro _ ⟨⟩
        exact Bool.eq_false_iff.mpr huse
      · rintro _ ⟨⟩ hno
        exact ⟨src, hsrc, hno⟩
  | _ => cases plain

/-- A call that touches no attached source leaves the destruction where it stands. -/
theorem Underway.call (underway : Underway q onRemove P₀ R₀ P R d) {a : Epoll.Action}
    {b : State} (plain : isPlain a = true) (h : Epoll.step d.base a = some b) :
    Underway q onRemove P₀ R₀ P R { d with base := b, onRemove := d.noted a } := by
  have untouched := plain_untouched plain h
  have hattached : ∀ r, b.Attached r ↔ d.base.Attached r := by
    intro r
    rw [Foreach.attached_cases, Foreach.attached_cases, untouched.pending, untouched.running]
  refine ⟨underway.threaded.congr untouched.links untouched.pending untouched.running (by simp),
    untouched.ctl ▸ underway.turn,
    fun r s hr hs => underway.single r s (untouched.guarded r hr) (untouched.guarded s hs),
    underway.destroying, ?_,
    underway.fewer, underway.nodup, ?_, ?_, underway.removals, ?_, underway.attaches, ?_⟩
  · rw [← underway.drift]
    exact congrArg (· - (R.length : Int)) untouched.statsRunning
  · intro p hp
    rw [hattached]
    exact underway.gone p hp
  · intro p
    rw [hattached]
    exact underway.total p
  · intro p hp
    rw [hattached] at hp
    rw [← underway.onRemove p hp]
    cases a with
    | newSource r type fd =>
      have hne : p ≠ r := by
        rintro rfl
        obtain ⟨src, hsrc, -⟩ := hp
        rw [untouched.fresh p type fd rfl] at hsrc
        cases hsrc
      simp only [Destroying.noted, Function.update_of_ne hne]
    | _ => rfl
  · have stands := underway.stands
    unfold Stands at stands ⊢
    simpa only [untouched.statsRunning] using stands

/-- A callback is under way only before the end, and in the first loop only if a source was
pending. -/
theorem Underway.calling (underway : Underway q onRemove P₀ R₀ P R d) (hne : d.callbacks ≠ []) :
    (d.phase = .pendingLoop → P₀ ≠ []) ∧ d.phase ≠ .done := by
  have stands := underway.stands
  unfold Stands at stands
  constructor
  · intro hphase hnil
    simp only [hphase] at stands
    exact hne (stands hnil).1
  · intro hphase
    simp only [hphase] at stands
    exact hne stands.1

/-- One round of a loop. -/
theorem Underway.round (underway : Underway q onRemove P₀ R₀ P R d) {head : Node} {L : List Ptr}
    {rest : Phase} (hhead : head ∈ heads) (hL : carried P R head = L.map .source)
    (hmem : ∀ p ∈ L, p ∈ P ∨ p ∈ R) (later : ∀ p ∈ L, d.phase = .pendingLoop → P₀ ≠ [])
    (going : d.phase ≠ .done) (rank : rest.rank < d.phase.rank)
    (stands : L = [] → Stands P₀ R₀ P R { d with phase := rest }) :
    ∃ P' R', Underway q onRemove P₀ R₀ P' R' (d.round head rest) ∧
      potential P' R' (d.round head rest) + 1 ≤ potential P R d := by
  have hnext : d.base.links.next head = L.head?.map .source := by
    rw [underway.threaded.lists.next_eq hhead, hL, List.head?_map]
  unfold Destroying.round
  cases L with
  | nil =>
    simp only [hnext, List.head?_nil, Option.map_none]
    refine ⟨P, R, ⟨underway.threaded, underway.turn, underway.single, underway.destroying,
      underway.drift, underway.fewer, underway.nodup, underway.gone, underway.total,
      underway.removals, underway.onRemove, underway.attaches, stands rfl⟩, ?_⟩
    unfold potential
    simp only
    omega
  | cons p L =>
    obtain ⟨src, hsrc, huse⟩ :=
      (threaded_attached underway.threaded p).mpr (hmem p List.mem_cons_self)
    simp only [hnext, List.head?_cons, Option.map_some, hsrc]
    exact underway.detach false hsrc huse (later p List.mem_cons_self) going

/-- Every step continues the destruction, and an own step uses up one of those that are left. -/
theorem Underway.ofStep (underway : Underway q onRemove P₀ R₀ P R d) {a : Action}
    (h : step d a = some d') : ∃ P' R', Underway q onRemove P₀ R₀ P' R' d' ∧
      potential P' R' d' + (if a.own then 1 else 0) ≤ potential P R d := by
  have calling_inv : ∀ {p : Ptr} {f : Source → Destroying}, d.calling p f = some d' →
      d.callbacks ≠ [] ∧ ∃ src, d.base.sources p = some src ∧ f src = d' := by
    intro p f hcall
    unfold Destroying.calling at hcall
    split_ifs at hcall with hnil
    exact ⟨by simpa using hnil, Option.map_eq_some_iff.mp hcall⟩
  cases a with
  | call a =>
    simp only [step] at h
    split_ifs at h with hcond
    simp only [Bool.and_eq_true] at hcond
    obtain ⟨b, hb, rfl⟩ := Option.map_eq_some_iff.mp h
    exact ⟨P, R, underway.call hcond.2 hb, le_rfl⟩
  | attach p settime =>
    obtain ⟨-, src, hsrc, rfl⟩ := calling_inv h
    have hrefused : nebEvdpQueueAttach p src settime d = (-1, d) := by
      unfold nebEvdpQueueAttach
      simp [underway.destroying]
    simp only [hrefused]
    refine ⟨P, R, ⟨underway.threaded, underway.turn, underway.single, underway.destroying,
      underway.drift, underway.fewer, underway.nodup, underway.gone, underway.total,
      underway.removals, underway.onRemove, ?_, underway.stands⟩, le_rfl⟩
    intro r hr
    rcases List.mem_cons.mp hr with rfl | hr
    · rfl
    · exact underway.attaches r hr
  | detach p toClose =>
    obtain ⟨hne, src, hsrc, rfl⟩ := calling_inv h
    unfold nebEvdpQueueDetach
    simp only [Action.own, Bool.false_eq_true, if_false]
    split_ifs with huse hno
    · exact ⟨P, R, underway, le_rfl⟩
    · exact ⟨P, R, underway, le_rfl⟩
    · obtain ⟨later, going⟩ := underway.calling hne
      obtain ⟨P', R', underway', hless⟩ :=
        underway.detach toClose hsrc (by simpa using huse) later going
      exact ⟨P', R', underway', Nat.le_of_succ_le hless⟩
  | proceed =>
    have stands := underway.stands
    simp only [step] at h
    split at h
    · rename_i hcallbacks hphase
      obtain rfl := Option.some.inj h
      unfold Stands at stands
      simp only [hphase] at stands
      refine underway.round (L := P) (Or.inl rfl) rfl (fun p => Or.inl) ?_ (by simp [hphase]) ?_ ?_
      · rintro p hp - rfl
        have := underway.fewer.1
        rw [List.length_nil, Nat.le_zero, List.length_eq_zero_iff] at this
        rw [this] at hp
        cases hp
      · unfold runningGate
        split_ifs <;> simp [hphase, Phase.rank]
      · rintro rfl
        unfold runningGate Stands
        split_ifs with hstats
        · rfl
        · refine ⟨hcallbacks, rfl, Or.inr ⟨by simpa using hstats, fun hnil => (stands hnil).2⟩⟩
    · rename_i hcallbacks hphase
      obtain rfl := Option.some.inj h
      unfold Stands at stands
      simp only [hphase] at stands
      refine underway.round (L := R) (Or.inr rfl) rfl (fun p => Or.inr) (by simp [hphase])
        (by simp [hphase]) (by simp [hphase, Phase.rank]) ?_
      rintro rfl
      exact ⟨hcallbacks, stands, Or.inl rfl⟩
    · cases h
  | cbReturn =>
    simp only [step] at h
    split at h
    · rename_i p callbacks hcallbacks
      obtain rfl := Option.some.inj h
      have hne : d.callbacks ≠ [] := by simp [hcallbacks]
      obtain ⟨later, going⟩ := underway.calling hne
      refine ⟨P, R, ⟨underway.threaded, underway.turn, underway.single, underway.destroying,
        underway.drift, underway.fewer, underway.nodup, underway.gone, underway.total,
        underway.removals, underway.onRemove, underway.attaches, ?_⟩, ?_⟩
      · have stands := underway.stands
        unfold Stands at stands ⊢
        cases hphase : d.phase with
        | pendingLoop => exact fun hnil => absurd hnil (later hphase)
        | runningLoop => simpa only [hphase] using stands
        | done => exact absurd hphase going
        | undefined => simp only [hphase] at stands
      · unfold potential
        simp only [hcallbacks, List.length_cons, Action.own, if_true]
        omega
    · cases h

/-- The first gate is open. -/
theorem destroy_opens {q : Foreach.Queue} (entry : Entry q.base P R)
    (onRemove : Ptr → Option Handler) :
    (nebEvdpQueueDestroy onRemove q).phase = .pendingLoop := by
  have := entry.pending
  refine if_pos ?_
  omega

/-- The destruction of a queue that is entered. -/
theorem Underway.start {q : Foreach.Queue} (entry : Entry q.base P R)
    (onRemove : Ptr → Option Handler) :
    Underway q.base onRemove P R P R (nebEvdpQueueDestroy onRemove q) := by
  refine ⟨entry.threaded, entry.turn, entry.single, rfl, rfl, ⟨le_rfl, le_rfl⟩, .nil, ?_, ?_, rfl,
    fun _ _ => rfl, ?_, ?_⟩
  · intro p hp
    cases hp
  · intro p
    simp [nebEvdpQueueDestroy]
  · intro r hr
    cases hr
  · unfold Stands
    rw [destroy_opens entry onRemove]
    exact fun _ => ⟨rfl, rfl⟩

end Step

end Nebase.Evdp.Destroy
