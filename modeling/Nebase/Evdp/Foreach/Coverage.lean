/- Which sources an iteration calls while the loop goes on around it: no source twice, none that was
   not running from the start, and all that stay in the running list. -/

import Nebase.Evdp.Epoll.Accounting
import Nebase.Evdp.Foreach.Removal

set_option autoImplicit false
set_option relaxedAutoImplicit false

namespace Nebase.Evdp.Foreach

open Nebase.Foundation Nebase.Evdp.Epoll

/-- The callbacks that a step calls. -/
def observe (q : Queue) (a : Action) : List Ptr := (q.calling a).toList

/-- The step belongs to an iteration that nobody ends and whose callbacks return
`NEB_EVDP_CB_CONTINUE`. -/
def GoesOn (q : Queue) : Action → Prop
  | .foreachSetEnd => False
  | .foreachStart _ => q.inForeach = true
  | .foreachReturn ret => ret = .continue
  | _ => True

instance (q : Queue) (a : Action) : Decidable (GoesOn q a) :=
  match a with
  | .base _ => isTrue trivial
  | .setUtype _ _ => isTrue trivial
  | .foreachStart _ => inferInstanceAs (Decidable (q.inForeach = true))
  | .foreachNext _ => isTrue trivial
  | .foreachSetEnd => isFalse id
  | .proceed => isTrue trivial
  | .foreachReturn ret => inferInstanceAs (Decidable (ret = .continue))

/-- The sources ahead of the cursor. -/
def Ahead (q : Queue) (B : List Ptr) : Prop :=
  ∃ P R, Wired q P R ∧ (q.inForeach = true → ∃ f A, q.foreachS = some f ∧ R = A ++ f :: B) ∧
    (q.inForeach = false → B = [])

/-- What a step makes of the sources ahead of the cursor. -/
structure Passes (q : Queue) (a : Action) (q' : Queue) (B B' : List Ptr) : Prop where
  sub : ∀ p ∈ B', p ∈ B
  called : ∀ p ∈ observe q a, p ∈ B ∧ p ∉ B'
  passed : ∀ p ∈ B, p ∉ B' → p ∈ observe q a ∨ ¬ q'.base.Running p ∨ q.eligible p = false
  foreachId : q'.foreachId = q.foreachId
  marks : ∀ p, p ∉ observe q a → q.base.Attached p →
    q'.sourceForeachId p = q.sourceForeachId p

section Step

variable {q q' : Queue} {a : Action} {B : List Ptr}

theorem Wired.unique {P R P' R' : List Ptr} (wired : Wired q P R) (wired' : Wired q P' R') :
    R = R' := by
  have h := (wired.threaded.lists.segment .runningQs (Or.inr rfl)).unique
    (wired'.threaded.lists.segment .runningQs (Or.inr rfl))
  exact List.map_injective_iff.mpr (fun _ _ => Node.source.inj) h

/-- Sources ahead of the cursor run. -/
theorem Ahead.running (ahead : Ahead q B) {p : Ptr} (hp : p ∈ B) : q.base.Running p := by
  obtain ⟨P, R, wired, hin, hout⟩ := ahead
  cases h : q.inForeach with
  | false =>
    rw [hout h] at hp
    cases hp
  | true =>
    obtain ⟨f, A, hf, hR⟩ := hin h
    have hmem : p ∈ R := by
      rw [hR]
      simp [hp]
    rcases (wired.threaded.running p).mp hmem with hrun | hc
    · exact hrun
    · obtain rfl : f = p := by
        simpa only [Queue.cursor, h, if_true, hf, Option.some.injEq] using hc
      obtain ⟨-, hRn⟩ := wired.threaded.nodup
      rw [hR, List.nodup_append] at hRn
      exact absurd hp (List.nodup_cons.mp hRn.2.1).1

/-- A step that changes neither the lists nor the iteration. -/
private theorem Ahead.same (ahead : Ahead q B) (links : q'.base.links = q.base.links)
    (pending : ∀ r, q'.base.Pending r ↔ q.base.Pending r)
    (running : ∀ r, q'.base.Running r ↔ q.base.Running r) (foreachS : q'.foreachS = q.foreachS)
    (inForeach : q'.inForeach = q.inForeach)
    (free : ∀ f, q.base.sources f = none → q'.base.sources f = none)
    (foreachId : q'.foreachId = q.foreachId)
    (sourceForeachId : q'.sourceForeachId = q.sourceForeachId) (quiet : observe q a = []) :
    ∃ B', Ahead q' B' ∧ Passes q a q' B B' := by
  obtain ⟨P, R, wired, hin, hout⟩ := ahead
  refine ⟨B, ⟨P, R, wired.congr links pending running foreachS inForeach free, ?_, ?_⟩, ?_⟩
  · rw [inForeach, foreachS]
    exact hin
  · rw [inForeach]
    exact hout
  · refine ⟨fun _ => id, by simp [quiet], fun p hp hp' => absurd hp hp', foreachId, ?_⟩
    intro p _ _
    rw [sourceForeachId]

/-- A step of the base drops from the sources ahead those that no longer run. -/
private theorem Ahead.moved (ahead : Ahead q B) {b : Epoll.Action} {base : State}
    (admits : q.admits b = true) (h : Epoll.step q.base b = some base) :
    ∃ B', Ahead (q.moved b base) B' ∧ Passes q (.base b) (q.moved b base) B B' := by
  obtain ⟨P, R, wired, hin, hout⟩ := ahead
  obtain ⟨P', new, gone, wired', hgone⟩ := wired.moved admits h
  obtain ⟨hS, hforeach, hid⟩ := noted_fields q b
  refine ⟨B.filter (· ∉ gone), ⟨P', _, wired', ?_, ?_⟩, ?_⟩
  · intro hin'
    have hrunning : q.inForeach = true := hforeach.symm.trans hin'
    obtain ⟨f, A, hf, hR⟩ := hin hrunning
    refine ⟨f, new ++ A.filter (· ∉ gone), hS.trans hf, ?_⟩
    have hfgone : f ∉ gone := fun hmem =>
      (hgone f hmem).2 (by simp [Queue.cursor, hrunning, hf])
    rw [hR, List.filter_append, List.filter_cons_of_pos (by simpa using hfgone), List.append_assoc]
  · intro hin'
    rw [hout (hforeach.symm.trans hin'), List.filter_nil]
  · refine ⟨fun p hp => (List.mem_filter.mp hp).1, by simp [observe, Queue.calling], ?_, hid, ?_⟩
    · intro p hp hp'
      rw [List.mem_filter, not_and] at hp'
      have hmem : p ∈ gone := by simpa using hp' hp
      exact Or.inr (Or.inl (hgone p hmem).1)
    · intro p _ attached
      obtain ⟨src, hsrc, huse⟩ := attached
      show (q.noted b).sourceForeachId p = q.sourceForeachId p
      unfold Queue.noted
      split
      · split_ifs with hfree
        · refine Function.update_of_ne ?_ _ _
          rintro rfl
          simp [hsrc, huse] at hfree
        · rfl
      · rename_i r type fd
        refine Function.update_of_ne ?_ _ _
        rintro rfl
        simp [Epoll.step, hsrc] at h
      · rfl

/-- The search stands at a source ahead of the cursor, and those before it are not eligible. -/
private theorem Ahead.search (wound : Wound q) (ahead : Ahead q B) {s : Ptr} {node : Option Node}
    {call : Call} {calls : List Call} (hcalls : q.calls = call :: calls)
    (hpoint : call.point = .seek s node) :
    ∃ P R f A C D, Wired q P R ∧ q.cursor = some f ∧ R = A ++ f :: (C ++ D) ∧ B = C ++ D ∧
      node = D.head?.map .source ∧ ∀ p ∈ C, q.eligible p = false := by
  obtain ⟨P, R, wired, searching⟩ := wound
  obtain ⟨P', R', wired', hin, -⟩ := ahead
  obtain rfl := wired.unique wired'
  obtain ⟨A, f, C, D, hc, hR, -, hnode, hunfit⟩ := searching.seek call calls s node hcalls hpoint
  have hin' : q.inForeach = true ∧ q.foreachS = some f := by
    unfold Queue.cursor at hc
    split_ifs at hc with h
    exact ⟨h, hc⟩
  obtain ⟨g, A', hg, hR'⟩ := hin hin'.1
  obtain rfl := Option.some.inj (hg.symm.trans hin'.2)
  obtain ⟨-, hRn⟩ := wired.threaded.nodup
  rw [hR, List.nodup_append] at hRn
  have hfA : g ∉ A := fun h => hRn.2.2 g h g List.mem_cons_self rfl
  have hfB := (List.nodup_cons.mp hRn.2.1).1
  obtain ⟨-, -, hB⟩ := (List.append_cons_inj_of_notMem hfA hfB).mp (hR.symm.trans hR')
  exact ⟨P, R, g, A, C, D, wired, hc, hR, hB.symm, hnode, hunfit⟩

/-- The cursor moves after the source that is called. -/
private theorem Ahead.calls (wound : Wound q) (ahead : Ahead q B) {f s i : Ptr} {call : Call}
    {calls : List Call} {src : Source} (hf : q.foreachS = some f)
    (hcalls : q.calls = call :: calls) (hpoint : call.point = .seek s (some (.source i)))
    (hsrc : q.base.sources i = some src) (hobserve : observe q a = [i]) :
    ∃ B', Ahead { doCb f i src q with calls := { call with point := .called s i } :: calls } B' ∧
      Passes q a { doCb f i src q with calls := { call with point := .called s i } :: calls }
        B B' := by
  obtain ⟨P, R, g, A, C, D, wired, hc, hR, rfl, hnode, hunfit⟩ := ahead.search wound hcalls hpoint
  have hin : q.inForeach = true := by
    unfold Queue.cursor at hc
    split_ifs at hc with h
    exact h
  obtain rfl : g = f := by
    simp only [Queue.cursor, hin, if_true] at hc
    exact Option.some.inj (hc.symm.trans hf)
  cases D with
  | nil => cases hnode
  | cons j D =>
    obtain rfl := Node.source.inj (Option.some.inj hnode)
    have hnodup : i ∉ D := by
      obtain ⟨-, hRn⟩ := wired.threaded.nodup
      rw [hR, List.nodup_append, List.nodup_cons, List.nodup_append, List.nodup_cons] at hRn
      exact hRn.2.1.2.2.1.1
    refine ⟨D, ⟨P, A ++ C ++ i :: g :: D, ?_, ?_, ?_⟩, ?_⟩
    · exact (wired.doCb hc hR hsrc).congr rfl (fun _ => .rfl) (fun _ => .rfl) rfl rfl (fun _ => id)
    · exact fun _ => ⟨g, A ++ C ++ [i], hf, by simp⟩
    · intro hout
      have : q.inForeach = false := hout
      rw [hin] at this
      cases this
    · refine ⟨?_, ?_, ?_, rfl, ?_⟩
      · exact fun p hp => List.mem_append_right C (List.mem_cons_of_mem i hp)
      · rw [hobserve]
        simpa using hnodup
      · intro p hp hp'
        rcases List.mem_append.mp hp with hp | hp
        · exact Or.inr (Or.inr (hunfit p hp))
        · rcases List.mem_cons.mp hp with rfl | hp
          · exact Or.inl (by rw [hobserve]; exact List.mem_cons_self)
          · exact absurd hp hp'
      · intro p hp _
        rw [hobserve, List.mem_singleton] at hp
        exact Function.update_of_ne hp _ _

theorem Ahead.ofStep (wound : Wound q) (ahead : Ahead q B) (goesOn : GoesOn q a)
    (h : step q a = some q') : ∃ B', Ahead q' B' ∧ Passes q a q' B B' := by
  cases hcalling : q.calling a with
  | some i =>
    have hobserve : observe q a = [i] := by simp [observe, hcalling]
    obtain ⟨rfl, turn, f, s, call, calls, hf, hcalls, hpoint, ⟨src, hsrc⟩, fit⟩ :=
      calling_inv hcalling
    obtain rfl := Option.some.inj (h.symm.trans (step_calling turn hf hcalls hpoint hsrc fit))
    exact ahead.calls wound hf hcalls hpoint hsrc hobserve
  | none =>
    have quiet : observe q a = [] := by simp [observe, hcalling]
    have plain : ∀ {q1 : Queue}, q1.base = q.base → q1.foreachS = q.foreachS →
        q1.inForeach = q.inForeach → q1.foreachId = q.foreachId →
        q1.sourceForeachId = q.sourceForeachId → ∃ B', Ahead q1 B' ∧ Passes q a q1 B B' := by
      intro q1 base foreachS inForeach foreachId marks
      exact ahead.same (by rw [base]) (by simp [base]) (by simp [base]) foreachS inForeach
        (by simp [base]) foreachId marks quiet
    cases step_cases h with
    | base admits hstep => exact ahead.moved admits hstep
    | setUtype turn => exact plain rfl rfl rfl rfl rfl
    | refused turn => exact plain rfl rfl rfl rfl rfl
    | started turn idle hf free =>
      have hin : q.inForeach = true := goesOn
      rw [idle] at hin
      cases hin
    | entered turn running => exact plain rfl rfl rfl rfl rfl
    | ended turn => exact goesOn.elim
    | lost turn =>
      exact ahead.same rfl (fun _ => .rfl) (fun _ => .rfl) rfl rfl (fun _ => id) rfl rfl quiet
    | left turn hcalls hpoint => exact plain rfl rfl rfl rfl rfl
    | sought turn hf hcalls hpoint next => exact plain rfl rfl rfl rfl rfl
    | skipped turn hf hcalls hpoint unfit => exact plain rfl rfl rfl rfl rfl
    | calledBack turn hf hcalls hpoint hsrc fit =>
      rw [calling_seek turn hf hcalls hpoint (by simp [hsrc]) fit] at hcalling
      cases hcalling
    | @exhausted f s call calls turn hf hcalls hpoint =>
      obtain ⟨P, R, g, A, C, D, wired, hc, hR, rfl, hnode, hunfit⟩ :=
        ahead.search wound hcalls hpoint
      obtain rfl : D = [] := by
        cases D with
        | nil => rfl
        | cons d D => cases hnode
      obtain ⟨hin, R', wired'⟩ := wired.setEnd
      refine ⟨[], ⟨P, R', wired'.congr rfl (fun _ => .rfl) (fun _ => .rfl) rfl rfl (fun _ => id),
        ?_,
        fun _ => rfl⟩, ?_⟩
      · intro hin'
        have : (nebEvdpQueueForeachSetEnd q).inForeach = true := hin'
        rw [hin] at this
        cases this
      · obtain ⟨hid, hmarks⟩ : (nebEvdpQueueForeachSetEnd q).foreachId = q.foreachId ∧
            (nebEvdpQueueForeachSetEnd q).sourceForeachId = q.sourceForeachId := by
          unfold nebEvdpQueueForeachSetEnd
          split_ifs
          · split <;> exact ⟨rfl, rfl⟩
          · exact ⟨rfl, rfl⟩
        refine ⟨by simp, by simp [quiet], ?_, hid, fun p _ _ => congrFun hmarks p⟩
        intro p hp _
        rw [List.append_nil] at hp
        exact Or.inr (Or.inr (hunfit p hp))
    | resumed turn hcalls hpoint => exact plain rfl rfl rfl rfl rfl
    | @continued s i call calls src turn hcalls hpoint hsrc =>
      have hsources : ((q.released i src).again call calls).base.sources =
          Function.update q.base.sources i (some { src with noDetach := false }) := rfl
      refine ahead.same rfl ?_ ?_ rfl rfl ?_ rfl rfl quiet
      · intro r
        rw [pending_update hsources]
        split_ifs with hr
        · subst hr
          simp [State.Pending, hsrc]
        · rfl
      · intro r
        rw [running_update hsources]
        split_ifs with hr
        · subst hr
          simp [State.Running, hsrc]
        · rfl
      · intro f hfree
        rw [hsources, Function.update_of_ne, hfree]
        rintro rfl
        rw [hfree] at hsrc
        cases hsrc
    | endedByCb turn hcalls hpoint hsrc => cases goesOn
    | invalid turn hcalls hpoint hsrc hret =>
      obtain rfl : _ = NebEvdpCbRet.continue := goesOn
      simp at hret
    | removedByCb turn hcalls hpoint hsrc toClose hsrcS => cases toClose <;> cases goesOn
    | removedLost turn hcalls hpoint hsrc toClose free => cases toClose <;> cases goesOn

end Step

section Run

variable {q q' : Queue} {as : List Action} {B : List Ptr}

private theorem trace_cons {q1 : Queue} {a : Action} (h : step q a = some q1) :
    Machine.trace step observe q (a :: as) = observe q a ++ Machine.trace step observe q1 as := by
  simp [Machine.trace, h]

/-- In a run the sources that are called are ahead of the cursor at its start, and no source is
called twice. -/
theorem Ahead.ofRun (wound : Wound q) (ahead : Ahead q B)
    (goesOn : Machine.StepsMeet step GoesOn q as) (reached : Machine.run step q as = some q') :
    (∃ B', Ahead q' B' ∧ ∀ p ∈ B', p ∈ B) ∧
      (∀ p ∈ Machine.trace step observe q as, p ∈ B) ∧
      ∀ p, (Machine.trace step observe q as).count p ≤ 1 := by
  induction as generalizing q B with
  | nil =>
    obtain rfl : q = q' := by simpa using reached
    exact ⟨⟨B, ahead, fun _ => id⟩, by simp [Machine.trace], by simp [Machine.trace]⟩
  | cons a as ih =>
    obtain ⟨q1, hstep, hrest⟩ := Machine.run_cons_eq_some.mp reached
    obtain ⟨B1, ahead1, passes⟩ := ahead.ofStep wound goesOn.1 hstep
    obtain ⟨⟨B', ahead', hsub⟩, htrace, hcount⟩ :=
      ih (wound.ofStep hstep) ahead1 (goesOn.2 q1 hstep) hrest
    refine ⟨⟨B', ahead', fun p hp => passes.sub p (hsub p hp)⟩, ?_, ?_⟩
    · intro p hp
      rw [trace_cons hstep] at hp
      rcases List.mem_append.mp hp with hp | hp
      · exact (passes.called p hp).1
      · exact passes.sub p (htrace p hp)
    · intro p
      rw [trace_cons hstep, List.count_append]
      by_cases hp : p ∈ observe q a
      · have hlater : p ∉ Machine.trace step observe q1 as :=
          fun h => (passes.called p hp).2 (htrace p h)
        rw [List.count_eq_zero_of_not_mem hlater]
        unfold observe
        cases q.calling a with
        | none => simp
        | some i => simpa using (List.count_le_length : List.count p [i] ≤ _)
      · rw [List.count_eq_zero_of_not_mem hp, Nat.zero_add]
        exact hcount p

/-- A source that is called has run from the start of the iteration on. -/
theorem Ahead.called (wound : Wound q) (ahead : Ahead q B)
    (goesOn : Machine.StepsMeet step GoesOn q as) (reached : Machine.run step q as = some q')
    {a : Action} (goesOn' : GoesOn q' a) {q2 : Queue} (next : step q' a = some q2) {p : Ptr}
    (hp : p ∈ observe q' a) :
    p ∈ B ∧ Machine.AllStates step (fun q => q.base.Running p) q as := by
  induction as generalizing q B with
  | nil =>
    obtain rfl : q = q' := by simpa using reached
    obtain ⟨B1, -, passes⟩ := ahead.ofStep wound goesOn' next
    have hB := (passes.called p hp).1
    exact ⟨hB, ahead.running hB⟩
  | cons a1 as ih =>
    obtain ⟨q1, hstep, hrest⟩ := Machine.run_cons_eq_some.mp reached
    obtain ⟨B1, ahead1, passes⟩ := ahead.ofStep wound goesOn.1 hstep
    obtain ⟨hB1, hall⟩ := ih (wound.ofStep hstep) ahead1 (goesOn.2 q1 hstep) hrest
    have hB := passes.sub p hB1
    refine ⟨hB, ahead.running hB, ?_⟩
    intro t ht
    obtain rfl := Option.some.inj (hstep.symm.trans ht)
    exact hall

/-- The source is one that the iteration is to call. -/
def Due (q : Queue) (p : Ptr) : Prop := q.base.Running p ∧ q.utype p ≠ 0

/-- A due source ahead of the cursor is still ahead of it, as long as it has not been called. -/
theorem Ahead.due (wound : Wound q) (ahead : Ahead q B) {p : Ptr} (hp : p ∈ B)
    (fresh : q.sourceForeachId p ≠ q.foreachId) (goesOn : Machine.StepsMeet step GoesOn q as)
    (stays : Machine.AllStates step (Due · p) q as) (reached : Machine.run step q as = some q')
    (never : p ∉ Machine.trace step observe q as) : ∃ B', Ahead q' B' ∧ p ∈ B' := by
  induction as generalizing q B with
  | nil =>
    obtain rfl : q = q' := by simpa using reached
    exact ⟨B, ahead, hp⟩
  | cons a as ih =>
    obtain ⟨q1, hstep, hrest⟩ := Machine.run_cons_eq_some.mp reached
    obtain ⟨B1, ahead1, passes⟩ := ahead.ofStep wound goesOn.1 hstep
    rw [trace_cons hstep, List.mem_append, not_or] at never
    obtain ⟨⟨hrun, hutype⟩, hlater⟩ := stays
    have hp1 : p ∈ B1 := by
      by_contra hgone
      rcases passes.passed p hp hgone with hcalled | hstopped | hunfit
      · exact never.1 hcalled
      · exact hstopped (hlater q1 hstep).head.1
      · simp [Queue.eligible, fresh, hutype] at hunfit
    obtain ⟨src, hsrc, huse, -⟩ := hrun
    have fresh1 : q1.sourceForeachId p ≠ q1.foreachId := by
      rw [passes.marks p never.1 ⟨src, hsrc, huse⟩, passes.foreachId]
      exact fresh
    exact ih (wound.ofStep hstep) ahead1 hp1 fresh1 (goesOn.2 q1 hstep) (hlater q1 hstep) hrest
      never.2

/-- At the end of an iteration nothing is ahead of the cursor. -/
theorem Ahead.ended (ahead : Ahead q B) (ended : nebEvdpQueueForeachHasEnded q = true) :
    B = [] := by
  obtain ⟨P, R, wired, hin, hout⟩ := ahead
  cases h : q.inForeach with
  | false => exact hout h
  | true =>
    obtain ⟨f, A, hf, hR⟩ := hin h
    have hahead := wired.ahead (by simp [Queue.cursor, h, hf]) hR
    simp only [nebEvdpQueueForeachHasEnded, h, if_true, hahead] at ended
    cases B with
    | nil => rfl
    | cons b B => cases ended

/-- At its start the cursor is the first node of the running list. -/
theorem Ahead.started {calloc : Option Ptr} (wound : Wound q) (idle : q.inForeach = false)
    (start : step q (.foreachStart calloc) = some q') (begun : q'.inForeach = true) :
    ∃ B, Ahead q' B ∧ (∀ p, p ∈ B ↔ q.base.Running p) ∧ q'.foreachId = q.foreachId + 1 ∧
      q'.sourceForeachId = q.sourceForeachId := by
  obtain ⟨P, R, wired, -⟩ := wound
  cases step_cases start with
  | refused turn =>
    rw [idle] at begun
    cases begun
  | @started _ f turn _ hf free =>
    refine ⟨R, ⟨P, f :: R, wired.started idle hf free, fun _ => ⟨f, [], rfl, rfl⟩, ?_⟩, ?_,
      rfl, rfl⟩
    · intro hout
      cases hout
    · intro p
      rw [wired.threaded.running]
      simp [Queue.cursor, idle]
  | lost turn =>
    have hin : q.inForeach = true := begun
    rw [idle] at hin
    cases hin

end Run

/-- The source runs with its utype set until it is called. -/
def StaysDue (q : Queue) (as : List Action) (p : Ptr) : Prop :=
  ∀ bs cs t, as = bs ++ cs → Machine.run step q bs = some t →
    p ∉ Machine.trace step observe q bs → Due t p

private theorem StaysDue.all {q q' : Queue} {as : List Action} {p : Ptr}
    (stays : StaysDue q as p) (reached : Machine.run step q as = some q')
    (never : p ∉ Machine.trace step observe q as) : Machine.AllStates step (Due · p) q as := by
  induction as generalizing q with
  | nil => exact stays [] [] q rfl rfl (by simp [Machine.trace])
  | cons a as ih =>
    obtain ⟨q1, hstep, hrest⟩ := Machine.run_cons_eq_some.mp reached
    rw [trace_cons hstep, List.mem_append, not_or] at never
    refine ⟨stays [] (a :: as) q rfl rfl (by simp [Machine.trace]), ?_⟩
    intro t ht
    obtain rfl := Option.some.inj (hstep.symm.trans ht)
    refine ih ?_ hrest never.2
    intro bs cs t has hrun hbefore
    refine stays (a :: bs) cs t (by rw [has]; rfl) ?_ ?_
    · exact Machine.run_cons_eq_some.mpr ⟨q1, hstep, hrun⟩
    · rw [trace_cons hstep, List.mem_append, not_or]
      exact ⟨never.1, hbefore⟩

/-- An iteration calls no source twice and none that has not run since its start; once it has ended
it has called every source that ran at its start with its utype set, and did not have the mark of
this iteration already, if this source has stayed so until it was called. -/
theorem nebEvdpQueueForeach_covers (batchSize : Nat) (as : List Action) (q0 q1 : Queue)
    (reached : Machine.run step (queueCreate batchSize) as = some q0) (idle : q0.inForeach = false)
    (calloc : Option Ptr) (start : step q0 (.foreachStart calloc) = some q1)
    (begun : q1.inForeach = true) (bs : List Action) (q2 : Queue)
    (goesOn : Machine.StepsMeet step GoesOn q1 bs) (run : Machine.run step q1 bs = some q2) :
    (∀ p, (Machine.trace step observe q1 bs).count p ≤ 1) ∧
      (∀ cs a ds t p, bs = cs ++ a :: ds → Machine.run step q1 cs = some t → p ∈ observe t a →
        Machine.AllStates step (fun q => q.base.Running p) q1 cs) ∧
      (nebEvdpQueueForeachHasEnded q2 = true → ∀ p, q0.base.Running p → q0.utype p ≠ 0 →
        q0.sourceForeachId p ≠ q0.foreachId + 1 → StaysDue q1 bs p →
        (Machine.trace step observe q1 bs).count p = 1) := by
  have wound0 : Wound q0 := Machine.invariant_run (C := fun _ _ => True)
    (fun _ _ _ wound _ h => wound.ofStep h) (.create batchSize)
    (Machine.StepsMeet.of_forall (fun _ _ => trivial) _ _) reached
  have wound1 := wound0.ofStep start
  obtain ⟨B, ahead, hB, hid, hmarks⟩ := Ahead.started wound0 idle start begun
  obtain ⟨⟨B', ahead', -⟩, -, hcount⟩ := ahead.ofRun wound1 goesOn run
  refine ⟨hcount, ?_, ?_⟩
  · intro cs a ds t p hbs hrun hp
    rw [hbs] at goesOn run
    obtain ⟨before, after⟩ := goesOn.append_inv hrun
    obtain ⟨t', ht', hrest⟩ := Machine.run_append_eq_some.mp run
    obtain rfl := Option.some.inj (hrun.symm.trans ht')
    obtain ⟨q3, hstep, -⟩ := Machine.run_cons_eq_some.mp hrest
    exact (ahead.called wound1 before hrun after.1 hstep hp).2
  · intro ended p hrun _ hfresh stays
    by_contra hcount'
    have never : p ∉ Machine.trace step observe q1 bs := by
      intro hmem
      have := List.count_pos_iff.mpr hmem
      have := hcount p
      omega
    obtain ⟨B2, ahead2, hp2⟩ := ahead.due wound1 ((hB p).mpr hrun)
      (by rw [hid, hmarks]; exact hfresh) goesOn (stays.all run never) run never
    rw [ahead2.ended ended] at hp2
    cases hp2

/-- The two sources of the run, with their utype set. -/
def twoEligible : List Action := twoRunning ++ [.setUtype 1 7, .setUtype 2 8]

/-- The iteration calls the first source; then the second one is read from and is put into the
pending list and back, before the iteration goes on. -/
def interrupted : List Action :=
  [.foreachNext 1, .proceed, .proceed, .foreachReturn .continue, .proceed,
    .base (.nextRead 1 (some 0) true), .base .run, .base (.flush true), .base (.flush true),
    .base (.wait []), .base (.proceed true)]

instance (q : State) (p : Ptr) : Decidable (q.Running p) :=
  decidable_of_iff ((q.sources p).any (fun src => src.qInUse && !src.pending) = true) (by
    simp [State.Running, Option.any_eq_true])

/-- The iteration goes through both sources. -/
def uninterrupted : List Action :=
  [.foreachNext 0, .proceed, .proceed, .foreachReturn .continue, .proceed, .proceed,
    .foreachReturn .continue, .proceed]

theorem nebEvdpQueueForeach_covers_two :
    ∃ q0 q1 q2, Machine.run step (queueCreate 10) twoEligible = some q0 ∧
      step q0 (.foreachStart (some 3)) = some q1 ∧ Machine.run step q1 uninterrupted = some q2 ∧
      Machine.trace step observe q1 uninterrupted = [2, 1] ∧
      ∀ p, (Machine.trace step observe q1 uninterrupted).count p ≤ 1 := by
  obtain ⟨q0, h0, hfacts⟩ : ∃ q0, Machine.run step (queueCreate 10) twoEligible = some q0 ∧
      (q0.inForeach, (step q0 (.foreachStart (some 3))).map (fun q1 => decide
        (q1.inForeach = true ∧ Machine.StepsMeet step GoesOn q1 uninterrupted ∧
          Machine.trace step observe q1 uninterrupted = [2, 1] ∧
          (Machine.run step q1 uninterrupted).isSome))) = (false, some true) :=
    Machine.run_reaches (by decide)
  obtain ⟨idle, hstart⟩ := Prod.mk.inj hfacts
  obtain ⟨q1, h1, hrest⟩ := Option.map_eq_some_iff.mp hstart
  obtain ⟨begun, goesOn, htrace, hrun⟩ := of_decide_eq_true hrest
  obtain ⟨q2, h2⟩ := Option.isSome_iff_exists.mp hrun
  exact ⟨q0, q1, q2, h0, h1, h2, htrace, (nebEvdpQueueForeach_covers 10 twoEligible q0 q1 h0 idle
    (some 3) h1 begun uninterrupted q2 goesOn h2).1⟩

/-- The second source is not called, though it stays attached. -/
theorem nebEvdpQueueForeach_covers_fails :
    ¬ ∀ (batchSize : Nat) (as : List Action) (q0 q1 : Queue),
      Machine.run step (queueCreate batchSize) as = some q0 → q0.inForeach = false →
      ∀ calloc, step q0 (.foreachStart calloc) = some q1 → q1.inForeach = true →
      ∀ (bs : List Action) (q2 : Queue), Machine.StepsMeet step GoesOn q1 bs →
      Machine.run step q1 bs = some q2 → nebEvdpQueueForeachHasEnded q2 = true →
      ∀ p, q0.base.Running p → q0.utype p ≠ 0 →
      Machine.AllStates step (fun q => q.base.Attached p) q1 bs →
      (Machine.trace step observe q1 bs).count p = 1 := by
  intro claim
  obtain ⟨q0, h0, hfacts⟩ : ∃ q0, Machine.run step (queueCreate 10) twoEligible = some q0 ∧
      (decide (q0.inForeach = false ∧ q0.base.Running 1 ∧ q0.utype 1 ≠ 0),
        (step q0 (.foreachStart (some 3))).map (fun q1 => decide
          (q1.inForeach = true ∧ Machine.StepsMeet step GoesOn q1 interrupted ∧
            Machine.AllStates step (fun q => q.base.Attached 1) q1 interrupted ∧
            Machine.trace step observe q1 interrupted = [2] ∧
            (Machine.run step q1 interrupted).map nebEvdpQueueForeachHasEnded = some true))) =
        (true, some true) := Machine.run_reaches (by decide)
  obtain ⟨hbefore, hstart⟩ := Prod.mk.inj hfacts
  obtain ⟨idle, hrunning, hutype⟩ := of_decide_eq_true hbefore
  obtain ⟨q1, h1, hrest⟩ := Option.map_eq_some_iff.mp hstart
  obtain ⟨begun, goesOn, attached, htrace, hrun⟩ := of_decide_eq_true hrest
  obtain ⟨q2, h2, ended⟩ := Option.map_eq_some_iff.mp hrun
  have hcount := claim 10 twoEligible q0 q1 h0 idle (some 3) h1 begun interrupted q2 goesOn h2 ended
    1 hrunning hutype attached
  rw [htrace] at hcount
  exact absurd hcount (by decide)

end Nebase.Evdp.Foreach
