/- The runs of the timer on its tree are those of the timer on the ordered list. -/

import Nebase.Evdp.Timer.Mirrors

set_option autoImplicit false
set_option relaxedAutoImplicit false

namespace Nebase.Evdp.Timer.OnTree

open Nebase.Time Nebase.Foundation
open Nebase.Compat.Rbtree (turns turns_mono)

section Calls

variable {t t' : NebEvdpTimer} {h : TreeTimer} {fuel : Nat} {p : PointAddr} {absTs : Timespec}
  {tnode : Option TnodeAddr}

theorem Mirrors.newPoint {cb udata : Nat} {lnode r : Option PointAddr} (mirrors : Mirrors t h)
    (fresh : t.tnodeFresh tnode = true) (enough : turns t.rbtree.length ≤ fuel)
    (eval : Timer.nebEvdpTimerNewPoint absTs cb udata tnode lnode t = some (r, t')) :
    ∃ h', nebEvdpTimerNewPoint fuel absTs cb udata tnode lnode h = some (r, h') ∧
      Mirrors t' h' := by
  have insert := mirrors.insertTnode absTs fresh enough
  obtain ⟨rfl, rfl, hnone⟩ | ⟨tn, existed, t1, hins, hcase⟩ := new_point_cases eval
  · rcases insert with ⟨-, ins⟩ | ⟨tn, existed, t1, h1, hins, -⟩
    · exact ⟨h, by simp only [nebEvdpTimerNewPoint, ins, Option.bind_eq_bind, Option.bind_some],
        mirrors⟩
    · rw [hnone] at hins
      cases hins
  rcases insert with ⟨hnone, -⟩ | ⟨tn', existed', t1', h1, hins', ins, mirrors1, -⟩
  · rw [hnone] at hins
    cases hins
  obtain ⟨rfl, rfl, rfl⟩ : tn' = tn ∧ existed' = existed ∧ t1' = t1 := by
    simpa using hins'.symm.trans hins
  obtain ⟨new_none, new_some⟩ := mirrors1.cblistNodeNew cb udata lnode
  rcases hcase with ⟨rfl, rfl, hnew⟩ | ⟨ln, t2, rfl, hnew, hhead⟩
  · refine ⟨h1, ?_, mirrors1⟩
    simp only [nebEvdpTimerNewPoint, ins, new_none hnew, Option.bind_eq_bind, Option.bind_some]
  · obtain ⟨timer2, new, mirrors2⟩ := new_some ln t2 hnew
    obtain ⟨timer3, head, mirrors3⟩ :=
      (mirrors2.setPoint ln ⟨cb, udata, false, some tn'⟩).cblistInsertHead hhead
    refine ⟨_, ?_, mirrors3⟩
    simp only [nebEvdpTimerNewPoint, ins, new, head, Option.bind_eq_bind, Option.bind_some]

/-- The check of the node a point leaves, if it has one. -/
def checkDelOld (fuel : Nat) (old : Option TnodeAddr) (h : TreeTimer) : Option TreeTimer :=
  match old with
  | none => some h
  | some tn => evdpTimerRbtreeNodeCheckDel fuel tn h

theorem Mirrors.checkDelOld {old : Option TnodeAddr} (mirrors : Mirrors t h)
    (eval : Timer.checkDelOld old t = some t') (enough : turns t.rbtree.length ≤ fuel) :
    ∃ h', OnTree.checkDelOld fuel old h = some h' ∧ Mirrors t' h' := by
  cases old with
  | none =>
    obtain rfl := Option.some.inj eval
    exact ⟨h, rfl, mirrors⟩
  | some tn => exact mirrors.checkDel eval enough

theorem list_remove_length (eval : Timer.listRemove p t = some t') :
    t'.rbtree.length = t.rbtree.length := by
  unfold Timer.listRemove at eval
  split_ifs at eval
  obtain rfl := Option.some.inj eval
  exact List.length_map ..

theorem Mirrors.delPoint (mirrors : Mirrors t h) (enough : turns t.rbtree.length ≤ fuel)
    (eval : Timer.nebEvdpTimerDelPoint p t = some t') :
    ∃ h', nebEvdpTimerDelPoint fuel p h = some h' ∧ Mirrors t' h' := by
  obtain ⟨ln, hln, ⟨hrun, rfl⟩ | ⟨hrun, t1, hrem, hcheck⟩⟩ := del_point_cases eval
  · refine ⟨_, ?_, mirrors.setPoint p { ln with refTnode := none }⟩
    simp only [nebEvdpTimerDelPoint, mirrors.points, hln, hrun, if_true, Option.bind_eq_bind,
      Option.bind_some]
  · obtain ⟨timer1, rem, mirrors1⟩ := mirrors.listRemove hrem
    have enough1 : turns (evdpTimerCblistNodeFree p t1).rbtree.length ≤ fuel := by
      change turns t1.rbtree.length ≤ fuel
      rwa [list_remove_length hrem]
    obtain ⟨h', check, mirrors'⟩ := (mirrors1.cblistNodeFree p).checkDelOld hcheck enough1
    refine ⟨h', ?_, mirrors'⟩
    simp only [nebEvdpTimerDelPoint, mirrors.points, hln, hrun, Bool.false_eq_true, if_false, rem,
      Option.bind_eq_bind, Option.bind_some]
    exact check

theorem Mirrors.pointReset {r : Int} (mirrors : Mirrors t h) (fresh : t.tnodeFresh tnode = true)
    (enough : turns (t.rbtree.length + 1) ≤ fuel)
    (eval : Timer.nebEvdpTimerPointReset p absTs tnode t = some (r, t')) :
    ∃ h', nebEvdpTimerPointReset fuel p absTs tnode h = some (r, h') ∧ Mirrors t' h' := by
  rcases mirrors.insertTnode absTs fresh
      (le_trans (turns_mono (Nat.le_succ _)) enough) with
    ⟨hins, ins⟩ | ⟨tn, existed, t1, h1, hins, ins, mirrors1, long⟩
  · obtain ⟨rfl, rfl⟩ : -1 = r ∧ t = t' := by simpa [Timer.nebEvdpTimerPointReset, hins] using eval
    exact ⟨h, by simp only [nebEvdpTimerPointReset, ins, Option.bind_eq_bind, Option.bind_some],
      mirrors⟩
  simp only [Timer.nebEvdpTimerPointReset, hins] at eval
  obtain ⟨ln, hln, eval⟩ := Option.bind_eq_some_iff.mp eval
  simp only [nebEvdpTimerPointReset, ins, mirrors1.points, hln, Option.bind_eq_bind,
    Option.bind_some]
  split_ifs at eval ⊢ with hsame hrun
  · obtain ⟨rfl, rfl⟩ : 0 = r ∧ t1 = t' := by simpa using eval
    exact ⟨h1, rfl, mirrors1⟩
  · obtain ⟨rfl, rfl⟩ : 0 = r ∧ t1.setPoint p _ = t' := by simpa using eval
    exact ⟨_, rfl, mirrors1.setPoint p _⟩
  · obtain ⟨t2, hrem, eval⟩ := Option.bind_eq_some_iff.mp eval
    obtain ⟨timer2, rem, mirrors2⟩ := mirrors1.listRemove hrem
    have enough2 : turns t2.rbtree.length ≤ fuel := by
      rw [list_remove_length hrem]
      exact le_trans (turns_mono long) enough
    have link : ∀ (t3 : NebEvdpTimer) (h3 : TreeTimer), Mirrors t3 h3 →
        ((Timer.cblistInsertHead tn p (t3.setPoint p { ln with refTnode := some tn })).bind
          fun t => some ((0 : Int), t)) = some (r, t') →
        ∃ h', ((Timer.cblistInsertHead tn p
            (h3.timer.setPoint p { ln with refTnode := some tn })).bind
          fun timer => some ((0 : Int), (⟨timer, h3.rbtree⟩ : TreeTimer))) = some (r, h') ∧
          Mirrors t' h' := by
      intro t3 h3 mirrors3 eval3
      obtain ⟨t4, hhead, eval4⟩ := Option.bind_eq_some_iff.mp eval3
      obtain ⟨rfl, rfl⟩ : 0 = r ∧ t4 = t' := by simpa using eval4
      obtain ⟨timer4, head, mirrors4⟩ := (mirrors3.setPoint p _).cblistInsertHead hhead
      exact ⟨_, by rw [head]; rfl, mirrors4⟩
    rw [rem]
    cases href : ln.refTnode with
    | none =>
      simp only [href] at eval
      exact link t2 ⟨timer2, h1.rbtree⟩ mirrors2 eval
    | some old =>
      simp only [href] at eval
      obtain ⟨t3, hcheck, eval⟩ := Option.bind_eq_some_iff.mp eval
      obtain ⟨h3, check, mirrors3⟩ := mirrors2.checkDel hcheck enough2
      simp only [Option.bind_some, check]
      exact link t3 h3 mirrors3 eval

theorem Mirrors.afterCallback {tn : TnodeAddr} {tret : NebEvdpTimeoutRet} (mirrors : Mirrors t h)
    (eval : Timer.afterCallback tn p tret t = some t') :
    ∃ h', OnTree.afterCallback tn p tret h = some h' ∧ Mirrors t' h' := by
  unfold Timer.afterCallback at eval
  obtain ⟨c, hc, eval⟩ := Option.bind_eq_some_iff.mp eval
  rw [OnTree.afterCallback, Timer.afterCallback, mirrors.points, hc]
  cases href : c.refTnode with
  | none =>
    simp only [href, Option.some.injEq] at eval
    subst eval
    exact ⟨_, by simp only [Option.bind_eq_bind, Option.bind_some, href, Option.map_some],
      (mirrors.setPoint p _).cblistNodeFree p⟩
  | some ref =>
    cases tret with
    | free =>
      simp only [href, Option.some.injEq] at eval
      subst eval
      exact ⟨_, by simp only [Option.bind_eq_bind, Option.bind_some, href, Option.map_some],
        (mirrors.setPoint p _).cblistNodeFree p⟩
    | keep =>
      simp only [href] at eval
      split_ifs at eval with hsame
      · obtain rfl := Option.some.inj eval
        refine ⟨_, ?_, (mirrors.setPoint p _).keep p⟩
        simp only [Option.bind_eq_bind, Option.bind_some, href, if_pos hsame, Option.map_some]
      · obtain ⟨timer', head, mirrors'⟩ := (mirrors.setPoint p _).cblistInsertHead eval
        refine ⟨_, ?_, mirrors'⟩
        simp only [Option.bind_eq_bind, Option.bind_some, href, if_neg hsame, head,
          Option.map_some]

end Calls

section Runs

variable {s s' : Timer.State} {h : State} {fuel : Nat}

/-- The two runs are at the same point. -/
def Follows (s : Timer.State) (h : State) : Prop := h.ctl = s.ctl ∧ Mirrors s.timer h.timer

theorem after_defined {ctl : Ctl} {r : Option NebEvdpTimer} (taken : s.after ctl r = s')
    (defined : s'.ctl ≠ .undefined) : ∃ t', r = some t' ∧ s' = ⟨t', ctl⟩ := by
  cases r with
  | none =>
    obtain rfl := taken
    exact absurd rfl defined
  | some t' => exact ⟨t', rfl, taken.symm⟩

/-- `run_until` is done with a node: it goes on to the next one, and the node leaves. -/
theorem Mirrors.finish {t : NebEvdpTimer} {h : TreeTimer} {m n : EvdpTimerRbtreeNode}
    (mirrors : Mirrors t h) (hm : m ∈ t.rbtree) (same : m.addr = n.addr) (empty : n.cblist = [])
    (enough : turns t.rbtree.length ≤ fuel) :
    ∃ p rbtree, Compat.Rbtree.rbTreeIterate fuel h.rbtree (.node n.addr) .right = some p ∧
      tnodePtr p = rbTreeNext n.addr t.rbtree ∧
      Compat.Rbtree.rbTreeRemoveNode fuel h.rbtree n.addr = some rbtree ∧
      Mirrors (Timer.evdpTimerRbtreeNodeDel n
          { t with rbtree := rbTreeRemoveNode n.addr t.rbtree })
        (evdpTimerRbtreeNodeDel n
          ⟨{ h.timer with rbtree := rbTreeRemoveNode n.addr h.timer.rbtree }, rbtree⟩) := by
  obtain ⟨p, next, hp⟩ := mirrors.next hm enough
  obtain ⟨rbtree, remove, mirrors', out, -⟩ := mirrors.remove hm enough
  have uncached := mirrors.spare m hm
  rw [same] at next hp remove mirrors' out uncached
  exact ⟨p, rbtree, next, hp, remove, mirrors'.rbtreeNodeDel empty out uncached⟩

theorem Follows.proceed (follows : Follows s h) (enough : turns s.timer.rbtree.length ≤ fuel)
    (taken : Timer.proceedStep s = some s') (defined : s'.ctl ≠ .undefined) :
    ∃ h', proceedStep fuel h = some h' ∧ Follows s' h' := by
  obtain ⟨same, mirrors⟩ := follows
  cases hctl : s.ctl with
  | idle => simp only [Timer.proceedStep, hctl, reduceCtorEq] at taken
  | undefined => simp only [Timer.proceedStep, hctl, reduceCtorEq] at taken
  | callback absTs count tn ln => simp only [Timer.proceedStep, hctl, reduceCtorEq] at taken
  | scan absTs count tn =>
    cases tn with
    | none =>
      simp only [Timer.proceedStep, hctl, Option.some.injEq] at taken
      subst taken
      exact ⟨⟨h.timer, .idle⟩, by simp only [proceedStep, same, hctl], rfl, mirrors⟩
    | some tn =>
      simp only [Timer.proceedStep, hctl] at taken
      simp only [proceedStep, same, hctl, mirrors.tnode]
      cases found : s.timer.tnode tn with
      | none =>
        rw [found] at taken
        obtain rfl := Option.some.inj taken
        exact absurd rfl defined
      | some n =>
        simp only [found] at taken
        split_ifs at taken with hpast
        · obtain rfl := Option.some.inj taken
          exact ⟨⟨h.timer, .idle⟩, by simp only [if_pos hpast], rfl, mirrors⟩
        · obtain rfl := Option.some.inj taken
          refine ⟨⟨⟨h.timer.timer.updateTnode tn (fun n => { n with noAutoDel := true }),
            h.timer.rbtree⟩, .drain absTs count tn⟩, ?_, rfl, mirrors.setAutoDel tn true⟩
          simp only [hpast, Bool.false_eq_true, if_false]
  | drain absTs count tn =>
    simp only [Timer.proceedStep, hctl] at taken
    simp only [proceedStep, same, hctl, mirrors.tnode]
    cases found : s.timer.tnode tn with
    | none =>
      rw [found] at taken
      obtain rfl := Option.some.inj taken
      exact absurd rfl defined
    | some n =>
      simp only [found] at taken
      obtain ⟨hn, rfl⟩ := tnode_mem_addr found
      cases hlist : n.cblist with
      | cons ln rest =>
        simp only [hlist] at taken
        obtain ⟨t', eval, rfl⟩ := after_defined (Option.some.inj taken) defined
        obtain ⟨t1, hrem, eval⟩ := Option.bind_eq_some_iff.mp eval
        obtain ⟨c, hc, eval⟩ := Option.bind_eq_some_iff.mp eval
        obtain rfl := Option.some.inj eval
        obtain ⟨timer1, rem, mirrors1⟩ := mirrors.listRemove hrem
        have hc' : timer1.points ln = some c := (congrFun mirrors1.points ln).trans hc
        refine ⟨⟨⟨timer1.setPoint ln { c with running := true }, h.timer.rbtree⟩,
          .callback absTs count n.addr ln⟩, ?_, rfl, mirrors1.setPoint ln _⟩
        simp only [hlist, rem, hc', Option.bind_eq_bind, Option.bind_some, State.after]
      | nil =>
        simp only [hlist] at taken
        obtain rfl := Option.some.inj taken
        -- the flag is cleared in the memory of the node before it leaves
        obtain ⟨t1, ht1⟩ : ∃ t1, t1 = s.timer.updateTnode n.addr
            (fun n => { n with noAutoDel := false }) := ⟨_, rfl⟩
        have mirrors1 := mirrors.setAutoDel n.addr false
        rw [← ht1] at mirrors1
        have hn1 : ({ n with noAutoDel := false } : EvdpTimerRbtreeNode) ∈ t1.rbtree := by
          rw [ht1]
          exact List.mem_map.mpr ⟨n, hn, if_pos rfl⟩
        have long : t1.rbtree.length = s.timer.rbtree.length := by
          rw [ht1]
          exact List.length_map ..
        have enough1 : turns t1.rbtree.length ≤ fuel := by rwa [long]
        obtain ⟨p, rbtree, next, hp, remove, mirrors2⟩ :=
          mirrors1.finish (n := n) hn1 rfl hlist enough1
        subst ht1
        refine ⟨⟨_, .scan absTs count (tnodePtr p)⟩, ?_, ?_, mirrors2⟩
        · simp only [next, remove, hlist]
          rfl
        · rw [hp]

theorem Follows.userTurn (follows : Follows s h) : h.userTurn = s.userTurn := by
  cases hctl : s.ctl <;> simp only [State.userTurn, Timer.State.userTurn, follows.1, hctl]

/-- Each step of the timer on the list that is defined is matched on the tree, which shows the
same. -/
theorem Follows.step (follows : Follows s h) {a : Action}
    (enough : turns (s.timer.rbtree.length + 1) ≤ fuel) (taken : Timer.step s a = some s')
    (defined : s'.ctl ≠ .undefined) :
    ∃ h', step fuel h a = some h' ∧ Follows s' h' ∧ shows fuel h a = listShows s a := by
  have enough' := le_trans (turns_mono (Nat.le_succ s.timer.rbtree.length)) enough
  obtain ⟨same, mirrors⟩ := follows
  have turn := Follows.userTurn ⟨same, mirrors⟩
  cases a with
  | newPoint absTs cb udata tnode lnode =>
    obtain ⟨freshT, freshL⟩ := mirrors.fresh tnode lnode
    simp only [Timer.step] at taken
    split_ifs at taken with guard
    obtain ⟨t', eval, rfl⟩ := after_defined (Option.some.inj taken) defined
    obtain ⟨⟨r, t1⟩, hnew, rfl⟩ := Option.map_eq_some_iff.mp eval
    obtain ⟨h', new, mirrors'⟩ := mirrors.newPoint guard.2.1 enough' hnew
    refine ⟨⟨h', s.ctl⟩, ?_, ⟨rfl, mirrors'⟩, ?_⟩
    · simp only [OnTree.step, turn, freshT, freshL, if_pos guard, new, Option.map_some,
        State.after, same]
    · simp only [shows, listShows, new, hnew, Option.map_some]
  | delPoint p =>
    simp only [Timer.step] at taken
    split_ifs at taken with guard
    obtain ⟨t', eval, rfl⟩ := after_defined (Option.some.inj taken) defined
    obtain ⟨h', del, mirrors'⟩ := mirrors.delPoint enough' eval
    refine ⟨⟨h', s.ctl⟩, ?_, ⟨rfl, mirrors'⟩, rfl⟩
    simp only [OnTree.step, turn, mirrors.points, if_pos guard, del, State.after, same]
  | pointReset p absTs tnode =>
    obtain ⟨freshT, -⟩ := mirrors.fresh tnode none
    simp only [Timer.step] at taken
    split_ifs at taken with guard
    obtain ⟨t', eval, rfl⟩ := after_defined (Option.some.inj taken) defined
    obtain ⟨⟨r, t1⟩, hreset, rfl⟩ := Option.map_eq_some_iff.mp eval
    obtain ⟨h', reset, mirrors'⟩ := mirrors.pointReset guard.2.1 enough hreset
    refine ⟨⟨h', s.ctl⟩, ?_, ⟨rfl, mirrors'⟩, ?_⟩
    · simp only [OnTree.step, turn, freshT, mirrors.points, if_pos guard, reset, Option.map_some,
        State.after, same]
    · simp only [shows, listShows, reset, hreset, Option.map_some]
  | runUntil absTs =>
    obtain ⟨p, min, hp⟩ := mirrors.min fuel
    cases hctl : s.ctl with
    | idle =>
      simp only [Timer.step, hctl, Option.some.injEq] at taken
      subst taken
      refine ⟨⟨h.timer, .scan absTs 0 (tnodePtr p)⟩, ?_, ⟨?_, mirrors⟩, rfl⟩
      · simp only [OnTree.step, same, hctl, min]
      · rw [hp]
    | scan absTs count tn => simp only [Timer.step, hctl, reduceCtorEq] at taken
    | drain absTs count tn => simp only [Timer.step, hctl, reduceCtorEq] at taken
    | callback absTs count tn ln => simp only [Timer.step, hctl, reduceCtorEq] at taken
    | undefined => simp only [Timer.step, hctl, reduceCtorEq] at taken
  | proceed =>
    obtain ⟨h', taken', follows'⟩ := Follows.proceed ⟨same, mirrors⟩ enough' taken defined
    refine ⟨h', taken', follows', ?_⟩
    change Timer.proceedStep s = some s' at taken
    simp only [shows, listShows, taken, taken', Option.elim_some, mirrors.points, same, follows'.1]
  | cbReturn tret =>
    cases hctl : s.ctl with
    | callback absTs count tn ln =>
      simp only [Timer.step, hctl, Option.some.injEq] at taken
      obtain ⟨t', eval, rfl⟩ := after_defined taken defined
      obtain ⟨h', after, mirrors'⟩ := mirrors.afterCallback eval
      refine ⟨⟨h', .drain absTs (count + 1) tn⟩, ?_, ⟨rfl, mirrors'⟩, rfl⟩
      simp only [OnTree.step, same, hctl, after, State.after]
    | idle => simp only [Timer.step, hctl, reduceCtorEq] at taken
    | scan absTs count tn => simp only [Timer.step, hctl, reduceCtorEq] at taken
    | drain absTs count tn => simp only [Timer.step, hctl, reduceCtorEq] at taken
    | undefined => simp only [Timer.step, hctl, reduceCtorEq] at taken

/-- Undefined behaviour is not left again. -/
theorem step_defined {a : Action} (taken : Timer.step s a = some s') : s.ctl ≠ .undefined := by
  intro hctl
  cases a <;>
    simp [Timer.step, Timer.State.userTurn, Timer.proceedStep, hctl] at taken

theorem run_defined {as : List Action} (reached : Machine.run Timer.step s as = some s')
    (defined : s'.ctl ≠ .undefined) : s.ctl ≠ .undefined := by
  cases as with
  | nil =>
    obtain rfl : s = s' := by simpa using reached
    exact defined
  | cons a as =>
    obtain ⟨t, taken, -⟩ := Machine.run_cons_eq_some.mp reached
    exact step_defined taken

theorem Follows.run {as : List Action} (follows : Follows s h)
    (enough : Machine.StepsMeet Timer.step
      (fun s _ => turns (s.timer.rbtree.length + 1) ≤ fuel) s as)
    (reached : Machine.run Timer.step s as = some s') (defined : s'.ctl ≠ .undefined) :
    ∃ h', Machine.run (OnTree.step fuel) h as = some h' ∧ Follows s' h' ∧
      Machine.trace (OnTree.step fuel) (shows fuel) h as =
        Machine.trace Timer.step listShows s as := by
  induction as generalizing s h with
  | nil =>
    obtain rfl : s = s' := by simpa using reached
    exact ⟨h, rfl, follows, rfl⟩
  | cons a as ih =>
    obtain ⟨t, taken, rest⟩ := Machine.run_cons_eq_some.mp reached
    obtain ⟨h1, taken1, follows1, shown1⟩ :=
      follows.step enough.1 taken (run_defined rest defined)
    obtain ⟨h2, rest2, follows2, shown2⟩ := ih follows1 (enough.2 t taken) rest
    refine ⟨h2, Machine.run_cons_eq_some.mpr ⟨h1, taken1, rest2⟩, follows2, ?_⟩
    simp only [Machine.trace, taken, taken1, Option.map_some, Option.getD_some, shown1, shown2]

/-- What the timer does in a run, it does with `rb_tree_insert_node`, `rb_tree_remove_node`,
`RB_TREE_MIN` and `RB_TREE_NEXT` in memory: the tree takes the nodes in the order of the list, at
every point of `evdp_timer_run_until`, the same callbacks are invoked and the same values
returned. -/
theorem evdpTimer_runs_on_tree (tcacheSize lcacheSize : Nat) (as : List Action) (s : Timer.State)
    (enough : Machine.StepsMeet Timer.step
      (fun s _ => turns (s.timer.rbtree.length + 1) ≤ fuel)
      (Timer.start tcacheSize lcacheSize) as)
    (reached : Machine.run Timer.step (Timer.start tcacheSize lcacheSize) as = some s)
    (defined : s.ctl ≠ .undefined) :
    ∃ h, Machine.run (OnTree.step fuel) (start tcacheSize lcacheSize) as = some h ∧
      h.ctl = s.ctl ∧ Mirrors s.timer h.timer ∧
      Machine.trace (OnTree.step fuel) (shows fuel) (start tcacheSize lcacheSize) as =
        Machine.trace Timer.step listShows (Timer.start tcacheSize lcacheSize) as := by
  have follows : Follows (Timer.start tcacheSize lcacheSize) (start tcacheSize lcacheSize) :=
    ⟨rfl, mirrors_create tcacheSize lcacheSize⟩
  obtain ⟨h, reached', ⟨ctl, mirrors⟩, shown⟩ := follows.run enough reached defined
  exact ⟨h, reached', ctl, mirrors, shown⟩

/-- Two points at one deadline and a later one, which one callback deletes. The other callback moves
its own point, and after the run an allocation fails. -/
def threePoints : List Action :=
  [.newPoint ⟨2, 0⟩ 7 8 (some 10) (some 100), .newPoint ⟨1, 0⟩ 7 8 (some 11) (some 101),
    .newPoint ⟨1, 0⟩ 7 9 (some 12) (some 102), .runUntil ⟨1, 500⟩, .proceed, .proceed,
    .delPoint 100, .cbReturn .keep, .proceed, .pointReset 101 ⟨3, 0⟩ (some 13), .cbReturn .free,
    .proceed, .proceed, .newPoint ⟨4, 0⟩ 7 9 none none]

theorem evdpTimer_runs_on_tree_three_points :
    ∃ s h, Machine.run Timer.step (Timer.start 1 0) threePoints = some s ∧
      Machine.run (OnTree.step 9) (start 1 0) threePoints = some h ∧ h.ctl = s.ctl ∧
      Mirrors s.timer h.timer ∧
      Machine.trace (OnTree.step 9) (shows 9) (start 1 0) threePoints =
        [.newPoint (some 100), .newPoint (some 101), .newPoint (some 102), .callback 102 7 9,
          .callback 101 7 8, .pointReset 0, .runUntil 2, .newPoint none] := by
  have enough : Machine.StepsMeet Timer.step
      (fun s _ => turns (s.timer.rbtree.length + 1) ≤ 9) (Timer.start 1 0) threePoints := by
    decide
  obtain ⟨s, reached, turn⟩ : ∃ s,
      Machine.run Timer.step (Timer.start 1 0) threePoints = some s ∧ s.userTurn = true :=
    Machine.run_reaches (by decide)
  have defined : s.ctl ≠ .undefined := fun h => by simp [Timer.State.userTurn, h] at turn
  obtain ⟨h, reached', ctl, mirrors, shown⟩ :=
    evdpTimer_runs_on_tree 1 0 threePoints s enough reached defined
  exact ⟨s, h, reached, reached', ctl, mirrors, shown.trans (by decide)⟩

end Runs

end Nebase.Evdp.Timer.OnTree
