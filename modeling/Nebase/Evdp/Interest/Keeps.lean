/- No interest is lost: over every run in which all requests succeed and no callback breaks, what an
   attached source waits for is armed whenever the queue is about to wait. -/

import Nebase.Evdp.Interest.Calls

set_option autoImplicit false
set_option relaxedAutoImplicit false

namespace Nebase.Evdp.Interest

open Nebase.Foundation Nebase.Evdp.Epoll

section Step

variable {q q' : State} {a : Action} {p : Ptr} {src src' : Source}

/-! What the steps preserve. -/

/-- A source is detached, and the program goes on behind it. -/
private theorem AllFine.detach (fine : AllFine q) {toClose : Bool} {src0 : Source} {q1 : State}
    (succeeded : AllSucceeded q') (hsrc : q.sources p = some src)
    (defined : q.ctl ≠ .undefined) (det : Epoll.Detached p src0 toClose q q1)
    (fd : src0.fd = src.fd) (added : src0.added = src.added) (sources : q'.sources = q1.sources)
    (kernel : q'.kernel = q1.kernel) (ee : q'.ee = q1.ee)
    (upcoming : q'.ctl.upcoming = q.ctl.upcoming)
    (event : q'.ctl = q.ctl ∨ ∀ ne, q.ctl.event = some ne → ne.source = p) : AllFine q' := by
  obtain ⟨src', hsources, huse', -, -, -, hadded'⟩ := det.sources
  have hfine := fine p src hsrc
  have due : ∀ x, x ≠ p → Due q x → Due q' x :=
    fun x hx hdue => hdue.clear hx defined upcoming (ee.trans det.ee)
  have new : src'.added = false → ∀ t, some src' = some t → Fine q' p t := by
    rintro hidle _ ⟨⟩
    have unattached : ¬ src'.qInUse = true := by simp [huse']
    exact ⟨fun h => absurd h unattached, fun _ => hidle, fun h => absurd h unattached,
      fun h => absurd h unattached, fun h => absurd h unattached⟩
  rcases (detach_cases p src0 toClose q.kernel).2 with ⟨heq, hidle, -⟩ | ⟨hadd, -, heq, hidle⟩
  · refine fine.put (sources.trans hsources) event due ?_ (new (hadded'.trans hidle))
    intro x t _ _ _ _
    rw [kernel, det.kernel, heq]
  · -- the source is registered: the request un-registers it, and no other one
    have hkernel := kernel.trans (det.kernel.trans heq)
    refine fine.asked (sources.trans hsources) hkernel event due ?_
      (new (hadded'.trans (hidle (succeeded.request hkernel))))
    intro x t hx ht huse hadded
    have hsrcAdded := added.symm.trans hadd
    cases hattached : src.qInUse with
    | true =>
        rw [fd]
        exact fine.apart hsrc ht hattached huse (hfine.owns hattached hsrcAdded) hadded hx
    | false =>
        rw [hfine.idle hattached] at hsrcAdded
        cases hsrcAdded

/-- A source that is not attached is written, or leaves; perhaps a descriptor is closed. -/
private theorem AllFine.unattached (fine : AllFine q) {o : Option Source}
    (sources : q'.sources = Function.update q.sources p o) (turn : q.ctl.userTurn = true)
    (ctl : q'.ctl = q.ctl) (ee : q'.ee = q.ee)
    (kernel : ∀ x t, q.sources x = some t → t.qInUse = true → t.added = true →
      q'.kernel.reg t.fd = q.kernel.reg t.fd)
    (new : ∀ t, o = some t → t.qInUse = false ∧ t.added = false) : AllFine q' := by
  refine fine.put sources (.inl ctl) ?_ (fun x t _ => kernel x t) ?_
  · intro x _ hdue
    exact hdue.follow (not_undefined_of_turn turn) (by rw [ctl]) ee
  · intro t ht
    obtain ⟨huse, hadded⟩ := new t ht
    have unattached : ¬ t.qInUse = true := by simp [huse]
    exact ⟨fun h => absurd h unattached, fun _ => hadded, fun h => absurd h unattached,
      fun h => absurd h unattached, fun h => absurd h unattached⟩

private theorem AllFine.join (fine : AllFine q) {b : Bool} (turn : q.ctl.userTurn = true)
    (hsrc : q.sources p = some src) (unattached : src.qInUse = false)
    (joined : Joined q p src src')
    (sources : q'.sources = Function.update q.sources p (some { src' with pending := b }))
    (ctl : q'.ctl = q.ctl) (ee : q'.ee = q.ee) (kernel : q'.kernel = q.kernel)
    (pending : src'.ctlEvent.events.any = true → b = true) : AllFine q' := by
  have hfine := fine p src hsrc
  have hadded : src'.added = false := joined.added.trans (hfine.idle unattached)
  have notAdded : ¬ src'.added = true := by simp [hadded]
  refine fine.put sources (.inl ctl) ?_ (fun _ _ _ _ _ _ => by rw [kernel]) ?_
  · intro x _ hdue
    exact hdue.follow (not_undefined_of_turn turn) (by rw [ctl]) ee
  · rintro _ ⟨⟩
    exact ⟨fun _ => ⟨_, joined.data⟩, fun _ => hadded, fun _ h => absurd h notAdded,
      fun _ _ h => absurd h notAdded, fun _ _ h => .inr (.inl (pending h))⟩

/-- A descriptor that is registered cannot be added. -/
private theorem answer_registered {k : Kernel} {op : CtlOp} {fd : Fd} {room : Bool}
    (ok : k.answer op fd room = .ok) (registered : (k.reg fd).isSome = true) :
    op = .mod ∨ op = .del := by
  unfold Kernel.answer at ok
  rw [registered] at ok
  cases op with
  | mod => exact .inl rfl
  | del => exact .inr rfl
  | _ =>
      simp only at ok
      split_ifs at ok

/-- The kernel registers a source that the flush takes out of the pending list. -/
private theorem AllFine.flush (fine : AllFine q) (ops : OpsSet q) {room : Bool} {count : Nat}
    (overwrites : OverwritesNone q (.flush room)) (ctl : q.ctl = .flushing count)
    (head : q.links.next .pendingQs = some (.source p)) (hsrc : q.sources p = some src)
    (attached : src.qInUse = true) (ok : (q.kernel.epollCtl src.ctlOp p src room).1 = .ok)
    (sources : q'.sources =
      Function.update q.sources p (some { src with added := true, pending := false }))
    (kernel : q'.kernel = (q.kernel.epollCtl src.ctlOp p src room).2) : AllFine q' := by
  have hfine := fine p src hsrc
  have defined : q.ctl ≠ .undefined := by simp [ctl]
  have harmed : Armed q'.kernel { src with added := true, pending := false } := by
    refine ⟨⟨src.ctlEvent, true⟩, ?_, rfl, rfl, fun _ => id⟩
    rw [kernel]
    exact (epollCtl_ok ok).trans (if_neg (ops p src hsrc))
  refine fine.asked sources kernel (.inr ?_) ?_ ?_ ?_
  · intro ne hne
    rw [ctl] at hne
    cases hne
  · intro x _ hdue
    exact absurd hdue (not_due (by rw [ctl]; rfl) defined)
  · intro x t hx ht huse hadded hfd
    obtain ⟨g, hg, -⟩ := (fine x t ht).owns huse hadded
    rw [hfd] at hg
    have hok : q.kernel.answer src.ctlOp src.fd room = .ok := ok
    rcases answer_registered hok (by rw [hg]; rfl) with hop | hop
    · exact overwrites _ (flushing_eq ctl head hsrc) hop x t ht hx huse hadded hfd
    · exact ops p src hsrc hop
  · rintro _ ⟨⟩
    refine ⟨hfine.data, ?_, fun _ _ => harmed.owns, fun _ _ _ => .inl harmed,
      fun _ _ _ => .inl rfl⟩
    intro h
    rw [show src.qInUse = false from h] at attached
    cases attached

/-- A wait reports events of registered sources; what it disarms is due. -/
private theorem AllFine.wait (fine : AllFine q) {evs : List (Fd × Reported)} {k : Kernel}
    {ee : List EpollEvent} (ctl : q.ctl = .ready) (events : q.kernel.epollWait evs = some (k, ee))
    (pending : ∀ x, ¬ q.Pending x) :
    AllFine { q with kernel := k, ee := ee, ctl := .events 0 } := by
  obtain ⟨-, -, hreg, -⟩ := epollWait_spec events
  intro x t ht
  have hfine := fine x t ht
  refine ⟨hfine.data, hfine.idle, ?_, ?_, ?_⟩
  · intro huse hadded
    obtain ⟨g, hg, hdata⟩ := hfine.owns huse hadded
    rcases hreg t.fd with hsame | ⟨g', hg', -, hnew, -⟩
    · exact ⟨g, hsame.trans hg, hdata⟩
    · obtain rfl := Option.some.inj (hg.symm.trans hg')
      exact ⟨_, hnew, hdata⟩
  · intro huse htype hadded
    rcases hfine.armed huse htype hadded with ⟨g, hg, hdata, harmed, hcovers⟩ | hdue
    · rcases hreg t.fd with hsame | ⟨g', hg', -, hnew, e, he, hedata⟩
      · exact .inl ⟨g, hsame.trans hg, hdata, harmed, hcovers⟩
      · obtain rfl := Option.some.inj (hg.symm.trans hg')
        obtain ⟨n, hn⟩ := hfine.data huse
        obtain ⟨j, hj⟩ := List.mem_iff_getElem?.mp he
        refine .inr (.inr ⟨0, rfl, j, e, Nat.zero_le j, hj, ?_⟩)
        rw [hedata, hdata, hn]
        rfl
    · exact absurd hdue (not_due (by rw [ctl]; rfl) (by simp [ctl]))
  · intro huse htype hany
    rcases hfine.sought huse htype hany with hadded | hpend | hhandled
    · exact .inl hadded
    · exact absurd ⟨t, ht, huse, hpend⟩ (pending x)
    · rw [ctl] at hhandled
      exact hhandled.elim

/-- The driver looks up the source of an entry. -/
private theorem AllFine.fetch (fine : AllFine q) {i : Nat} {e : EpollEvent} {d : Data}
    (ctl : q.ctl = .events i) (entry : q.ee[i]? = some e) (data : e.data = some d)
    (hsrc : q.sources d.ptr = some src) :
    AllFine (({ q with currentEvent := i }.setSource d.ptr
      (if src.type = SourceType.osFd then
        { src with noDetach := true, added := false, ctlOp := .mod }
      else { src with noDetach := true })).goto (.handle ⟨i, d.ptr, e⟩ .read)) := by
  have hfine := fine d.ptr src hsrc
  refine fine.put (p := d.ptr) rfl (.inr ?_) ?_ (fun _ _ _ _ _ _ => rfl) ?_
  · intro ne hne
    rw [ctl] at hne
    cases hne
  · intro x hx hdue
    refine hdue.pass ctl entry ?_ rfl rfl
    rw [data]
    exact fun h => hx (Option.some.inj h).symm
  · rintro _ ⟨⟩
    by_cases htype : src.type = .osFd
    · rw [if_pos htype]
      exact ⟨hfine.data, fun _ => rfl, fun _ h => by (cases h), fun _ _ h => by (cases h),
        fun _ _ _ => .inr (.inr rfl)⟩
    · rw [if_neg htype]
      exact ⟨hfine.data, hfine.idle, hfine.owns, fun _ h => absurd h htype,
        fun _ h => absurd h htype⟩

/-- The source being handled is written or looked at, and its event is gone on with. -/
private theorem AllFine.handle (fine : AllFine q) {ne : NebEvdpEvent} {u : Source}
    (event : q.ctl.event = some ne) (hsrc : q.sources ne.source = some src)
    (sources : q'.sources = Function.update q.sources ne.source (some u))
    (upcoming : q'.ctl.upcoming = q.ctl.upcoming) (ee : q'.ee = q.ee)
    (kernel : q'.kernel = q.kernel) (stays : Stays src u) (added : u.added = src.added)
    (less : ∀ e, u.ctlEvent.events.has e = true → src.ctlEvent.events.has e = true)
    (sought : u.qInUse = true → u.type = .osFd → u.ctlEvent.events.any = true →
      u.added = true ∨ u.pending = true ∨ handles q'.ctl ne.source) : AllFine q' := by
  have hfine := fine ne.source src hsrc
  have due : ∀ x, Due q x → Due q' x := by
    intro x hdue
    refine hdue.follow ?_ upcoming ee
    intro h
    rw [h] at event
    cases event
  refine fine.put sources (.inr ?_) (fun x _ => due x) (fun _ _ _ _ _ _ => by rw [kernel]) ?_
  · intro ne' hne
    obtain rfl := Option.some.inj (event.symm.trans hne)
    rfl
  · rintro _ ⟨⟩
    exact hfine.write stays added kernel (due _) (fun _ => less) sought

/-- A call of the user that writes no source. -/
private theorem AllFine.turned (fine : AllFine q) (turn : q.ctl.userTurn = true)
    (sources : q'.sources = q.sources) (ctl : q'.ctl = q.ctl) (ee : q'.ee = q.ee)
    (kernel : ∀ x t, q.sources x = some t → t.qInUse = true → t.added = true →
      q'.kernel.reg t.fd = q.kernel.reg t.fd) : AllFine q' := by
  intro x t ht
  rw [sources] at ht
  refine (fine x t ht).frame (kernel x t ht) ?_ ?_
  · intro hdue
    exact hdue.follow (not_undefined_of_turn turn) (by rw [ctl]) ee
  · rw [ctl]
    exact id

/-- The source being handled is not there, or is not attached: the program has gone wrong. -/
private theorem AllFine.lose (fine : AllFine q) (sources : q'.sources = q.sources)
    (ctl : q'.ctl = .undefined) (kernel : q'.kernel = q.kernel)
    (gone : ∀ x t, q.sources x = some t → handles q.ctl x → t.qInUse = false) : AllFine q' := by
  intro x t ht
  rw [sources] at ht
  have hfine := fine x t ht
  refine ⟨hfine.data, hfine.idle, ?_, fun _ _ _ => .inr (.undefined ctl), ?_⟩
  · rw [kernel]
    exact hfine.owns
  · intro huse htype hany
    refine (hfine.sought huse htype hany).imp_right (Or.imp_right fun hhandled => ?_)
    rw [gone x t ht hhandled] at huse
    cases huse

private theorem stays_refl (src : Source) : Stays src src := (Kept.refl src).stays

private theorem update_same (hsrc : q.sources p = some src) :
    q.sources = Function.update q.sources p (some src) := by
  rw [← hsrc, Function.update_eq_self]

/-- What one step preserves. -/
theorem AllFine.ofStep {P R : List Ptr} (fine : AllFine q) (ops : OpsSet q) (inside : Inside q)
    (ends : Ends q) (threaded : Foreach.Threaded q none P R)
    (idle : q.ctl = .ready → ∀ x, ¬ q.Pending x)
    (closes : ClosesUnregistered q a) (overwrites : OverwritesNone q a)
    (succeeded : AllSucceeded q') (h : Epoll.step q a = some q') : AllFine q' := by
  cases step_cases h with
  | opened turn => exact fine.turned turn rfl rfl rfl (fun _ _ _ _ _ => rfl)
  | closed turn =>
      refine fine.turned turn rfl rfl rfl ?_
      intro x t ht huse hadded
      exact Function.update_of_ne (closes _ rfl x t ht huse hadded) ..
  | created turn free k reg requests isOpen =>
      refine fine.unattached rfl turn rfl rfl (fun _ _ _ _ _ => by rw [← reg]; rfl) ?_
      rintro _ ⟨⟩
      exact ⟨rfl, rfl⟩
  | refused turn => exact fine
  | @freed p src turn hsrc unattached =>
      by_cases htimer : src.type.isTimer = true
      · simp only [if_pos htimer]
        refine fine.unattached (p := p) (o := none) rfl turn rfl rfl ?_ (by simp)
        intro x t ht huse hadded
        refine Function.update_of_ne (closes src.fd ?_ x t ht huse hadded) ..
        simp [State.closes, hsrc, unattached, htimer]
      · simp only [if_neg htimer]
        exact fine.unattached (p := p) (o := none) rfl turn rfl rfl (fun _ _ _ _ _ => rfl) (by simp)
  | refitted turn hsrc unattached =>
      refine fine.unattached rfl turn rfl rfl (fun _ _ _ _ _ => rfl) ?_
      rintro _ ⟨⟩
      exact ⟨unattached, rfl⟩
  | next turn hsrc osFd cases => exact fine.next ops inside succeeded turn hsrc osFd cases
  | joinedPending turn hsrc unattached src' joined osFd =>
      exact fine.join turn hsrc unattached joined rfl rfl rfl rfl (fun _ => rfl)
  | joinedRunning turn hsrc unattached src' joined osFd bare =>
      refine fine.join turn hsrc unattached joined (b := false) rfl rfl rfl rfl ?_
      intro hany
      rw [bare] at hany
      cases hany
  | @detached p src toClose turn hsrc attached free =>
      have det := Epoll.detached p src toClose q
      exact fine.detach succeeded hsrc (not_undefined_of_turn turn) det rfl rfl rfl rfl rfl
        (by rw [det.ctl]) (.inl det.ctl)
  | started ctl =>
      exact fine.quiet ctl rfl rfl (by simp) rfl rfl
  | flushEnd ctl empty =>
      exact fine.quiet ctl rfl rfl (by simp) rfl rfl
  | @flushed count room p src ctl head hsrc ok =>
      obtain ⟨p', src0, heq, hsrc', huse, hpend⟩ := threaded.head head
      obtain rfl := Node.source.inj heq
      obtain rfl := Option.some.inj (hsrc.symm.trans hsrc')
      exact fine.flush ops overwrites ctl head hsrc huse ok rfl rfl
  | flushFailed ctl head hsrc failed => exact absurd (succeeded.request rfl) failed
  | flushLost ctl head lost =>
      exact fine.still rfl (by rw [ctl]; rfl) (fun x _ => .undefined rfl) rfl
  | waited ctl nodup events => exact fine.wait ctl events (idle ctl)
  | waitFailed ctl =>
      exact fine.quiet ctl rfl rfl (by simp) rfl rfl
  | batchEnd ctl beyond currentEvent =>
      refine fine.still rfl (by rw [ctl]; rfl) ?_ rfl
      rintro x (h | ⟨i, hi, j, e, hj, he, -⟩)
      · rw [ctl] at h
        cases h
      · rw [ctl] at hi
        obtain rfl := Option.some.inj hi
        have hlen := List.getElem?_eq_none_iff.mp beyond
        have hin := (List.getElem?_eq_some_iff.mp he).1
        omega
  | skipped ctl entry cleared =>
      refine fine.still rfl (by rw [ctl]; rfl) ?_ rfl
      intro x hdue
      exact hdue.pass ctl entry (by simp [cleared]) rfl rfl
  | lost ctl entry data free =>
      exact fine.still rfl (by rw [ctl]; rfl) (fun x _ => .undefined rfl) rfl
  | fetched ctl entry data hsrc => exact fine.fetch ctl entry data hsrc
  | @vanished a ne event free =>
      refine fine.lose rfl rfl rfl ?_
      intro x t ht hhandled
      obtain ⟨ne', hne, rfl⟩ := handles_event hhandled
      obtain rfl := Option.some.inj (event.symm.trans hne)
      rw [free] at ht
      cases ht
  | otherHandled ctl hsrc other event =>
      refine fine.handle (by rw [ctl]; rfl) hsrc (update_same hsrc) ?_ rfl rfl (stays_refl _) rfl
        (fun _ => id) (fun _ htype => absurd htype other)
      rw [ctl]
      exact upcoming_event event
  | osFdSkipped ctl hsrc osFd =>
      exact fine.handle (by rw [ctl]; rfl) hsrc (update_same hsrc) (by rw [ctl]; rfl) rfl rfl
        (stays_refl _) rfl (fun _ => id) (fun _ _ _ => .inr (.inr rfl))
  | osFdCalled ctl hsrc osFd src' entered notLast =>
      exact fine.handle (by rw [ctl]; rfl) hsrc rfl (by rw [ctl]; rfl) rfl rfl
        entered.toKept.stays entered.added entered.interest
        (fun _ _ _ => .inr (.inr ⟨rfl, notLast⟩))
  | @osFdRequeued ok ne src ctl hsrc osFd rest attached =>
      exact fine.handle (u := { src with pending := true }) (by rw [ctl]; rfl) hsrc rfl
        (by rw [ctl]; rfl) rfl rfl ⟨rfl, rfl, rfl, rfl⟩ rfl (fun _ => id)
        (fun _ _ _ => .inr (.inl rfl))
  | osFdLost ctl hsrc unattached =>
      refine fine.lose rfl rfl rfl ?_
      intro x t ht
      rw [ctl]
      rintro rfl
      obtain rfl := Option.some.inj (hsrc.symm.trans ht)
      exact unattached
  | osFdDone ctl hsrc osFd bare =>
      refine fine.handle (by rw [ctl]; rfl) hsrc (update_same hsrc) (by rw [ctl]; rfl) rfl rfl
        (stays_refl _) rfl (fun _ => id) (fun _ _ hany => ?_)
      rw [bare] at hany
      cases hany
  | @returned ret ne stage src ctl hsrc src' entered =>
      have hfine := fine _ _ hsrc
      refine fine.handle (by rw [ctl]; rfl) hsrc rfl ?_ rfl rfl entered.toKept.stays entered.added
        entered.interest ?_
      · rw [ctl]
        exact upcoming_event (after_callback_event ne stage ret)
      · intro huse htype hany
        rw [entered.added, entered.pending]
        have hold := hfine.sought (entered.qInUse ▸ huse) (entered.type ▸ htype)
          ((any_iff _ .read).mpr (((any_iff _ .read).mp hany).imp (entered.interest _)
            (entered.interest _)))
        refine hold.imp_right (Or.imp_right fun hhandled => ?_)
        rw [ctl] at hhandled
        exact after_callback_handles ne ret hhandled.2
  | @finishedDetach ok ne ret src ctl hsrc toClose hret =>
      have det := Epoll.detached ne.source { src with noDetach := false } toClose q
      refine fine.detach succeeded hsrc (by simp [ctl]) det rfl rfl rfl rfl rfl
        (by rw [ctl]; rfl) (.inr ?_)
      intro ne' hne
      rw [ctl] at hne
      obtain rfl := Option.some.inj hne
      rfl
  | @finished ok ne ret src ctl' ctl hsrc hctl' =>
      have hret : ret = .continue ∧ ctl' = .events (ne.index + 1) := by
        have hends := ends ne ret ctl
        rcases hctl' with ⟨-, rfl | rfl⟩ | ⟨hctl', rfl | rfl⟩
        · simp at hends
        · simp at hends
        · exact ⟨rfl, hctl'⟩
        · simp at hends
      obtain ⟨rfl, rfl⟩ := hret
      refine fine.handle (u := { src with noDetach := false }) (by rw [ctl]; rfl) hsrc rfl
        (by rw [ctl]; rfl) rfl rfl ⟨rfl, rfl, rfl, rfl⟩ rfl (fun _ => id) ?_
      intro huse htype hany
      refine ((fine _ _ hsrc).sought huse htype hany).imp_right (Or.imp_right fun hhandled => ?_)
      rw [ctl] at hhandled
      exact absurd rfl hhandled.2
  | resumed ctl =>
      refine fine.still rfl (by rw [ctl]; rfl) ?_ rfl
      intro x hdue
      exact hdue.follow (by simp [ctl]) (by rw [ctl]; rfl) rfl

end Step

/-! The runs. -/

/-- The lists are in order, nothing is pending when the queue is about to wait, and as long as the
requests succeed whatever a source waits for is to come. -/
structure Sound (q : State) : Prop where
  threaded : ∃ P R, Foreach.Threaded q none P R
  ops : OpsSet q
  inside : Inside q
  ends : Ends q
  idle : q.ctl = .ready → ∀ x, ¬ q.Pending x
  fine : AllSucceeded q → AllFine q

/-- A queue is about to wait when its pending list is empty. -/
private theorem ready_idle {q q' : State} {a : Action} {P R : List Ptr}
    (threaded : Foreach.Threaded q none P R) (h : Epoll.step q a = some q')
    (ctl : q'.ctl = .ready) (x : Ptr) : ¬ q'.Pending x := by
  rcases waiting_cases h (by rw [ctl]; rfl) with ⟨-, rfl⟩ | ⟨count, room, -, -, empty, -, hs, -⟩ |
    ⟨count, room, p, src, -, -, -, -, -, hctl, -⟩
  · cases ctl
  · rintro ⟨src, hsrc, huse, hpend⟩
    rw [hs] at hsrc
    have hx := (threaded.pending x).mpr ⟨src, hsrc, huse, hpend⟩
    rw [threaded.lists.next_eq (Or.inl rfl : Node.pendingQs ∈ heads), carried,
      List.head?_eq_none_iff, List.map_eq_nil_iff] at empty
    rw [empty] at hx
    cases hx
  · rw [ctl] at hctl
    cases hctl

theorem Sound.ofStep {q q' : State} {a : Action} (sound : Sound q) (goesOn : GoesOn a)
    (closes : ClosesUnregistered q a) (overwrites : OverwritesNone q a)
    (h : Epoll.step q a = some q') : Sound q' := by
  obtain ⟨P, R, threaded⟩ := sound.threaded
  obtain ⟨P', new, gone, threaded', -⟩ :=
    threaded.moves (threaded.step_moves (step_cases h)) (by simp)
  refine ⟨⟨P', _, threaded'⟩, sound.ops.ofStep h, sound.inside.ofStep h, .ofStep goesOn h,
    ready_idle threaded h, ?_⟩
  intro succeeded
  exact (sound.fine (succeeded.before h)).ofStep sound.ops sound.inside sound.ends threaded
    sound.idle closes overwrites succeeded h

theorem Sound.create (batchSize : Nat) : Sound (nebEvdpQueueCreate batchSize) where
  threaded := by
    obtain ⟨P, R, wired, -⟩ := Foreach.Wound.create batchSize
    exact ⟨P, R, wired.threaded⟩
  ops := OpsSet.create batchSize
  inside := Inside.create batchSize
  ends := by
    intro ne ret h
    cases h
  idle := by
    intro h
    cases h
  fine := by
    intro _ p src hsrc
    cases hsrc

theorem Sound.keeps {q : State} (sound : Sound q) (succeeded : AllSucceeded q) :
    KeepsInterest q := by
  intro ctl p src hsrc osFd attached hany
  have hfine := sound.fine succeeded p src hsrc
  have hadded : src.added = true := by
    rcases hfine.sought attached osFd hany with hadded | hpend | hhandled
    · exact hadded
    · exact absurd ⟨src, hsrc, attached, hpend⟩ (sound.idle ctl p)
    · rw [ctl] at hhandled
      exact hhandled.elim
  rcases hfine.armed attached osFd hadded with harmed | hdue
  · exact harmed
  · exact absurd hdue (not_due (by rw [ctl]; rfl) (by simp [ctl]))

/-- In every run in which no flush changes the registration of another source and no descriptor is
closed that an attached source has registered, no interest is lost. -/
theorem nebEvdpQueue_keeps_interest (batchSize : Nat) (as : List Action) (q : State)
    (goesOn : ∀ a ∈ as, GoesOn a)
    (closes : Machine.StepsMeet Epoll.step ClosesUnregistered (nebEvdpQueueCreate batchSize) as)
    (overwrites : Machine.StepsMeet Epoll.step OverwritesNone (nebEvdpQueueCreate batchSize) as)
    (reached : Machine.run Epoll.step (nebEvdpQueueCreate batchSize) as = some q)
    (succeeded : AllSucceeded q) : KeepsInterest q := by
  have sound : Sound q := Machine.invariant_run
    (fun _ _ _ sound ok h => Sound.ofStep sound ok.1 ok.2.1 ok.2.2 h) (Sound.create batchSize)
    ((Machine.StepsMeet.of_labels goesOn _).and (closes.and overwrites)) reached
  exact sound.keeps succeeded

/-- The flush of the only source there is. -/
private theorem alone_overwrites_none {q : State} {p : Ptr} (a : Action)
    (alone : ∀ r, r ≠ p → q.sources r = none) : OverwritesNone q a := by
  intro f hf _ r s hs hr
  have hsource : q.sources f.1 = some f.2 := by
    unfold State.flushing at hf
    split at hf
    · split at hf
      · obtain ⟨src, hsrc, rfl⟩ := Option.map_eq_some_iff.mp hf
        exact hsrc
      · cases hf
    · cases hf
  have hf1 : f.1 = p := by
    by_contra hne
    rw [alone f.1 hne] at hsource
    cases hsource
  rw [alone r (hf1 ▸ hr)] at hs
  cases hs

/-- A run that makes no other source than `p`. -/
private theorem alone_run {p : Ptr} (batchSize : Nat) {as : List Action}
    (only : ∀ a ∈ as, ∀ r type fd, a = .newSource r type fd → r = p) :
    Machine.StepsMeet Epoll.step OverwritesNone (nebEvdpQueueCreate batchSize) as := by
  refine .of_invariant (I := fun q => ∀ r, r ≠ p → q.sources r = none)
    (fun q a alone _ => alone_overwrites_none a alone) ?_ (fun _ _ => rfl)
    (.of_labels only _)
  intro q a q' alone honly h r hr
  exact Foreach.step_free (step_cases h) (alone r hr) (fun type fd ha => hr (honly r type fd ha))

private theorem closes_unregistered (q : State) (a : Action) (h : q.closes a = none) :
    ClosesUnregistered q a := by
  intro fd hfd
  rw [h] at hfd
  cases hfd

private theorem all_succeeded {q : State}
    (h : q.kernel.requests.all (fun r => r.result = .ok) = true) : AllSucceeded q := by
  intro r hr
  exact of_decide_eq_true (List.all_eq_true.mp h r hr)

/-- A source waits for both directions, its write event is handled, and the next run flushes it. -/
def writeHandled : List Action :=
  [.openFd 5, .newSource 1 .osFd 5, .nextRead 1 (some 0) true, .nextWrite 1 (some 0) true,
    .attach 1 true, .run, .flush true, .flush true, .wait [(5, ⟨false, true, false⟩)],
    .proceed true, .proceed true, .proceed true, .proceed true, .cbReturn .continue, .proceed true,
    .proceed true, .proceed true, .run]

/-- What it still wants to read is armed again. -/
theorem nebEvdpQueue_keeps_interest_write_then_read :
    ∃ q src, Machine.run Epoll.step (nebEvdpQueueCreate 10)
        (writeHandled ++ [.flush true, .flush true]) = some q ∧ q.sources 1 = some src ∧
      src.ctlEvent.events.has .read = true ∧ Armed q.kernel src := by
  obtain ⟨q, hq, hfacts⟩ : ∃ q, Machine.run Epoll.step (nebEvdpQueueCreate 10)
        (writeHandled ++ [.flush true, .flush true]) = some q ∧
      decide (q.ctl = .ready ∧ q.kernel.requests.all (fun r => r.result = .ok) = true ∧
        (q.sources 1).map (fun src => (src.type, src.qInUse, src.ctlEvent.events.epollin)) =
          some (.osFd, true, true)) = true :=
    Machine.run_reaches (by decide)
  obtain ⟨hctl, hrequests, hsource⟩ := of_decide_eq_true hfacts
  obtain ⟨src, hsrc, heq⟩ := Option.map_eq_some_iff.mp hsource
  simp only [Prod.mk.injEq] at heq
  have keeps : KeepsInterest q := by
    refine nebEvdpQueue_keeps_interest 10 _ q (by decide) (.mono closes_unregistered (by decide))
      (alone_run (p := 1) 10 ?_) hq (all_succeeded hrequests)
    simp [writeHandled]
  exact ⟨q, src, hq, hsrc, heq.2.2,
    keeps hctl 1 src hsrc heq.1 heq.2.1 (by simp [Interest.any, heq.2.2])⟩

/-- The first callback un-registers the second source, whose event is still to come and leaves it
with `EPOLL_CTL_MOD`; the descriptor is registered for a third source, and then the second one is
to write. -/
def unregisteredInBatch : List Action :=
  twoReaders ++ firstCallback [.nextRead 2 none true] ++
    [.proceed true, .proceed true, .proceed true, .proceed true, .proceed true, .proceed true,
      .proceed true, .newSource 3 .osFd 6, .nextRead 3 (some 0) true, .attach 3 true, .run,
      .flush true, .flush true, .wait [], .proceed true, .nextWrite 2 (some 0) true, .run,
      .flush true, .flush true]

theorem nebEvdpQueue_keeps_interest_fails :
    ¬ ∀ (batchSize : Nat) (as : List Action) (q : State), (∀ a ∈ as, GoesOn a) →
      Machine.StepsMeet Epoll.step KeepsOpen (nebEvdpQueueCreate batchSize) as →
      Machine.run Epoll.step (nebEvdpQueueCreate batchSize) as = some q → AllSucceeded q →
      KeepsInterest q := by
  intro claim
  obtain ⟨q, hq, hfacts⟩ : ∃ q,
      Machine.run Epoll.step (nebEvdpQueueCreate 10) unregisteredInBatch = some q ∧
      decide (q.ctl = .ready ∧ q.kernel.requests.all (fun r => r.result = .ok) = true ∧
        (q.sources 3).map (fun src =>
          (src.type, src.qInUse, src.ctlEvent.events.epollin, src.fd)) =
            some (.osFd, true, true, 6) ∧
        (q.kernel.reg 6).map (fun r => r.event.events.epollin) = some false) = true :=
    Machine.run_reaches (by decide)
  obtain ⟨hctl, hrequests, hsource, hreg⟩ := of_decide_eq_true hfacts
  obtain ⟨src, hsrc, heq⟩ := Option.map_eq_some_iff.mp hsource
  obtain ⟨r, hr, hin⟩ := Option.map_eq_some_iff.mp hreg
  simp only [Prod.mk.injEq] at heq
  have keeps := claim 10 _ q (by decide) (.mono keeps_open (by decide)) hq (all_succeeded hrequests)
  obtain ⟨g, hg, -, -, hcovers⟩ := keeps hctl 3 src hsrc heq.1 heq.2.1
    (by simp [Interest.any, heq.2.2.1])
  -- the descriptor is registered for the second source, which does not read
  rw [heq.2.2.2, hr] at hg
  obtain rfl := Option.some.inj hg
  have hcovered : r.event.events.epollin = true := hcovers .read heq.2.2.1
  rw [hin] at hcovered
  cases hcovered

end Nebase.Evdp.Interest
