/- What the calls on an os_fd source make of it: they ask the kernel, or put the source where the
   flush or the handle function that runs finds it. -/

import Nebase.Evdp.Interest.Coming

set_option autoImplicit false
set_option relaxedAutoImplicit false

namespace Nebase.Evdp.Interest

open Nebase.Foundation Nebase.Evdp.Epoll

section Step

variable {q q' : State} {a : Action} {p : Ptr} {src src' : Source}

/-! What a step does to the requests, the end of a handle function and the callback bit. -/

private theorem request_kept {k : Kernel} {op : CtlOp} {s : Source} {room : Bool} {r : Request}
    (hr : r ∈ k.requests) : r ∈ (k.epollCtl op p s room).2.requests := by
  rw [epollCtl_requests]
  exact List.mem_cons_of_mem _ hr

private theorem detach_requests {toClose : Bool} {r : Request}
    (det : Epoll.Detached p src toClose q q') (hr : r ∈ q.kernel.requests) :
    r ∈ q'.kernel.requests := by
  rw [det.kernel]
  rcases (detach_cases p src toClose q.kernel).2 with ⟨heq, -⟩ | ⟨-, -, heq, -⟩
  · rwa [heq]
  · rw [heq]
    exact request_kept hr

/-- Every step keeps the requests made so far. -/
theorem step_requests (h : Epoll.step q a = some q') {r : Request}
    (hr : r ∈ q.kernel.requests) : r ∈ q'.kernel.requests := by
  cases step_cases h with
  | created turn free k reg requests isOpen =>
      change r ∈ k.requests
      rwa [requests]
  | freed turn hsrc unattached =>
      simp only
      split_ifs
      · exact hr
      · exact hr
  | next turn hsrc osFd cases =>
      cases cases with
      | ctl attached added set new =>
          change r ∈ (doCtlOsFd _ _ _ q.kernel).2.2.requests
          rw [doCtlOsFd_kernel]
          exact request_kept hr
      | del attached added unset last bare =>
          change r ∈ (doDelOsFd _ _ q.kernel).2.2.requests
          rw [doDelOsFd_kernel]
          exact request_kept hr
      | _ => exact hr
  | @detached p src toClose turn hsrc attached free =>
      exact detach_requests (Epoll.detached p src toClose q) hr
  | flushed ctl head hsrc ok => exact request_kept hr
  | flushFailed ctl head hsrc failed => exact request_kept hr
  | waited ctl nodup events =>
      obtain ⟨-, hrequests, -⟩ := epollWait_spec events
      rwa [hrequests]
  | @finishedDetach ok ne ret src ctl hsrc toClose hret =>
      have det := Epoll.detached ne.source { src with noDetach := false } toClose q
      exact (detach_requests det hr :)
  | _ => exact hr

theorem AllSucceeded.before (succeeded : AllSucceeded q') (h : Epoll.step q a = some q') :
    AllSucceeded q :=
  fun r hr => succeeded r (step_requests h hr)

/-- A request of the step has succeeded. -/
theorem AllSucceeded.request {op : CtlOp} {room : Bool} (succeeded : AllSucceeded q')
    (kernel : q'.kernel = (q.kernel.epollCtl op p src room).2) :
    (q.kernel.epollCtl op p src room).1 = .ok := by
  have hmem := succeeded ⟨p, src.type, op, (q.kernel.reg src.fd).isSome,
    (q.kernel.epollCtl op p src room).1⟩
  rw [kernel, epollCtl_requests] at hmem
  exact hmem List.mem_cons_self

/-- A handle function ends with `CONTINUE`, or with the detachment of its source. -/
def Ends (q : State) : Prop :=
  ∀ ne ret, q.ctl = .finish ne ret → ret = .continue ∨ ret = .remove ∨ ret = .close

private theorem after_callback_ends (ne ne' : NebEvdpEvent) (stage : Stage)
    {ret ret' : NebEvdpCbRet} (hret : ret = .continue ∨ ret = .remove ∨ ret = .close)
    (h : afterCallback ne stage ret = .finish ne' ret') :
    ret' = .continue ∨ ret' = .remove ∨ ret' = .close := by
  rcases hret with rfl | rfl | rfl <;> cases stage <;> simp_all [afterCallback]

private theorem turn_ends {c : Ctl} (turn : c.userTurn = true) (ne : NebEvdpEvent)
    (ret : NebEvdpCbRet) : c ≠ .finish ne ret := by
  rintro rfl
  cases turn

theorem Ends.ofStep (goesOn : GoesOn a) (h : Epoll.step q a = some q') : Ends q' := by
  intro ne ret hctl
  have turned : q'.ctl = q.ctl → q.ctl.userTurn = true → False := by
    intro hsame turn
    exact turn_ends turn ne ret (hsame.symm.trans hctl)
  cases step_cases h with
  | opened turn => exact (turned rfl turn).elim
  | closed turn => exact (turned rfl turn).elim
  | created turn free k reg requests isOpen => exact (turned rfl turn).elim
  | refused turn => exact (turned rfl turn).elim
  | freed turn hsrc unattached =>
      refine (turned ?_ turn).elim
      simp only
      split_ifs <;> rfl
  | refitted turn hsrc unattached => exact (turned rfl turn).elim
  | next turn hsrc osFd cases => exact (turned (next_rest cases).1 turn).elim
  | joinedPending turn hsrc unattached src' joined osFd => exact (turned rfl turn).elim
  | joinedRunning turn hsrc unattached src' joined osFd bare => exact (turned rfl turn).elim
  | @detached p src toClose turn hsrc attached free =>
      exact (turned (Epoll.detached p src toClose q).ctl turn).elim
  | @otherHandled ok ne' stage src ctl' ctl hsrc other event =>
      -- the handle functions of ro_fd and timer sources
      obtain rfl : ok = true := goesOn
      simp only [Epoll.step, ctl, hsrc] at h
      cases htype : src.type with
      | osFd => exact absurd htype other
      | roFd =>
          simp only [htype, Option.some.injEq] at h
          rw [← h] at hctl
          cases stage <;> simp only [evdpSourceRoFdHandle, State.goto] at hctl <;>
            split_ifs at hctl <;> cases hctl <;> exact .inl rfl
      | itimer =>
          simp only [htype, Option.some.injEq] at h
          rw [← h] at hctl
          simp [evdpSourceItimerHandle, State.goto] at hctl
      | abstimer =>
          simp only [htype, Option.some.injEq] at h
          rw [← h] at hctl
          cases hctl
          exact .inl rfl
  | osFdRequeued ctl hsrc osFd rest attached =>
      cases hctl
      exact .inl rfl
  | osFdDone ctl hsrc osFd bare =>
      cases hctl
      exact .inl rfl
  | @returned ret' ne' stage src ctl hsrc src' entered =>
      exact after_callback_ends ne' ne stage goesOn hctl
  | finished ctl hsrc hctl' =>
      rcases hctl' with ⟨rfl, -⟩ | ⟨rfl, -⟩ <;> cases hctl
  | _ => cases hctl

/-! The calls. -/

/-- A source is written that stays as it is for the kernel, and waits for no more than before if it
is registered. -/
theorem Fine.write (fine : Fine q p src) (stays : Stays src src')
    (added : src'.added = src.added) (kernel : q'.kernel = q.kernel) (due : Due q p → Due q' p)
    (less : src.added = true → ∀ e, src'.ctlEvent.events.has e = true →
      src.ctlEvent.events.has e = true)
    (sought : src'.qInUse = true → src'.type = .osFd → src'.ctlEvent.events.any = true →
      src'.added = true ∨ src'.pending = true ∨ handles q'.ctl p) : Fine q' p src' where
  data := by
    intro huse
    rw [stays.data]
    exact fine.data (stays.qInUse ▸ huse)
  idle := by
    intro huse
    rw [added]
    exact fine.idle (stays.qInUse ▸ huse)
  owns := by
    intro huse hadded
    unfold Owns
    rw [kernel, stays.fd, stays.data]
    exact fine.owns (stays.qInUse ▸ huse) (added ▸ hadded)
  armed := by
    intro huse htype hadded
    rw [added] at hadded
    rcases fine.armed (stays.qInUse ▸ huse) (stays.type ▸ htype) hadded with
      ⟨r, hr, hdata, harmed, hcovers⟩ | hdue
    · refine .inl ⟨r, ?_, ?_, harmed, fun e he => hcovers e (less hadded e he)⟩
      · rw [kernel, stays.fd]
        exact hr
      · rw [stays.data]
        exact hdata
    · exact .inr (due hdue)
  sought := sought

private theorem next_due {d : Dir} {hd : Option Handler} {room : Bool} {x : Ptr}
    (turn : q.ctl.userTurn = true) (cases : NextCases d p src hd room q q') (due : Due q x) :
    Due q' x := by
  obtain ⟨hctl, hee, -⟩ := next_rest cases
  exact due.follow (not_undefined_of_turn turn) (by rw [hctl]) hee

/-- A request is made for one source; no other one has registered the descriptor. -/
theorem AllFine.asked (fine : AllFine q) {o : Option Source} {op : CtlOp} {s : Source}
    {room : Bool} (sources : q'.sources = Function.update q.sources p o)
    (kernel : q'.kernel = (q.kernel.epollCtl op p s room).2)
    (event : q'.ctl = q.ctl ∨ ∀ ne, q.ctl.event = some ne → ne.source = p)
    (due : ∀ x, x ≠ p → Due q x → Due q' x)
    (apart : ∀ x t, x ≠ p → q.sources x = some t → t.qInUse = true → t.added = true →
      t.fd ≠ s.fd)
    (new : ∀ t, o = some t → Fine q' p t) : AllFine q' := by
  refine fine.put sources event due ?_ new
  intro x t hx ht huse hadded
  rw [kernel, epollCtl_other _ _ _ _ _ (apart x t hx ht huse hadded)]

theorem AllFine.next (fine : AllFine q) (ops : OpsSet q) (inside : Inside q) {d : Dir}
    {hd : Option Handler} {room : Bool} (succeeded : AllSucceeded q')
    (turn : q.ctl.userTurn = true) (hsrc : q.sources p = some src) (osFd : src.type = .osFd)
    (cases : NextCases d p src hd room q q') : AllFine q' := by
  have due : ∀ x, Due q x → Due q' x := fun x => next_due turn cases
  have hfine := fine p src hsrc
  have hset := setHandler_events src d hd
  cases cases with
  | quiet src' kept pending added ctlOp interest =>
      refine fine.put rfl (.inl rfl) (fun x _ => due x) (fun _ _ _ _ _ _ => rfl) ?_
      rintro _ ⟨⟩
      refine hfine.write kept.stays added rfl (due p) ?_ ?_
      · intro hadded
        rcases interest with hless | ⟨hidle, -⟩ | hout
        · exact hless
        · rw [hadded] at hidle
          cases hidle
        · rw [hfine.idle hout] at hadded
          cases hadded
      · intro huse htype hany
        rw [added, pending]
        rw [kept.qInUse] at huse
        rcases interest with hless | ⟨-, hin | hpend⟩ | hout
        · refine hfine.sought huse osFd ?_
          rw [any_iff _ .read] at hany ⊢
          exact hany.imp (hless _) (hless _)
        · exact .inr (.inr (calls_handles (inside p src hsrc hin).2))
        · exact .inr (.inl hpend)
        · rw [huse] at hout
          cases hout
  | toPending src' kept added ctlOp attached idle outside running set =>
      refine fine.put rfl (.inl rfl) (fun x _ => due x) (fun _ _ _ _ _ _ => rfl) ?_
      rintro _ ⟨⟩
      refine hfine.write (kept.setPending true).stays added rfl (due p) ?_
        (fun _ _ _ => .inr (.inl rfl))
      intro hadded
      rw [idle] at hadded
      cases hadded
  | toRunning src' kept added ctlOp attached idle pending bare =>
      refine fine.put rfl (.inl rfl) (fun x _ => due x) (fun _ _ _ _ _ _ => rfl) ?_
      rintro _ ⟨⟩
      refine hfine.write (kept.setPending false).stays added rfl (due p) ?_ ?_
      · intro hadded
        rw [idle] at hadded
        cases hadded
      · intro _ _ hany
        rw [show src'.ctlEvent.events.any = true from hany] at bare
        cases bare
  | ctl attached added set new =>
      obtain ⟨s, hs⟩ : ∃ s, (src.setHandler d hd).setInterest d true = s := ⟨_, rfl⟩
      have kept : Kept src s := hs ▸ (Kept.setHandler src d hd).trans (.setInterest _ d true)
      rw [hs] at due succeeded ⊢
      have hop : s.ctlOp = src.ctlOp := hs ▸ hset.2.2.2.1
      have hok : (q.kernel.epollCtl s.ctlOp p s room).1 = .ok :=
        succeeded.request (doCtlOsFd_kernel p s room q.kernel)
      have hsource : (doCtlOsFd p s room q.kernel).2.1 = { s with added := true } := by
        rw [doCtlOsFd_source, if_pos hok]
      have hreg : (doCtlOsFd p s room q.kernel).2.2.reg s.fd = some ⟨s.ctlEvent, true⟩ := by
        rw [doCtlOsFd_kernel, epollCtl_ok hok, if_neg]
        rw [hop]
        exact ops p src hsrc
      have harmed : Armed (doCtlOsFd p s room q.kernel).2.2 { s with added := true } :=
        ⟨_, hreg, rfl, rfl, fun _ => id⟩
      refine fine.asked rfl (doCtlOsFd_kernel p s room q.kernel) (.inl rfl) (fun x _ => due x) ?_ ?_
      · intro x t hx ht huse hadded
        rw [kept.fd]
        exact fine.apart hsrc ht attached huse (hfine.owns attached added) hadded hx
      · rintro _ ⟨⟩
        rw [hsource]
        refine ⟨?_, ?_, fun _ _ => harmed.owns, fun _ _ _ => .inl harmed, fun _ _ _ => .inl rfl⟩
        · intro _
          obtain ⟨n, hn⟩ := hfine.data attached
          exact ⟨n, kept.data.trans hn⟩
        · intro huse
          have hattached := kept.qInUse.trans attached
          rw [show s.qInUse = false from huse] at hattached
          cases hattached
  | del attached added unset last bare =>
      obtain ⟨s, hs⟩ : ∃ s, (src.setHandler d hd).setInterest d false = s := ⟨_, rfl⟩
      have kept : Kept src s := hs ▸ (Kept.setHandler src d hd).trans (.setInterest _ d false)
      have hany : s.ctlEvent.events.any = false := by
        rw [Bool.eq_false_iff, ne_eq, any_iff _ d, ← hs]
        simp [Source.setInterest, bare]
      rw [hs] at due succeeded ⊢
      have hok : (q.kernel.epollCtl .del p s true).1 = .ok :=
        succeeded.request (doDelOsFd_kernel p s q.kernel)
      have hsource : (doDelOsFd p s q.kernel).2.1 =
          { s with added := false, ctlOp := .add } := by
        rw [doDelOsFd_source, if_pos hok]
      refine fine.asked rfl (doDelOsFd_kernel p s q.kernel) (.inl rfl) (fun x _ => due x) ?_ ?_
      · intro x t hx ht huse hadded
        rw [kept.fd]
        exact fine.apart hsrc ht attached huse (hfine.owns attached added) hadded hx
      · rintro _ ⟨⟩
        rw [hsource]
        refine ⟨?_, fun _ => rfl, fun _ h => by (cases h), fun _ _ h => by (cases h), ?_⟩
        · intro _
          obtain ⟨n, hn⟩ := hfine.data attached
          exact ⟨n, kept.data.trans hn⟩
        · intro _ _ h
          rw [show s.ctlEvent.events.any = true from h] at hany
          cases hany

end Step

end Nebase.Evdp.Interest
