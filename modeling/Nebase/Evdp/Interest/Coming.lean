/- What comes for a source that waits for events: its armed registration, an entry of the batch, the
   flush of the pending list, or the rest of the handle function that runs. -/

import Nebase.Evdp.Epoll.Rearm
import Nebase.Evdp.Epoll.Requests
import Nebase.Evdp.Foreach.Lists

set_option autoImplicit false
set_option relaxedAutoImplicit false

namespace Nebase.Evdp.Interest

open Nebase.Foundation Nebase.Evdp.Epoll

/-- The registration of the descriptor was made for this attachment of `src`. -/
def Owns (k : Kernel) (src : Source) : Prop :=
  ∃ r, k.reg src.fd = some r ∧ r.event.data = src.ctlEvent.data

/-- It is armed, at least for what `src` waits for. -/
def Armed (k : Kernel) (src : Source) : Prop :=
  ∃ r, k.reg src.fd = some r ∧ r.event.data = src.ctlEvent.data ∧ r.armed = true ∧
    ∀ d, src.ctlEvent.events.has d = true → r.event.events.has d = true

/-- When the queue is about to wait, the kernel knows what each attached os_fd source waits for. -/
def KeepsInterest (q : State) : Prop :=
  q.ctl = .ready → ∀ p src, q.sources p = some src → src.type = .osFd → src.qInUse = true →
    src.ctlEvent.events.any = true → Armed q.kernel src

/-! The conditions. -/

/-- Every callback returns `CONTINUE`, `REMOVE` or `CLOSE`, and the `read` of a timer succeeds. -/
def GoesOn : Action → Prop
  | .cbReturn ret => ret = .continue ∨ ret = .remove ∨ ret = .close
  | .proceed ok => ok = true
  | _ => True

instance (a : Action) : Decidable (GoesOn a) := by
  unfold GoesOn
  split <;> infer_instance

/-- Every `epoll_ctl` so far has succeeded. -/
def AllSucceeded (q : State) : Prop := ∀ r ∈ q.kernel.requests, r.result = .ok

/-- The flush makes no `EPOLL_CTL_MOD` for a descriptor that another attached source has
registered. -/
def OverwritesNone (q : State) (a : Action) : Prop :=
  ∀ f ∈ q.flushing a, f.2.ctlOp = .mod → ∀ r s, q.sources r = some s → r ≠ f.1 →
    s.qInUse = true → s.added = true → s.fd ≠ f.2.fd

/-- No descriptor is closed that an attached source has registered. -/
def ClosesUnregistered (q : State) (a : Action) : Prop :=
  ∀ fd ∈ q.closes a, ∀ p src, q.sources p = some src → src.qInUse = true → src.added = true →
    src.fd ≠ fd

/-! What comes. -/

/-- The handle function of an os_fd source that has not looked at the rest of the interest yet, or
that has the source detached. -/
def handles (c : Ctl) (p : Ptr) : Prop :=
  match c with
  | .handle ne _ => ne.source = p
  | .callback ne stage => ne.source = p ∧ stage ≠ .last
  | .finish ne ret => ne.source = p ∧ ret ≠ .continue
  | _ => False

/-- An entry of the batch that is still to come is for `p`; of a program that has gone wrong nothing
is said. -/
def Due (q : State) (p : Ptr) : Prop :=
  q.ctl = .undefined ∨ ∃ i, q.ctl.upcoming = some i ∧ ∃ j e, i ≤ j ∧ q.ee[j]? = some e ∧
    e.data.map (·.ptr) = some p

/-- A source `src` at `p` is known to the kernel as the driver has it in its context, and whatever
it waits for is to come. -/
structure Fine (q : State) (p : Ptr) (src : Source) : Prop where
  data : src.qInUse = true → ∃ n, src.ctlEvent.data = some ⟨p, n⟩
  idle : src.qInUse = false → src.added = false
  owns : src.qInUse = true → src.added = true → Owns q.kernel src
  armed : src.qInUse = true → src.type = .osFd → src.added = true →
    Armed q.kernel src ∨ Due q p
  sought : src.qInUse = true → src.type = .osFd → src.ctlEvent.events.any = true →
    src.added = true ∨ src.pending = true ∨ handles q.ctl p

/-- Every source is. -/
def AllFine (q : State) : Prop := ∀ p src, q.sources p = some src → Fine q p src

section Facts

variable {q q' : State} {p r : Ptr} {src s : Source}

theorem Armed.owns {k : Kernel} (armed : Armed k src) : Owns k src := by
  obtain ⟨g, hg, hdata, -⟩ := armed
  exact ⟨g, hg, hdata⟩

theorem calls_handles {c : Ctl} (h : calls c p) : handles c p := by
  cases c with
  | callback ne stage => exact h
  | _ => exact h.elim

theorem handles_event {c : Ctl} (h : handles c p) : ∃ ne, c.event = some ne ∧ ne.source = p := by
  cases c with
  | handle ne stage => exact ⟨ne, rfl, h⟩
  | callback ne stage => exact ⟨ne, rfl, h.1⟩
  | finish ne ret => exact ⟨ne, rfl, h.1⟩
  | _ => exact h.elim

/-- What a callback of an os_fd source returns is looked at, or the source is detached. -/
theorem after_callback_handles (ne : NebEvdpEvent) {stage : Stage} (ret : NebEvdpCbRet)
    (notLast : stage ≠ .last) : handles (afterCallback ne stage ret) ne.source := by
  cases stage with
  | read =>
    unfold afterCallback
    split_ifs with hret
    · exact rfl
    · exact ⟨rfl, hret⟩
  | hup =>
    cases ret <;> exact ⟨rfl, by simp⟩
  | write =>
    unfold afterCallback
    split_ifs with hret
    · exact rfl
    · exact ⟨rfl, hret⟩
  | last => exact absurd rfl notLast

/-- The next entry stays the same while one event is handled. -/
theorem upcoming_event {c : Ctl} {ne : NebEvdpEvent} (h : c.event = some ne) :
    c.upcoming = some (ne.index + 1) := by
  cases c with
  | handle ne' stage =>
    obtain rfl := Option.some.inj h
    rfl
  | callback ne' stage =>
    obtain rfl := Option.some.inj h
    rfl
  | finish ne' ret =>
    obtain rfl := Option.some.inj h
    rfl
  | _ => cases h

theorem Due.undefined (ctl : q'.ctl = .undefined) : Due q' r := .inl ctl

/-- The batch stays the same, and none of its entries is passed over. -/
theorem Due.follow (due : Due q r) (defined : q.ctl ≠ .undefined)
    (upcoming : q'.ctl.upcoming = q.ctl.upcoming) (ee : q'.ee = q.ee) : Due q' r := by
  rcases due with h | ⟨i, hi, j, e, hj, he, hptr⟩
  · exact absurd h defined
  · exact .inr ⟨i, upcoming.trans hi, j, e, hj, ee ▸ he, hptr⟩

/-- Nothing is due outside a batch. -/
theorem not_due (ctl : q.ctl.upcoming = none) (defined : q.ctl ≠ .undefined) : ¬ Due q r := by
  rintro (h | ⟨i, hi, -⟩)
  · exact defined h
  · rw [ctl] at hi
    cases hi

/-- An entry that is looked at is nobody's, or that of the source which is looked up. -/
theorem Due.pass {i : Nat} {e : EpollEvent} (due : Due q r) (ctl : q.ctl = .events i)
    (entry : q.ee[i]? = some e) (other : e.data.map (·.ptr) ≠ some r)
    (upcoming : q'.ctl.upcoming = some (i + 1)) (ee : q'.ee = q.ee) : Due q' r := by
  rcases due with h | ⟨k, hk, j, e', hj, he', hptr⟩
  · rw [ctl] at h
    cases h
  · rw [ctl] at hk
    obtain rfl := Option.some.inj hk
    refine .inr ⟨i + 1, upcoming, j, e', ?_, ee ▸ he', hptr⟩
    have hne : j ≠ i := by
      rintro rfl
      rw [entry] at he'
      obtain rfl := Option.some.inj he'
      exact other hptr
    omega

/-- The entries of another source are cleared. -/
theorem Due.clear {c : Nat} (due : Due q r) (hr : r ≠ p) (defined : q.ctl ≠ .undefined)
    (upcoming : q'.ctl.upcoming = q.ctl.upcoming)
    (ee : q'.ee = q.ee.take c ++ (q.ee.drop c).map (·.clear p)) : Due q' r := by
  rcases due with h | ⟨i, hi, j, e, hj, he, hptr⟩
  · exact absurd h defined
  · refine .inr ⟨i, upcoming.trans hi, j, e, hj, ?_, hptr⟩
    have hlen : j < q.ee.length := (List.getElem?_eq_some_iff.mp he).1
    have hclear : e.clear p = e := by
      unfold EpollEvent.clear
      rw [if_neg]
      rw [hptr]
      exact fun h => hr (Option.some.inj h)
    rw [ee]
    by_cases hc : j < c
    · rw [List.getElem?_append_left (by simp; omega), List.getElem?_take_of_lt hc, he]
    · rw [List.getElem?_append_right (by simp; omega), List.getElem?_map, List.getElem?_drop,
        List.length_take, Nat.min_eq_left (by omega), Nat.add_sub_cancel' (by omega), he,
        Option.map_some, hclear]

/-- Two registered sources have different descriptors. -/
theorem AllFine.apart (fine : AllFine q) (hsrc : q.sources p = some src) (hs : q.sources r = some s)
    (huse : src.qInUse = true) (huse' : s.qInUse = true) (owns : Owns q.kernel src)
    (added : s.added = true) (hr : r ≠ p) : s.fd ≠ src.fd := by
  intro heq
  obtain ⟨g, hg, hdata⟩ := owns
  obtain ⟨g', hg', hdata'⟩ := (fine r s hs).owns huse' added
  rw [heq, hg] at hg'
  obtain rfl := Option.some.inj hg'
  obtain ⟨n, hn⟩ := (fine p src hsrc).data huse
  obtain ⟨n', hn'⟩ := (fine r s hs).data huse'
  rw [← hdata, hdata', hn'] at hn
  exact hr (congrArg Data.ptr (Option.some.inj hn))

/-- What concerns a source is as before. -/
theorem Fine.frame (fine : Fine q r s)
    (kernel : s.qInUse = true → s.added = true → q'.kernel.reg s.fd = q.kernel.reg s.fd)
    (due : Due q r → Due q' r) (handled : handles q.ctl r → handles q'.ctl r) : Fine q' r s where
  data := fine.data
  idle := fine.idle
  owns := by
    intro huse hadded
    unfold Owns
    rw [kernel huse hadded]
    exact fine.owns huse hadded
  armed := by
    intro huse htype hadded
    unfold Armed
    rw [kernel huse hadded]
    exact (fine.armed huse htype hadded).imp_right due
  sought := by
    intro huse htype hany
    exact (fine.sought huse htype hany).imp_right (Or.imp_right handled)

/-- One source is written; the others go on, as long as none of them is being handled. -/
theorem AllFine.put (fine : AllFine q) {o : Option Source}
    (sources : q'.sources = Function.update q.sources p o)
    (event : q'.ctl = q.ctl ∨ ∀ ne, q.ctl.event = some ne → ne.source = p)
    (due : ∀ x, x ≠ p → Due q x → Due q' x)
    (kernel : ∀ x t, x ≠ p → q.sources x = some t → t.qInUse = true → t.added = true →
      q'.kernel.reg t.fd = q.kernel.reg t.fd)
    (new : ∀ t, o = some t → Fine q' p t) : AllFine q' := by
  intro x t ht
  rw [sources] at ht
  by_cases hx : x = p
  · subst hx
    rw [Function.update_self] at ht
    exact new t ht
  · rw [Function.update_of_ne hx] at ht
    refine (fine x t ht).frame (kernel x t hx ht) (due x hx) ?_
    intro h
    rcases event with hctl | hevent
    · rwa [hctl]
    · obtain ⟨ne, hne, hsource⟩ := handles_event h
      exact absurd (hsource.symm.trans (hevent ne hne)) hx

/-- No source is written, and none is being handled. -/
theorem AllFine.still (fine : AllFine q) (sources : q'.sources = q.sources)
    (event : q.ctl.event = none) (due : ∀ x, Due q x → Due q' x)
    (kernel : q'.kernel = q.kernel) : AllFine q' := by
  intro x t ht
  rw [sources] at ht
  refine (fine x t ht).frame (fun _ _ => by rw [kernel]) (due x) ?_
  intro h
  obtain ⟨ne, hne, -⟩ := handles_event h
  rw [event] at hne
  cases hne

/-- The same outside of the batch, where nothing is due. -/
theorem AllFine.quiet (fine : AllFine q) {c : Ctl} (ctl : q.ctl = c) (event : c.event = none)
    (upcoming : c.upcoming = none) (defined : c ≠ .undefined) (sources : q'.sources = q.sources)
    (kernel : q'.kernel = q.kernel) : AllFine q' := by
  subst ctl
  exact fine.still sources event (fun x hdue => absurd hdue (not_due upcoming defined)) kernel

end Facts

end Nebase.Evdp.Interest
