/- Which of the descriptors that the kernel has installed the caller finds, or finds closed. -/

import Nebase.Sock.Unix.Model

set_option autoImplicit false
set_option relaxedAutoImplicit false

namespace Nebase.Sock.Unix

/-- The descriptors installed by a call for `n`; too large a number is refused before `recvmsg`. -/
def installedBy (abi : Abi) (recvmsg : Nat → Recvmsg) (n : Nat) : List Int :=
  if n ≥ NEB_UNIX_MAX_CMSG_FD then [] else (recvmsg (cmsgSpace abi (4 * (n + 1)))).installed

/-- On return the caller has a descriptor in the first `*fd_num` elements of `fds`, with a positive
result, or it is closed. -/
def Accounted (x : Int) (res : Except Fault Received) : Prop :=
  ∃ r, res = .ok r ∧ (0 < r.ret ∧ x ∈ r.fds.take r.fdNum ∨ x ∈ r.closed)

/-- The message has bytes, nothing of its control data is cut off, and its first control message has
all the descriptors, no more of them than the caller asks for. -/
def Recvmsg.HandsOver (n : Nat) (m : Recvmsg) : Prop :=
  0 < m.nr ∧ m.ctrunc = false ∧ ∃ c, m.control.head? = some c ∧ c.IsRights ∧ c.data.length ≤ n ∧
    ∀ x ∈ m.installed, x ∈ c.data

section Recv

variable {abi : Abi} {cloexec : Bool} {fcntl : Int → Bool} {n : Nat} {fds : List Int}
variable {recvmsg : Nat → Recvmsg} {m : Recvmsg}

/-- A call that has neither stored nor closed anything accounts for no descriptor. -/
private theorem not_accounted_of_failed {x ret : Int} {fdNum : Nat} (h : ret ≤ 0) :
    ¬ Accounted x (.ok ⟨ret, fdNum, fds, 0, []⟩) := by
  rintro ⟨r, hr, ⟨hpos, -⟩ | hclosed⟩
  · obtain rfl := Except.ok.inj hr
    exact absurd hpos (by simpa using h)
  · obtain rfl := Except.ok.inj hr
    simp at hclosed

private theorem not_accounted_of_fault {x : Int} {fault : Fault} :
    ¬ Accounted x (.error fault) := by
  rintro ⟨r, hr, -⟩
  cases hr

/-- Only what is stored is kept or closed, whether or not `FD_CLOEXEC` can be set. -/
private theorem accounted_stored {x : Int} (cloexec : Bool) (fcntl : Int → Bool) {r : Received}
    (pos : 0 < r.ret) (closed : r.closed = []) :
    Accounted x (.ok (if cloexec then r else setCloexec fcntl r)) ↔ x ∈ r.fds.take r.fdNum := by
  have hkept : Accounted x (.ok r) ↔ x ∈ r.fds.take r.fdNum := by
    constructor
    · rintro ⟨r', hr, ⟨-, h⟩ | h⟩
      · obtain rfl := Except.ok.inj hr
        exact h
      · obtain rfl := Except.ok.inj hr
        rw [closed] at h
        cases h
    · exact fun h => ⟨r, rfl, .inl ⟨pos, h⟩⟩
  cases cloexec with
  | true => exact hkept
  | false =>
    change Accounted x (.ok (setCloexec fcntl r)) ↔ _
    unfold setCloexec
    split
    · exact hkept
    · constructor
      · rintro ⟨r', hr, ⟨hneg, -⟩ | h⟩
        · obtain rfl := Except.ok.inj hr
          exact absurd (show (0 : Int) < -1 from hneg) (by decide)
        · obtain rfl := Except.ok.inj hr
          exact h
      · exact fun h => ⟨_, rfl, .inr h⟩

/-- Either the first control message's descriptors are stored, or those installed are lost. -/
private theorem stored_or_lost (cloexec : Bool) (fcntl : Int → Bool)
    (below : n < NEB_UNIX_MAX_CMSG_FD) (size : fds.length = n)
    (hm : recvmsg (cmsgSpace abi (4 * (n + 1))) = m) (lawful : m.Lawful abi) :
    (∃ c, 0 < m.nr ∧ m.ctrunc = false ∧ m.control.head? = some c ∧ c.IsRights ∧ c.data.length ≤ n ∧
      ∃ r : Received, r.ret = m.nr ∧ r.closed = [] ∧ r.fds.take r.fdNum = c.data ∧
        nebSockUnixRecvWithFds abi cloexec fcntl recvmsg fds n =
          .ok (if cloexec then r else setCloexec fcntl r)) ∨
      ¬ m.HandsOver n ∧ ∀ x ∈ m.installed,
        ¬ Accounted x (nebSockUnixRecvWithFds abi cloexec fcntl recvmsg fds n) := by
  generalize hres : nebSockUnixRecvWithFds abi cloexec fcntl recvmsg fds n = res
  rcases recv_cases cloexec fcntl below size hm lawful hres with
    ⟨hnr, rfl⟩ | ⟨-, htrunc, rfl⟩ | ⟨hnr, htrunc, ⟨hnone, rfl⟩ | ⟨c, hhead, hc⟩⟩
  · exact .inr ⟨fun h => absurd h.1 (Int.not_lt.mpr hnr), fun _ _ => not_accounted_of_failed hnr⟩
  · refine .inr ⟨fun h => ?_, fun _ _ => not_accounted_of_failed (by decide)⟩
    rw [h.2.1] at htrunc
    cases htrunc
  · refine .inr ⟨fun h => ?_, fun _ _ => not_accounted_of_fault⟩
    obtain ⟨-, -, c, hhead, -⟩ := h
    rw [hnone] at hhead
    cases hhead
  · rcases hc with ⟨hrights, rfl⟩ | ⟨-, hmore, rfl⟩ | ⟨hrights, hle, r, rfl, rfl⟩
    · refine .inr ⟨fun h => ?_, fun _ _ => not_accounted_of_failed (by decide)⟩
      obtain ⟨-, -, c', hhead', hrights', -⟩ := h
      obtain rfl := Option.some.inj (hhead.symm.trans hhead')
      exact hrights hrights'
    · refine .inr ⟨fun h => ?_, fun _ _ => not_accounted_of_fault⟩
      obtain ⟨-, -, c', hhead', -, hle, -⟩ := h
      obtain rfl := Option.some.inj (hhead.symm.trans hhead')
      exact absurd hle (Nat.not_le.mpr hmore)
    · exact .inl ⟨c, hnr, htrunc, hhead, hrights, hle, _, rfl, rfl, by simp, rfl⟩

end Recv

/-- No descriptor is lost exactly when none was installed or the message hands all of them over in
its first control message. -/
theorem nebSockUnixRecvWithFds_accounts_iff (abi : Abi) (cloexec : Bool) (fcntl : Int → Bool)
    (recvmsg : Nat → Recvmsg) (lawful : ∀ controllen, (recvmsg controllen).Lawful abi) (n : Nat)
    (fds : List Int) (size : fds.length = n) :
    (∀ x ∈ installedBy abi recvmsg n,
        Accounted x (nebSockUnixRecvWithFds abi cloexec fcntl recvmsg fds n)) ↔
      installedBy abi recvmsg n = [] ∨
        (recvmsg (cmsgSpace abi (4 * (n + 1)))).HandsOver n := by
  by_cases hn : n ≥ NEB_UNIX_MAX_CMSG_FD
  · have hnone : installedBy abi recvmsg n = [] := if_pos hn
    rw [hnone]
    exact iff_of_true (by simp) (.inl rfl)
  have hinstalled : installedBy abi recvmsg n =
      (recvmsg (cmsgSpace abi (4 * (n + 1)))).installed := if_neg hn
  rw [hinstalled]
  rcases stored_or_lost cloexec fcntl (Nat.not_le.mp hn) size rfl
    (lawful (cmsgSpace abi (4 * (n + 1)))) with
    ⟨c, hpos, htrunc, hhead, hrights, hle, r, hret, hclosed, hstored, hres⟩ | ⟨hnot, hlost⟩
  · have haccounted : ∀ x, Accounted x (nebSockUnixRecvWithFds abi cloexec fcntl recvmsg fds n) ↔
        x ∈ c.data := by
      intro x
      rw [hres, accounted_stored cloexec fcntl (hret ▸ hpos) hclosed, hstored]
    simp only [haccounted]
    constructor
    · exact fun h => .inr ⟨hpos, htrunc, c, hhead, hrights, hle, h⟩
    · rintro (hnone | ⟨-, -, c', hhead', -, -, hall⟩)
      · simp [hnone]
      · obtain rfl := Option.some.inj (hhead.symm.trans hhead')
        exact hall
  · constructor
    · intro h
      refine .inl (List.eq_nil_iff_forall_not_mem.mpr fun x hx => ?_)
      exact hlost x hx (h x hx)
    · rintro (hnone | hover)
      · simp [hnone]
      · exact absurd hover hnot

/-- A descriptor for an array of one. -/
theorem nebSockUnixRecvWithFds_accounts_iff_one :
    (deliver .lp64 8 5 [7] (cmsgSpace .lp64 8)).HandsOver 1 ∧
      ∀ x ∈ installedBy .lp64 (deliver .lp64 8 5 [7]) 1,
        Accounted x (nebSockUnixRecvWithFds .lp64 true (fun _ => true)
          (deliver .lp64 8 5 [7]) [0] 1) := by
  have hover : (deliver .lp64 8 5 [7] (cmsgSpace .lp64 8)).HandsOver 1 :=
    ⟨by decide, by decide, ⟨24 - 4, SOL_SOCKET, SCM_RIGHTS, [7]⟩, rfl, by decide, by decide,
      by decide⟩
  exact ⟨hover, (nebSockUnixRecvWithFds_accounts_iff .lp64 true (fun _ => true)
    (deliver .lp64 8 5 [7]) (deliver_lawful .lp64 8 5 [7]) 1 [0] rfl).mpr (.inr hover)⟩

/-- Three descriptors for an array of one: two of them are installed, and both stay open. -/
theorem nebSockUnixRecvWithFds_loses :
    installedBy .lp64 (deliver .lp64 8 5 [7, 8, 9]) 1 = [7, 8] ∧
      nebSockUnixRecvWithFds .lp64 true (fun _ => true) (deliver .lp64 8 5 [7, 8, 9]) [0]
        1 = .ok ⟨-1, 1, [0], 0, []⟩ ∧
      ¬ ∀ x ∈ installedBy .lp64 (deliver .lp64 8 5 [7, 8, 9]) 1,
        Accounted x (nebSockUnixRecvWithFds .lp64 true (fun _ => true)
          (deliver .lp64 8 5 [7, 8, 9]) [0] 1) := by
  have hinstalled : installedBy .lp64 (deliver .lp64 8 5 [7, 8, 9]) 1 = [7, 8] := by decide
  have hres : nebSockUnixRecvWithFds .lp64 true (fun _ => true)
      (deliver .lp64 8 5 [7, 8, 9]) [0] 1 = .ok ⟨-1, 1, [0], 0, []⟩ := rfl
  refine ⟨hinstalled, hres, fun h => ?_⟩
  rw [hinstalled, hres] at h
  exact not_accounted_of_failed (by decide) (h 7 (by decide))

end Nebase.Sock.Unix
