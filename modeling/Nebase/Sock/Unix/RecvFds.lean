/- When the reception of descriptors is bounded by the caller's array. -/

import Nebase.Sock.Unix.Model

set_option autoImplicit false
set_option relaxedAutoImplicit false

namespace Nebase.Sock.Unix

/-- The call meets its description: no missing header is used, no more than the caller's `n`
descriptors are stored, and a result of at least `least` comes with the number stored. -/
def Meets (n : Nat) (least : Int) (res : Except Fault Received) : Prop :=
  ∃ r, res = .ok r ∧ r.stored ≤ n ∧ (least ≤ r.ret → r.fdNum = r.stored)

/-- `recvmsg` gives no bytes or cuts control data off, or there is a control message, and the
first one is of another kind or has at most `n` descriptors. -/
def Recvmsg.Fits (n : Nat) (m : Recvmsg) : Prop :=
  m.nr ≤ 0 ∨ m.ctrunc = true ∨
    ∃ c, m.control.head? = some c ∧ (c.IsRights → c.data.length ≤ n)

section Recv

variable {abi : Abi} {n : Nat} {fds : List Int} {recvmsg : Nat → Recvmsg} {m : Recvmsg}
variable {least : Int}

/-- A call that fails before it stores anything meets its description. -/
private theorem meets_failed {ret : Int} {fdNum : Nat} (failed : ret < 0) (h : 0 ≤ least) :
    Meets n least (.ok ⟨ret, fdNum, fds, 0, []⟩) := by
  refine ⟨_, rfl, Nat.zero_le n, fun hret => ?_⟩
  simp only at hret
  omega

private theorem not_meets_fault {fault : Fault} : ¬ Meets n least (.error fault) := by
  rintro ⟨r, hr, -⟩
  cases hr

/-- What is stored is reported, or `-1` is returned where `FD_CLOEXEC` cannot be set. -/
private theorem meets_stored (cloexec : Bool) (fcntl : Int → Bool) (h : 0 ≤ least) {r : Received}
    (le : r.stored ≤ n) (reports : r.fdNum = r.stored) :
    Meets n least (.ok (if cloexec then r else setCloexec fcntl r)) := by
  refine ⟨_, rfl, ?_⟩
  unfold setCloexec
  split_ifs
  · exact ⟨le, fun _ => reports⟩
  · exact ⟨le, fun _ => reports⟩
  · refine ⟨le, fun hret => ?_⟩
    simp only at hret
    omega

/-- A result of other than no bytes meets the description exactly when it fits. -/
private theorem meets_iff_fits (cloexec : Bool) (fcntl : Int → Bool)
    (below : n < NEB_UNIX_MAX_CMSG_FD) (size : fds.length = n)
    (hm : recvmsg (cmsgSpace abi (4 * (n + 1))) = m) (lawful : m.Lawful abi) (hzero : m.nr ≠ 0)
    (hleast : 0 ≤ least) :
    Meets n least (nebSockUnixRecvWithFds abi cloexec fcntl recvmsg fds n) ↔ m.Fits n := by
  generalize hres : nebSockUnixRecvWithFds abi cloexec fcntl recvmsg fds n = res
  rcases recv_cases cloexec fcntl below size hm lawful hres with
    ⟨hnr, rfl⟩ | ⟨-, htrunc, rfl⟩ | ⟨hnr, htrunc, ⟨hnone, rfl⟩ | ⟨c, hhead, hc⟩⟩
  · exact iff_of_true (meets_failed (by omega) hleast) (.inl hnr)
  · exact iff_of_true (meets_failed (by decide) hleast) (.inr (.inl htrunc))
  · refine iff_of_false not_meets_fault ?_
    rintro (h | h | ⟨c, h, -⟩)
    · omega
    · rw [htrunc] at h
      cases h
    · rw [hnone] at h
      cases h
  · rcases hc with ⟨hrights, rfl⟩ | ⟨hrights, hmore, rfl⟩ | ⟨hrights, hle, r, rfl, rfl⟩
    · exact iff_of_true (meets_failed (by decide) hleast)
        (.inr (.inr ⟨c, hhead, fun h => absurd h hrights⟩))
    · refine iff_of_false not_meets_fault ?_
      rintro (h | h | ⟨c', h, hle⟩)
      · omega
      · rw [htrunc] at h
        cases h
      · obtain rfl := Option.some.inj (hhead.symm.trans h)
        exact absurd (hle hrights) (Nat.not_le.mpr hmore)
    · exact iff_of_true (meets_stored cloexec fcntl hleast hle rfl)
        (.inr (.inr ⟨c, hhead, fun _ => hle⟩))

end Recv

/-- A call for `n` descriptors meets its description, a result of 0 left aside, exactly when what
`recvmsg` gives fits. A result of 0 never reports what was stored. -/
theorem nebSockUnixRecvWithFds_meets_iff (abi : Abi) (cloexec : Bool) (fcntl : Int → Bool)
    (recvmsg : Nat → Recvmsg) (lawful : ∀ controllen, (recvmsg controllen).Lawful abi) (n : Nat)
    (pos : 1 ≤ n) (below : n < NEB_UNIX_MAX_CMSG_FD) (fds : List Int) (size : fds.length = n) :
    (Meets n 1 (nebSockUnixRecvWithFds abi cloexec fcntl recvmsg fds n) ↔
        (recvmsg (cmsgSpace abi (4 * (n + 1)))).Fits n) ∧
      (Meets n 0 (nebSockUnixRecvWithFds abi cloexec fcntl recvmsg fds n) ↔
        (recvmsg (cmsgSpace abi (4 * (n + 1)))).Fits n ∧
          (recvmsg (cmsgSpace abi (4 * (n + 1)))).nr ≠ 0) := by
  generalize hm : recvmsg (cmsgSpace abi (4 * (n + 1))) = m
  have hlawful : m.Lawful abi := hm ▸ lawful _
  by_cases hzero : m.nr = 0
  · have hfits : m.Fits n := .inl (Int.le_of_eq hzero)
    obtain ⟨-, hres⟩ | ⟨hnr, -⟩ | ⟨hnr, -⟩ := recv_cases cloexec fcntl below size hm hlawful rfl
    · rw [hres, hzero]
      refine ⟨iff_of_true ⟨_, rfl, Nat.zero_le n, fun h => ?_⟩ hfits,
        iff_of_false ?_ (fun h => h.2 rfl)⟩
      · exact absurd h (show ¬ (1 : Int) ≤ 0 by decide)
      · -- the requested number is left in `*fd_num`
        rintro ⟨r, hr, -, hreport⟩
        obtain rfl := Except.ok.inj hr
        have hnone : n = 0 := hreport (Int.le_refl 0)
        omega
    · omega
    · omega
  · have hiff : ∀ least, 0 ≤ least →
        (Meets n least (nebSockUnixRecvWithFds abi cloexec fcntl recvmsg fds n) ↔ m.Fits n) :=
      fun _ => meets_iff_fits cloexec fcntl below size hm hlawful hzero
    exact ⟨hiff 1 (by decide), (hiff 0 (by decide)).trans (and_iff_left hzero).symm⟩

/-- For an array of one, a descriptor, and two of which a full descriptor table takes one. -/
theorem nebSockUnixRecvWithFds_meets_iff_one :
    (deliver .lp64 8 5 [7] (cmsgSpace .lp64 8)).Fits 1 ∧ Meets 1 1
        (nebSockUnixRecvWithFds .lp64 true (fun _ => true) (deliver .lp64 8 5 [7]) [0] 1) ∧
      (deliver .lp64 1 5 [7, 8] (cmsgSpace .lp64 8)).Fits 1 ∧ Meets 1 1
        (nebSockUnixRecvWithFds .lp64 true (fun _ => true) (deliver .lp64 1 5 [7, 8]) [0] 1) := by
  have hone : (deliver .lp64 8 5 [7] (cmsgSpace .lp64 8)).Fits 1 :=
    .inr (.inr ⟨⟨20, SOL_SOCKET, SCM_RIGHTS, [7]⟩, rfl, fun _ => by decide⟩)
  have hfull : (deliver .lp64 1 5 [7, 8] (cmsgSpace .lp64 8)).Fits 1 := .inr (.inl (by decide))
  exact ⟨hone, ((nebSockUnixRecvWithFds_meets_iff .lp64 true (fun _ => true)
      (deliver .lp64 8 5 [7]) (deliver_lawful .lp64 8 5 [7]) 1 (by decide) (by decide)
      [0] rfl).1).mpr hone,
    hfull, ((nebSockUnixRecvWithFds_meets_iff .lp64 true (fun _ => true)
      (deliver .lp64 1 5 [7, 8]) (deliver_lawful .lp64 1 5 [7, 8]) 1 (by decide) (by decide)
      [0] rfl).1).mpr hfull⟩

/-- A message without descriptors, and two descriptors for an array of one. -/
theorem nebSockUnixRecvWithFds_faults :
    nebSockUnixRecvWithFds .lp64 true (fun _ => true) (deliver .lp64 8 5 []) [0] 1 =
        .error .nullHeader ∧
      nebSockUnixRecvWithFds .lp64 true (fun _ => true) (deliver .lp64 8 5 [7, 8]) [0] 1 =
        .error .overrun ∧
      ¬ Meets 1 1
        (nebSockUnixRecvWithFds .lp64 true (fun _ => true) (deliver .lp64 8 5 []) [0] 1) ∧
      ¬ Meets 1 1
        (nebSockUnixRecvWithFds .lp64 true (fun _ => true) (deliver .lp64 8 5 [7, 8]) [0] 1) :=
  ⟨rfl, rfl, not_meets_fault, not_meets_fault⟩

end Nebase.Sock.Unix
