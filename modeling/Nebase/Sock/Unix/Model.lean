/- Descriptors received over a unix socket: the control buffer, what the kernel puts into it, and
   what is read out of it. -/

import Mathlib.Data.List.Basic

set_option autoImplicit false
set_option relaxedAutoImplicit false

namespace Nebase.Sock.Unix

def NEB_UNIX_MAX_CMSG_FD : Nat := 16
def SOL_SOCKET : Nat := 1
def SCM_RIGHTS : Nat := 1

/-- The widths of `size_t`. -/
inductive Abi
  | ilp32
  | lp64

def Abi.sizeofSizeT : Abi → Nat
  | .ilp32 => 4
  | .lp64 => 8

def cmsgAlign (abi : Abi) (len : Nat) : Nat :=
  (len + abi.sizeofSizeT - 1) / abi.sizeofSizeT * abi.sizeofSizeT

/-- `sizeof(struct cmsghdr)`, a `size_t` and two `int`s. -/
def sizeofCmsghdr (abi : Abi) : Nat := abi.sizeofSizeT + 8

def cmsgSpace (abi : Abi) (len : Nat) : Nat := cmsgAlign abi len + cmsgAlign abi (sizeofCmsghdr abi)

def cmsgLen (abi : Abi) (len : Nat) : Nat := cmsgAlign abi (sizeofCmsghdr abi) + len

/-- A control message; `data` is its payload as `int`s. -/
structure Cmsghdr where
  cmsgLen : Nat
  cmsgLevel : Nat
  cmsgType : Nat
  data : List Int

/-- What `recvmsg` returns, and the flags and control messages it leaves in the `struct msghdr`. -/
structure Recvmsg where
  nr : Int
  ctrunc : Bool
  control : List Cmsghdr

/-- What must not happen: the use of a missing control header, a write past the end of `fds`. -/
inductive Fault
  | nullHeader
  | overrun
  deriving DecidableEq

/-- `stored` is how many `int`s were written to `fds`, `closed` the descriptors that were closed. -/
structure Received where
  ret : Int
  fdNum : Nat
  fds : List Int
  stored : Nat
  closed : List Int
  deriving DecidableEq

/-- `FD_CLOEXEC` is set on the first `fdNum` descriptors, or all of them are closed. -/
def setCloexec (fcntl : Int → Bool) (r : Received) : Received :=
  if (r.fds.take r.fdNum).all fcntl then
    r
  else
    { r with ret := -1, fdNum := 0, closed := r.fds.take r.fdNum }

/-- `recvmsg` is given the size of the control buffer. `cloexec` says that `MSG_CMSG_CLOEXEC` is
defined, `fcntl` on which descriptors `fcntl` succeeds. -/
def nebSockUnixRecvWithFds (abi : Abi) (cloexec : Bool) (fcntl : Int → Bool)
    (recvmsg : Nat → Recvmsg) (fds : List Int) (fdNum : Nat) : Except Fault Received :=
  if fdNum ≥ NEB_UNIX_MAX_CMSG_FD then
    .ok ⟨-1, fdNum, fds, 0, []⟩
  else
    let payloadLen := 4 * (fdNum + 1)
    let msg := recvmsg (cmsgSpace abi payloadLen)
    if msg.nr = -1 ∨ msg.nr = 0 then
      .ok ⟨msg.nr, fdNum, fds, 0, []⟩
    else if msg.ctrunc then
      .ok ⟨-1, fdNum, fds, 0, []⟩
    else
      match msg.control with
      | [] => .error .nullHeader
      | cmsg :: _ =>
        if cmsg.cmsgLevel ≠ SOL_SOCKET ∨ cmsg.cmsgType ≠ SCM_RIGHTS then
          .ok ⟨-1, 0, fds, 0, []⟩
        else
          let payloadLen := cmsg.cmsgLen - cmsgLen abi 0
          let fdNum := payloadLen / 4
          if fdNum > fds.length then
            .error .overrun
          else
            let fds := cmsg.data.take fdNum ++ fds.drop fdNum
            let r : Received := ⟨msg.nr, fdNum, fds, fdNum, []⟩
            .ok (if cloexec then r else setCloexec fcntl r)

/-! The kernel. -/

/-- The control message carries descriptors. -/
def Cmsghdr.IsRights (c : Cmsghdr) : Prop := c.cmsgLevel = SOL_SOCKET ∧ c.cmsgType = SCM_RIGHTS

instance (c : Cmsghdr) : Decidable c.IsRights :=
  inferInstanceAs (Decidable (c.cmsgLevel = SOL_SOCKET ∧ c.cmsgType = SCM_RIGHTS))

/-- The descriptors that came with a message. They are open in this process from here on. -/
def Recvmsg.installed (m : Recvmsg) : List Int :=
  (m.control.filter (fun c => decide c.IsRights)).flatMap (·.data)

/-- What `recvmsg` guarantees, whatever the peer has sent: a failure installs nothing, and the
length in a header is that of its descriptors, also where `MSG_CTRUNC` says that some are missing. -/
structure Recvmsg.Lawful (abi : Abi) (m : Recvmsg) : Prop where
  range : -1 ≤ m.nr
  failed : m.nr = -1 → m.installed = []
  length : ∀ c ∈ m.control, c.IsRights → c.cmsgLen = cmsgLen abi (4 * c.data.length)

/-- How many descriptors fit a control buffer. -/
def fdMax (abi : Abi) (controllen : Nat) : Nat := (controllen - sizeofCmsghdr abi) / 4

/-- One lawful `recvmsg`: a message of `dataLen` bytes with the descriptors `rights`, which the
receiver gets these numbers for. Installed are as many as fit the control buffer and the `free`
places of the descriptor table. -/
def deliver (abi : Abi) (free dataLen : Nat) (rights : List Int) (controllen : Nat) : Recvmsg :=
  let installed := rights.take (min (fdMax abi controllen) free)
  { nr := dataLen
    ctrunc := installed.length < rights.length
    control :=
      if installed = [] then []
      else [⟨cmsgLen abi (4 * installed.length), SOL_SOCKET, SCM_RIGHTS, installed⟩] }

theorem deliver_lawful (abi : Abi) (free dataLen : Nat) (rights : List Int) (controllen : Nat) :
    (deliver abi free dataLen rights controllen).Lawful abi := by
  refine ⟨by simp only [deliver]; omega, fun h => ?_, fun c hc _ => ?_⟩
  · simp only [deliver] at h
    omega
  · simp only [deliver] at hc
    split_ifs at hc
    · cases hc
    · rw [List.mem_singleton] at hc
      rw [hc]

section Recv

variable {abi : Abi} {n : Nat} {fds : List Int} {recvmsg : Nat → Recvmsg} {m : Recvmsg}

/-- What the call makes of each lawful `recvmsg`. -/
theorem recv_cases (cloexec : Bool) (fcntl : Int → Bool) (below : n < NEB_UNIX_MAX_CMSG_FD)
    (size : fds.length = n) (hm : recvmsg (cmsgSpace abi (4 * (n + 1))) = m)
    (lawful : m.Lawful abi) {res : Except Fault Received}
    (hres : nebSockUnixRecvWithFds abi cloexec fcntl recvmsg fds n = res) :
    m.nr ≤ 0 ∧ res = .ok ⟨m.nr, n, fds, 0, []⟩ ∨
      0 < m.nr ∧ m.ctrunc = true ∧ res = .ok ⟨-1, n, fds, 0, []⟩ ∨
      0 < m.nr ∧ m.ctrunc = false ∧
        (m.control.head? = none ∧ res = .error .nullHeader ∨
          ∃ c, m.control.head? = some c ∧
            (¬ c.IsRights ∧ res = .ok ⟨-1, 0, fds, 0, []⟩ ∨
              c.IsRights ∧ n < c.data.length ∧ res = .error .overrun ∨
              c.IsRights ∧ c.data.length ≤ n ∧ ∃ r : Received,
                r = ⟨m.nr, c.data.length, c.data ++ fds.drop c.data.length, c.data.length, []⟩ ∧
                res = .ok (if cloexec then r else setCloexec fcntl r))) := by
  have hrange := lawful.range
  unfold nebSockUnixRecvWithFds at hres
  rw [if_neg (Nat.not_le.mpr below)] at hres
  simp only [hm] at hres
  by_cases hnr : m.nr = -1 ∨ m.nr = 0
  · rw [if_pos hnr] at hres
    exact .inl ⟨by omega, hres.symm⟩
  rw [if_neg hnr] at hres
  have hpos : 0 < m.nr := by omega
  by_cases htrunc : m.ctrunc = true
  · rw [if_pos htrunc] at hres
    exact .inr (.inl ⟨hpos, htrunc, hres.symm⟩)
  rw [if_neg htrunc] at hres
  refine .inr (.inr ⟨hpos, Bool.not_eq_true _ ▸ htrunc, ?_⟩)
  cases hcontrol : m.control with
  | nil =>
    rw [hcontrol] at hres
    exact .inl ⟨rfl, hres.symm⟩
  | cons c rest =>
    rw [hcontrol] at hres
    refine .inr ⟨c, rfl, ?_⟩
    by_cases hrights : c.IsRights
    · have hlength := lawful.length c (by rw [hcontrol]; exact List.mem_cons_self) hrights
      -- the payload length of a header is that of its descriptors
      have hpayload : (c.cmsgLen - cmsgLen abi 0) / 4 = c.data.length := by
        rw [hlength]
        unfold cmsgLen
        omega
      have hkind : ¬ (c.cmsgLevel ≠ SOL_SOCKET ∨ c.cmsgType ≠ SCM_RIGHTS) := by
        rw [not_or, not_not, not_not]
        exact hrights
      simp only [if_neg hkind, hpayload, size, List.take_length] at hres
      by_cases hmore : n < c.data.length
      · rw [if_pos hmore] at hres
        exact .inr (.inl ⟨hrights, hmore, hres.symm⟩)
      · rw [if_neg hmore] at hres
        exact .inr (.inr ⟨hrights, Nat.not_lt.mp hmore, _, rfl, hres.symm⟩)
    · have hkind : c.cmsgLevel ≠ SOL_SOCKET ∨ c.cmsgType ≠ SCM_RIGHTS := by
        rw [← not_and_or]
        exact hrights
      simp only [if_pos hkind] at hres
      exact .inl ⟨hrights, hres.symm⟩

end Recv

end Nebase.Sock.Unix
