/- What a history of neb_pidfile_write calls through one descriptor leaves in the pidfile, and
   what the blocked calls among them report. -/

import Nebase.Pidfile.Model
import Nebase.Foundation.Machine

set_option autoImplicit false
set_option relaxedAutoImplicit false

namespace Nebase.Pidfile

open Nebase.Foundation
open Nebase.Foundation.Decimal

/-- The file consists of the digits of this pid. -/
def Kernel.Stores (k : Kernel) (h : Pid) : Prop := k.file = decimal h.val

instance (k : Kernel) (h : Pid) : Decidable (k.Stores h) :=
  inferInstanceAs (Decidable (k.file = decimal h.val))

/-- What can happen while one process has its descriptor open. -/
inductive Event
  | attempt (o : Outcome)
  /-- The other processes leave the file and the lock like this. -/
  | others (file : List UInt8) (locker : Option Pid)

/-- The process `p` calls `neb_pidfile_write` on `d`; the others can neither give it the lock nor
take it away. -/
def eventStep (p : Pid) (d : Fd) (k : Kernel) : Event → Option Kernel
  | .attempt o => some (nebPidfileWrite o p d k).2
  | .others file locker =>
    if locker = some p ↔ k.locker = some p then
      some { k with file := file, locker := locker }
    else
      none

/-- A call that returns 0 leaves the pid of its caller, and everyone who then finds the file locked
is told this pid; a blocked call returns the pid that is stored. -/
structure KeepsPid (p : Pid) (d : Fd) (o : Outcome) (k : Kernel) : Prop where
  stored : (nebPidfileWrite o p d k).1 = some 0 → (nebPidfileWrite o p d k).2.Stores p
  told : (nebPidfileWrite o p d k).1 = some 0 → ∀ q, q ≠ p → ∀ e,
    (nebPidfileOpen .fine q (some e) (nebPidfileWrite o p d k).2).1 = ⟨none, some p.val⟩ ∧
    (nebPidlock .fine q (some e) (nebPidfileWrite o p d k).2).1 = ⟨none, some p.val⟩
  blocked : o.lock = true → o.read = true → k.blocks p = true → ∀ h, k.Stores h →
    (nebPidfileWrite o p d k).1 = some (h.val : Int)

/-- The call comes to its end: no system call fails, and there is room for the pid, or there is a
pid to read. -/
def Settles (p : Pid) (o : Outcome) (k : Kernel) : Prop :=
  o.lock = true ∧
    if k.blocks p then o.read = true ∧ ∃ h, k.Stores h
    else o.ftruncate = true ∧ ∃ room, o.write = some room ∧ (decimal p.val).length ≤ room

private theorem write_blocked {p : Pid} {d : Fd} {o : Outcome} {k : Kernel} (lock : o.lock = true)
    (read : o.read = true) (blocks : k.blocks p = true) :
    nebPidfileWrite o p d k =
      (pidOf ((k.file.drop (k.tell d)).take PIDFILE_PIDBUF_SIZE),
        (k.read d PIDFILE_PIDBUF_SIZE).2) := by
  unfold nebPidfileWrite getPid
  simp only [lock, Bool.not_true, Bool.false_eq_true, if_false, blocks, if_true, read]
  rfl

private theorem write_locked {p : Pid} {d : Fd} {o : Outcome} {k : Kernel} {room : Nat}
    (lock : o.lock = true) (ftruncate : o.ftruncate = true) (write : o.write = some room)
    (fits : (decimal p.val).length ≤ room) (free : k.blocks p = false) :
    nebPidfileWrite o p d k = (some 0, (k.lock p).ftruncate.write d (decimal p.val)) := by
  have hmin : min room (decimal p.val).length = (decimal p.val).length := by omega
  unfold nebPidfileWrite setPid
  simp [lock, free, ftruncate, write, hmin]

/-- Nothing else returns 0. -/
private theorem returns_zero {p : Pid} {d : Fd} {o : Outcome} {k : Kernel}
    (h : (nebPidfileWrite o p d k).1 = some 0) :
    o.lock = true ∧ k.blocks p = false ∧ o.ftruncate = true ∧
      ∃ room, o.write = some room ∧ (decimal p.val).length ≤ room := by
  unfold nebPidfileWrite at h
  cases hlock : o.lock with
  | false => simp [hlock] at h
  | true =>
    simp only [hlock, Bool.not_true, Bool.false_eq_true, if_false] at h
    cases hblocks : k.blocks p with
    | true =>
      -- get_pid never returns 0
      simp only [hblocks, if_true, getPid, pidOf] at h
      split at h
      · split at h
        · split at h <;> simp at h
        · split at h
          · simp at h
          · rename_i hne
            exact absurd (Option.some.inj h) hne
      · simp at h
    | false =>
      simp only [hblocks, Bool.false_eq_true, if_false, setPid] at h
      cases htrunc : o.ftruncate with
      | false => simp [htrunc] at h
      | true =>
        cases hwrite : o.write with
        | none => simp [htrunc, hwrite] at h
        | some room =>
          refine ⟨rfl, rfl, rfl, room, rfl, ?_⟩
          by_contra hlt
          have hmin : min room (decimal p.val).length ≠ (decimal p.val).length := by omega
          simp [htrunc, hwrite, hmin] at h

private theorem read_stored {k : Kernel} {p : Pid} (stored : k.Stores p) (e : Fd) (q : Pid) :
    (getPid true e (k.openFd q e)).1 = some (p.val : Int) := by
  have hlen := decimal_length_lt p
  have hread : ((k.openFd q e).read e PIDFILE_PIDBUF_SIZE).1 = decimal p.val := by
    show ((k.openFd q e).file.drop ((k.openFd q e).tell e)).take _ = _
    rw [Kernel.tell_openFd, List.drop_zero]
    show k.file.take _ = _
    rw [stored]
    exact List.take_of_length_le hlen.le
  show pidOf _ = _
  rw [hread]
  exact pidOf_decimal p

/-- Whoever finds the file locked is told the pid in it. -/
theorem told_of_stores {k : Kernel} {p q : Pid} (stored : k.Stores p) (locked : k.locker = some p)
    (other : q ≠ p) (e : Fd) :
    (nebPidfileOpen .fine q (some e) k).1 = ⟨none, some p.val⟩ ∧
      (nebPidlock .fine q (some e) k).1 = ⟨none, some p.val⟩ := by
  have hblocks : (k.openFd q e).blocks q = true :=
    Kernel.blocks_iff.2 ⟨p, locked, fun h => other h.symm⟩
  have hread := read_stored stored e q
  constructor
  · show (if _ then _ else if (k.openFd q e).blocks q then _ else _ : Answer × Kernel).1 = _
    rw [hblocks]
    show (⟨none, (getPid true e (k.openFd q e)).1⟩ : Answer) = _
    rw [hread]
  · show (if _ then _ else if (k.openFd q e).blocks q then _ else _ : Answer × Kernel).1 = _
    rw [hblocks]
    show (⟨none, (getPid true e (k.openFd q e)).1⟩ : Answer) = _
    rw [hread]

private theorem stores_iff {p : Pid} {d : Fd} {k : Kernel} :
    ((k.lock p).ftruncate.write d (decimal p.val)).Stores p ↔ k.tell d = 0 := by
  unfold Kernel.Stores
  rw [Kernel.write_ftruncate_file]
  constructor
  · intro h
    have hlen := congrArg List.length h
    rw [List.length_append, List.length_replicate] at hlen
    show (k.lock p).tell d = 0
    omega
  · intro h
    have hzero : (k.lock p).tell d = 0 := h
    rw [hzero]
    rfl

/-- A stored pid is read whole from the start of the file, and from nowhere else. -/
private theorem reads_iff {h : Pid} {n : Nat} {k : Kernel} (stored : k.Stores h) :
    pidOf ((k.file.drop n).take PIDFILE_PIDBUF_SIZE) = some (h.val : Int) ↔ n = 0 := by
  have hlen := decimal_length_lt h
  have htake : (k.file.drop n).take PIDFILE_PIDBUF_SIZE = (decimal h.val).drop n := by
    rw [stored]
    apply List.take_of_length_le
    rw [List.length_drop]
    omega
  rw [htake]
  constructor
  · intro heq
    by_contra hne
    have hlt := leadingNumber_drop_lt h.pos (Nat.pos_of_ne_zero hne)
    rw [pidOf_drop] at heq
    split at heq
    · have hneg := Option.some.inj heq
      omega
    · have hval := Option.some.inj heq
      omega
  · rintro rfl
    rw [List.drop_zero]
    exact pidOf_decimal h

theorem keepsPid_iff (p : Pid) (d : Fd) (o : Outcome) (k : Kernel) :
    KeepsPid p d o k ↔ (Settles p o k → k.tell d = 0) := by
  constructor
  · rintro keeps ⟨hlock, hrest⟩
    by_cases hblocks : k.blocks p = true
    · rw [if_pos hblocks] at hrest
      obtain ⟨hread, h, hstored⟩ := hrest
      have hret := keeps.blocked hlock hread hblocks h hstored
      rw [write_blocked hlock hread hblocks] at hret
      exact (reads_iff hstored).1 hret
    · rw [if_neg hblocks] at hrest
      obtain ⟨htrunc, room, hwrite, hfits⟩ := hrest
      have heq := write_locked (d := d) hlock htrunc hwrite hfits (Bool.not_eq_true _ ▸ hblocks)
      have hstored := keeps.stored (by rw [heq])
      rw [heq] at hstored
      exact stores_iff.1 hstored
  · intro hzero
    have hstored : (nebPidfileWrite o p d k).1 = some 0 →
        (nebPidfileWrite o p d k).2.Stores p ∧ (nebPidfileWrite o p d k).2.locker = some p := by
      intro hret
      obtain ⟨hlock, hblocks, htrunc, room, hwrite, hfits⟩ := returns_zero hret
      have hsettles : Settles p o k := by
        refine ⟨hlock, ?_⟩
        rw [if_neg (by simp [hblocks])]
        exact ⟨htrunc, room, hwrite, hfits⟩
      rw [write_locked hlock htrunc hwrite hfits hblocks]
      exact ⟨stores_iff.2 (hzero hsettles), rfl⟩
    constructor
    · intro hret
      exact (hstored hret).1
    · intro hret q hq e
      exact told_of_stores (hstored hret).1 (hstored hret).2 hq e
    · intro hlock hread hblocks h hh
      have hsettles : Settles p o k := by
        refine ⟨hlock, ?_⟩
        rw [if_pos hblocks]
        exact ⟨hread, h, hh⟩
      rw [write_blocked hlock hread hblocks]
      exact (reads_iff hh).2 (hzero hsettles)

/-- What a call does to the offset of its descriptor: it moves forward, and a call that reports a
pid has moved it. -/
private theorem offset_write {p : Pid} {d : Fd} {n : Nat} (o : Outcome) {k : Kernel}
    (offset : k.offset d = some n) :
    ∃ m, (nebPidfileWrite o p d k).2.offset d = some m ∧ n ≤ m ∧
      ∀ v : Int, 0 < v → (nebPidfileWrite o p d k).1 = some v → n < m := by
  have htell := Kernel.tell_of_offset offset
  unfold nebPidfileWrite
  split
  · refine ⟨n, offset, le_refl n, ?_⟩
    intro v hpos hv
    have hneg : (-1 : Int) = v := Option.some.inj hv
    omega
  split
  · unfold getPid
    split
    · refine ⟨_, Function.update_self .., by rw [htell]; omega, ?_⟩
      intro v hpos hv
      by_contra hle
      -- nothing was read, and that is no pid
      have hnil : (k.read d PIDFILE_PIDBUF_SIZE).1 = [] := by
        apply List.eq_nil_of_length_eq_zero
        show ((k.file.drop (k.tell d)).take PIDFILE_PIDBUF_SIZE).length = 0
        rw [htell] at hle ⊢
        omega
      rw [hnil] at hv
      have hneg : some (-1 : Int) = some v := hv
      have hval := Option.some.inj hneg
      omega
    · refine ⟨n, offset, le_refl n, ?_⟩
      intro v hpos hv
      have hneg : (-1 : Int) = v := Option.some.inj hv
      omega
  · have hset : ∃ m, (setPid o p d (k.lock p)).2.offset d = some m ∧ n ≤ m := by
      unfold setPid
      split
      · cases o.write with
        | none => exact ⟨n, offset, le_refl n⟩
        | some room =>
          refine ⟨_, Function.update_self .., ?_⟩
          have hlock : (k.lock p).ftruncate.tell d = n := htell
          rw [hlock]
          omega
      · exact ⟨n, offset, le_refl n⟩
    obtain ⟨m, hm, hle⟩ := hset
    refine ⟨m, hm, hle, ?_⟩
    intro v hpos hv
    dsimp only at hv
    split at hv
    · have hneg : (-1 : Int) = v := Option.some.inj hv
      omega
    · have hzero : (0 : Int) = v := Option.some.inj hv
      omega

private theorem offset_step {p : Pid} {d : Fd} {n : Nat} {k k' : Kernel} {e : Event}
    (offset : k.offset d = some n) (h : eventStep p d k e = some k') :
    ∃ m, k'.offset d = some m ∧ n ≤ m := by
  cases e with
  | attempt o =>
    obtain rfl := Option.some.inj h
    obtain ⟨m, hm, hle, -⟩ := offset_write (p := p) o offset
    exact ⟨m, hm, hle⟩
  | others file locker =>
    simp only [eventStep] at h
    split at h
    · obtain rfl := Option.some.inj h
      exact ⟨n, offset, le_refl n⟩
    · cases h

private theorem offset_run {p : Pid} {d : Fd} {es : List Event} {n : Nat} {k k' : Kernel}
    (offset : k.offset d = some n) (reached : Machine.run (eventStep p d) k es = some k') :
    ∃ m, k'.offset d = some m ∧ n ≤ m := by
  induction es generalizing n k with
  | nil =>
    obtain rfl : k = k' := by simpa using reached
    exact ⟨n, offset, le_refl n⟩
  | cons e es ih =>
    obtain ⟨t, ht, hrest⟩ := Machine.run_cons_eq_some.1 reached
    obtain ⟨m, hm, hle⟩ := offset_step offset ht
    obtain ⟨l, hl, hle'⟩ := ih hm hrest
    exact ⟨l, hl, hle.trans hle'⟩

/-- After any history of a descriptor, the next call keeps to the pids exactly when it does not come
to its end, or when no call through the descriptor has read or written anything before. -/
theorem nebPidfileWrite_keeps_pid_iff (p : Pid) (d : Fd) (k₀ k : Kernel) (es : List Event)
    (opened : k₀.offset d = some 0) (reached : Machine.run (eventStep p d) k₀ es = some k)
    (o : Outcome) : KeepsPid p d o k ↔ (Settles p o k → k.offset d = some 0) := by
  obtain ⟨n, hn, -⟩ := offset_run opened reached
  rw [keepsPid_iff, Kernel.tell_of_offset hn, hn, Option.some.injEq]

/-- After a call that reported a pid no call through the descriptor keeps to the pids any more. -/
theorem nebPidfileWrite_reports_once {p : Pid} {d : Fd} {k₀ k : Kernel} {es : List Event}
    {first o : Outcome} {v : Int} (opened : k₀.offset d = some 0) (pos : 0 < v)
    (reported : (nebPidfileWrite first p d k₀).1 = some v)
    (reached : Machine.run (eventStep p d) k₀ (.attempt first :: es) = some k)
    (settles : Settles p o k) : ¬ KeepsPid p d o k := by
  obtain ⟨t, ht, hrest⟩ := Machine.run_cons_eq_some.1 reached
  obtain rfl := Option.some.inj ht
  obtain ⟨m, hm, -, hlt⟩ := offset_write (p := p) first opened
  obtain ⟨l, hl, hle⟩ := offset_run hm hrest
  have hmoved := hlt v pos reported
  rw [keepsPid_iff, Kernel.tell_of_offset hl]
  intro hzero
  have hnone := hzero settles
  omega

private def five : Pid := ⟨5, by decide, by decide⟩

private def seventeen : Pid := ⟨17, by decide, by decide⟩

/-- The first call of process 5 finds the file locked by process 17; the second one settles too, but
does not keep to the pids. -/
theorem nebPidfileWrite_keeps_pid_iff_first :
    (∃ k, Machine.run (eventStep five 3) ((Kernel.left []).openFd five 3)
      [.others (decimal 17) (some seventeen)] = some k ∧ k.offset 3 = some 0 ∧
      KeepsPid five 3 .fine k) ∧
    ∃ k, Machine.run (eventStep five 3) ((Kernel.left []).openFd five 3)
      [.others (decimal 17) (some seventeen), .attempt .fine] = some k ∧ k.offset 3 = some 2 ∧
      Settles five .fine k ∧ ¬ KeepsPid five 3 .fine k := by
  constructor
  · exact ⟨_, rfl, rfl, (nebPidfileWrite_keeps_pid_iff five 3 ((Kernel.left []).openFd five 3) _
      [.others (decimal 17) (some seventeen)] rfl rfl .fine).mpr (fun _ => rfl)⟩
  · obtain ⟨k, hk, hfacts⟩ : ∃ k, Machine.run (eventStep five 3) ((Kernel.left []).openFd five 3)
        [.others (decimal 17) (some seventeen), .attempt .fine] = some k ∧
        (k.offset 3, k.blocks five, k.file) = (some 2, true, decimal 17) :=
      Machine.run_reaches (by decide)
    simp only [Prod.mk.injEq] at hfacts
    obtain ⟨hoffset, hblocks, hfile⟩ := hfacts
    have settles : Settles five .fine k := by
      refine ⟨rfl, ?_⟩
      rw [if_pos hblocks]
      exact ⟨rfl, seventeen, hfile⟩
    refine ⟨k, hk, hoffset, settles, fun keeps => ?_⟩
    have hnone := (nebPidfileWrite_keeps_pid_iff five 3 ((Kernel.left []).openFd five 3) k
      [.others (decimal 17) (some seventeen), .attempt .fine] rfl hk .fine).mp keeps settles
    rw [hoffset] at hnone
    cases hnone

/-- A second call finds nothing left to read, and when it gets the lock it leaves zeros before its
pid. -/
theorem nebPidfileWrite_keeps_pid_fails :
    (∃ k, Machine.run (eventStep five 3) ((Kernel.left []).openFd five 3)
      [.others (decimal 17) (some seventeen), .attempt .fine] = some k ∧
      ¬ KeepsPid five 3 .fine k) ∧
    ∃ k, Machine.run (eventStep five 3) ((Kernel.left []).openFd five 3)
      [.others (decimal 17) (some seventeen), .attempt .fine, .others (decimal 17) none] = some k ∧
      ¬ KeepsPid five 3 .fine k := by
  refine ⟨⟨_, rfl, ?_⟩, ⟨_, rfl, ?_⟩⟩
  · intro keeps
    have hret := keeps.blocked rfl rfl (by decide) seventeen (by decide)
    exact absurd hret (by decide)
  · intro keeps
    have hstored := keeps.stored (by decide)
    exact absurd hstored (by decide)

end Nebase.Pidfile
