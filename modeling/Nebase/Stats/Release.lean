/- What the readers of procfs leave open. -/

import Nebase.Stats.Tokens

set_option autoImplicit false
set_option relaxedAutoImplicit false

namespace Nebase.Stats

/-- The call ends without touching a byte outside `buf`, and leaves open what was open. -/
def Releases {α : Type} (p : OpenFiles) (res : Except Fault (Int × α × OpenFiles)) : Prop :=
  ∃ ret a, res = .ok (ret, a, p)

/-- If the call returns, it leaves open what was open. -/
def ReleasesStream {α : Type} (p : OpenFiles) (res : Except Fault (α × OpenFiles)) : Prop :=
  ∀ a p', res = .ok (a, p') → p' = p

/-- A blank stands behind the last closing parenthesis. -/
def HasComm (bytes : List UInt8) : Prop :=
  ∃ comm rest, cstr bytes = comm ++ 41 :: 32 :: rest ∧ 41 ∉ rest

/-- The file cannot be opened, or what is read of it fills the buffer or is not what procfs
writes. -/
def StatRefused (o : ProcOutcome) : Prop :=
  o.stat = false ∨
    ∃ buf, o.read = some buf ∧ (buf.bytes.length = sizeofBuf ∨ ¬ HasComm buf.bytes)

/-- `get_stat` is not called, or refuses the file. -/
def FillRefused (o : ProcOutcome) (flags : UInt32) : Prop :=
  flags &&& NEB_PROC_F_START ≠ 0 ∧ (o.dir = false ∨ o.fstatat = none) ∨
    flags &&& (NEB_PROC_F_CPU ||| NEB_PROC_F_VM) = 0 ∨ StatRefused o

/-- A line of a device with a type, but without a size or without what is used of it. -/
def Breaks (o : SwapOutcome) : Prop :=
  ∃ i line, o.lines[i]? = some line ∧ line.head? = some 47 ∧ o.alloc i = true ∧
    2 ≤ (swapFields line).length ∧ (swapFields line).length < 4

theorem lowest_not_mem (used : Finset Nat) : lowest used ∉ used :=
  Nat.find_spec (Infinite.exists_notMem_finset used)

/-- What was opened is closed. -/
theorem close_open_fd (p : OpenFiles) : p.openFd.2.close p.openFd.1 = p := by
  have herase := Finset.erase_insert (lowest_not_mem p.descriptors)
  simp only [OpenFiles.close, OpenFiles.openFd, herase]

/-- What was opened is left open. -/
theorem open_fd_ne (p : OpenFiles) : p.openFd.2 ≠ p := by
  intro h
  have hdescriptors : insert (lowest p.descriptors) p.descriptors = p.descriptors :=
    congrArg OpenFiles.descriptors h
  exact lowest_not_mem p.descriptors (Finset.insert_eq_self.mp hdescriptors)

theorem fopen_ne (p : OpenFiles) : p.fopen ≠ p := by
  intro h
  have hstreams : insert (lowest p.streams) p.streams = p.streams :=
    congrArg OpenFiles.streams h
  exact lowest_not_mem p.streams (Finset.insert_eq_self.mp hstreams)

/-- The directory is always closed. -/
theorem get_starttime_releases (o : ProcOutcome) (s : NebStatsProc) (p : OpenFiles) :
    (getStarttime o s p).2.2 = p ∧
      ((getStarttime o s p).1 = 0 ↔ ¬ (o.dir = false ∨ o.fstatat = none)) := by
  unfold getStarttime
  cases o.dir with
  | false => simp
  | true =>
    cases o.fstatat with
    | none => exact ⟨close_open_fd p, by simp⟩
    | some mtim => exact ⟨close_open_fd p, by simp⟩

/-- The text that the columns are read from, where there is some. -/
private theorem has_comm_iff (bytes : List UInt8) :
    HasComm bytes ↔ ∃ rest, strrchr (cstr bytes) 41 = some rest ∧ rest.head? = some 32 := by
  constructor
  · rintro ⟨comm, rest, hsplit, hlast⟩
    have hlast' : (41 : UInt8) ∉ 32 :: rest := by
      rw [List.mem_cons, not_or]
      exact ⟨by decide, hlast⟩
    exact ⟨32 :: rest, by rw [hsplit, strrchr_append hlast'], rfl⟩
  · rintro ⟨rest, hfound, hblank⟩
    have hmem : 41 ∈ cstr bytes := by
      by_contra hno
      rw [strrchr_eq_none hno] at hfound
      cases hfound
    obtain ⟨front, rest', hsplit, hlast⟩ := last_split hmem
    rw [hsplit, strrchr_append hlast] at hfound
    obtain rfl := Option.some.inj hfound
    cases rest' with
    | nil => cases hblank
    | cons b rest =>
      obtain rfl := Option.some.inj hblank
      exact ⟨front, rest, hsplit, fun h => hlast (List.mem_cons_of_mem _ h)⟩

/-- A file that is refused is closed. -/
private theorem get_stat_refused (conf : Sysconf) {o : ProcOutcome} (h : StatRefused o)
    (flags : UInt32) (s : NebStatsProc) (p : OpenFiles) :
    getStat conf o flags s p = .ok (-1, s, p) := by
  have hclose := close_open_fd p
  unfold getStat
  rcases h with hopen | ⟨buf, hread, hrefused⟩
  · simp [hopen]
  · cases hopen : o.stat with
    | false => rfl
    | true =>
      rw [hread]
      rw [has_comm_iff] at hrefused
      by_cases hfull : buf.bytes.length = sizeofBuf
      · simp [hfull, hclose]
      · cases hfound : strrchr (cstr buf.bytes) 41 with
        | none => simp [hfull, hclose, hfound]
        | some rest =>
          have hblank : rest.head? ≠ some 32 :=
            fun h => hrefused.elim hfull (fun hno => hno ⟨rest, hfound, h⟩)
          simp [hfull, hfound, hblank, hclose]

/-- One that is not refused stays open, or is read with an error. -/
private theorem get_stat_accepted (conf : Sysconf) {o : ProcOutcome} (h : ¬ StatRefused o)
    (flags : UInt32) (s : NebStatsProc) (p : OpenFiles) :
    getStat conf o flags s p = .error (.index (-1)) ∨
      ∃ s', getStat conf o flags s p = .ok (0, s', p.openFd.2) := by
  obtain ⟨hopen, hrefused⟩ := not_or.mp h
  rw [Bool.not_eq_false] at hopen
  unfold getStat
  rw [hopen]
  cases hread : o.read with
  | none => exact .inl rfl
  | some buf =>
    have hbuf : ¬ (buf.bytes.length = sizeofBuf ∨ ¬ HasComm buf.bytes) :=
      fun hno => hrefused ⟨buf, hread, hno⟩
    obtain ⟨hfull, hcomm⟩ := not_or.mp hbuf
    obtain ⟨rest, hfound, hblank⟩ := (has_comm_iff _).mp (not_not.mp hcomm)
    exact .inr ⟨_, by simp [hfull, hfound, hblank]; rfl⟩

/-- `get_stat` leaves nothing open exactly where it refuses the file. -/
theorem get_stat_releases_iff (conf : Sysconf) (o : ProcOutcome) (flags : UInt32) (s : NebStatsProc)
    (p : OpenFiles) : Releases p (getStat conf o flags s p) ↔ StatRefused o := by
  constructor
  · rintro ⟨ret, a, hres⟩
    by_contra hrefused
    rcases get_stat_accepted conf hrefused flags s p with hret | ⟨s', hret⟩
    · rw [hret] at hres
      cases hres
    · rw [hret] at hres
      simp only [Except.ok.injEq, Prod.mk.injEq] at hres
      exact open_fd_ne p hres.2.2
  · intro hrefused
    exact ⟨-1, s, get_stat_refused conf hrefused flags s p⟩

/-- `neb_stats_proc_fill` leaves nothing open exactly where it does not get to a `get_stat` that
takes the file. -/
theorem fill_releases_iff (conf : Sysconf) (o : ProcOutcome) (pid : Int) (s : NebStatsProc)
    (flags : UInt32) (p : OpenFiles) :
    Releases p (nebStatsProcFill conf o pid s flags p) ↔ FillRefused o flags := by
  -- what comes behind the start time
  have hrest : ∀ s', Releases p
      (if flags &&& (NEB_PROC_F_CPU ||| NEB_PROC_F_VM) ≠ 0 then getStat conf o flags s' p
        else .ok (0, s', p)) ↔
      flags &&& (NEB_PROC_F_CPU ||| NEB_PROC_F_VM) = 0 ∨ StatRefused o := by
    intro s'
    split_ifs with hstat
    · rw [get_stat_releases_iff]
      exact ⟨.inr, fun h => h.resolve_left hstat⟩
    · exact ⟨fun _ => .inl (not_not.mp hstat), fun _ => ⟨0, s', rfl⟩⟩
  unfold nebStatsProcFill FillRefused
  by_cases hstart : flags &&& NEB_PROC_F_START ≠ 0
  · obtain ⟨hsame, hzero⟩ := get_starttime_releases o { s with pid := pid } p
    rcases hres : getStarttime o { s with pid := pid } p with ⟨ret, s', p'⟩
    rw [hres] at hsame hzero
    obtain rfl : p' = p := hsame
    simp only [if_pos hstart, hres]
    by_cases hret : ret = 0
    · have hno := hzero.mp hret
      simp only [hret, ne_eq, not_true_eq_false, if_false]
      rw [hrest]
      exact ⟨.inr, fun h => h.resolve_left (fun h' => hno h'.2)⟩
    · have hfailed : o.dir = false ∨ o.fstatat = none := by
        by_contra hno
        exact hret (hzero.mpr hno)
      simp only [ne_eq, hret, not_false_eq_true, if_true]
      exact ⟨fun _ => .inl ⟨hstart, hfailed⟩, fun _ => ⟨-1, s', rfl⟩⟩
  · simp only [if_neg hstart, ne_eq, not_true_eq_false, if_false]
    rw [hrest]
    exact ⟨.inr, fun h => h.resolve_left (fun h' => hstart h'.1)⟩

/-- A line breaks where its size, or what is used of it, is a null pointer. -/
private theorem swap_line_spec (alloc : Bool) (line : List UInt8) :
    (∃ n, swapLine alloc line = .ok n) ↔
      ¬ (line.head? = some 47 ∧ alloc = true ∧ 2 ≤ (swapFields line).length ∧
        (swapFields line).length < 4) := by
  unfold swapLine
  by_cases hdevice : line.head? = some 47
  · rw [if_neg (not_not.mpr hdevice)]
    cases swapFields line with
    | nil => simp
    | cons filename fields =>
      cases fields with
      | nil => simp
      | cons type fields =>
        cases alloc with
        | false => simp
        | true =>
          match fields with
          | [] => simp [hdevice]
          | [size] => simp [hdevice]
          | size :: used :: _ => simp
  · rw [if_pos hdevice]
    exact ⟨fun _ h => hdevice h.1, fun _ => ⟨none, rfl⟩⟩

/-- The loop over the lines gets to the end where no line breaks. -/
private theorem swap_lines_spec (alloc : Nat → Bool) (lines : List (List UInt8)) (i : Nat) :
    (∃ nodes, swapLines alloc i lines = .ok nodes) ↔
      ∀ j line, lines[j]? = some line → ∃ n, swapLine (alloc (i + j)) line = .ok n := by
  induction lines generalizing i with
  | nil => simp [swapLines]
  | cons line lines ih =>
    rw [forall_getElem?_cons (fun k l => ∃ n, swapLine (alloc k) l = .ok n), ← ih, swapLines]
    cases swapLine (alloc i) line with
    | error e => simp
    | ok n =>
      cases swapLines alloc (i + 1) lines with
      | error e => simp
      | ok ns => simp

/-- `neb_stats_swap_load` leaves nothing open exactly where it does not open the file, or does not
return. -/
theorem swap_load_releases_iff (o : SwapOutcome) (p : OpenFiles) :
    ReleasesStream p (nebStatsSwapLoad o p) ↔
      o.malloc = false ∨ o.fopen = false ∨ Breaks o := by
  unfold nebStatsSwapLoad ReleasesStream
  cases hmalloc : o.malloc with
  | false => simp
  | true =>
    cases hfopen : o.fopen with
    | false => simp
    | true =>
      have hlines := swap_lines_spec o.alloc o.lines 0
      have hbreaks : Breaks o ↔ ¬ ∃ nodes, swapLines o.alloc 0 o.lines = .ok nodes := by
        rw [hlines]
        simp only [Nat.zero_add, swap_line_spec, not_forall, not_not, exists_prop, Breaks]
      rw [hbreaks]
      cases hres : swapLines o.alloc 0 o.lines with
      | error e => simp
      | ok nodes => simp [fopen_ne]

/-- `neb_stats_proc_fill`, its `get_stat` and `neb_stats_swap_load` leave nothing open exactly where
they refuse the file, or have not opened it. -/
theorem nebStats_releases_iff (conf : Sysconf) (o : ProcOutcome) (pid : Int) (s : NebStatsProc)
    (flags : UInt32) (w : SwapOutcome) (p : OpenFiles) :
    (Releases p (getStat conf o flags s p) ↔ StatRefused o) ∧
      (Releases p (nebStatsProcFill conf o pid s flags p) ↔ FillRefused o flags) ∧
      (ReleasesStream p (nebStatsSwapLoad w p) ↔
        w.malloc = false ∨ w.fopen = false ∨ Breaks w) :=
  ⟨get_stat_releases_iff conf o flags s p, fill_releases_iff conf o pid s flags p,
    swap_load_releases_iff w p⟩

/-- `1 (a) S` in `/proc/1/stat`. -/
private def sleeping : ProcOutcome :=
  ⟨true, some (0, 0), true, some ⟨[49, 32, 40, 97, 41, 32, 83], by decide⟩⟩

/-- A `read` that fails. -/
private def unreadable : ProcOutcome := ⟨true, some (0, 0), true, none⟩

private def noStats : NebStatsProc := ⟨1, (0, 0), (0, 0), (0, 0), 0, 0⟩

/-- The descriptor of a file that is read stays open, a `read` that fails makes -1 an index, and the
stream of a machine without swap devices stays open. -/
theorem nebStats_leaks :
    (∃ s', getStat ⟨100, 4096⟩ sleeping NEB_PROC_F_CPU noStats ⟨∅, ∅⟩ =
        .ok (0, s', (OpenFiles.openFd ⟨∅, ∅⟩).2)) ∧
      (OpenFiles.openFd ⟨∅, ∅⟩).2 ≠ ⟨∅, ∅⟩ ∧
      getStat ⟨100, 4096⟩ unreadable NEB_PROC_F_CPU noStats ⟨∅, ∅⟩ = .error (.index (-1)) ∧
      ¬ ReleasesStream ⟨∅, ∅⟩ (nebStatsSwapLoad ⟨true, true, [], fun _ => true⟩ ⟨∅, ∅⟩) := by
  refine ⟨⟨_, rfl⟩, open_fd_ne _, rfl, ?_⟩
  rw [swap_load_releases_iff]
  rintro (hmalloc | hfopen | ⟨i, line, hline, -⟩)
  · cases hmalloc
  · cases hfopen
  · simp at hline

end Nebase.Stats
