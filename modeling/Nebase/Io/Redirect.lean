/- Redirecting descriptors: what io_dup leaves in the descriptor table and in the signal mask. -/

import Mathlib.Data.List.Basic
import Mathlib.Logic.Function.Basic

set_option autoImplicit false
set_option relaxedAutoImplicit false

namespace Nebase.Io

variable {F M : Type}

/-- `table` says what each descriptor refers to. -/
structure Process (F M : Type) where
  table : Int → Option F
  mask : M

/-- How the system calls of one call turn out: whether the first `sigprocmask` succeeds, the
descriptor that `open` returns, and which calls of `dup2` are not interrupted. -/
structure Outcome where
  block : Bool
  opened : Option Int
  dup2 : Nat → Bool

def close (d : Int) (table : Int → Option F) : Int → Option F := Function.update table d none

/-- The loop of `io_dup` from its `i`th target on. `dup2` needs an open source, and a target that is
not negative. -/
def dupLoop (dup2 : Nat → Bool) (srcFd : Int) :
    Nat → List Int → (Int → Option F) → Int × (Int → Option F)
  | _, [], table => (0, table)
  | i, dstFd :: dsts, table =>
    if srcFd = dstFd then
      dupLoop dup2 srcFd (i + 1) dsts table
    else
      let table := close dstFd table
      if dup2 i && decide (0 ≤ dstFd) && (table srcFd).isSome then
        dupLoop dup2 srcFd (i + 1) dsts (Function.update table dstFd (table srcFd))
      else
        (-1, table)

/-- `full` is the mask that blocks everything, `null` an open `/dev/null`. -/
def ioDup (full : M) (null : F) (o : Outcome) (dsts : List Int) (srcFd : Int) (p : Process F M) :
    Int × Process F M :=
  if !o.block then
    (-1, p)
  else
    let opened :=
      if srcFd < 0 then
        o.opened.map (fun nullFd => (nullFd, nullFd, Function.update p.table nullFd (some null)))
      else
        some (srcFd, -1, p.table)
    match opened with
    | none => (-1, { p with mask := full })
    | some (srcFd, nullFd, table) =>
      let (ret, table) := dupLoop o.dup2 srcFd 0 dsts table
      let table := if nullFd ≥ 0 then close nullFd table else table
      (ret, ⟨table, p.mask⟩)

def STDIN_FILENO : Int := 0
def STDOUT_FILENO : Int := 1
def STDERR_FILENO : Int := 2

def nebIoRedirectStdin (full : M) (null : F) (o : Outcome) (fd : Int) (p : Process F M) :
    Int × Process F M :=
  ioDup full null o [STDIN_FILENO] fd p

def nebIoRedirectStdout (full : M) (null : F) (o : Outcome) (fd : Int) (p : Process F M) :
    Int × Process F M :=
  ioDup full null o [STDOUT_FILENO] fd p

def nebIoRedirectStderr (full : M) (null : F) (o : Outcome) (fd : Int) (p : Process F M) :
    Int × Process F M :=
  ioDup full null o [STDERR_FILENO] fd p

def nebIoRedirectPty (full : M) (null : F) (o : Outcome) (slaveFd : Int) (p : Process F M) :
    Int × Process F M :=
  ioDup full null o [STDIN_FILENO, STDOUT_FILENO, STDERR_FILENO] slaveFd p

/-- `open` returns the lowest descriptor that is not in use. -/
def Lowest (table : Int → Option F) (d : Int) : Prop :=
  0 ≤ d ∧ table d = none ∧ ∀ e, 0 ≤ e → e < d → table e ≠ none

/-- The open file that the targets are to refer to. -/
def source (null : F) (srcFd : Int) (table : Int → Option F) : Option F :=
  if srcFd < 0 then some null else table srcFd

/-- Every target refers to the source's open file, and nothing else has changed. -/
structure Redirected (null : F) (dsts : List Int) (srcFd : Int) (table table' : Int → Option F) :
    Prop where
  targets : ∀ d ∈ dsts, ∃ f, source null srcFd table = some f ∧ table' d = some f
  others : ∀ d, d ∉ dsts → table' d = table d

/-- The mask is always put back, and a result of 0 means that the targets are redirected. -/
def Restored (null : F) (dsts : List Int) (srcFd : Int) (p : Process F M)
    (res : Int × Process F M) : Prop :=
  res.2.mask = p.mask ∧ (res.1 = 0 → Redirected null dsts srcFd p.table res.2.table)

/-- `dup2` gives every target but `srcFd` its copy. -/
def AllDup (dup2 : Nat → Bool) (srcFd : Int) (dsts : List Int) : Prop :=
  ∀ i d, dsts[i]? = some d → d = srcFd ∨ 0 ≤ d ∧ dup2 i = true

/-- There is an open file behind the source, or `dup2` is called for a target and says that there
is none. -/
def SourceOpen (dsts : List Int) (srcFd : Int) (table : Int → Option F) : Prop :=
  (table srcFd).isSome = true ∨ dsts = [] ∨ ∃ d ∈ dsts, d ≠ srcFd

/-- `/dev/null` can be opened as a descriptor that is not a target. A mask that blocks everything
already is put back by any failure, and a target that is not copied is no longer promised
anything. -/
def NullApart (full : M) (o : Outcome) (dsts : List Int) (mask : M) : Prop :=
  match o.opened with
  | none => mask = full
  | some nullFd => nullFd ∉ dsts ∨ ¬ AllDup o.dup2 nullFd dsts

section Loop

variable {dup2 : Nat → Bool} {srcFd : Int} {table : Int → Option F}

/-- One turn of the loop. -/
private theorem dup_loop_cons (i : Nat) (dstFd : Int) (dsts : List Int) :
    dupLoop dup2 srcFd i (dstFd :: dsts) table =
      if srcFd = dstFd then dupLoop dup2 srcFd (i + 1) dsts table
      else if dup2 i = true ∧ 0 ≤ dstFd ∧ (table srcFd).isSome = true then
        dupLoop dup2 srcFd (i + 1) dsts (Function.update table dstFd (table srcFd))
      else (-1, close dstFd table) := by
  by_cases hsame : srcFd = dstFd
  · rw [dupLoop, if_pos hsame, if_pos hsame]
  · have hkept : close dstFd table srcFd = table srcFd := Function.update_of_ne hsame _ _
    rw [dupLoop, if_neg hsame, if_neg hsame]
    simp only [hkept, Bool.and_eq_true, decide_eq_true_eq, and_assoc]
    rw [close, Function.update_idem]

/-- The loop returns 0 with all targets redirected and the other descriptors as they were. -/
private theorem dup_loop_table {dsts : List Int} {i : Nat}
    (h : (dupLoop dup2 srcFd i dsts table).1 = 0) (d : Int) :
    (dupLoop dup2 srcFd i dsts table).2 d = if d ∈ dsts then table srcFd else table d := by
  induction dsts generalizing i table with
  | nil => simp [dupLoop]
  | cons dstFd dsts ih =>
    rw [dup_loop_cons] at h ⊢
    split_ifs at h with hsame hdup
    · rw [if_pos hsame, ih h]
      by_cases hd : d = srcFd
      · subst hd
        simp
      · simp [← hsame, hd]
    · rw [if_neg hsame, if_pos hdup, ih h, Function.update_of_ne hsame]
      by_cases hd : d = dstFd
      · subst hd
        simp
      · rw [Function.update_of_ne hd]
        simp [hd]
    · cases h

private theorem all_dup_cons {i : Nat} {dstFd : Int} {dsts : List Int} :
    AllDup (fun k => dup2 (i + k)) srcFd (dstFd :: dsts) ↔
      (dstFd = srcFd ∨ 0 ≤ dstFd ∧ dup2 i = true) ∧
        AllDup (fun k => dup2 (i + 1 + k)) srcFd dsts := by
  have hnext : ∀ k, i + 1 + k = i + (k + 1) := by omega
  simp only [AllDup, hnext]
  constructor
  · exact fun h => ⟨h 0 dstFd rfl, fun k d hd => h (k + 1) d hd⟩
  · rintro ⟨hhead, hrest⟩ k d hd
    cases k with
    | zero =>
      obtain rfl := Option.some.inj hd
      exact hhead
    | succ k => exact hrest k d hd

/-- The loop returns 0 when every copy is made. -/
private theorem dup_loop_ret (isOpen : (table srcFd).isSome = true) {dsts : List Int} (i : Nat) :
    (dupLoop dup2 srcFd i dsts table).1 = 0 ↔ AllDup (fun k => dup2 (i + k)) srcFd dsts := by
  induction dsts generalizing i table with
  | nil => simp [dupLoop, AllDup]
  | cons dstFd dsts ih =>
    rw [dup_loop_cons, all_dup_cons]
    split_ifs with hsame hdup
    · rw [ih isOpen]
      simp [hsame]
    · rw [ih (by rw [Function.update_of_ne hsame]; exact isOpen)]
      simp [hdup.1, hdup.2.1]
    · refine iff_of_false (fun h => by cases h) ?_
      rintro ⟨hcopy | hcopy, -⟩
      · exact hsame hcopy.symm
      · exact hdup ⟨hcopy.2, hcopy.1, isOpen⟩

/-- Nothing is copied of a closed source, so that only a list of nothing but the source itself is
gone through to its end. -/
private theorem dup_loop_closed (closed : table srcFd = none) {dsts : List Int} (i : Nat) :
    (dupLoop dup2 srcFd i dsts table).1 = 0 ↔ ∀ d ∈ dsts, d = srcFd := by
  induction dsts generalizing i with
  | nil => simp [dupLoop]
  | cons dstFd dsts ih =>
    rw [dup_loop_cons, List.forall_mem_cons]
    split_ifs with hsame hdup
    · rw [ih]
      simp [hsame]
    · rw [closed] at hdup
      exact absurd hdup.2.2 (by simp)
    · exact iff_of_false (fun h => by cases h) (fun h => hsame h.1.symm)

end Loop

section Ways

variable {full : M} {null : F} {o : Outcome} {dsts : List Int} {srcFd : Int} {p : Process F M}

/-- The copies of an open source are those of the source itself; a closed one must not be passed
over. -/
private theorem io_dup_source (hblock : o.block = true) (hsrc : 0 ≤ srcFd) :
    Restored null dsts srcFd p (ioDup full null o dsts srcFd p) ↔
      SourceOpen dsts srcFd p.table := by
  have hneg : ¬ srcFd < 0 := Int.not_lt.mpr hsrc
  have hsource : source null srcFd p.table = p.table srcFd := if_neg hneg
  have hres : ioDup full null o dsts srcFd p =
      ((dupLoop o.dup2 srcFd 0 dsts p.table).1, ⟨(dupLoop o.dup2 srcFd 0 dsts p.table).2,
        p.mask⟩) := by
    unfold ioDup
    rw [hblock]
    simp only [Bool.not_true, Bool.false_eq_true, if_false, if_neg hneg]
    rfl
  rw [hres]
  constructor
  · rintro ⟨-, hredirected⟩
    by_contra hnot
    obtain ⟨hclosed, hsome, hall⟩ := by simpa only [SourceOpen, not_or] using hnot
    rw [Option.not_isSome_iff_eq_none] at hclosed
    have hall : ∀ d ∈ dsts, d = srcFd := fun d hd => by_contra fun hne => hall ⟨d, hd, hne⟩
    have hret : (dupLoop o.dup2 srcFd 0 dsts p.table).1 = 0 :=
      (dup_loop_closed hclosed 0).mpr hall
    obtain ⟨d, hd⟩ := List.exists_mem_of_ne_nil dsts hsome
    obtain ⟨f, hf, -⟩ := (hredirected hret).targets d hd
    rw [hsource, hclosed] at hf
    cases hf
  · intro hopen
    refine ⟨rfl, fun hret => ⟨fun d hd => ?_, fun d hd => ?_⟩⟩
    · have hsome : (p.table srcFd).isSome = true := by
        by_contra hclosed
        rw [Option.not_isSome_iff_eq_none] at hclosed
        have hall := (dup_loop_closed hclosed 0).mp hret
        rcases hopen with h | h | ⟨e, he, hne⟩
        · rw [hclosed] at h
          cases h
        · rw [h] at hd
          cases hd
        · exact hne (hall e he)
      obtain ⟨f, hf⟩ := Option.isSome_iff_exists.mp hsome
      refine ⟨f, hsource.trans hf, (dup_loop_table hret d).trans ?_⟩
      rw [if_pos hd, hf]
    · exact (dup_loop_table hret d).trans (if_neg hd)

/-- Where `/dev/null` cannot be opened, the mask is not put back. -/
private theorem io_dup_unopened (hblock : o.block = true) (hneg : srcFd < 0)
    (hopened : o.opened = none) :
    Restored null dsts srcFd p (ioDup full null o dsts srcFd p) ↔ p.mask = full := by
  have hres : ioDup full null o dsts srcFd p = (-1, { p with mask := full }) := by
    unfold ioDup
    rw [hblock]
    simp only [Bool.not_true, Bool.false_eq_true, if_false, if_pos hneg, hopened, Option.map_none]
  rw [hres]
  exact ⟨fun h => h.1.symm, fun h => ⟨h.symm, fun hret => by cases hret⟩⟩

/-- Where `/dev/null` is opened as a descriptor that was closed, that one is closed at the end. -/
private theorem io_dup_null {nullFd : Int} (hblock : o.block = true) (hneg : srcFd < 0)
    (hopened : o.opened = some nullFd) (hnonneg : 0 ≤ nullFd) (hclosed : p.table nullFd = none) :
    Restored null dsts srcFd p (ioDup full null o dsts srcFd p) ↔
      nullFd ∉ dsts ∨ ¬ AllDup o.dup2 nullFd dsts := by
  let table := Function.update p.table nullFd (some null)
  have hnull : table nullFd = some null := Function.update_self ..
  have hother : ∀ d, d ≠ nullFd → table d = p.table d := fun d hd => Function.update_of_ne hd _ _
  have hres : ioDup full null o dsts srcFd p = ((dupLoop o.dup2 nullFd 0 dsts table).1,
      ⟨close nullFd (dupLoop o.dup2 nullFd 0 dsts table).2, p.mask⟩) := by
    unfold ioDup
    rw [hblock]
    simp only [Bool.not_true, Bool.false_eq_true, if_false, if_pos hneg, hopened, Option.map_some,
      if_pos (show nullFd ≥ 0 from hnonneg), table]
  have hloop : (dupLoop o.dup2 nullFd 0 dsts table).1 = 0 ↔ AllDup o.dup2 nullFd dsts := by
    rw [dup_loop_ret (by rw [hnull]; rfl)]
    simp only [Nat.zero_add]
  rw [hres]
  constructor
  · rintro ⟨-, hredirected⟩
    by_contra hnot
    rw [not_or, not_not, not_not] at hnot
    -- the copy of /dev/null that is a target is closed at the end
    obtain ⟨f, -, htarget⟩ := (hredirected (hloop.mpr hnot.2)).targets nullFd hnot.1
    change close nullFd _ nullFd = some f at htarget
    rw [close, Function.update_self] at htarget
    cases htarget
  · intro hor
    refine ⟨rfl, fun hret => ?_⟩
    have hapart : nullFd ∉ dsts := hor.resolve_right (not_not.mpr (hloop.mp hret))
    refine ⟨fun d hd => ?_, fun d hd => ?_⟩
    · have hne : d ≠ nullFd := fun h => hapart (h ▸ hd)
      refine ⟨null, if_pos hneg, ?_⟩
      change close nullFd _ d = _
      rw [close, Function.update_of_ne hne, dup_loop_table hret, if_pos hd, hnull]
    · change close nullFd _ d = _
      by_cases hne : d = nullFd
      · rw [hne, close, Function.update_self, hclosed]
      · rw [close, Function.update_of_ne hne, dup_loop_table hret, if_neg hd, hother d hne]

end Ways

/-- A redirection keeps its promises exactly when the first `sigprocmask` fails, the source is open,
or `/dev/null` can be opened apart from the targets. -/
theorem ioDup_restores_iff (full : M) (null : F) (o : Outcome) (dsts : List Int) (srcFd : Int)
    (p : Process F M) (lowest : ∀ d, o.opened = some d → Lowest p.table d) :
    Restored null dsts srcFd p (ioDup full null o dsts srcFd p) ↔
      o.block = false ∨
        if srcFd < 0 then NullApart full o dsts p.mask else SourceOpen dsts srcFd p.table := by
  cases hblock : o.block with
  | false =>
    have hres : ioDup full null o dsts srcFd p = (-1, p) := by
      unfold ioDup
      rw [hblock]
      rfl
    rw [hres]
    exact iff_of_true ⟨rfl, fun h => by cases h⟩ (.inl rfl)
  | true =>
    simp only [Bool.true_eq_false, false_or]
    by_cases hneg : srcFd < 0
    · rw [if_pos hneg]
      unfold NullApart
      cases hopened : o.opened with
      | none => exact io_dup_unopened hblock hneg hopened
      | some nullFd =>
        obtain ⟨hnonneg, hclosed, -⟩ := lowest nullFd hopened
        exact io_dup_null hblock hneg hopened hnonneg hclosed
    · rw [if_neg hneg]
      exact io_dup_source hblock (Int.not_lt.mp hneg)

/-- A process that has only standard input and standard error. -/
private def noStdout : Process Bool Bool :=
  ⟨fun d => if d = 0 ∨ d = 2 then some false else none, false⟩

/-- Standard input is redirected to `/dev/null`, which is opened as descriptor 1, and standard
output to standard error. -/
theorem ioDup_restores_iff_stdin :
    NullApart true ⟨true, some 1, fun _ => true⟩ [STDIN_FILENO] noStdout.mask ∧
      Restored true [STDIN_FILENO] (-1) noStdout
        (nebIoRedirectStdin true true ⟨true, some 1, fun _ => true⟩ (-1) noStdout) ∧
      SourceOpen [STDOUT_FILENO] 2 noStdout.table ∧
      Restored true [STDOUT_FILENO] 2 noStdout
        (nebIoRedirectStdout true true ⟨true, some 1, fun _ => true⟩ 2 noStdout) := by
  have hapart : NullApart true ⟨true, some 1, fun _ => true⟩ [STDIN_FILENO] noStdout.mask :=
    .inl (by decide)
  have hopen : SourceOpen [STDOUT_FILENO] 2 noStdout.table := .inl (by decide)
  have hlowest : ∀ d, some (1 : Int) = some d → Lowest noStdout.table d := by
    intro d hd
    obtain rfl := Option.some.inj hd
    refine ⟨by decide, by decide, fun e h0 h1 => ?_⟩
    obtain rfl : e = 0 := by omega
    decide
  exact ⟨hapart,
    (ioDup_restores_iff true true ⟨true, some 1, fun _ => true⟩ [STDIN_FILENO] (-1) noStdout
      hlowest).mpr (.inr hapart),
    hopen,
    (ioDup_restores_iff true true ⟨true, some 1, fun _ => true⟩ [STDOUT_FILENO] 2 noStdout
      hlowest).mpr (.inr hopen)⟩

/-- Standard output, closed before, is closed after its redirection to `/dev/null` too; where
`/dev/null` cannot be opened, everything stays blocked; and closed standard output redirected to
itself is reported as redirected. -/
theorem ioDup_fails :
    (nebIoRedirectStdout true true ⟨true, some 1, fun _ => true⟩ (-1) noStdout).1 = 0 ∧
      (nebIoRedirectStdout true true ⟨true, some 1, fun _ => true⟩ (-1) noStdout).2.table 1 = none ∧
      (nebIoRedirectStdout true true ⟨true, none, fun _ => true⟩ (-1) noStdout).2.mask = true ∧
      (nebIoRedirectStdout true true ⟨true, none, fun _ => true⟩ 1 noStdout).1 = 0 ∧
      ¬ Restored true [STDOUT_FILENO] (-1) noStdout
        (nebIoRedirectStdout true true ⟨true, some 1, fun _ => true⟩ (-1) noStdout) ∧
      ¬ Restored true [STDOUT_FILENO] (-1) noStdout
        (nebIoRedirectStdout true true ⟨true, none, fun _ => true⟩ (-1) noStdout) ∧
      ¬ Restored true [STDOUT_FILENO] 1 noStdout
        (nebIoRedirectStdout true true ⟨true, none, fun _ => true⟩ 1 noStdout) := by
  have hret : (nebIoRedirectStdout true true ⟨true, some 1, fun _ => true⟩ (-1)
      noStdout).1 = 0 := by decide
  have htable : (nebIoRedirectStdout true true ⟨true, some 1, fun _ => true⟩ (-1)
      noStdout).2.table 1 = none := by decide
  have hmask : (nebIoRedirectStdout true true ⟨true, none, fun _ => true⟩ (-1)
      noStdout).2.mask = true := by decide
  have hself : (nebIoRedirectStdout true true ⟨true, none, fun _ => true⟩ 1
      noStdout).1 = 0 := by decide
  refine ⟨hret, htable, hmask, hself, fun h => ?_, fun h => ?_, fun h => ?_⟩
  · obtain ⟨f, -, htarget⟩ := (h.2 hret).targets 1 (by decide)
    rw [htable] at htarget
    cases htarget
  · have hkept := h.1
    rw [hmask] at hkept
    cases hkept
  · obtain ⟨f, hsource, -⟩ := (h.2 hself).targets 1 (by decide)
    have hclosed : source true 1 noStdout.table = none := by decide
    rw [hclosed] at hsource
    cases hsource

end Nebase.Io
