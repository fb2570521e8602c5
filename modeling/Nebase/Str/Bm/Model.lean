/- Boyer-Moore search: the two shift tables and the search loops, on checked memory. -/

import Mathlib.Logic.Function.Basic

set_option autoImplicit false
set_option relaxedAutoImplicit false

namespace Nebase.Str.Bm

/-- A read of a byte buffer; `none` outside of it. -/
def byteAt (x : List UInt8) (i : Int) : Option UInt8 :=
  if 0 ≤ i then x[i.toNat]? else none

/-- An array of `int`; an entry that has not been written has no value. -/
structure IntBuf where
  size : Nat
  cell : Nat → Option Int

def IntBuf.uninit (size : Nat) : IntBuf := ⟨size, fun _ => none⟩

def IntBuf.read (b : IntBuf) (i : Int) : Option Int :=
  if 0 ≤ i ∧ i < b.size then b.cell i.toNat else none

def IntBuf.write (b : IntBuf) (i v : Int) : Option IntBuf :=
  if 0 ≤ i ∧ i < b.size then
    some { b with cell := Function.update b.cell i.toNat (some v) }
  else
    none

def ASIZE : Nat := 256

/-! In all that follows `none` is an access outside a buffer or to an entry without a value. -/

/-- `for (i = from; i < from + n; ++i) b[i] = v`. -/
def fillBuf (v : Int) : Nat → Int → IntBuf → Option IntBuf
  | 0, _, b => some b
  | n + 1, i, b => do
    let b ← b.write i v
    fillBuf v n (i + 1) b

/-- `while (g >= 0 && lhs(g) == rhs(g)) --g`, started at `g = n - 1`; the last value of `g`. -/
def scanBack (lhs rhs : Int → Option UInt8) : Nat → Option Int
  | 0 => some (-1)
  | n + 1 => do
    let a ← lhs n
    let b ← rhs n
    if a = b then scanBack lhs rhs n else some n

def preBmBcLoop (x : List UInt8) (m : Int) : Nat → Int → IntBuf → Option IntBuf
  | 0, _, bmBc => some bmBc
  | n + 1, i, bmBc => do
    let c ← byteAt x i
    let bmBc ← bmBc.write c.toNat (m - i - 1)
    preBmBcLoop x m n (i + 1) bmBc

def preBmBc (x : List UInt8) (m : Int) (bmBc : IntBuf) : Option IntBuf := do
  let bmBc ← fillBuf m ASIZE 0 bmBc
  preBmBcLoop x m (m - 1).toNat 0 bmBc

/-- The loop of `suffixes`, from `i = n - 1` down to 0. The index `i + m - 1 - f` is taken
exactly: a sum that leaves the range of `int` on the way is back in it at the end. -/
def suffixesLoop (x : List UInt8) (m : Int) : Nat → Int → Int → IntBuf → Option IntBuf
  | 0, _, _, suff => some suff
  | n + 1, f, g, suff => do
    let i : Int := n
    let short ←
      if i > g then do
        let v ← suff.read (i + m - 1 - f)
        some (decide (v < i - g))
      else
        some false
    if short then
      let v ← suff.read (i + m - 1 - f)
      let suff ← suff.write i v
      suffixesLoop x m n f g suff
    else
      let g := if i < g then i else g
      let f := i
      let g ← scanBack (byteAt x) (fun g => byteAt x (g + m - 1 - f)) (g + 1).toNat
      let suff ← suff.write i (f - g)
      suffixesLoop x m n f g suff

def suffixes (x : List UInt8) (m : Int) (suff : IntBuf) : Option IntBuf := do
  let suff ← suff.write (m - 1) m
  suffixesLoop x m (m - 1).toNat 0 (m - 1) suff

/-- `for (; j < s; ++j) if (bmGs[j] == m) bmGs[j] = s`, with `n` iterations left. -/
def borderFill (m s : Int) : Nat → Int → IntBuf → Option IntBuf
  | 0, _, bmGs => some bmGs
  | n + 1, j, bmGs => do
    let v ← bmGs.read j
    let bmGs ← if v = m then bmGs.write j s else some bmGs
    borderFill m s n (j + 1) bmGs

/-- The second loop of `preBmGs`, from `i = n - 1` down to 0. -/
def borderLoop (m : Int) (suff : IntBuf) : Nat → Int → IntBuf → Option IntBuf
  | 0, _, bmGs => some bmGs
  | n + 1, j, bmGs => do
    let i : Int := n
    let v ← suff.read i
    if v = i + 1 then
      let bmGs ← borderFill m (m - 1 - i) (m - 1 - i - j).toNat j bmGs
      borderLoop m suff n (max j (m - 1 - i)) bmGs
    else
      borderLoop m suff n j bmGs

/-- The last loop of `preBmGs`, with `n` iterations left. -/
def shiftLoop (m : Int) (suff : IntBuf) : Nat → Int → IntBuf → Option IntBuf
  | 0, _, bmGs => some bmGs
  | n + 1, i, bmGs => do
    let v ← suff.read i
    let bmGs ← bmGs.write (m - 1 - v) (m - 1 - i)
    shiftLoop m suff n (i + 1) bmGs

def preBmGs (x : List UInt8) (m : Int) (bmGs : IntBuf) : Option IntBuf := do
  let suff ← suffixes x m (.uninit m.toNat)
  let bmGs ← fillBuf m m.toNat 0 bmGs
  let bmGs ← borderLoop m suff m.toNat 0 bmGs
  shiftLoop m suff (m - 1).toNat 0 bmGs

def MAX (a b : Int) : Int := if a > b then a else b

/-- The search loop, on the text from `j` on; `none` also when `fuel` runs out. The inner `none`
is the returned `NULL`, and a position stands for the pointer `t + j`. -/
def searchLoop (p : List UInt8) (pl : Int) (t : List UInt8) (tl : Int) (bmGs bmBc : IntBuf) :
    Nat → Int → Option (Option Int)
  | fuel, j =>
    if j ≤ tl - pl then
      match fuel with
      | 0 => none
      | fuel + 1 => do
        let i ← scanBack (byteAt p) (fun i => byteAt t (i + j)) pl.toNat
        if i < 0 then
          some (some j)
        else
          let gs ← bmGs.read i
          let c ← byteAt t (i + j)
          let bc ← bmBc.read c.toNat
          searchLoop p pl t tl bmGs bmBc fuel (j + MAX gs (bc - pl + 1 + i))
    else
      some none

/-- There are at most `tl - pl + 1` alignments. -/
def nebStrBmSearch (p : List UInt8) (pl : Int) (t : List UInt8) (tl : Int) :
    Option (Option Int) :=
  if pl > tl then
    some none
  else do
    let bmGs ← preBmGs p pl (.uninit pl.toNat)
    let bmBc ← preBmBc p pl (.uninit ASIZE)
    searchLoop p pl t tl bmGs bmBc (tl - pl + 1).toNat 0

/-- `pattern` is what the pointer of the context designates; the caller keeps it unchanged. -/
structure NebStrBmCtx where
  pattern : List UInt8
  patternLen : Int
  bmBc : IntBuf
  bmGs : IntBuf

/-- The inner `none` is the `NULL` returned when `malloc` fails. -/
def nebStrBmCtxCreate (malloc : Bool) (p : List UInt8) (pl : Int) : Option (Option NebStrBmCtx) :=
  if malloc then do
    let bmGs ← preBmGs p pl (.uninit pl.toNat)
    let bmBc ← preBmBc p pl (.uninit ASIZE)
    some (some ⟨p, pl, bmBc, bmGs⟩)
  else
    some none

def nebStrBmCtxSearch (c : NebStrBmCtx) (t : List UInt8) (tl : Int) : Option (Option Int) :=
  if c.patternLen > tl then
    some none
  else
    searchLoop c.pattern c.patternLen t tl c.bmGs c.bmBc (tl - c.patternLen + 1).toNat 0

end Nebase.Str.Bm
