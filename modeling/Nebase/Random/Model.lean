/- The random pool and ring: slices, buckets and the draws of arc4random_uniform. -/

import Nebase.Foundation.TailQueue

set_option autoImplicit false
set_option relaxedAutoImplicit false

namespace Nebase.Random

open Nebase.Foundation
open Nebase.Foundation.TailQueue (Mem)

/-- The address of a `struct neb_random_node`. -/
abbrev NodeAddr := Nat

/-- The `TAILQ_HEAD`s of the program: the embedded slices of a bucket, the list of nodes in
use, and the local `tl` of `neb_random_slice_reverse`. -/
inductive ListHead
  | slice (bucket : Nat) (i : Fin 10)
  | inUse
  | tl
  deriving DecidableEq

abbrev NodeMem := Mem ListHead NodeAddr

def RANDOM_POOL_SLICE_TOTAL_NUMBER : Nat := 10
def RANDOM_POOL_SLICE_RANDOM_NUMBER : Nat := 8

/-- `slices i` is the embedded slice that entry `i` of the pointer array designates; only the
entries below `RANDOM_POOL_SLICE_TOTAL_NUMBER` exist (`slot`). `sliceCount` holds the
`count` fields of the embedded slices. -/
structure NebRandomBucket where
  addr : Nat
  slices : Nat → Fin 10
  sliceCount : Fin 10 → Nat
  count : Nat

/-- `b->slices[i]`; reading past the array is undefined. -/
def slot (slices : Nat → Fin 10) (i : Nat) : Option (Fin 10) :=
  if i < RANDOM_POOL_SLICE_TOTAL_NUMBER then some (slices i) else none

/-- The list head of an embedded slice. -/
def NebRandomBucket.nlist (b : NebRandomBucket) (s : Fin 10) : ListHead := .slice b.addr s

def nebRandomBucketCreate (addr : Nat) (m : NodeMem) : NebRandomBucket × NodeMem :=
  ({ addr := addr, slices := fun i => Fin.ofNat 10 i, sliceCount := fun _ => 0, count := 0 },
    (List.finRange 10).foldl (fun m i => TailQueue.init (.slice addr i) m) m)

/-- The reorder loop of `neb_random_bucket_put`, with `k` iterations left before index `i`
reaches `RANDOM_POOL_SLICE_RANDOM_NUMBER`. -/
def putReorder (cnt : Fin 10 → Nat) : Nat → Nat → (Nat → Fin 10) → Option (Nat → Fin 10)
  | 0, _, slices => some slices
  | k + 1, i, slices => do
    let s ← slot slices (i - 1)
    let si ← slot slices i
    if cnt si < cnt s then
      putReorder cnt k (i + 1) (Function.update (Function.update slices (i - 1) si) i s)
    else
      some slices

/-- `draw` is the value of `arc4random_uniform(RANDOM_POOL_SLICE_RANDOM_NUMBER)`. -/
def nebRandomBucketPut (draw : Nat) (n : NodeAddr) (b : NebRandomBucket) (m : NodeMem) :
    Option (NebRandomBucket × NodeMem) := do
  let s0 ← slot b.slices 0
  let rn := if b.sliceCount s0 < b.count >>> 3 then 0 else draw
  let s ← slot b.slices rn
  let sliceCount := Function.update b.sliceCount s (b.sliceCount s + 1)
  let slices ← putReorder sliceCount (RANDOM_POOL_SLICE_RANDOM_NUMBER - (rn + 1)) (rn + 1) b.slices
  some ({ b with slices := slices, sliceCount := sliceCount, count := b.count + 1 },
    TailQueue.insertTail (b.nlist s) n m)

/-- The scan of `neb_random_bucket_pick`, with `k` slices left from index `rn`; it returns the
node, the index the loop stopped at, and the state after the removal. -/
def pickScan : Nat → Nat → NebRandomBucket → NodeMem →
    Option (Option NodeAddr × Nat × NebRandomBucket × NodeMem)
  | 0, rn, b, m => some (none, rn, b, m)
  | k + 1, rn, b, m => do
    let s ← slot b.slices rn
    match m.first (b.nlist s) with
    | some n =>
      some (some n, rn,
        { b with
          sliceCount := Function.update b.sliceCount s (b.sliceCount s - 1)
          count := b.count - 1 },
        TailQueue.remove (b.nlist s) n m)
    | none => pickScan k (rn + 1) b m

/-- The reorder loop of `neb_random_bucket_pick`, from index `i` down to 1. -/
def pickReorder (cnt : Fin 10 → Nat) : Nat → (Nat → Fin 10) → Option (Nat → Fin 10)
  | 0, slices => some slices
  | i + 1, slices => do
    let s ← slot slices (i + 1)
    let below ← slot slices i
    if cnt below > cnt s then
      pickReorder cnt i (Function.update (Function.update slices (i + 1) below) i s)
    else
      some slices

/-- `none` models an access outside `b->slices`; the inner `none` is the returned `NULL`. -/
def nebRandomBucketPick (draw : Nat) (b : NebRandomBucket) (m : NodeMem) :
    Option (Option NodeAddr × NebRandomBucket × NodeMem) :=
  if b.count = 0 then
    some (none, b, m)
  else do
    let top ← slot b.slices (RANDOM_POOL_SLICE_TOTAL_NUMBER - 1)
    let rn :=
      if b.sliceCount top > b.count >>> 1 then
        RANDOM_POOL_SLICE_TOTAL_NUMBER - 1
      else
        draw + (RANDOM_POOL_SLICE_TOTAL_NUMBER - RANDOM_POOL_SLICE_RANDOM_NUMBER)
    let (n, stop, b, m) ← pickScan (RANDOM_POOL_SLICE_TOTAL_NUMBER - rn) rn b m
    let slices ← pickReorder b.sliceCount stop b.slices
    some (n, { b with slices := slices }, m)

/-- The loop of `neb_random_slice_reverse`; `none` when `fuel` runs out. -/
def reverseLoop (h : ListHead) : Nat → NodeMem → Option NodeMem
  | 0, _ => none
  | fuel + 1, m =>
    match m.first h with
    | none => some m
    | some n => reverseLoop h fuel (TailQueue.insertHead .tl n (TailQueue.remove h n m))

def nebRandomSliceReverse (fuel : Nat) (h : ListHead) (m : NodeMem) : Option NodeMem :=
  (reverseLoop h fuel (TailQueue.init .tl m)).map (TailQueue.assignHead h .tl)

/-- The loop of `neb_random_bucket_confuse` with `k` iterations left; `draw i` is the value of
`arc4random_uniform(RANDOM_POOL_SLICE_TOTAL_NUMBER - i - 1)`. -/
def confuseLoop (fuel : Nat) (draw : Nat → Nat) (b : NebRandomBucket) :
    Nat → Nat → List Nat → NodeMem → Option NodeMem
  | 0, _, _, m => some m
  | k + 1, i, indexes, m => do
    let j := draw i + i + 1
    let si ← indexes[j]?
    let ii ← indexes[i]?
    let s ← slot b.slices si
    let m ← nebRandomSliceReverse fuel (b.nlist s) m
    confuseLoop fuel draw b k (i + 1) ((indexes.set j ii).set i si) m

def nebRandomBucketConfuse (fuel : Nat) (draw : Nat → Nat) (b : NebRandomBucket) (m : NodeMem) :
    Option NodeMem :=
  confuseLoop fuel draw b (RANDOM_POOL_SLICE_TOTAL_NUMBER >>> 1) 0
    (List.range RANDOM_POOL_SLICE_TOTAL_NUMBER) m

/-- `nodes` are the nodes taken from the obstack so far, `value` their `value` fields. -/
structure NebRandomPool where
  bucket : NebRandomBucket
  nodes : List NodeAddr
  value : NodeAddr → Int
  mem : NodeMem

structure NebRandomRing where
  pickBucket : NebRandomBucket
  putBucket : NebRandomBucket
  nodes : List NodeAddr
  value : NodeAddr → Int
  mem : NodeMem

/-- `mem` is the content of the allocated memory before `TAILQ_INIT`. -/
def nebRandomPoolCreate (addr : Nat) (mem : NodeMem) : NebRandomPool :=
  let (bucket, mem) := nebRandomBucketCreate addr (TailQueue.init .inUse mem)
  { bucket := bucket, nodes := [], value := fun _ => 0, mem := mem }

/-- `n` is the address `obstack_alloc` returns. -/
def nebRandomPoolAdd (draw : Nat) (n : NodeAddr) (value : Int) (p : NebRandomPool) :
    Option NebRandomPool := do
  let (bucket, mem) ← nebRandomBucketPut draw n p.bucket p.mem
  some {
    bucket := bucket
    nodes := n :: p.nodes
    value := Function.update p.value n value
    mem := mem }

def nebRandomPoolConfuse (fuel : Nat) (draw : Nat → Nat) (p : NebRandomPool) :
    Option NebRandomPool := do
  let mem ← nebRandomBucketConfuse fuel draw p.bucket p.mem
  some { p with mem := mem }

def nebRandomPoolPick (draw : Nat) (p : NebRandomPool) :
    Option (Option NodeAddr × NebRandomPool) := do
  let (n, bucket, mem) ← nebRandomBucketPick draw p.bucket p.mem
  let mem := match n with
    | some n => TailQueue.insertHead .inUse n mem
    | none => mem
  some (n, { p with bucket := bucket, mem := mem })

def nebRandomPoolPut (draw : Nat) (n : NodeAddr) (p : NebRandomPool) : Option NebRandomPool := do
  let (bucket, mem) ← nebRandomBucketPut draw n p.bucket (TailQueue.remove .inUse n p.mem)
  some { p with bucket := bucket, mem := mem }

def nebRandomRingCreate (pickAddr putAddr : Nat) (mem : NodeMem) : NebRandomRing :=
  let (pickBucket, mem) := nebRandomBucketCreate pickAddr (TailQueue.init .inUse mem)
  let (putBucket, mem) := nebRandomBucketCreate putAddr mem
  { pickBucket := pickBucket, putBucket := putBucket, nodes := [], value := fun _ => 0, mem := mem }

def nebRandomRingAdd (draw : Nat) (n : NodeAddr) (value : Int) (r : NebRandomRing) :
    Option NebRandomRing := do
  let (bucket, mem) ← nebRandomBucketPut draw n r.pickBucket r.mem
  some { r with
    pickBucket := bucket
    nodes := n :: r.nodes
    value := Function.update r.value n value
    mem := mem }

def nebRandomRingConfuse (fuel : Nat) (pickDraw putDraw : Nat → Nat) (r : NebRandomRing) :
    Option NebRandomRing := do
  let mem ← nebRandomBucketConfuse fuel pickDraw r.pickBucket r.mem
  let mem ← nebRandomBucketConfuse fuel putDraw r.putBucket mem
  some { r with mem := mem }

/-- The bucket exchange at the head of `neb_random_ring_pick`; `none` when both are empty. -/
def ringTurn (r : NebRandomRing) : Option NebRandomRing :=
  if r.pickBucket.count = 0 then
    if r.putBucket.count = 0 then none
    else some { r with pickBucket := r.putBucket, putBucket := r.pickBucket }
  else
    some r

def nebRandomRingPick (draw : Nat) (r : NebRandomRing) : Option (Option NodeAddr × NebRandomRing) :=
  match ringTurn r with
  | none => some (none, r)
  | some r => do
    let (n, bucket, mem) ← nebRandomBucketPick draw r.pickBucket r.mem
    let mem := match n with
      | some n => TailQueue.insertHead .inUse n mem
      | none => mem
    some (n, { r with pickBucket := bucket, mem := mem })

def nebRandomRingPut (draw : Nat) (n : NodeAddr) (r : NebRandomRing) : Option NebRandomRing := do
  let (bucket, mem) ← nebRandomBucketPut draw n r.putBucket (TailQueue.remove .inUse n r.mem)
  some { r with putBucket := bucket, mem := mem }

end Nebase.Random
