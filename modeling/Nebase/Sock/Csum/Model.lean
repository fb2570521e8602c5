/- Internet checksums on a little-endian host: the word sums, their folding and the fields filled
   in. -/

import Mathlib.Data.Nat.Digits.Defs

set_option autoImplicit false
set_option relaxedAutoImplicit false

namespace Nebase.Sock.Csum

/-- The bytes in memory, by address. -/
abbrev Mem := Nat → UInt8

/-- The numbers in `len` bytes from the address `p` on. -/
def bytesAt (m : Mem) : Nat → Nat → List Nat
  | _, 0 => []
  | p, len + 1 => (m p).toNat :: bytesAt m (p + 1) len

/-- `*(unsigned short *) p`, wherever `p` lies. -/
def load16 (m : Mem) (p : Nat) : UInt16 := UInt16.ofNat (Nat.ofDigits 256 (bytesAt m p 2))

/-- `*(unsigned int *) p`. -/
def load32 (m : Mem) (p : Nat) : UInt32 := UInt32.ofNat (Nat.ofDigits 256 (bytesAt m p 4))

/-- Stores a 16-bit field. -/
def store16 (m : Mem) (p : Nat) (v : UInt16) : Mem := fun a =>
  if a = p then v.toUInt8 else if a = p + 1 then (v >>> 8).toUInt8 else m a

def from32to16 (x : UInt32) : UInt16 :=
  let x := (x &&& (0xffff : UInt32)) + (x >>> (16 : UInt32))
  let x := (x &&& (0xffff : UInt32)) + (x >>> (16 : UInt32))
  x.toUInt16

/-- The variables of `do_csum` that move along the buffer. -/
structure Cursor where
  result : UInt32
  buff : Nat
  len : Nat
  deriving DecidableEq, Repr

/-- The rounds of the loop over 32-bit words: `result` and `carry` after them. -/
def doCsumWords (m : Mem) : Nat → Nat → UInt32 → UInt32 → UInt32 × UInt32
  | 0, _, result, carry => (result, carry)
  | rounds + 1, buff, result, carry =>
    let w := load32 m buff
    let result := result + carry
    let result := result + w
    doCsumWords m rounds (buff + 4) result (if w > result then 1 else 0)

/-- A leading halfword, when `buff` is not on a 32-bit boundary. -/
def Cursor.align (m : Mem) (c : Cursor) : Cursor :=
  if c.buff.testBit 1 then
    { result := c.result + (load16 m c.buff).toUInt32, buff := c.buff + 2, len := c.len - 2 }
  else c

/-- The whole 32-bit words; `len` stays, since only its low bits are read from here on. The loop
runs up to `end`, that is `len / 4` times. -/
def Cursor.quads (m : Mem) (c : Cursor) : Cursor :=
  if 4 ≤ c.len then
    let (result, carry) := doCsumWords m (c.len / 4) c.buff c.result 0
    let result := result + carry
    { c with
      result := (result &&& (0xffff : UInt32)) + (result >>> (16 : UInt32))
      buff := c.buff + 4 * (c.len / 4) }
  else c

/-- A trailing halfword. -/
def Cursor.half (m : Mem) (c : Cursor) : Cursor :=
  if c.len.testBit 1 then
    { c with result := c.result + (load16 m c.buff).toUInt32, buff := c.buff + 2 }
  else c

/-- A trailing byte, the low one of its word. -/
def Cursor.last (m : Mem) (c : Cursor) : UInt32 :=
  if c.len.testBit 0 then c.result + (m c.buff).toUInt32 else c.result

/-- The sum from an even address on. -/
def Cursor.even (m : Mem) (c : Cursor) : UInt32 :=
  let c := if 2 ≤ c.len then ((c.align m).quads m).half m else c
  (from32to16 (c.last m)).toUInt32

def doCsum (m : Mem) (buff : Nat) (len : Int) : UInt32 :=
  if len ≤ 0 then 0
  else if buff.testBit 0 then
    let result := Cursor.even m ⟨(m buff).toUInt32 <<< 8, buff + 1, len.toNat - 1⟩
    ((result >>> 8) &&& (0xff : UInt32)) ||| ((result &&& (0xff : UInt32)) <<< 8)
  else Cursor.even m ⟨0, buff, len.toNat⟩

def csumPartial (m : Mem) (buff : Nat) (len : Int) (wsum : UInt32) : UInt32 :=
  let sum := wsum
  let result := doCsum m buff len
  let result := result + sum
  if sum > result then result + 1 else result

def from64to32 (x : UInt64) : UInt32 :=
  let x := (x &&& (0xffffffff : UInt64)) + (x >>> (32 : UInt64))
  let x := (x &&& (0xffffffff : UInt64)) + (x >>> (32 : UInt64))
  x.toUInt32

def csumTcpudpNofold (saddr daddr : UInt32) (len proto : UInt16) (sum : UInt32) : UInt32 :=
  let s := sum.toUInt64
  let s := s + saddr.toUInt64
  let s := s + daddr.toUInt64
  let s := s + ((proto.toUInt64 + len.toUInt64) <<< 8)
  from64to32 s

def csumFold (csum : UInt32) : UInt16 :=
  let sum := (csum &&& (0xffff : UInt32)) + (csum >>> (16 : UInt32))
  let sum := (sum &&& (0xffff : UInt32)) + (sum >>> (16 : UInt32))
  (~~~sum).toUInt16

def ipFastCsum (m : Mem) (iph : Nat) (ihl : UInt32) : UInt16 :=
  (~~~(doCsum m iph (ihl <<< 2).toNat)).toUInt16

def csumTcpudpMagic (saddr daddr : UInt32) (len proto : UInt16) (sum : UInt32) : UInt16 :=
  csumFold (csumTcpudpNofold saddr daddr len proto sum)

/-- The bytes of a number in the other order, which is network order here. -/
def htobe32 (x : UInt32) : UInt32 :=
  UInt32.ofNat (Nat.ofDigits 256 [(x >>> 24).toUInt8.toNat, (x >>> 16).toUInt8.toNat,
    (x >>> 8).toUInt8.toNat, x.toUInt8.toNat])

/-- `sum += w; carry = (sum < w); sum += carry;` -/
def addCarry (sum w : UInt32) : UInt32 :=
  let sum := sum + w
  sum + (if sum < w then 1 else 0)

def csumIpv6Magic (m : Mem) (saddr daddr : Nat) (len : UInt32) (proto : UInt16) (csum : UInt32) :
    UInt16 :=
  let sum := csum
  let sum := addCarry sum (load32 m saddr)
  let sum := addCarry sum (load32 m (saddr + 4))
  let sum := addCarry sum (load32 m (saddr + 8))
  let sum := addCarry sum (load32 m (saddr + 12))
  let sum := addCarry sum (load32 m daddr)
  let sum := addCarry sum (load32 m (daddr + 4))
  let sum := addCarry sum (load32 m (daddr + 8))
  let sum := addCarry sum (load32 m (daddr + 12))
  let sum := addCarry sum (htobe32 len)
  let sum := addCarry sum (htobe32 proto.toUInt32)
  csumFold sum

/-- Offsets of the fields in `struct ip`, `struct ip6_hdr`, `struct tcphdr` and `struct icmp`. -/
def ipSum : Nat := 10
def ipSrc : Nat := 12
def ipDst : Nat := 16
def ip6Src : Nat := 8
def ip6Dst : Nat := 24
def thSum : Nat := 16
def icmpCksum : Nat := 2

def ipprotoTcp : UInt16 := 6

/-- The header length in 32-bit words, four bits of the first byte. -/
def ipHl (m : Mem) (ipheader : Nat) : UInt32 := (m ipheader).toUInt32 &&& 0xf

def nebSockCsumTcp4Fill (m : Mem) (ipheader tcpheader : Nat) (l4len : Int) : Mem :=
  let m := store16 m (tcpheader + thSum) 0
  store16 m (tcpheader + thSum)
    (csumTcpudpMagic (load32 m (ipheader + ipSrc)) (load32 m (ipheader + ipDst))
      (UInt16.ofInt l4len) ipprotoTcp (csumPartial m tcpheader l4len 0))

def nebSockCsumTcp6Fill (m : Mem) (ipheader tcpheader : Nat) (l4len : Int) : Mem :=
  let m := store16 m (tcpheader + thSum) 0
  store16 m (tcpheader + thSum)
    (csumIpv6Magic m (ipheader + ip6Src) (ipheader + ip6Dst)
      (UInt32.ofInt l4len) ipprotoTcp (csumPartial m tcpheader l4len 0))

def nebSockCsumIcmp4Fill (m : Mem) (icmpheader : Nat) (l4len : Int) : Mem :=
  let m := store16 m (icmpheader + icmpCksum) 0
  store16 m (icmpheader + icmpCksum) (csumFold (csumPartial m icmpheader l4len 0))

def nebSockCsumIp4Fill (m : Mem) (ipheader : Nat) : Mem :=
  let m := store16 m (ipheader + ipSum) 0
  store16 m (ipheader + ipSum) (ipFastCsum m ipheader (ipHl m ipheader))

@[simp] theorem bytesAt_length (m : Mem) (p len : Nat) : (bytesAt m p len).length = len := by
  induction len generalizing p with
  | zero => rfl
  | succ len ih => simp [bytesAt, ih]

theorem bytesAt_lt (m : Mem) (p len : Nat) : ∀ d ∈ bytesAt m p len, d < 256 := by
  induction len generalizing p with
  | zero => simp [bytesAt]
  | succ len ih =>
      intro d hd
      rcases List.mem_cons.1 hd with rfl | hd
      · exact (m p).toNat_lt
      · exact ih (p + 1) d hd

theorem bytesAt_add (m : Mem) (p k len : Nat) :
    bytesAt m p (k + len) = bytesAt m p k ++ bytesAt m (p + k) len := by
  induction k generalizing p with
  | zero => simp [bytesAt]
  | succ k ih =>
      rw [Nat.succ_add, bytesAt, ih, bytesAt, List.cons_append, Nat.add_assoc, Nat.add_comm 1 k]

/-- A block reads the same from two memories that agree on it. -/
theorem bytesAt_congr {m m' : Mem} {p len : Nat} (h : ∀ a, p ≤ a → a < p + len → m' a = m a) :
    bytesAt m' p len = bytesAt m p len := by
  induction len generalizing p with
  | zero => rfl
  | succ len ih =>
      rw [bytesAt, bytesAt, h p le_rfl (by omega), ih fun a ha hb => h a (by omega) (by omega)]

/-- The number that a block of bytes writes. -/
def val (m : Mem) (p len : Nat) : Nat := Nat.ofDigits 256 (bytesAt m p len)

@[simp] theorem val_zero (m : Mem) (p : Nat) : val m p 0 = 0 := rfl

theorem val_succ (m : Mem) (p len : Nat) :
    val m p (len + 1) = (m p).toNat + 256 * val m (p + 1) len := Nat.ofDigits_cons ..

theorem val_add (m : Mem) (p k len : Nat) :
    val m p (k + len) = val m p k + 256 ^ k * val m (p + k) len := by
  rw [val, bytesAt_add, Nat.ofDigits_append, bytesAt_length]
  rfl

theorem load16_toNat (m : Mem) (p : Nat) : (load16 m p).toNat = val m p 2 := by
  have h0 := (m p).toNat_lt
  have h1 := (m (p + 1)).toNat_lt
  have hv : val m p 2 < 2 ^ 16 := by
    simp only [val_succ, val_zero]
    omega
  exact Nat.mod_eq_of_lt hv

theorem load32_toNat (m : Mem) (p : Nat) : (load32 m p).toNat = val m p 4 := by
  have h0 := (m p).toNat_lt
  have h1 := (m (p + 1)).toNat_lt
  have h2 := (m (p + 1 + 1)).toNat_lt
  have h3 := (m (p + 1 + 1 + 1)).toNat_lt
  have hv : val m p 4 < 2 ^ 32 := by
    simp only [val_succ, val_zero]
    omega
  exact Nat.mod_eq_of_lt hv

end Nebase.Sock.Csum
