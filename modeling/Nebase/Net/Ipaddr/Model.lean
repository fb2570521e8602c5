/- The address functions: reverse names, the next address, and networks read from their
   presentation. -/

import Nebase.Foundation.Decimal
import Nebase.Net.Radix.Model
import Mathlib.Data.Nat.Digits.Defs

set_option autoImplicit false
set_option relaxedAutoImplicit false

namespace Nebase.Net.Ipaddr

open Nebase.Foundation.Decimal
open Nebase.Net.Radix (Sockaddr Family AF_INET AF_INET6 saFamily memcpyAt)

/-- The bytes of a string literal, without its terminator. -/
def chars (cs : List Char) : List UInt8 := cs.map (fun c => UInt8.ofNat c.toNat)

/-- `buf[i] = c`; `none` past the end of the buffer. -/
def writeAt (buf : List UInt8) (i : Nat) (c : UInt8) : Option (List UInt8) :=
  if i < buf.length then some (buf.set i c) else none

/-- `memcpy(buf + offset, src, len)`. -/
def copyTo (buf : List UInt8) (offset : Nat) (src : List UInt8) : Option (List UInt8) :=
  if offset + src.length ≤ buf.length then some (memcpyAt buf offset src) else none

/-- `snprintf(buf, size, ...)` of a text. -/
def snprintf (buf : List UInt8) (size : Nat) (text : List UInt8) :
    Option (Nat × List UInt8) :=
  (copyTo buf 0 (text.take (size - 1) ++ [0])).map (fun buf => (text.length, buf))

/-! Reverse names. -/

def INET_ADDRSTRLEN : Nat := 16
def INET6_ADDRSTRLEN : Nat := 46
def NEB_INET_ARPASTRLEN : Nat := INET_ADDRSTRLEN + 1 + 12
def NEB_INET6_ARPASTRLEN : Nat := 8 * 4 * 2 + 8 + 1

def nebIpv4ArpaDomain : List UInt8 :=
  chars ['i', 'n', '-', 'a', 'd', 'd', 'r', '.', 'a', 'r', 'p', 'a']

def nebIpv6ArpaDomain : List UInt8 := chars ['i', 'p', '6', '.', 'a', 'r', 'p', 'a']

def hexmap : List UInt8 :=
  chars ['0', '1', '2', '3', '4', '5', '6', '7', '8', '9', 'a', 'b', 'c', 'd', 'e', 'f']

/-- `hexmap[nibble & 0x0F]`. -/
def hexDigit (nibble : UInt8) : UInt8 := hexmap.getD (nibble &&& 0x0F).toNat 0

def fixedLen : Nat := 64

/-- The rounds of the loop over the bytes `addr[i]` and after. -/
def ipv6Nibbles : Nat → List UInt8 → List UInt8 → Option (List UInt8)
  | _, [], arpa => some arpa
  | i, b :: addr, arpa =>
    let off := fixedLen - 4 - (i <<< 2)
    (writeAt arpa off (hexDigit b)).bind (fun arpa =>
      (writeAt arpa (off + 2) (hexDigit (b >>> 4))).bind (ipv6Nibbles (i + 1) addr))

def ipv6AddrToArpa (addr arpa : List UInt8) : Option (List UInt8) :=
  (copyTo arpa 0 (List.replicate fixedLen 46)).bind (fun arpa =>
    (ipv6Nibbles 0 addr arpa).bind (fun arpa =>
      (copyTo arpa fixedLen nebIpv6ArpaDomain).bind (fun arpa =>
        writeAt arpa (NEB_INET6_ARPASTRLEN - 1) 0)))

def ipv4AddrToArpa (addr arpa : List UInt8) : Option (List UInt8) :=
  let octet := fun i => decimal (addr.getD i 0).toNat ++ [46]
  (snprintf arpa NEB_INET_ARPASTRLEN
    (octet 3 ++ octet 2 ++ octet 1 ++ octet 0 ++ nebIpv4ArpaDomain)).bind (fun (len, arpa) =>
      writeAt arpa len 0)

/-- The buffer afterwards; `none` is a write past its end. -/
def nebNetinetAddrToArpa (family : Nat) (addr arpa : List UInt8) : Option (List UInt8) :=
  if family = AF_INET then ipv4AddrToArpa addr arpa
  else if family = AF_INET6 then ipv6AddrToArpa addr arpa
  else writeAt arpa 0 0

/-! The next address. -/

/-- `ntohl` of the 32 bits at an offset. -/
def ntohlAt (v : Sockaddr) (offset : Nat) : UInt32 :=
  UInt32.ofNat (Nat.ofDigits 256 (((v.drop offset).take 4).reverse.map (·.toNat)))

/-- Stores `htonl(t)` there. -/
def htonlAt (v : Sockaddr) (offset : Nat) (t : UInt32) : Sockaddr :=
  memcpyAt v offset [(t >>> 24).toUInt8, (t >>> 16).toUInt8, (t >>> 8).toUInt8, t.toUInt8]

def ipv4AddrNext (addr : Sockaddr) : Sockaddr :=
  let t := ntohlAt addr 4
  htonlAt addr 4 (t + 1)

/-- The loop from `p[i - 1]` downwards, where `p` is the structure in words. -/
def ipv6NextLoop : Nat → Sockaddr → Sockaddr
  | 0, addr => addr
  | i + 1, addr =>
    let t := ntohlAt addr (4 * i)
    if t ≠ 0xffffffff then
      htonlAt addr (4 * i) (t + 1)
    else
      ipv6NextLoop i (memcpyAt addr (4 * i) [0, 0, 0, 0])

def ipv6AddrNext (addr : Sockaddr) : Sockaddr := ipv6NextLoop 4 addr

def nebNetinetAddrNext (bigEndian : Bool) (ipaddr : Sockaddr) : Sockaddr :=
  match saFamily bigEndian ipaddr with
  | some .inet => ipv4AddrNext ipaddr
  | some .inet6 => ipv6AddrNext ipaddr
  | none => ipaddr

/-! Networks. -/

/-- Stores the length of a prefix in the port. -/
def setPort (bigEndian : Bool) (v : Sockaddr) (bits : Nat) : Sockaddr :=
  let high := UInt8.ofNat (bits / 256)
  let low := UInt8.ofNat (bits % 256)
  memcpyAt v 2 (if bigEndian then [high, low] else [low, high])

/-- The conversion of a `ptrdiff_t` to an `int`. -/
def toInt (n : Nat) : Int := (n : Int).bmod 4294967296

/-- `inet_net_pton` gives an IPv4 network, `inet_pton` an IPv6 address. -/
structure Inet where
  netPton : List UInt8 → Option (Nat × List UInt8)
  pton : List UInt8 → Option (List UInt8)

/-- The last steps for an IPv6 network: the address from the string `buf`, then the port. -/
def netFill (inet : Inet) (bigEndian : Bool) (buf : List UInt8) (bits : Nat) (netaddr : Sockaddr) :
    Int × Sockaddr :=
  match inet.pton buf with
  | none => (-1, netaddr)
  | some addr => (0, setPort bigEndian (memcpyAt netaddr 8 addr) bits)

/-- The branch for IPv6 of Linux and Darwin; `none` is a copy past the end of `buf`. -/
def net6Pton (inet : Inet) (bigEndian : Bool) (pres : List UInt8) (netaddr : Sockaddr) :
    Option (Int × Sockaddr) :=
  let bits := 16 <<< 3
  match pres.dropWhile (· ≠ 47) with
  | _ :: d =>
    let len := toInt (pres.takeWhile (· ≠ 47)).length
    if len ≥ INET6_ADDRSTRLEN then
      some (-1, netaddr)
    else if strtolEnd d ≠ [] then
      some (-1, netaddr)
    else if strtol d < 0 ∨ strtol d > bits then
      some (-1, netaddr)
    else if len < 0 then
      none
    else
      some (netFill inet bigEndian (pres.take len.toNat) (strtol d).toNat netaddr)
  | [] => some (netFill inet bigEndian pres bits netaddr)

def nebNetinetNetPton (inet : Inet) (bigEndian : Bool) (pres : List UInt8) (netaddr : Sockaddr) :
    Option (Int × Sockaddr) :=
  match saFamily bigEndian netaddr with
  | some .inet =>
    match inet.netPton pres with
    | none => some (-1, netaddr)
    | some (bits, addr) => some (0, setPort bigEndian (memcpyAt netaddr 4 addr) bits)
  | some .inet6 => net6Pton inet bigEndian pres netaddr
  | none => some (-1, netaddr)

end Nebase.Net.Ipaddr
