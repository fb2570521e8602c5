/- The longest prefix match tree: keys and masks built from socket addresses, and the three
   operations of the tree. -/

import Nebase.Net.Radix.Rn
import Mathlib.Logic.Function.Basic

set_option autoImplicit false
set_option relaxedAutoImplicit false

namespace Nebase.Net.Radix

/-- The bytes of a `struct sockaddr_in` or `struct sockaddr_in6`. -/
abbrev Sockaddr := List UInt8

/-- The families a tree can have, `AF_INET` and `AF_INET6`. -/
inductive Family
  | inet
  | inet6
  deriving DecidableEq

def AF_INET : Nat := 2
def AF_INET6 : Nat := 10

/-- `offsetof(struct sockaddr_in, sin_addr)` and its IPv6 counterpart. -/
def Family.addrOffset : Family → Nat
  | .inet => 4
  | .inet6 => 8

/-- `sizeof(struct in_addr)` and `sizeof(struct in6_addr)`. -/
def Family.addrSize : Family → Nat
  | .inet => 4
  | .inet6 => 16

def Family.sockaddrSize : Family → Nat
  | .inet => 16
  | .inet6 => 28

/-- `KEY_LEN_IPv4_ADDR` and `KEY_LEN_IPv6_ADDR`. -/
def Family.keyLen (f : Family) : Nat := f.addrOffset + f.addrSize

/-- A 16-bit field in the byte order of the host. -/
def hostU16 (bigEndian : Bool) (v : Sockaddr) (offset : Nat) : Nat :=
  let a := (v.getD offset 0).toNat
  let b := (v.getD (offset + 1) 0).toNat
  if bigEndian then a <<< 8 + b else b <<< 8 + a

def saFamily (bigEndian : Bool) (v : Sockaddr) : Option Family :=
  if hostU16 bigEndian v 0 = AF_INET then some .inet
  else if hostU16 bigEndian v 0 = AF_INET6 then some .inet6
  else none

/-- `sin_port` or `sin6_port`, which holds the length of a prefix. -/
def sinPort (bigEndian : Bool) (v : Sockaddr) : Nat := hostU16 bigEndian v 2

/-- `sin_addr` or `sin6_addr`. -/
def sinAddr (f : Family) (v : Sockaddr) : List UInt8 :=
  (v.drop f.addrOffset).take f.addrSize

/-- `memcpy(v + offset, src, len)`. -/
def memcpyAt (v : List UInt8) (offset : Nat) (src : List UInt8) : List UInt8 :=
  v.take offset ++ src ++ v.drop (offset + src.length)

/-- `neb_netinet_fill_mask` on the bytes from `addr` on; `none` past their end. -/
def nebNetinetFillMask : List UInt8 → Nat → Option (List UInt8)
  | [], _ => none
  | _ :: addr, prefix_ =>
    if prefix_ > 8 then
      (nebNetinetFillMask addr (prefix_ - 8)).map (fun rest => 0xFF :: rest)
    else
      some (UInt8.ofNat ((0xFF <<< (8 - prefix_)) &&& 0xFF) :: addr)

structure NebNetRadixEntry where
  refRt : Bool
  network : Sockaddr
  netmask : Sockaddr
  udata : Int

/-- `entries` is the memory of the entries that belong to the tree, `deleted` the data handed to
`on_del` so far, latest first. -/
structure NebNetRadixTree (H : Type) where
  rnh : H
  family : Family
  onDel : Bool
  entries : EntryAddr → Option NebNetRadixEntry
  deleted : List Int

section Radix

variable {H : Type} (ops : RnOps H) (bigEndian : Bool)

def nebNetRadixTreeCreate (family : Family) (onDel : Bool) : NebNetRadixTree H where
  rnh := ops.inithead (family.addrOffset <<< 3)
  family := family
  onDel := onDel
  entries := fun _ => none
  deleted := []

def rtGetNetwork (malloc : Bool) (netaddr : Sockaddr) : Option Sockaddr :=
  match saFamily bigEndian netaddr with
  | none => none
  | some f =>
    if sinPort bigEndian netaddr ≥ f.addrSize <<< 3 then
      none
    else if malloc then
      some ((netaddr.take f.sockaddrSize).set 0 (UInt8.ofNat f.keyLen))
    else
      none

/-- The outer `none` is a write past the end of the mask, the inner one a failed `calloc`. -/
def rtGetNetmask (calloc : Bool) (family : Family) (vk : Sockaddr) : Option (Option Sockaddr) :=
  if calloc then
    let mk := memcpyAt (List.replicate family.sockaddrSize 0) 0 (vk.take family.addrOffset)
    (nebNetinetFillMask (mk.drop family.addrOffset) (sinPort bigEndian mk)).map
      (fun mask => some (mk.take family.addrOffset ++ mask))
  else
    some none

/-- The results of the allocations of one call: the address of a new entry, and whether its network
and its netmask could be allocated. -/
structure Allocs where
  entry : Option EntryAddr
  network : Bool
  netmask : Bool

/-- The new entry is not linked to a tree yet, so its `udata` is still 0. -/
def nebNetRadixEntryNew (allocs : Allocs) (netaddr : Sockaddr) :
    Option (Option (EntryAddr × NebNetRadixEntry)) :=
  match allocs.entry with
  | none => some none
  | some rte =>
    match rtGetNetwork bigEndian allocs.network netaddr, saFamily bigEndian netaddr with
    | some network, some f =>
      (rtGetNetmask bigEndian allocs.netmask f network).map (fun mask =>
        mask.map (fun netmask => (rte, ⟨false, network, netmask, 0⟩)))
    | _, _ => some none

/-- `neb_net_radix_entry_del` of an entry of the tree. -/
def nebNetRadixEntryDel {H : Type} (x : EntryAddr) (rt : NebNetRadixTree H) : NebNetRadixTree H :=
  match rt.entries x with
  | none => rt
  | some rte =>
    { rt with
      entries := Function.update rt.entries x none
      deleted := if rte.refRt && rt.onDel then rte.udata :: rt.deleted else rt.deleted }

/-- The outer `none` is undefined behaviour. -/
def nebNetRadixTreeSet (allocs : Allocs) (netaddr : Sockaddr) (data : Int)
    (rt : NebNetRadixTree H) : Option (Int × NebNetRadixTree H) :=
  if some rt.family ≠ saFamily bigEndian netaddr then
    some (-1, rt)
  else if data = 0 then
    some (-1, rt)
  else
    match nebNetRadixEntryNew bigEndian allocs netaddr with
    | none => none
    | some none => some (-1, rt)
    | some (some (addr, rte)) =>
      match ops.addroute rte.network rte.netmask rt.rnh addr with
      | some rnh =>
        some (0, { rt with
          rnh := rnh
          entries := Function.update rt.entries addr
            (some { rte with udata := data, refRt := true }) })
      | none =>
        match ops.lookup rte.network rte.netmask rt.rnh with
        | none => some (-1, rt)
        | some x =>
          match rt.entries x with
          | none => none
          | some old =>
            some (0, { rt with
              entries := Function.update rt.entries x
                (some { old with udata := data, refRt := true })
              deleted := if rt.onDel then old.udata :: rt.deleted else rt.deleted })

/-- The caller's address, whose first byte is the key length during the call, and the tree. -/
def nebNetRadixTreeUnset (calloc : Bool) (netaddr : Sockaddr) (rt : NebNetRadixTree H) :
    Option (Sockaddr × NebNetRadixTree H) :=
  if some rt.family ≠ saFamily bigEndian netaddr then
    some (netaddr, rt)
  else
    let c := netaddr.getD 0 0
    let netaddr := netaddr.set 0 (UInt8.ofNat rt.family.keyLen)
    (rtGetNetmask bigEndian calloc rt.family netaddr).map (fun netmask =>
      match netmask with
      | none => (netaddr.set 0 c, rt)
      | some netmask =>
        match ops.delete netaddr netmask rt.rnh with
        | none => (netaddr.set 0 c, rt)
        | some (x, rnh) => (netaddr.set 0 c, nebNetRadixEntryDel x { rt with rnh := rnh }))

/-- The result and the caller's address afterwards. -/
def nebNetRadixTreeLpmGet (rt : NebNetRadixTree H) (ipaddr : Sockaddr) (fill : Bool) :
    Option (Int × Sockaddr) :=
  if some rt.family ≠ saFamily bigEndian ipaddr then
    some (0, ipaddr)
  else
    let c := ipaddr.getD 0 0
    let ipaddr := ipaddr.set 0 (UInt8.ofNat rt.family.keyLen)
    let x := ops.matchKey ipaddr rt.rnh
    let ipaddr := ipaddr.set 0 c
    match x with
    | none => some (0, ipaddr)
    | some x =>
      match rt.entries x with
      | none => none
      | some rte =>
        if fill then
          let ipaddr := memcpyAt ipaddr 2 ((rte.network.drop 2).take 2)
          some (rte.udata,
            memcpyAt ipaddr rt.family.addrOffset (sinAddr rt.family rte.network))
        else
          some (rte.udata, ipaddr)

end Radix

end Nebase.Net.Radix
