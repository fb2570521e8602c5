/- The inode of a unix socket from a netlink dump: datagrams of messages, messages of attributes. -/

import Nebase.Foundation.ByteOrder

set_option autoImplicit false
set_option relaxedAutoImplicit false

namespace Nebase.Sock.Diag

open Nebase.Foundation.ByteOrder

def NLMSG_ERROR : Nat := 2
def NLMSG_DONE : Nat := 3
def SOCK_DIAG_BY_FAMILY : Nat := 20
def AF_UNIX : Nat := 1
def UNIX_DIAG_VFS : Nat := 1

/-- `NLMSG_ALIGN` and `RTA_ALIGN`. -/
def align (len : Nat) : Nat := (len + 4 - 1) / 4 * 4

/-- `NLMSG_LENGTH`, behind a `struct nlmsghdr`. -/
def nlmsgLength (len : Nat) : Nat := len + 16

/-- `RTA_LENGTH`, behind a `struct rtattr`. -/
def rtaLength (len : Nat) : Nat := 4 + len

/-- `sizeof(struct unix_diag_msg)`. -/
def sizeofDiag : Nat := 16

/-- `sizeof(struct unix_diag_vfs)`. -/
def sizeofVfs : Nat := 8

/-- `sizeof(buf)`. -/
def sizeofBuf : Nat := 8192

def MINORBITS : Nat := 20
def major (dev : Nat) : Nat := dev >>> MINORBITS
def minor (dev : Nat) : Nat := dev % 2 ^ MINORBITS

/-- `neb_ino_t`. -/
structure NebIno where
  devMajor : Nat
  devMinor : Nat
  ino : Nat

/-- A step of the loops: a byte behind the message is read, more steps are needed, the loop goes on
or has ended, or the function returns. -/
inductive Outcome
  | outside
  | running
  | next
  | returns (ret : Int) (sockIno type : Nat)
  deriving DecidableEq

def failed : Outcome := .returns (-1) 0 0

section
variable (bigEndian : Bool) (fsNi : NebIno)

/-- The device and the inode of a `struct unix_diag_vfs` at this offset; `none` where it is not all
inside the message. -/
def vfsMatches (m : List UInt8) (vfs : Nat) : Option Bool :=
  (wordAt bigEndian 4 m (vfs + 4)).bind (fun dev =>
    (wordAt bigEndian 4 m vfs).map (fun ino =>
      major dev = fsNi.devMajor && minor dev = fsNi.devMinor && ino = fsNi.ino))

/-- The body of the attribute loop, for the attribute at `attr` in the message `m`. -/
def onAttr (m : List UInt8) (attr len : Nat) : Outcome :=
  match wordAt bigEndian 2 m (attr + 2) with
  | none => .outside
  | some type =>
    if type = UNIX_DIAG_VFS then
      if len < rtaLength sizeofVfs then
        failed
      else
        match vfsMatches bigEndian fsNi m (attr + rtaLength 0) with
        | none => .outside
        | some false => .next
        | some true =>
          match wordAt bigEndian 4 m 20, wordAt bigEndian 1 m 17 with
          | some ino, some type => .returns 0 ino type
          | _, _ => .outside
    else
      .next

/-- The attribute loop. The bytes behind the message `m` are not its own; `rtaLen` is an
`unsigned int`. -/
def attrLoop (m : List UInt8) : Nat → Nat → Nat → Outcome
  | 0, _, _ => .running
  | fuel + 1, attr, rtaLen =>
    if rtaLen < rtaLength 0 then
      .next
    else
      match wordAt bigEndian 2 m attr with
      | none => .outside
      | some len =>
        if len < rtaLength 0 ∨ rtaLen < len then
          .next
        else
          match onAttr bigEndian fsNi m attr len with
          | .next => attrLoop m fuel (attr + align len) ((rtaLen + (2 ^ 32 - align len)) % 2 ^ 32)
          | o => o

/-- The body of the message loop; a message has `nlmsg_len` bytes. -/
def onMessage (m : List UInt8) : Outcome :=
  match wordAt bigEndian 2 m 4 with
  | none => .outside
  | some type =>
    if type = SOCK_DIAG_BY_FAMILY then
      if m.length < nlmsgLength sizeofDiag then
        failed
      else if wordAt bigEndian 1 m 16 ≠ some AF_UNIX then
        failed
      else
        attrLoop bigEndian fsNi m m.length 32 (m.length - nlmsgLength sizeofDiag)
    else if type = NLMSG_ERROR then
      -- the error number is for the log alone
      failed
    else if type = NLMSG_DONE then
      .returns 0 0 0
    else
      failed

/-- `NLMSG_OK`, and then the length of the message. -/
def nlmsgOk (buf : List UInt8) (h : Nat) (nr : Int) : Option Nat :=
  if nr ≥ 16 then
    (wordAt bigEndian 4 buf h).filter (fun len => 16 ≤ len && (len : Int) ≤ nr)
  else
    none

/-- The loop over the messages of a datagram. -/
def messageLoop (buf : List UInt8) : Nat → Nat → Int → Outcome
  | 0, _, _ => .running
  | fuel + 1, h, nr =>
    match nlmsgOk bigEndian buf h nr with
    | none => .next
    | some len =>
      match onMessage bigEndian fsNi ((buf.drop h).take len) with
      | .next => messageLoop buf fuel (h + align len) (nr - align len)
      | o => o

/-- The loop over the datagrams that `recvmsg` returns, `none` for an error; it goes on as long as
there are some. -/
def recvLoop : List (Option (List UInt8)) → Outcome
  | [] => .next
  | none :: _ => failed
  | some buf :: recvs =>
    if buf.length = 0 then
      failed
    else if nlmsgOk bigEndian buf 0 buf.length = none then
      failed
    else
      match messageLoop bigEndian fsNi buf (buf.length + 1) 0 buf.length with
      | .next => recvLoop recvs
      | o => o

/-- `socket` and `query` say that the socket was created and the query was sent. -/
def nebSockUnixGetIno (socket query : Bool) (recvs : List (Option (List UInt8))) : Outcome :=
  if socket && query then recvLoop bigEndian fsNi recvs else failed

end

end Nebase.Sock.Diag
