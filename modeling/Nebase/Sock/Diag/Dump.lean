/- What is found in a well-formed dump. -/

import Mathlib.Algebra.BigOperators.Group.List.Basic
import Nebase.Sock.Diag.Walk

set_option autoImplicit false
set_option relaxedAutoImplicit false

namespace Nebase.Sock.Diag

open Nebase.Foundation.ByteOrder

/-- An attribute and its padding. -/
structure Attr where
  type : UInt16
  payload : List UInt8
  pad : List UInt8
  short : rtaLength payload.length < 256 ^ 2
  padded : rtaLength payload.length + pad.length = align (rtaLength payload.length)
  vfs : type.toNat = UNIX_DIAG_VFS → sizeofVfs ≤ payload.length

/-- A message about a unix socket; `header` is behind `nlmsg_type`, `state` behind `udiag_type`. -/
structure UnixDiag where
  header : List UInt8
  type : UInt8
  state : List UInt8
  ino : UInt32
  cookie : List UInt8
  attrs : List Attr
  header_length : header.length = 10
  state_length : state.length = 2
  cookie_length : cookie.length = 8

/-- The message at the end. -/
structure Done where
  header : List UInt8
  payload : List UInt8
  header_length : header.length = 10

section
variable (bigEndian : Bool) (fsNi : NebIno)

def Attr.bytes (a : Attr) : List UInt8 :=
  word bigEndian 2 (rtaLength a.payload.length) ++ (word bigEndian 2 a.type.toNat ++
    (a.payload ++ a.pad))

def Attr.isMatch (a : Attr) : Bool :=
  a.type.toNat = UNIX_DIAG_VFS && vfsMatches bigEndian fsNi a.payload 0 = some true

def UnixDiag.attrBytes (s : UnixDiag) : List UInt8 := s.attrs.flatMap (Attr.bytes bigEndian)

def UnixDiag.bytes (s : UnixDiag) : List UInt8 :=
  word bigEndian 4 (nlmsgLength sizeofDiag + (s.attrBytes bigEndian).length) ++
    (word bigEndian 2 SOCK_DIAG_BY_FAMILY ++ (s.header ++ (word bigEndian 1 AF_UNIX ++
      (word bigEndian 1 s.type.toNat ++ (s.state ++ (word bigEndian 4 s.ino.toNat ++
        (s.cookie ++ s.attrBytes bigEndian)))))))

def UnixDiag.isMatch (s : UnixDiag) : Bool := s.attrs.any (Attr.isMatch bigEndian fsNi)

def Done.bytes (d : Done) : List UInt8 :=
  word bigEndian 4 (nlmsgLength d.payload.length) ++
    (word bigEndian 2 NLMSG_DONE ++ (d.header ++ d.payload))

/-- A dump: datagrams of whole messages, the last one with `NLMSG_DONE` at its end. The kernel makes
them no longer than the buffer. -/
structure Dump where
  datagrams : List (List UnixDiag)
  last : List UnixDiag
  done : Done
  nonempty : ∀ socks ∈ datagrams, socks ≠ []
  fits : ∀ socks ∈ datagrams, (socks.flatMap (UnixDiag.bytes bigEndian)).length ≤ sizeofBuf
  last_fits : (last.flatMap (UnixDiag.bytes bigEndian) ++ done.bytes bigEndian).length ≤ sizeofBuf

variable {bigEndian}

def Dump.socks (d : Dump bigEndian) : List UnixDiag := d.datagrams.flatten ++ d.last

/-- What `recvmsg` returns, one datagram after the other. -/
def Dump.recvs (d : Dump bigEndian) : List (List UInt8) :=
  d.datagrams.map (fun socks => socks.flatMap (UnixDiag.bytes bigEndian)) ++
    [d.last.flatMap (UnixDiag.bytes bigEndian) ++ d.done.bytes bigEndian]

/-- 0 with the inode and the type of this socket, or with 0 and 0. -/
def found : Option UnixDiag → Outcome
  | some s => .returns 0 s.ino.toNat s.type.toNat
  | none => .returns 0 0 0

variable {fsNi}

theorem Attr.length_bytes (bigEndian : Bool) (a : Attr) :
    (a.bytes bigEndian).length = align (rtaLength a.payload.length) := by
  rw [← a.padded]
  simp only [Attr.bytes, List.length_append, length_word, rtaLength]
  omega

theorem UnixDiag.length_bytes (bigEndian : Bool) (s : UnixDiag) :
    (s.bytes bigEndian).length = 32 + (s.attrBytes bigEndian).length := by
  simp only [UnixDiag.bytes, List.length_append, length_word, s.header_length, s.state_length,
    s.cookie_length]
  omega

/-- The device and the inode of a payload, where it stands in a message. -/
private theorem vfs_matches_payload {payload : List UInt8} (h : sizeofVfs ≤ payload.length)
    (pre post : List UInt8) :
    vfsMatches bigEndian fsNi (pre ++ (payload ++ post)) pre.length =
      vfsMatches bigEndian fsNi payload 0 := by
  have hsize : 8 ≤ payload.length := h
  have hino : wordAt bigEndian 4 (pre ++ (payload ++ post)) pre.length =
      wordAt bigEndian 4 payload 0 := by
    have hshift := word_at_append bigEndian 4 pre (payload ++ post) 0
    rw [Nat.add_zero] at hshift
    rw [hshift, word_at_left (by omega)]
  unfold vfsMatches
  rw [hino, word_at_append, word_at_left (by omega)]

/-- The body of the attribute loop at an attribute of a message about this socket. -/
private theorem on_attr_bytes (fsNi : NebIno) (a : Attr) {m pre post : List UInt8} {ino kind : Nat}
    (hm : m = pre ++ (a.bytes bigEndian ++ post))
    (hino : wordAt bigEndian 4 m 20 = some ino) (hkind : wordAt bigEndian 1 m 17 = some kind) :
    onAttr bigEndian fsNi m pre.length (rtaLength a.payload.length) =
      if a.isMatch bigEndian fsNi then .returns 0 ino kind else .next := by
  have htype : wordAt bigEndian 2 m (pre.length + 2) = some a.type.toNat := by
    have hlt : a.type.toNat < 256 ^ 2 := a.type.toNat_lt
    have hsplit : m = (pre ++ word bigEndian 2 (rtaLength a.payload.length)) ++
        (word bigEndian 2 a.type.toNat ++ (a.payload ++ a.pad ++ post)) := by
      rw [hm, Attr.bytes]
      simp only [List.append_assoc]
    exact word_at_field bigEndian hlt hsplit (by rw [List.length_append, length_word])
  unfold onAttr Attr.isMatch
  rw [htype]
  by_cases hvfs : a.type.toNat = UNIX_DIAG_VFS
  · have hsize := a.vfs hvfs
    have hlong : ¬ rtaLength a.payload.length < rtaLength sizeofVfs := by
      unfold rtaLength
      omega
    have hpayload : vfsMatches bigEndian fsNi m (pre.length + rtaLength 0) =
        vfsMatches bigEndian fsNi a.payload 0 := by
      rw [← vfs_matches_payload hsize (pre ++ word bigEndian 2 (rtaLength a.payload.length) ++
        word bigEndian 2 a.type.toNat) (a.pad ++ post), hm, Attr.bytes]
      simp only [List.append_assoc, List.length_append, length_word, rtaLength]
    have hwhole : 0 + 8 ≤ a.payload.length := by
      rw [Nat.zero_add]
      exact hsize
    obtain ⟨b, hb⟩ := vfs_matches_inside bigEndian fsNi hwhole
    cases b with
    | true => simp [hvfs, hlong, hpayload, hb, hino, hkind]
    | false => simp [hvfs, hlong, hpayload, hb]
  · simp [hvfs]

/-- The attribute loop finds whether one of the attributes matches. -/
private theorem attr_loop_bytes (fsNi : NebIno) {m pre : List UInt8} {ino kind : Nat}
    (attrs : List Attr) (hm : m = pre ++ attrs.flatMap (Attr.bytes bigEndian))
    (hsize : m.length < 2 ^ 32) (hino : wordAt bigEndian 4 m 20 = some ino)
    (hkind : wordAt bigEndian 1 m 17 = some kind) {fuel : Nat} (enough : attrs.length < fuel) :
    attrLoop bigEndian fsNi m fuel pre.length (attrs.flatMap (Attr.bytes bigEndian)).length =
      if attrs.any (Attr.isMatch bigEndian fsNi) then .returns 0 ino kind else .next := by
  induction attrs generalizing pre fuel with
  | nil =>
    obtain ⟨k, rfl⟩ : ∃ k, fuel = k + 1 := ⟨fuel - 1, by simp at enough; omega⟩
    rfl
  | cons a attrs ih =>
    obtain ⟨k, rfl⟩ : ∃ k, fuel = k + 1 := ⟨fuel - 1, by simp at enough; omega⟩
    have hm' : m = pre ++ (a.bytes bigEndian ++ attrs.flatMap (Attr.bytes bigEndian)) := hm
    have hread : wordAt bigEndian 2 m pre.length = some (rtaLength a.payload.length) := by
      rw [hm', Attr.bytes]
      simp only [List.append_assoc]
      exact word_at_word bigEndian a.short _ _
    have halign := align_bounds (rtaLength a.payload.length)
    have hlen := a.length_bytes bigEndian
    have hrest : (pre ++ a.bytes bigEndian).length =
        pre.length + align (rtaLength a.payload.length) := by rw [List.length_append, hlen]
    have hsize' := hsize
    rw [hm'] at hsize'
    simp only [List.length_append, hlen] at hsize'
    have hheader : rtaLength 0 = 4 := rfl
    have hshort : 4 ≤ rtaLength a.payload.length := by
      unfold rtaLength
      omega
    have hleft : ((a :: attrs).flatMap (Attr.bytes bigEndian)).length =
        align (rtaLength a.payload.length) + (attrs.flatMap (Attr.bytes bigEndian)).length := by
      rw [List.flatMap_cons, List.length_append, hlen]
    rw [attrLoop, hread, hleft, if_neg (by omega)]
    simp only [if_neg (show ¬ (rtaLength a.payload.length < rtaLength 0 ∨
      align (rtaLength a.payload.length) + (attrs.flatMap (Attr.bytes bigEndian)).length <
        rtaLength a.payload.length) by omega), on_attr_bytes fsNi a hm' hino hkind]
    cases hmatch : a.isMatch bigEndian fsNi with
    | true => simp [hmatch]
    | false =>
      have hnext : (align (rtaLength a.payload.length) +
          (attrs.flatMap (Attr.bytes bigEndian)).length +
            (2 ^ 32 - align (rtaLength a.payload.length))) % 2 ^ 32 =
          (attrs.flatMap (Attr.bytes bigEndian)).length := by omega
      have hm'' : m = (pre ++ a.bytes bigEndian) ++ attrs.flatMap (Attr.bytes bigEndian) := by
        rw [hm', List.append_assoc]
      have hfuel : attrs.length < k := Nat.lt_of_succ_lt_succ enough
      have hgo := ih hm'' hfuel
      rw [hrest] at hgo
      simp only [Bool.false_eq_true, if_false, hnext, hgo, List.any_cons, hmatch, Bool.false_or]

/-- The fields of a message about a socket, and the place of its attributes. -/
private theorem bytes_fields (bigEndian : Bool) (s : UnixDiag) :
    wordAt bigEndian 2 (s.bytes bigEndian) 4 = some SOCK_DIAG_BY_FAMILY ∧
      wordAt bigEndian 1 (s.bytes bigEndian) 16 = some AF_UNIX ∧
      wordAt bigEndian 1 (s.bytes bigEndian) 17 = some s.type.toNat ∧
      wordAt bigEndian 4 (s.bytes bigEndian) 20 = some s.ino.toNat ∧
      ∃ pre, pre.length = 32 ∧ s.bytes bigEndian = pre ++ s.attrBytes bigEndian := by
  have hkindFits : s.type.toNat < 256 ^ 1 := s.type.toNat_lt
  have hinoFits : s.ino.toNat < 256 ^ 4 := s.ino.toNat_lt
  -- the bytes in front of each field
  let len := word bigEndian 4 (nlmsgLength sizeofDiag + (s.attrBytes bigEndian).length)
  let family := len ++ (word bigEndian 2 SOCK_DIAG_BY_FAMILY ++ s.header)
  let kind := family ++ word bigEndian 1 AF_UNIX
  let ino := kind ++ (word bigEndian 1 s.type.toNat ++ s.state)
  let attrs := ino ++ (word bigEndian 4 s.ino.toNat ++ s.cookie)
  have hlen : len.length = 4 := length_word _ _ _
  have hfamily : family.length = 16 := by
    simp only [family, List.length_append, hlen, length_word, s.header_length]
  have hkind : kind.length = 17 := by
    rw [List.length_append, hfamily, length_word]
  have hino : ino.length = 20 := by
    simp only [ino, List.length_append, hkind, length_word, s.state_length]
  have hattrs : attrs.length = 32 := by
    simp only [attrs, List.length_append, hino, length_word, s.cookie_length]
  have htail : s.bytes bigEndian = attrs ++ s.attrBytes bigEndian := by
    simp only [attrs, ino, kind, family, len, UnixDiag.bytes, List.append_assoc]
  have hinoSplit : s.bytes bigEndian =
      ino ++ (word bigEndian 4 s.ino.toNat ++ (s.cookie ++ s.attrBytes bigEndian)) := by
    simp only [htail, attrs, List.append_assoc]
  have hkindSplit : s.bytes bigEndian = kind ++ (word bigEndian 1 s.type.toNat ++ (s.state ++
      (word bigEndian 4 s.ino.toNat ++ (s.cookie ++ s.attrBytes bigEndian)))) := by
    simp only [hinoSplit, ino, List.append_assoc]
  have hfamilySplit : s.bytes bigEndian = family ++ (word bigEndian 1 AF_UNIX ++
      (word bigEndian 1 s.type.toNat ++ (s.state ++ (word bigEndian 4 s.ino.toNat ++
        (s.cookie ++ s.attrBytes bigEndian))))) := by
    simp only [hkindSplit, kind, List.append_assoc]
  exact ⟨word_at_field bigEndian (by decide) rfl hlen,
    word_at_field bigEndian (by decide) hfamilySplit hfamily,
    word_at_field bigEndian hkindFits hkindSplit hkind,
    word_at_field bigEndian hinoFits hinoSplit hino, attrs, hattrs, htail⟩

theorem length_le_length_flatMap {α β : Type} {f : α → List β} {l : List α}
    (h : ∀ a ∈ l, 1 ≤ (f a).length) : l.length ≤ (l.flatMap f).length := by
  rw [List.length_flatMap]
  have hsum := List.length_le_sum_of_one_le (l.map (fun a => (f a).length)) (by simpa using h)
  rwa [List.length_map] at hsum

/-- A message about a socket ends the walk where it matches. -/
private theorem on_message_bytes (fsNi : NebIno) (s : UnixDiag)
    (hsize : (s.bytes bigEndian).length < 2 ^ 32) :
    onMessage bigEndian fsNi (s.bytes bigEndian) =
      if s.isMatch bigEndian fsNi then found (some s) else .next := by
  obtain ⟨htype, hfamily, hkind, hino, pre, hpre, hattrs⟩ := bytes_fields bigEndian s
  have hlen := s.length_bytes bigEndian
  have hmany : s.attrs.length ≤ (s.attrBytes bigEndian).length := by
    refine length_le_length_flatMap (fun a _ => ?_)
    have halign := align_bounds (rtaLength a.payload.length)
    rw [a.length_bytes]
    unfold rtaLength at halign ⊢
    omega
  have henough : s.attrs.length < (s.bytes bigEndian).length := by omega
  have hwalk := attr_loop_bytes fsNi s.attrs hattrs hsize hino hkind henough
  rw [hpre] at hwalk
  have hdiag : nlmsgLength sizeofDiag = 32 := rfl
  have hleft : (s.bytes bigEndian).length - nlmsgLength sizeofDiag =
      (s.attrs.flatMap (Attr.bytes bigEndian)).length := by
    rw [hlen, hdiag, Nat.add_sub_cancel_left]
    rfl
  unfold onMessage
  rw [htype]
  simp only [if_neg (show ¬ (s.bytes bigEndian).length < nlmsgLength sizeofDiag by omega), hfamily,
    ne_eq, not_true_eq_false, if_false, if_true, hleft, hwalk]
  rfl

theorem UnixDiag.framed (bigEndian : Bool) (s : UnixDiag) :
    ∃ body, s.bytes bigEndian = word bigEndian 4 (s.bytes bigEndian).length ++ body :=
  ⟨_, by rw [s.length_bytes]; rfl⟩

theorem Done.length_bytes (bigEndian : Bool) (d : Done) :
    (d.bytes bigEndian).length = 16 + d.payload.length := by
  simp only [Done.bytes, List.length_append, length_word, d.header_length]
  omega

theorem Done.framed (bigEndian : Bool) (d : Done) :
    ∃ body, d.bytes bigEndian = word bigEndian 4 (d.bytes bigEndian).length ++ body :=
  ⟨_, by rw [d.length_bytes, Nat.add_comm]; rfl⟩

/-- A message of which the first field is the length. -/
private theorem nlmsg_ok_bytes (pre post : List UInt8) {msg body : List UInt8}
    (hmsg : msg = word bigEndian 4 msg.length ++ body) (header : 16 ≤ msg.length)
    (hsize : msg.length < 2 ^ 32) :
    nlmsgOk bigEndian (pre ++ (msg ++ post)) pre.length (msg ++ post).length = some msg.length := by
  have hread : wordAt bigEndian 4 (pre ++ (msg ++ post)) pre.length = some msg.length := by
    have hsplit : pre ++ (msg ++ post) =
        pre ++ (word bigEndian 4 msg.length ++ (body ++ post)) := by
      rw [← List.append_assoc (word bigEndian 4 msg.length), ← hmsg]
    exact word_at_field bigEndian hsize hsplit rfl
  have hlen : (msg ++ post).length = msg.length + post.length := List.length_append
  rw [nlmsgOk, if_pos (by omega), hread]
  simp [Option.filter, header]

private theorem attr_bytes_aligned (bigEndian : Bool) (attrs : List Attr) :
    (attrs.flatMap (Attr.bytes bigEndian)).length % 4 = 0 := by
  induction attrs with
  | nil => rfl
  | cons a attrs ih =>
    rw [List.flatMap_cons, List.length_append, a.length_bytes]
    unfold align
    omega

/-- The message loop at a message about a socket. -/
private theorem message_loop_sock (fsNi : NebIno) (s : UnixDiag) (pre post : List UInt8)
    (hsize : (s.bytes bigEndian).length < 2 ^ 32) (fuel : Nat) :
    messageLoop bigEndian fsNi (pre ++ (s.bytes bigEndian ++ post)) (fuel + 1) pre.length
        (s.bytes bigEndian ++ post).length =
      if s.isMatch bigEndian fsNi then
        found (some s)
      else
        messageLoop bigEndian fsNi (pre ++ (s.bytes bigEndian ++ post)) fuel
          (pre ++ s.bytes bigEndian).length post.length := by
  have hlen := s.length_bytes bigEndian
  obtain ⟨body, hframe⟩ := s.framed bigEndian
  have halign : align (s.bytes bigEndian).length = (s.bytes bigEndian).length := by
    have hattrs := attr_bytes_aligned bigEndian s.attrs
    have hsame : (s.attrBytes bigEndian).length = (s.attrs.flatMap (Attr.bytes bigEndian)).length :=
      rfl
    unfold align
    omega
  have hleft : ((s.bytes bigEndian ++ post).length : Int) - (s.bytes bigEndian).length =
      post.length := by
    rw [List.length_append]
    omega
  rw [messageLoop, nlmsg_ok_bytes pre post hframe (by omega) hsize]
  simp only [List.drop_left, List.take_left, on_message_bytes fsNi s hsize]
  cases s.isMatch bigEndian fsNi with
  | true => rfl
  | false =>
    have hplace : (pre ++ s.bytes bigEndian).length = pre.length + (s.bytes bigEndian).length :=
      List.length_append
    simp only [Bool.false_eq_true, if_false, halign, hleft, hplace]

/-- The message loop goes through messages up to the first one that matches. -/
private theorem message_loop_socks (fsNi : NebIno) {buf pre : List UInt8} (socks : List UnixDiag)
    {post : List UInt8} (hbuf : buf = pre ++ (socks.flatMap (UnixDiag.bytes bigEndian) ++ post))
    (hsize : buf.length < 2 ^ 32) (fuel : Nat) :
    messageLoop bigEndian fsNi buf (fuel + socks.length) pre.length
        (socks.flatMap (UnixDiag.bytes bigEndian) ++ post).length =
      match socks.find? (UnixDiag.isMatch bigEndian fsNi) with
      | some s => found (some s)
      | none => messageLoop bigEndian fsNi buf fuel
          (pre ++ socks.flatMap (UnixDiag.bytes bigEndian)).length post.length := by
  induction socks generalizing pre with
  | nil => simp
  | cons s socks ih =>
    have hsplit : (s :: socks).flatMap (UnixDiag.bytes bigEndian) ++ post =
        s.bytes bigEndian ++ (socks.flatMap (UnixDiag.bytes bigEndian) ++ post) := by
      rw [List.flatMap_cons, List.append_assoc]
    rw [hsplit] at hbuf ⊢
    have hfits : (s.bytes bigEndian).length < 2 ^ 32 := by
      rw [hbuf] at hsize
      simp only [List.length_append] at hsize
      omega
    have hturn := message_loop_sock fsNi s pre (socks.flatMap (UnixDiag.bytes bigEndian) ++ post)
      hfits (fuel + socks.length)
    rw [← hbuf] at hturn
    rw [List.length_cons, ← Nat.add_assoc, hturn, List.find?_cons]
    cases s.isMatch bigEndian fsNi with
    | true => rfl
    | false =>
      have hbuf' : buf = pre ++ s.bytes bigEndian ++
          (socks.flatMap (UnixDiag.bytes bigEndian) ++ post) := by rw [hbuf, List.append_assoc]
      have hgo := ih hbuf'
      rw [List.append_assoc, ← List.flatMap_cons] at hgo
      simp only [Bool.false_eq_true, if_false]
      exact hgo

private theorem socks_length_le (bigEndian : Bool) (socks : List UnixDiag) :
    socks.length ≤ (socks.flatMap (UnixDiag.bytes bigEndian)).length := by
  refine length_le_length_flatMap (fun s _ => ?_)
  rw [s.length_bytes]
  omega

/-- A datagram that starts with messages about sockets. -/
private theorem message_loop_datagram (bigEndian : Bool) (fsNi : NebIno) (socks : List UnixDiag)
    {buf post : List UInt8}
    (hbuf : buf = socks.flatMap (UnixDiag.bytes bigEndian) ++ post) (hsize : buf.length < 2 ^ 32) :
    ∃ fuel, messageLoop bigEndian fsNi buf (buf.length + 1) 0 buf.length =
      match socks.find? (UnixDiag.isMatch bigEndian fsNi) with
      | some s => found (some s)
      | none => messageLoop bigEndian fsNi buf (fuel + 1)
          (socks.flatMap (UnixDiag.bytes bigEndian)).length post.length := by
  have hmany := socks_length_le bigEndian socks
  have hlen : buf.length = (socks.flatMap (UnixDiag.bytes bigEndian)).length + post.length := by
    rw [hbuf, List.length_append]
  have hall : buf = [] ++ (socks.flatMap (UnixDiag.bytes bigEndian) ++ post) := hbuf
  have hloop := message_loop_socks fsNi socks hall hsize (buf.length - socks.length + 1)
  have hfuel : buf.length - socks.length + 1 + socks.length = buf.length + 1 := by omega
  rw [hfuel, ← hbuf] at hloop
  exact ⟨_, hloop⟩

/-- The first message of a datagram is accepted. -/
private theorem recv_loop_some (fsNi : NebIno) {msg body post buf : List UInt8}
    (recvs : List (Option (List UInt8))) (hbuf : buf = msg ++ post)
    (hmsg : msg = word bigEndian 4 msg.length ++ body) (header : 16 ≤ msg.length)
    (hsize : msg.length < 2 ^ 32) :
    recvLoop bigEndian fsNi (some buf :: recvs) =
      match messageLoop bigEndian fsNi buf (buf.length + 1) 0 buf.length with
      | .next => recvLoop bigEndian fsNi recvs
      | o => o := by
  have hlen : buf.length = msg.length + post.length := by rw [hbuf, List.length_append]
  have hok : nlmsgOk bigEndian buf 0 buf.length = some msg.length := by
    rw [hbuf]
    exact nlmsg_ok_bytes [] post hmsg header hsize
  cases hloop : messageLoop bigEndian fsNi buf (buf.length + 1) 0 buf.length <;>
    rw [recvLoop, if_neg (by omega), if_neg (by rw [hok]; simp), hloop]

/-- A datagram in front of the last one. -/
private theorem recv_loop_socks (fsNi : NebIno) {socks : List UnixDiag} (nonempty : socks ≠ [])
    (fits : (socks.flatMap (UnixDiag.bytes bigEndian)).length ≤ sizeofBuf)
    (recvs : List (Option (List UInt8))) :
    recvLoop bigEndian fsNi (some (socks.flatMap (UnixDiag.bytes bigEndian)) :: recvs) =
      match socks.find? (UnixDiag.isMatch bigEndian fsNi) with
      | some s => found (some s)
      | none => recvLoop bigEndian fsNi recvs := by
  have hbuf : sizeofBuf = 8192 := rfl
  obtain ⟨fuel, hloop⟩ := message_loop_datagram bigEndian fsNi socks
    (List.append_nil _).symm (by omega)
  obtain ⟨s, rest, rfl⟩ := List.exists_cons_of_ne_nil nonempty
  obtain ⟨body, hframe⟩ := s.framed bigEndian
  have hlen := s.length_bytes bigEndian
  have hshort : (s.bytes bigEndian).length < 2 ^ 32 := by
    rw [List.flatMap_cons, List.length_append] at fits
    omega
  rw [recv_loop_some fsNi recvs List.flatMap_cons hframe (by omega) hshort, hloop]
  cases (s :: rest).find? (UnixDiag.isMatch bigEndian fsNi) with
  | some s => rfl
  | none => rfl

private theorem on_message_done (fsNi : NebIno) (d : Done) :
    onMessage bigEndian fsNi (d.bytes bigEndian) = .returns 0 0 0 := by
  have htype : wordAt bigEndian 2 (d.bytes bigEndian) 4 = some NLMSG_DONE :=
    word_at_field bigEndian (by decide) rfl (length_word _ _ _)
  unfold onMessage
  rw [htype]
  rfl

/-- The last datagram starts with a message. -/
private theorem first_framed (last : List UnixDiag) (done : Done)
    (hsize : (last.flatMap (UnixDiag.bytes bigEndian) ++ done.bytes bigEndian).length < 2 ^ 32) :
    ∃ msg body post, last.flatMap (UnixDiag.bytes bigEndian) ++ done.bytes bigEndian = msg ++ post ∧
      msg = word bigEndian 4 msg.length ++ body ∧ 16 ≤ msg.length ∧ msg.length < 2 ^ 32 := by
  rw [List.length_append] at hsize
  cases last with
  | nil =>
    obtain ⟨body, hframe⟩ := done.framed bigEndian
    have hlen := done.length_bytes bigEndian
    exact ⟨done.bytes bigEndian, body, [], (List.append_nil _).symm, hframe, by omega, by omega⟩
  | cons s rest =>
    obtain ⟨body, hframe⟩ := s.framed bigEndian
    have hlen := s.length_bytes bigEndian
    rw [List.flatMap_cons, List.length_append] at hsize
    refine ⟨_, body, rest.flatMap (UnixDiag.bytes bigEndian) ++ done.bytes bigEndian, ?_, hframe,
      by omega, by omega⟩
    rw [List.flatMap_cons, List.append_assoc]

/-- The last datagram. -/
private theorem recv_loop_last (fsNi : NebIno) (last : List UnixDiag) (done : Done)
    (fits : (last.flatMap (UnixDiag.bytes bigEndian) ++ done.bytes bigEndian).length ≤ sizeofBuf)
    (recvs : List (Option (List UInt8))) :
    recvLoop bigEndian fsNi
        (some (last.flatMap (UnixDiag.bytes bigEndian) ++ done.bytes bigEndian) :: recvs) =
      found (last.find? (UnixDiag.isMatch bigEndian fsNi)) := by
  have hbuf : sizeofBuf = 8192 := rfl
  obtain ⟨body, hdone⟩ := done.framed bigEndian
  have hdoneLen := done.length_bytes bigEndian
  have hboth := fits
  rw [List.length_append] at hboth
  have hend : ∀ fuel, messageLoop bigEndian fsNi
      (last.flatMap (UnixDiag.bytes bigEndian) ++ done.bytes bigEndian) (fuel + 1)
      (last.flatMap (UnixDiag.bytes bigEndian)).length (done.bytes bigEndian).length =
        .returns 0 0 0 := by
    intro fuel
    have hok := nlmsg_ok_bytes (last.flatMap (UnixDiag.bytes bigEndian)) [] hdone (by omega)
      (by omega)
    rw [List.append_nil] at hok
    rw [messageLoop, hok]
    simp only [List.drop_left, List.take_length, on_message_done]
  have hsize : (last.flatMap (UnixDiag.bytes bigEndian) ++
      done.bytes bigEndian).length < 2 ^ 32 := by omega
  obtain ⟨fuel, hloop⟩ := message_loop_datagram bigEndian fsNi last rfl hsize
  rw [hend] at hloop
  obtain ⟨msg, body, post, hfirst, hframe, header, hshort⟩ := first_framed last done hsize
  rw [recv_loop_some fsNi recvs hfirst hframe header hshort, hloop]
  cases last.find? (UnixDiag.isMatch bigEndian fsNi) with
  | some s => rfl
  | none => rfl

private theorem recv_loop_dump (fsNi : NebIno) (last : List UnixDiag) (done : Done)
    (last_fits : (last.flatMap (UnixDiag.bytes bigEndian) ++
      done.bytes bigEndian).length ≤ sizeofBuf)
    (later : List (Option (List UInt8))) (datagrams : List (List UnixDiag))
    (nonempty : ∀ socks ∈ datagrams, socks ≠ [])
    (fits : ∀ socks ∈ datagrams,
      (socks.flatMap (UnixDiag.bytes bigEndian)).length ≤ sizeofBuf) :
    recvLoop bigEndian fsNi
        ((datagrams.map (fun socks => some (socks.flatMap (UnixDiag.bytes bigEndian)))) ++
          some (last.flatMap (UnixDiag.bytes bigEndian) ++ done.bytes bigEndian) :: later) =
      found ((datagrams.flatten ++ last).find? (UnixDiag.isMatch bigEndian fsNi)) := by
  induction datagrams with
  | nil => exact recv_loop_last fsNi last done last_fits later
  | cons socks datagrams ih =>
    obtain ⟨hne, hnonempty⟩ := List.forall_mem_cons.mp nonempty
    obtain ⟨hfit, hfits⟩ := List.forall_mem_cons.mp fits
    have hfind : (socks ++ (datagrams.flatten ++ last)).find? (UnixDiag.isMatch bigEndian fsNi) =
        (socks.find? (UnixDiag.isMatch bigEndian fsNi)).or
          ((datagrams.flatten ++ last).find? (UnixDiag.isMatch bigEndian fsNi)) :=
      List.find?_append
    rw [List.map_cons, List.cons_append, recv_loop_socks fsNi hne hfit, ih hnonempty hfits,
      List.flatten_cons, List.append_assoc, hfind]
    cases socks.find? (UnixDiag.isMatch bigEndian fsNi) with
    | some s => rfl
    | none => rfl

/-- The function finds the first socket of a dump that matches, or the end of the dump. -/
theorem get_ino_dump (fsNi : NebIno) (d : Dump bigEndian) (later : List (Option (List UInt8))) :
    nebSockUnixGetIno bigEndian fsNi true true (d.recvs.map some ++ later) =
      found (d.socks.find? (UnixDiag.isMatch bigEndian fsNi)) := by
  have hloop := recv_loop_dump fsNi d.last d.done d.last_fits later d.datagrams d.nonempty d.fits
  have hrecvs : d.recvs.map some ++ later =
      (d.datagrams.map (fun socks => some (socks.flatMap (UnixDiag.bytes bigEndian)))) ++
        some (d.last.flatMap (UnixDiag.bytes bigEndian) ++ d.done.bytes bigEndian) :: later := by
    simp [Dump.recvs]
  rw [hrecvs]
  exact hloop

/-- The walk through an accepted message stays inside it exactly where no attribute overhangs, and
in a dump the function finds the first socket that matches. -/
theorem nebSockUnixGetIno_walk_iff (fsNi : NebIno) {buf : List UInt8} {h len : Nat} {nr : Int}
    (place : h + nr ≤ buf.length) (ok : nlmsgOk bigEndian buf h nr = some len) (d : Dump bigEndian)
    (later : List (Option (List UInt8))) :
    (StaysInside (onMessage bigEndian fsNi ((buf.drop h).take len)) ↔
      ¬ Overhangs bigEndian fsNi ((buf.drop h).take len)) ∧
    nebSockUnixGetIno bigEndian fsNi true true (d.recvs.map some ++ later) =
      found (d.socks.find? (UnixDiag.isMatch bigEndian fsNi)) := by
  obtain ⟨hheader, hsize, hlen⟩ := accepted_length place ok
  exact ⟨on_message_stays_inside_iff hheader hsize, get_ino_dump fsNi d later⟩

end

/-- A message about a socket with inode 7, of 37 bytes: its last attribute is not padded. -/
private def unpadded : List UInt8 :=
  [37, 0, 0, 0, 20, 0, 0, 0, 0, 0, 0, 0, 0, 0, 0, 0, 1, 1, 1, 0, 7, 0, 0, 0, 0, 0, 0, 0, 0, 0, 0, 0,
    5, 0, 0, 0, 97]

/-- The name of a socket, with a byte of padding. -/
private def name : Attr where
  type := 0
  payload := [47, 97, 0]
  pad := [0]
  short := by decide
  padded := by decide
  vfs := by decide

/-- The inode of a socket's file, on the device 0:0. -/
private def vfs (ino : UInt8) : Attr where
  type := 1
  payload := [ino, 0, 0, 0, 0, 0, 0, 0]
  pad := []
  short := show 12 < 256 ^ 2 by decide
  padded := show 12 = align 12 by decide
  vfs := fun _ => Nat.le_refl 8

private def unixDiag (ino : UInt32) (attrs : List Attr) : UnixDiag where
  header := List.replicate 10 0
  type := 1
  state := [1, 0]
  ino := ino
  cookie := List.replicate 8 0
  attrs := attrs
  header_length := rfl
  state_length := rfl
  cookie_length := rfl

/-- Three sockets in two datagrams, of which the second has a name and the third the file with inode
1. -/
private def threeSockets : Dump false where
  datagrams := [[unixDiag 5 [vfs 9], unixDiag 6 [name]], [unixDiag 7 [name, vfs 1]]]
  last := []
  done := ⟨List.replicate 10 0, [], rfl⟩
  nonempty := by simp
  fits := by decide
  last_fits := by decide

/-- The message about the second socket alone, the one that is not padded, and the dump. -/
theorem nebSockUnixGetIno_walk_iff_sockets :
    StaysInside (onMessage false ⟨0, 0, 1⟩ ((((unixDiag 6 [name]).bytes false).drop 0).take 40)) ∧
      ¬ Overhangs false ⟨0, 0, 1⟩ ((((unixDiag 6 [name]).bytes false).drop 0).take 40) ∧
      ¬ StaysInside (onMessage false ⟨0, 0, 1⟩ ((unpadded.drop 0).take 37)) ∧
      Overhangs false ⟨0, 0, 1⟩ ((unpadded.drop 0).take 37) ∧
      nebSockUnixGetIno false ⟨0, 0, 1⟩ true true (threeSockets.recvs.map some ++ []) =
        .returns 0 7 1 := by
  have hnamed : nlmsgOk false ((unixDiag 6 [name]).bytes false) 0 40 = some 40 := by decide
  have hunpadded : nlmsgOk false unpadded 0 37 = some 37 := by decide
  obtain ⟨named, -⟩ := nebSockUnixGetIno_walk_iff ⟨0, 0, 1⟩ (by decide) hnamed threeSockets []
  obtain ⟨bare, dump⟩ := nebSockUnixGetIno_walk_iff ⟨0, 0, 1⟩ (by decide) hunpadded threeSockets []
  have hinside : onMessage false ⟨0, 0, 1⟩
      ((((unixDiag 6 [name]).bytes false).drop 0).take 40) = .next := by decide
  have houtside : onMessage false ⟨0, 0, 1⟩ ((unpadded.drop 0).take 37) = .outside := by decide
  have hstays : StaysInside (onMessage false ⟨0, 0, 1⟩
      ((((unixDiag 6 [name]).bytes false).drop 0).take 40)) := by
    rw [hinside]
    exact ⟨by decide, by decide⟩
  have hleaves : ¬ StaysInside (onMessage false ⟨0, 0, 1⟩ ((unpadded.drop 0).take 37)) :=
    fun h => h.1 houtside
  exact ⟨hstays, named.mp hstays, hleaves, not_not.mp (fun h => hleaves (bare.mpr h)),
    dump.trans (by decide)⟩

/-- Behind the attribute that is not padded, a byte behind the message is read. -/
theorem nebSockUnixGetIno_leaves_message :
    nlmsgOk false unpadded 0 unpadded.length = some unpadded.length ∧
      ¬ StaysInside (onMessage false ⟨0, 0, 1⟩ unpadded) ∧
      nebSockUnixGetIno false ⟨0, 0, 1⟩ true true [some unpadded] = .outside := by
  have houtside : onMessage false ⟨0, 0, 1⟩ unpadded = .outside := by decide
  exact ⟨by decide, fun h => h.1 houtside, by decide⟩

end Nebase.Sock.Diag
