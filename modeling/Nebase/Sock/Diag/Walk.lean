/- Where the attribute loop stays inside its message. -/

import Nebase.Sock.Diag.Model

set_option autoImplicit false
set_option relaxedAutoImplicit false

namespace Nebase.Sock.Diag

open Nebase.Foundation.ByteOrder

section
variable (bigEndian : Bool) (fsNi : NebIno)

/-- An attribute of `len` bytes at `attr`, all of them inside the message. -/
def Attribute (m : List UInt8) (attr len : Nat) : Prop :=
  wordAt bigEndian 2 m attr = some len ∧ rtaLength 0 ≤ len ∧ attr + len ≤ m.length

/-- The function does not return at this attribute: if it is a `UNIX_DIAG_VFS`, it is not too short,
and another device or another inode. -/
def Passes (m : List UInt8) (attr len : Nat) : Prop :=
  wordAt bigEndian 2 m (attr + 2) = some UNIX_DIAG_VFS →
    rtaLength sizeofVfs ≤ len ∧ vfsMatches bigEndian fsNi m (attr + rtaLength 0) = some false

/-- The places inside the message that are behind such attributes and their padding. -/
inductive Reached (m : List UInt8) : Nat → Prop
  | first : Reached m 32
  | behind {attr len : Nat} (reached : Reached m attr) (inside : Attribute bigEndian m attr len)
      (passes : Passes bigEndian fsNi m attr len) (padded : attr + align len ≤ m.length) :
      Reached m (attr + align len)

/-- The message is one about a unix socket, and the padding of an attribute at which the function
does not return is not inside the message. -/
def Overhangs (m : List UInt8) : Prop :=
  wordAt bigEndian 2 m 4 = some SOCK_DIAG_BY_FAMILY ∧ nlmsgLength sizeofDiag ≤ m.length ∧
    wordAt bigEndian 1 m 16 = some AF_UNIX ∧
    ∃ attr len, Reached bigEndian fsNi m attr ∧ Attribute bigEndian m attr len ∧
      Passes bigEndian fsNi m attr len ∧ m.length < attr + align len

/-- The loop reads no byte behind the message, and ends. -/
def StaysInside (o : Outcome) : Prop := o ≠ .outside ∧ o ≠ .running

variable {bigEndian fsNi} {m : List UInt8}

theorem align_bounds (len : Nat) : len ≤ align len ∧ align len < len + 4 := by
  unfold align
  omega

theorem vfs_matches_inside (bigEndian : Bool) (fsNi : NebIno) {vfs : Nat} (h : vfs + 8 ≤ m.length) :
    ∃ b, vfsMatches bigEndian fsNi m vfs = some b := by
  have hdevRoom : vfs + 4 + 4 ≤ m.length := by omega
  have hinoRoom : vfs + 4 ≤ m.length := by omega
  obtain ⟨dev, hdev, -⟩ := word_at_inside bigEndian hdevRoom
  obtain ⟨ino, hino, -⟩ := word_at_inside bigEndian hinoRoom
  rw [vfsMatches, hdev, hino]
  exact ⟨_, rfl⟩

/-- An attribute inside the message: the loop goes past it, or the function returns. -/
private theorem on_attr_spec (fsNi : NebIno) {attr len : Nat} (head : 32 ≤ m.length)
    (inside : Attribute bigEndian m attr len) :
    Passes bigEndian fsNi m attr len ∧ onAttr bigEndian fsNi m attr len = .next ∨
      ¬ Passes bigEndian fsNi m attr len ∧
        ∃ ret ino type, onAttr bigEndian fsNi m attr len = .returns ret ino type := by
  obtain ⟨-, hshort, hend⟩ := inside
  have hheader : rtaLength 0 = 4 := rfl
  have hwhole : rtaLength sizeofVfs = 12 := rfl
  have htypeRoom : attr + 2 + 2 ≤ m.length := by omega
  obtain ⟨type, htype, -⟩ := word_at_inside bigEndian htypeRoom
  unfold onAttr Passes
  rw [htype]
  by_cases hvfs : type = UNIX_DIAG_VFS
  · subst hvfs
    by_cases hlen : len < rtaLength sizeofVfs
    · exact .inr ⟨fun h => absurd (h rfl).1 (by omega), -1, 0, 0, by simp [hlen, failed]⟩
    · obtain ⟨b, hb⟩ : ∃ b, vfsMatches bigEndian fsNi m (attr + rtaLength 0) = some b :=
        vfs_matches_inside bigEndian fsNi (by omega)
      cases b with
      | false => exact .inl ⟨fun _ => ⟨by omega, hb⟩, by simp [hlen, hb]⟩
      | true =>
        have hinoRoom : 20 + 4 ≤ m.length := by omega
        have hkindRoom : 17 + 1 ≤ m.length := by omega
        obtain ⟨ino, hino, -⟩ := word_at_inside bigEndian hinoRoom
        obtain ⟨kind, hkind, -⟩ := word_at_inside bigEndian hkindRoom
        refine .inr ⟨fun h => ?_, 0, ino, kind, by simp [hlen, hb, hino, hkind]⟩
        rw [hb] at h
        cases (h rfl).2
  · exact .inl ⟨fun h => absurd (Option.some.inj h) hvfs, by simp [hvfs]⟩

/-- The length that is left behind an attribute and its padding, which may not be inside. -/
private theorem rta_len_spec {attr len : Nat} (hsize : m.length < 2 ^ 32)
    (hend : attr + len ≤ m.length) :
    (attr + align len ≤ m.length →
      (m.length - attr + (2 ^ 32 - align len)) % 2 ^ 32 = m.length - (attr + align len)) ∧
    (m.length < attr + align len → (m.length - attr + (2 ^ 32 - align len)) % 2 ^ 32 ≥ 4) := by
  have halign := align_bounds len
  omega

/-- A turn of the attribute loop. -/
private theorem attr_loop_turn (bigEndian : Bool) (fsNi : NebIno) {attr : Nat}
    (head : 32 ≤ m.length) (hattr : attr ≤ m.length) (k : Nat) :
    attrLoop bigEndian fsNi m (k + 1) attr (m.length - attr) = .next ∧
        (∀ len, ¬ Attribute bigEndian m attr len) ∨
      (∃ ret ino type,
        attrLoop bigEndian fsNi m (k + 1) attr (m.length - attr) = .returns ret ino type) ∧
        (∃ len, Attribute bigEndian m attr len ∧ ¬ Passes bigEndian fsNi m attr len) ∨
      ∃ len, Attribute bigEndian m attr len ∧ Passes bigEndian fsNi m attr len ∧
        attrLoop bigEndian fsNi m (k + 1) attr (m.length - attr) =
          attrLoop bigEndian fsNi m k (attr + align len)
            ((m.length - attr + (2 ^ 32 - align len)) % 2 ^ 32) := by
  have hheader : rtaLength 0 = 4 := rfl
  rw [attrLoop]
  by_cases hroom : m.length - attr < rtaLength 0
  · refine .inl ⟨if_pos hroom, fun len h => ?_⟩
    have hshort := h.2.1
    have hend := h.2.2
    omega
  · have hlenRoom : attr + 2 ≤ m.length := by omega
    obtain ⟨len, hlen, -⟩ := word_at_inside bigEndian hlenRoom
    rw [if_neg hroom, hlen]
    by_cases hok : len < rtaLength 0 ∨ m.length - attr < len
    · refine .inl ⟨if_pos hok, fun len' h => ?_⟩
      obtain rfl := Option.some.inj (hlen.symm.trans h.1)
      have hshort := h.2.1
      have hend := h.2.2
      omega
    · have hinside : Attribute bigEndian m attr len := ⟨hlen, by omega, by omega⟩
      simp only [if_neg hok]
      rcases on_attr_spec fsNi head hinside with ⟨hpasses, hnext⟩ |
        ⟨hpasses, ret, ino, type, hret⟩
      · exact .inr (.inr ⟨len, hinside, hpasses, by rw [hnext]⟩)
      · exact .inr (.inl ⟨⟨ret, ino, type, by rw [hret]⟩, len, hinside, hpasses⟩)

/-- Where no padding is outside, the loop ends inside the message. -/
private theorem attr_loop_inside (head : 32 ≤ m.length) (hsize : m.length < 2 ^ 32)
    (fits : ∀ attr len, Reached bigEndian fsNi m attr → Attribute bigEndian m attr len →
      Passes bigEndian fsNi m attr len → attr + align len ≤ m.length)
    {fuel attr : Nat} (reached : Reached bigEndian fsNi m attr) (hattr : attr ≤ m.length)
    (enough : m.length - attr < fuel) :
    StaysInside (attrLoop bigEndian fsNi m fuel attr (m.length - attr)) := by
  induction fuel generalizing attr with
  | zero => omega
  | succ fuel ih =>
    rcases attr_loop_turn bigEndian fsNi head hattr fuel with
      ⟨hnext, -⟩ | ⟨⟨ret, ino, type, hret⟩, -⟩ | ⟨len, hinside, hpasses, hgo⟩
    · rw [hnext]
      exact ⟨by simp, by simp⟩
    · rw [hret]
      exact ⟨by simp, by simp⟩
    · have hpadded := fits attr len reached hinside hpasses
      have hshort : 4 ≤ len := hinside.2.1
      have halign := align_bounds len
      rw [hgo, (rta_len_spec hsize hinside.2.2).1 hpadded]
      exact ih (reached.behind hinside hpasses hpadded) hpadded (by omega)

/-- The loop gets to the places that are reached. -/
private theorem attr_loop_reaches (head : 32 ≤ m.length) (hsize : m.length < 2 ^ 32) {attr : Nat}
    (reached : Reached bigEndian fsNi m attr) :
    ∃ fuel, m.length - attr < fuel ∧ attr ≤ m.length ∧
      attrLoop bigEndian fsNi m m.length 32 (m.length - 32) =
        attrLoop bigEndian fsNi m fuel attr (m.length - attr) := by
  induction reached with
  | first => exact ⟨m.length, by omega, head, rfl⟩
  | @behind attr len _ hinside hpasses hpadded ih =>
    obtain ⟨fuel, henough, hattr, hsame⟩ := ih
    obtain ⟨k, rfl⟩ : ∃ k, fuel = k + 1 := ⟨fuel - 1, by omega⟩
    have hshort : 4 ≤ len := hinside.2.1
    have halign := align_bounds len
    refine ⟨k, by omega, hpadded, ?_⟩
    rcases attr_loop_turn bigEndian fsNi head hattr k with
      ⟨-, hno⟩ | ⟨-, len', hinside', hstops⟩ | ⟨len', hinside', -, hgo⟩
    · exact absurd hinside (hno len)
    · obtain rfl := Option.some.inj (hinside.1.symm.trans hinside'.1)
      exact absurd hpasses hstops
    · obtain rfl := Option.some.inj (hinside.1.symm.trans hinside'.1)
      rw [hsame, hgo, (rta_len_spec hsize hinside.2.2).1 hpadded]

/-- Behind padding that is not inside, the length has wrapped, and the next header is read. -/
private theorem attr_loop_outside (head : 32 ≤ m.length) (hsize : m.length < 2 ^ 32)
    {attr len : Nat}
    (reached : Reached bigEndian fsNi m attr) (inside : Attribute bigEndian m attr len)
    (passes : Passes bigEndian fsNi m attr len) (overhangs : m.length < attr + align len) :
    attrLoop bigEndian fsNi m m.length 32 (m.length - 32) = .outside := by
  obtain ⟨fuel, henough, hattr, hsame⟩ := attr_loop_reaches head hsize reached
  have hshort : 4 ≤ len := inside.2.1
  have hend := inside.2.2
  obtain ⟨k, rfl⟩ : ∃ k, fuel = k + 1 + 1 := ⟨fuel - 2, by omega⟩
  rcases attr_loop_turn bigEndian fsNi head hattr (k + 1) with
    ⟨-, hno⟩ | ⟨-, len', inside', hstops⟩ | ⟨len', inside', -, hgo⟩
  · exact absurd inside (hno len)
  · obtain rfl := Option.some.inj (inside.1.symm.trans inside'.1)
    exact absurd passes hstops
  · obtain rfl := Option.some.inj (inside.1.symm.trans inside'.1)
    have hwrapped := (rta_len_spec hsize hend).2 overhangs
    have hheader : rtaLength 0 = 4 := rfl
    have hnone : wordAt bigEndian 2 m (attr + align len) = none :=
      word_at_outside bigEndian (by omega)
    rw [hsame, hgo, attrLoop, if_neg (by omega), hnone]

/-- A message about a unix socket is walked, another one makes the function return. -/
private theorem on_message_spec (bigEndian : Bool) (fsNi : NebIno) (header : 16 ≤ m.length) :
    (wordAt bigEndian 2 m 4 = some SOCK_DIAG_BY_FAMILY ∧ nlmsgLength sizeofDiag ≤ m.length ∧
        wordAt bigEndian 1 m 16 = some AF_UNIX) ∧
      onMessage bigEndian fsNi m = attrLoop bigEndian fsNi m m.length 32 (m.length - 32) ∨
    ¬ (wordAt bigEndian 2 m 4 = some SOCK_DIAG_BY_FAMILY ∧ nlmsgLength sizeofDiag ≤ m.length ∧
        wordAt bigEndian 1 m 16 = some AF_UNIX) ∧
      ∃ ret ino type, onMessage bigEndian fsNi m = .returns ret ino type := by
  have htypeRoom : 4 + 2 ≤ m.length := by omega
  obtain ⟨type, htype, -⟩ := word_at_inside bigEndian htypeRoom
  unfold onMessage
  rw [htype]
  by_cases hsock : type = SOCK_DIAG_BY_FAMILY
  · by_cases hshort : m.length < nlmsgLength sizeofDiag
    · exact .inr ⟨fun h => absurd h.2.1 (by omega), -1, 0, 0, by simp [hsock, hshort, failed]⟩
    · by_cases hfamily : wordAt bigEndian 1 m 16 = some AF_UNIX
      · refine .inl ⟨⟨by rw [hsock], by omega, hfamily⟩, ?_⟩
        simp only [if_pos hsock, if_neg hshort, hfamily, ne_eq, not_true_eq_false, if_false]
        rfl
      · exact .inr ⟨fun h => hfamily h.2.2, -1, 0, 0, by simp [hsock, hshort, hfamily, failed]⟩
  · refine .inr ⟨fun h => hsock (Option.some.inj h.1), ?_⟩
    simp only [if_neg hsock]
    split_ifs
    · exact ⟨-1, 0, 0, rfl⟩
    · exact ⟨0, 0, 0, rfl⟩
    · exact ⟨-1, 0, 0, rfl⟩

/-- The walk through a message stays inside it exactly where no attribute overhangs. -/
theorem on_message_stays_inside_iff (header : 16 ≤ m.length) (hsize : m.length < 2 ^ 32) :
    StaysInside (onMessage bigEndian fsNi m) ↔ ¬ Overhangs bigEndian fsNi m := by
  rcases on_message_spec bigEndian fsNi header with
    ⟨⟨htype, hhead, hfamily⟩, hwalk⟩ | ⟨hother, ret, ino, type, hret⟩
  · have head : 32 ≤ m.length := hhead
    rw [hwalk]
    constructor
    · rintro hstays ⟨-, -, -, attr, len, reached, inside, passes, overhangs⟩
      exact hstays.1 (attr_loop_outside head hsize reached inside passes overhangs)
    · intro hno
      refine attr_loop_inside head hsize (fun attr len reached inside passes => ?_) .first head
        (by omega)
      by_contra hover
      exact hno ⟨htype, hhead, hfamily, attr, len, reached, inside, passes, by omega⟩
  · rw [hret]
    exact ⟨fun _ h => hother ⟨h.1, h.2.1, h.2.2.1⟩, fun _ => ⟨by simp, by simp⟩⟩

private theorem reached_aligned {attr : Nat} (reached : Reached bigEndian fsNi m attr) :
    attr % 4 = 0 := by
  induction reached with
  | first => rfl
  | behind _ _ _ _ ih =>
    unfold align
    omega

/-- A message whose length is a multiple of 4 has no attribute that overhangs. -/
theorem not_overhangs_of_aligned (aligned : m.length % 4 = 0) : ¬ Overhangs bigEndian fsNi m := by
  rintro ⟨-, -, -, attr, len, reached, inside, -, overhangs⟩
  have hplace := reached_aligned reached
  have hend := inside.2.2
  unfold align at overhangs
  omega

/-- A message that `NLMSG_OK` accepts has a header, and its length. -/
theorem accepted_length {buf : List UInt8} {h len : Nat} {nr : Int} (place : h + nr ≤ buf.length)
    (ok : nlmsgOk bigEndian buf h nr = some len) :
    16 ≤ ((buf.drop h).take len).length ∧ ((buf.drop h).take len).length < 2 ^ 32 ∧
      ((buf.drop h).take len).length = len := by
  unfold nlmsgOk at ok
  split_ifs at ok with hroom
  obtain ⟨hread, hbounds⟩ := Option.filter_eq_some_iff.mp ok
  simp only [Bool.and_eq_true, decide_eq_true_eq] at hbounds
  have hinside : h + 4 ≤ buf.length := by omega
  obtain ⟨v, hv, hlt⟩ := word_at_inside bigEndian hinside
  obtain rfl := Option.some.inj (hread.symm.trans hv)
  rw [List.length_take, List.length_drop]
  omega

/-- Where no accepted message overhangs, the loop over a datagram ends inside its messages. -/
theorem message_loop_stays_inside {buf : List UInt8}
    (fits : ∀ (h len : Nat) (nr : Int), h + nr ≤ buf.length →
      nlmsgOk bigEndian buf h nr = some len → ¬ Overhangs bigEndian fsNi ((buf.drop h).take len))
    {fuel h : Nat} {nr : Int} (place : h + nr ≤ buf.length) (enough : nr.toNat < fuel) :
    StaysInside (messageLoop bigEndian fsNi buf fuel h nr) := by
  induction fuel generalizing h nr with
  | zero => omega
  | succ fuel ih =>
    rw [messageLoop]
    cases hok : nlmsgOk bigEndian buf h nr with
    | none => exact ⟨by simp, by simp⟩
    | some len =>
      obtain ⟨hheader, hsize, hlen⟩ := accepted_length place hok
      have hstays : StaysInside (onMessage bigEndian fsNi ((buf.drop h).take len)) :=
        (on_message_stays_inside_iff hheader hsize).mpr (fits h len nr place hok)
      cases hmessage : onMessage bigEndian fsNi ((buf.drop h).take len) with
      | next =>
        have halign := align_bounds len
        have hroom : nr ≥ 16 := by
          by_contra hsmall
          rw [nlmsgOk, if_neg hsmall] at hok
          cases hok
        simp only [hmessage]
        exact ih (by omega) (by omega)
      | outside => exact absurd hmessage hstays.1
      | running => exact absurd hmessage hstays.2
      | returns ret ino type => simp [hmessage, StaysInside]

/-- Where none does in any datagram, the function reads no byte behind a message, and ends or waits
for the next datagram. -/
theorem get_ino_stays_inside (socket query : Bool) {recvs : List (Option (List UInt8))}
    (fits : ∀ buf, some buf ∈ recvs → ∀ (h len : Nat) (nr : Int), h + nr ≤ buf.length →
      nlmsgOk bigEndian buf h nr = some len → ¬ Overhangs bigEndian fsNi ((buf.drop h).take len)) :
    StaysInside (nebSockUnixGetIno bigEndian fsNi socket query recvs) := by
  have hfailed : StaysInside failed := ⟨by simp [failed], by simp [failed]⟩
  unfold nebSockUnixGetIno
  split_ifs
  · induction recvs with
    | nil => exact ⟨by simp [recvLoop], by simp [recvLoop]⟩
    | cons recv recvs ih =>
      cases recv with
      | none => exact hfailed
      | some buf =>
        have hloop : StaysInside (messageLoop bigEndian fsNi buf (buf.length + 1) 0 buf.length) :=
          message_loop_stays_inside (fits buf List.mem_cons_self) (by simp) (by simp)
        rw [recvLoop]
        split_ifs
        · exact hfailed
        · exact hfailed
        · split
          · exact ih (fun b hb => fits b (List.mem_cons_of_mem _ hb))
          · exact hloop
  · exact hfailed

end

end Nebase.Sock.Diag
