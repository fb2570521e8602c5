/- Filled checksum fields verify: the covered words sum up to the full word, and nothing else is
   written. -/

import Nebase.Sock.Csum.DoCsum

set_option autoImplicit false
set_option relaxedAutoImplicit false

namespace Nebase.Sock.Csum

open Nebase.Foundation.OnesComplement

/-- The pseudo header of a segment over IPv4: addresses, a zero, the protocol and the length. -/
def tcp4Pseudo (m : Mem) (ipheader : Nat) (l4len : Int) : List Nat :=
  bytesAt m (ipheader + ipSrc) 4 ++ (bytesAt m (ipheader + ipDst) 4 ++
    [0, ipprotoTcp.toNat, l4len.toNat / 256, l4len.toNat % 256])

/-- The pseudo header of a segment over IPv6: addresses, the length in four bytes, three zeros and
the protocol. -/
def tcp6Pseudo (m : Mem) (ipheader : Nat) (l4len : Int) : List Nat :=
  bytesAt m (ipheader + ip6Src) 16 ++ (bytesAt m (ipheader + ip6Dst) 16 ++
    [l4len.toNat / 16777216, l4len.toNat / 65536 % 256, l4len.toNat / 256 % 256,
      l4len.toNat % 256, 0, 0, 0, ipprotoTcp.toNat])

/-- The one's complement sum of the 16-bit words of some bytes, read in the order `o`. -/
def onesSum (o : ByteOrder) (bytes : List Nat) : Nat := sum 0xffff (words 256 o bytes)

theorem store16_other (m : Mem) (p : Nat) (v : UInt16) {a : Nat} (h : a ≠ p) (h' : a ≠ p + 1) :
    store16 m p v a = m a := by
  rw [store16, if_neg h, if_neg h']

theorem val_store16 (m : Mem) (p : Nat) (v : UInt16) : val (store16 m p v) p 2 = v.toNat := by
  have hv := v.toNat_lt
  have hlow : (store16 m p v p).toNat = v.toNat % 256 := by
    rw [store16, if_pos rfl]
    exact UInt16.toNat_toUInt8 v
  have hhigh : (store16 m p v (p + 1)).toNat = v.toNat / 256 := by
    rw [store16, if_neg (by omega), if_pos rfl, UInt16.toNat_toUInt8, UInt16.toNat_shiftRight]
    change (v.toNat >>> 8) % 256 = _
    rw [Nat.shiftRight_eq_div_pow]
    omega
  simp only [val_succ, val_zero, hlow, hhigh]
  omega

/-- A block that a store keeps clear of. -/
theorem bytesAt_store16 (m : Mem) (v : UInt16) {p q len : Nat}
    (h : p + 2 ≤ q ∨ q + len ≤ p) : bytesAt (store16 m p v) q len = bytesAt m q len :=
  bytesAt_congr fun a ha hb => store16_other m p v (by omega) (by omega)

theorem val_eq {m m' : Mem} {p q len : Nat} (h : bytesAt m' q len = bytesAt m p len) :
    val m' q len = val m p len := by
  rw [val, h, val]

/-- A 16-bit field at an even offset of a block, apart from the bytes before and after it. -/
private theorem field_ones {k len : Nat} (hk : 2 ∣ k) (hlen : k + 2 ≤ len) (m : Mem) (p : Nat) :
    Ones (val m p k + (val m (p + k) 2 + val m (p + k + 2) (len - k - 2))) (val m p len) := by
  have hrest := val_add_ones (k := 2) (dvd_refl 2) m (p + k) (len - k - 2)
  have hall := val_add_ones hk m p (2 + (len - k - 2))
  have he : k + (2 + (len - k - 2)) = len := by omega
  rw [he] at hall
  exact ((Stands.refl _).add hrest).trans hall

/-- Writing a field that was zero adds its value. -/
theorem fill_ones {k len : Nat} (hk : 2 ∣ k) (hlen : k + 2 ≤ len) (m : Mem) (p : Nat)
    (v : UInt16) :
    Ones (val (store16 (store16 m (p + k) 0) (p + k) v) p len)
      (val (store16 m (p + k) 0) p len + v.toNat) := by
  have hnew := field_ones hk hlen (store16 (store16 m (p + k) 0) (p + k) v) p
  have hold := field_ones hk hlen (store16 m (p + k) 0) p
  rw [val_store16, val_eq (bytesAt_store16 _ v (Or.inr le_rfl)),
    val_eq (bytesAt_store16 _ v (Or.inl le_rfl))] at hnew
  rw [val_store16] at hold
  refine hnew.symm.trans (Stands.trans ?_ (hold.add (Stands.refl _)))
  have he : ∀ a b c : Nat, a + (c + b) = a + ((0 : UInt16).toNat + b) + c := by
    intro a b c
    change _ = a + (0 + b) + c
    omega
  rw [he]
  exact Stands.refl _

theorem ofDigits_append_ones {l : List Nat} (hl : 2 ∣ l.length) (l' : List Nat) :
    Ones (Nat.ofDigits 256 (l ++ l')) (Nat.ofDigits 256 l + Nat.ofDigits 256 l') := by
  obtain ⟨j, hj⟩ := hl
  rw [Nat.ofDigits_append, hj, Nat.pow_mul]
  exact (Stands.refl _).add (Stands.unit_pow j _)

/-- Bytes whose total is complemented by a word of theirs verify. -/
theorem onesSum_full (o : ByteOrder) {l : List Nat} (hl : ∀ d ∈ l, d < 256) {x t : Nat}
    (hx : x ≤ 65535) (hxt : Ones x t) (h : Ones (Nat.ofDigits 256 l) (t + (65535 - x))) :
    onesSum o l = 0xffff := by
  obtain ⟨hd, h0⟩ := hxt.complement (by decide) hx
  refine sum_words_eq_full (by decide) (by decide) o hl ?_ fun hz => h0 (h.2.1 hz)
  exact Nat.modEq_zero_iff_dvd.1 (h.1.trans (Nat.modEq_zero_iff_dvd.2 hd))

/-- `from64to32` keeps the one's complement value. -/
theorem from64to32_ones (x : UInt64) : Ones (from64to32 x).toNat x.toNat := by
  have hfold : ∀ y : UInt64, ((y &&& (0xffffffff : UInt64)) + (y >>> (32 : UInt64))).toNat
      = y.toNat % 2 ^ 32 + y.toNat / 2 ^ 32 := by
    intro y
    have hy := y.toNat_lt
    have hlow : (y &&& (0xffffffff : UInt64)).toNat = y.toNat % 2 ^ 32 := by
      rw [UInt64.toNat_and]
      exact Nat.and_two_pow_sub_one_eq_mod y.toNat 32
    have hhigh : (y >>> (32 : UInt64)).toNat = y.toNat / 2 ^ 32 := by
      rw [UInt64.toNat_shiftRight]
      exact Nat.shiftRight_eq_div_pow y.toNat 32
    rw [UInt64.toNat_add, hlow, hhigh]
    omega
  have hones : ∀ y : UInt64,
      Ones ((y &&& (0xffffffff : UInt64)) + (y >>> (32 : UInt64))).toNat y.toNat := by
    intro y
    rw [hfold]
    exact (Stands.fold (M := 2 ^ 32 - 1) y.toNat).of_dvd (by decide)
  have hx := x.toNat_lt
  have hle := hfold ((x &&& (0xffffffff : UInt64)) + (x >>> (32 : UInt64)))
  rw [hfold x] at hle
  have h := (hones _).trans (hones x)
  unfold from64to32
  simp only [UInt64.toNat_toUInt32]
  rwa [Nat.mod_eq_of_lt (by omega)]

theorem csumTcpudpNofold_ones (saddr daddr : UInt32) (len proto : UInt16) (s : UInt32) :
    Ones (csumTcpudpNofold saddr daddr len proto s).toNat
      (s.toNat + saddr.toNat + daddr.toNat + 256 * (proto.toNat + len.toNat)) := by
  have h := from64to32_ones
    (s.toUInt64 + saddr.toUInt64 + daddr.toUInt64 + ((proto.toUInt64 + len.toUInt64) <<< 8))
  have hs := s.toNat_lt
  have hsa := saddr.toNat_lt
  have hda := daddr.toNat_lt
  have hl := len.toNat_lt
  have hp := proto.toNat_lt
  have hval : (s.toUInt64 + saddr.toUInt64 + daddr.toUInt64
        + ((proto.toUInt64 + len.toUInt64) <<< 8)).toNat
      = s.toNat + saddr.toNat + daddr.toNat + 256 * (proto.toNat + len.toNat) := by
    simp only [UInt64.toNat_add, UInt64.toNat_shiftLeft, UInt32.toNat_toUInt64,
      UInt16.toNat_toUInt64, Nat.shiftLeft_eq]
    change (_ + _ * 2 ^ 8 % _) % _ = _
    omega
  rwa [hval] at h

theorem addCarry_ones {a : UInt32} {s : Nat} (h : Ones a.toNat s) (w : UInt32) :
    Ones (addCarry a w).toNat (s + w.toNat) := by
  obtain ⟨hroom, hcarry⟩ := carry_ones a w
  unfold addCarry
  rw [UInt32.toNat_add, Nat.mod_eq_of_lt hroom]
  exact hcarry.trans (h.add (Stands.refl _))

theorem htobe32_toNat (x : UInt32) :
    (htobe32 x).toNat = Nat.ofDigits 256 [x.toNat / 16777216, x.toNat / 65536 % 256,
      x.toNat / 256 % 256, x.toNat % 256] := by
  have hx := x.toNat_lt
  have h3 : (x >>> 24).toUInt8.toNat = x.toNat / 16777216 := by
    rw [UInt32.toNat_toUInt8, UInt32.toNat_shiftRight]
    change (x.toNat >>> 24) % 256 = _
    rw [Nat.shiftRight_eq_div_pow]
    omega
  have h2 : (x >>> 16).toUInt8.toNat = x.toNat / 65536 % 256 := by
    rw [UInt32.toNat_toUInt8, UInt32.toNat_shiftRight]
    change (x.toNat >>> 16) % 256 = _
    rw [Nat.shiftRight_eq_div_pow]
  have h1 : (x >>> 8).toUInt8.toNat = x.toNat / 256 % 256 := by
    rw [UInt32.toNat_toUInt8, UInt32.toNat_shiftRight]
    change (x.toNat >>> 8) % 256 = _
    rw [Nat.shiftRight_eq_div_pow]
  have h0 : x.toUInt8.toNat = x.toNat % 256 := UInt32.toNat_toUInt8 x
  unfold htobe32
  rw [h3, h2, h1, h0]
  refine Nat.mod_eq_of_lt ?_
  simp only [Nat.ofDigits_cons, Nat.ofDigits_nil]
  omega

/-- The words of an IPv6 address, one by one. -/
private theorem addr_ones (m : Mem) (p : Nat) :
    Ones ((load32 m p).toNat + (load32 m (p + 4)).toNat + (load32 m (p + 8)).toNat
      + (load32 m (p + 12)).toNat) (val m p 16) := by
  simp only [load32_toNat]
  have h1 := val_add_ones (k := 4) ⟨2, rfl⟩ m p 4
  have h2 := val_add_ones (k := 8) ⟨4, rfl⟩ m p 4
  have h3 := val_add_ones (k := 12) ⟨6, rfl⟩ m p 4
  exact (((h1.add (Stands.refl _)).trans h2).add (Stands.refl _)).trans h3

/-- `csum_ipv6_magic` complements the sum of the addresses, the length, the protocol and `csum`. -/
theorem csumIpv6Magic_toNat (m : Mem) (saddr daddr : Nat) (len : UInt32) (proto : UInt16)
    (csum : UInt32) :
    ∃ x, x ≤ 65535 ∧
      Ones x (csum.toNat + val m saddr 16 + val m daddr 16 + (htobe32 len).toNat
        + (htobe32 proto.toUInt32).toNat) ∧
      (csumIpv6Magic m saddr daddr len proto csum).toNat = 65535 - x := by
  have hs := addCarry_ones (addCarry_ones (addCarry_ones (addCarry_ones
    (Stands.refl csum.toNat) (load32 m saddr)) (load32 m (saddr + 4))) (load32 m (saddr + 8)))
    (load32 m (saddr + 12))
  have hsaddr : Ones _ (csum.toNat + val m saddr 16) := hs.trans (by
    have := (Stands.refl (M := 65535) csum.toNat).add (addr_ones m saddr)
    simpa only [Nat.add_assoc] using this)
  have hd := addCarry_ones (addCarry_ones (addCarry_ones (addCarry_ones
    hsaddr (load32 m daddr)) (load32 m (daddr + 4))) (load32 m (daddr + 8)))
    (load32 m (daddr + 12))
  have hdaddr : Ones _ (csum.toNat + val m saddr 16 + val m daddr 16) := hd.trans (by
    have := (Stands.refl (M := 65535) (csum.toNat + val m saddr 16)).add (addr_ones m daddr)
    simpa only [Nat.add_assoc] using this)
  have hall := addCarry_ones (addCarry_ones hdaddr (htobe32 len)) (htobe32 proto.toUInt32)
  obtain ⟨x, hx, hones, hval⟩ := csumFold_toNat (addCarry (addCarry _ (htobe32 len))
    (htobe32 proto.toUInt32))
  exact ⟨x, hx, hones.trans hall, hval⟩

private theorem int16_toNat {l4len : Int} (h0 : 0 ≤ l4len) (h : l4len ≤ 65535) :
    (UInt16.ofInt l4len).toNat = l4len.toNat := by
  change (l4len % 2 ^ 16).toNat % 2 ^ 16 = _
  omega

private theorem int32_toNat {l4len : Int} (h0 : 0 ≤ l4len) (h : l4len ≤ 65535) :
    (UInt32.ofInt l4len).toNat = l4len.toNat := by
  change (l4len % 2 ^ 32).toNat % 2 ^ 32 = _
  omega

theorem nebSockCsumIp4Fill_full (o : ByteOrder) (m : Mem) (ipheader : Nat)
    (h5 : 5 ≤ (ipHl m ipheader).toNat) :
    onesSum o (bytesAt (nebSockCsumIp4Fill m ipheader) ipheader
      (4 * (ipHl m ipheader).toNat)) = 0xffff := by
  have hhl : (ipHl m ipheader).toNat ≤ 15 := by
    unfold ipHl
    rw [UInt32.toNat_and]
    exact Nat.and_le_right
  have hsame : ipHl (store16 m (ipheader + ipSum) 0) ipheader = ipHl m ipheader := by
    unfold ipHl
    rw [store16_other m _ _ (by unfold ipSum; omega) (by unfold ipSum; omega)]
  have hlen : ((ipHl m ipheader) <<< 2).toNat = 4 * (ipHl m ipheader).toNat := by
    rw [UInt32.toNat_shiftLeft]
    change ((ipHl m ipheader).toNat <<< 2) % 2 ^ 32 = _
    rw [Nat.shiftLeft_eq]
    omega
  obtain ⟨hones, hle⟩ := doCsum_ones (store16 m (ipheader + ipSum) 0) ipheader
    (4 * (ipHl m ipheader).toNat : Nat)
  rw [Int.toNat_natCast] at hones
  have hfield : (ipFastCsum (store16 m (ipheader + ipSum) 0) ipheader
      (ipHl m ipheader)).toNat
      = 65535 - (doCsum (store16 m (ipheader + ipSum) 0) ipheader
          (4 * (ipHl m ipheader).toNat : Nat)).toNat := by
    have hsize : UInt32.size = 4294967296 := rfl
    unfold ipFastCsum
    rw [hlen, UInt32.toNat_toUInt16, UInt32.toNat_not]
    omega
  refine onesSum_full o (bytesAt_lt _ _ _) hle hones ?_
  rw [← hfield]
  have hfill := fill_ones (k := ipSum) ⟨5, rfl⟩
    (show ipSum + 2 ≤ 4 * (ipHl m ipheader).toNat by unfold ipSum; omega) m ipheader
    (ipFastCsum (store16 m (ipheader + ipSum) 0) ipheader (ipHl m ipheader))
  unfold nebSockCsumIp4Fill
  simp only [hsame]
  exact hfill

theorem nebSockCsumIcmp4Fill_full (o : ByteOrder) (m : Mem) (icmpheader : Nat) {l4len : Int}
    (h4 : 4 ≤ l4len) :
    onesSum o (bytesAt (nebSockCsumIcmp4Fill m icmpheader l4len) icmpheader l4len.toNat)
      = 0xffff := by
  have hpart := csumPartial_ones (store16 m (icmpheader + icmpCksum) 0) icmpheader l4len 0
  obtain ⟨x, hx, hones, hval⟩ :=
    csumFold_toNat (csumPartial (store16 m (icmpheader + icmpCksum) 0) icmpheader l4len 0)
  have hall := hones.trans hpart
  rw [show (0 : UInt32).toNat = 0 from rfl, Nat.add_zero] at hall
  refine onesSum_full o (bytesAt_lt _ _ _) hx hall ?_
  rw [← hval]
  exact fill_ones (k := icmpCksum) ⟨1, rfl⟩ (by unfold icmpCksum; omega) m icmpheader _

/-- A segment with its pseudo header in front, where the pseudo header has an even length. -/
private theorem segment_ones {ps : List Nat} (hps : 2 ∣ ps.length) {k len : Nat} (hk : 2 ∣ k)
    (hlen : k + 2 ≤ len) (m : Mem) (p : Nat) (v : UInt16) :
    Ones (Nat.ofDigits 256
        (ps ++ bytesAt (store16 (store16 m (p + k) 0) (p + k) v) p len))
      (Nat.ofDigits 256 ps + val (store16 m (p + k) 0) p len + v.toNat) := by
  refine (ofDigits_append_ones hps _).trans ?_
  rw [Nat.add_assoc]
  exact (Stands.refl _).add (fill_ones hk hlen m p v)

private theorem append_lt {l l' : List Nat} (h : ∀ d ∈ l, d < 256) (h' : ∀ d ∈ l', d < 256) :
    ∀ d ∈ l ++ l', d < 256 := fun d hd => (List.mem_append.1 hd).elim (h d) (h' d)

/-- The IPv4 pseudo header is what `csum_tcpudp_nofold` adds, the length and the protocol a byte
higher. -/
private theorem tcp4Pseudo_ones (m : Mem) (ipheader : Nat) (l4len : Int) :
    Ones (Nat.ofDigits 256 (tcp4Pseudo m ipheader l4len))
      (val m (ipheader + ipSrc) 4 + (val m (ipheader + ipDst) 4
        + 256 * (ipprotoTcp.toNat + l4len.toNat))) := by
  have htail : Ones (Nat.ofDigits 256
      [0, ipprotoTcp.toNat, l4len.toNat / 256, l4len.toNat % 256])
      (256 * (ipprotoTcp.toNat + l4len.toNat)) := by
    have hp : ipprotoTcp.toNat = 6 := rfl
    simp only [Nat.ofDigits_cons, Nat.ofDigits_nil, hp]
    exact ⟨by unfold Nat.ModEq; omega, by omega⟩
  refine (ofDigits_append_ones (by simp) _).trans ((Stands.refl _).add ?_)
  exact (ofDigits_append_ones (by simp) _).trans ((Stands.refl _).add htail)

private theorem tcp6Pseudo_ones (m : Mem) (ipheader : Nat) (l4len : Int) :
    Ones (Nat.ofDigits 256 (tcp6Pseudo m ipheader l4len))
      (val m (ipheader + ip6Src) 16 + (val m (ipheader + ip6Dst) 16
        + (Nat.ofDigits 256 [l4len.toNat / 16777216, l4len.toNat / 65536 % 256,
            l4len.toNat / 256 % 256, l4len.toNat % 256]
          + Nat.ofDigits 256 [0, 0, 0, ipprotoTcp.toNat]))) := by
  refine (ofDigits_append_ones (by simp) _).trans ((Stands.refl _).add ?_)
  refine (ofDigits_append_ones (by simp) _).trans ((Stands.refl _).add ?_)
  exact ofDigits_append_ones (l := [l4len.toNat / 16777216, l4len.toNat / 65536 % 256,
    l4len.toNat / 256 % 256, l4len.toNat % 256]) ⟨2, rfl⟩ [0, 0, 0, ipprotoTcp.toNat]

theorem nebSockCsumTcp4Fill_full (o : ByteOrder) (m : Mem) (ipheader tcpheader : Nat)
    {l4len : Int} (h18 : 18 ≤ l4len) (hmax : l4len ≤ 65535)
    (apart : tcpheader + thSum + 2 ≤ ipheader + ipSrc ∨ ipheader + ipDst + 4 ≤ tcpheader + thSum) :
    let m' := nebSockCsumTcp4Fill m ipheader tcpheader l4len
    onesSum o (tcp4Pseudo m' ipheader l4len ++ bytesAt m' tcpheader l4len.toNat) = 0xffff := by
  have hdist : ipDst = ipSrc + 4 := rfl
  let m0 := store16 m (tcpheader + thSum) 0
  have hpseudo : ∀ v, tcp4Pseudo (store16 m0 (tcpheader + thSum) v) ipheader l4len
      = tcp4Pseudo m0 ipheader l4len := by
    intro v
    unfold tcp4Pseudo
    rw [bytesAt_store16 m0 v (by omega), bytesAt_store16 m0 v (by omega)]
  have hpart := csumPartial_ones m0 tcpheader l4len 0
  rw [show (0 : UInt32).toNat = 0 from rfl, Nat.add_zero] at hpart
  have hnofold := csumTcpudpNofold_ones (load32 m0 (ipheader + ipSrc))
    (load32 m0 (ipheader + ipDst)) (UInt16.ofInt l4len) ipprotoTcp
    (csumPartial m0 tcpheader l4len 0)
  rw [int16_toNat (by omega) hmax, load32_toNat, load32_toNat] at hnofold
  obtain ⟨x, hx, hones, hval⟩ := csumFold_toNat (csumTcpudpNofold
    (load32 m0 (ipheader + ipSrc)) (load32 m0 (ipheader + ipDst)) (UInt16.ofInt l4len)
    ipprotoTcp (csumPartial m0 tcpheader l4len 0))
  have hdig : ∀ d ∈ tcp4Pseudo m0 ipheader l4len, d < 256 := by
    refine append_lt (bytesAt_lt _ _ _) (append_lt (bytesAt_lt _ _ _) ?_)
    have hp : ipprotoTcp.toNat = 6 := rfl
    simp only [hp, List.mem_cons, List.not_mem_nil, or_false]
    omega
  have htotal : Ones x (Nat.ofDigits 256 (tcp4Pseudo m0 ipheader l4len)
      + val m0 tcpheader l4len.toNat) := by
    have hsum := hones.trans (hnofold.trans (((hpart.add (Stands.refl _)).add
      (Stands.refl _)).add (Stands.refl _)))
    refine hsum.trans ?_
    have hps := ((tcp4Pseudo_ones m0 ipheader l4len).symm).add
      (Stands.refl (M := 65535) (val m0 tcpheader l4len.toNat))
    have he : ∀ a b c d : Nat, a + b + c + d = b + (c + d) + a := by omega
    rw [he]
    exact hps
  intro m'
  have hm' : m' = store16 m0 (tcpheader + thSum) (csumTcpudpMagic
      (load32 m0 (ipheader + ipSrc)) (load32 m0 (ipheader + ipDst)) (UInt16.ofInt l4len)
      ipprotoTcp (csumPartial m0 tcpheader l4len 0)) := rfl
  rw [hm', hpseudo]
  refine onesSum_full o (append_lt hdig (bytesAt_lt _ _ _)) hx htotal ?_
  rw [← hval]
  exact segment_ones ⟨6, by simp [tcp4Pseudo]⟩ ⟨8, rfl⟩ (by omega) m tcpheader _

theorem nebSockCsumTcp6Fill_full (o : ByteOrder) (m : Mem) (ipheader tcpheader : Nat)
    {l4len : Int} (h18 : 18 ≤ l4len) (hmax : l4len ≤ 65535)
    (apart : tcpheader + thSum + 2 ≤ ipheader + ip6Src ∨
      ipheader + ip6Dst + 16 ≤ tcpheader + thSum) :
    let m' := nebSockCsumTcp6Fill m ipheader tcpheader l4len
    onesSum o (tcp6Pseudo m' ipheader l4len ++ bytesAt m' tcpheader l4len.toNat) = 0xffff := by
  have hdist : ip6Dst = ip6Src + 16 := rfl
  let m0 := store16 m (tcpheader + thSum) 0
  have hpseudo : ∀ v, tcp6Pseudo (store16 m0 (tcpheader + thSum) v) ipheader l4len
      = tcp6Pseudo m0 ipheader l4len := by
    intro v
    unfold tcp6Pseudo
    rw [bytesAt_store16 m0 v (by omega), bytesAt_store16 m0 v (by omega)]
  have hpart := csumPartial_ones m0 tcpheader l4len 0
  rw [show (0 : UInt32).toNat = 0 from rfl, Nat.add_zero] at hpart
  obtain ⟨x, hx, hones, hval⟩ := csumIpv6Magic_toNat m0 (ipheader + ip6Src) (ipheader + ip6Dst)
    (UInt32.ofInt l4len) ipprotoTcp (csumPartial m0 tcpheader l4len 0)
  rw [htobe32_toNat, int32_toNat (by omega) hmax, htobe32_toNat] at hones
  have hdig : ∀ d ∈ tcp6Pseudo m0 ipheader l4len, d < 256 := by
    refine append_lt (bytesAt_lt _ _ _) (append_lt (bytesAt_lt _ _ _) ?_)
    have hp : ipprotoTcp.toNat = 6 := rfl
    simp only [hp, List.mem_cons, List.not_mem_nil, or_false]
    omega
  have htotal : Ones x (Nat.ofDigits 256 (tcp6Pseudo m0 ipheader l4len)
      + val m0 tcpheader l4len.toNat) := by
    have hsum := hones.trans ((((hpart.add (Stands.refl _)).add (Stands.refl _)).add
      (Stands.refl _)).add (Stands.refl _))
    refine hsum.trans ?_
    have hps := ((tcp6Pseudo_ones m0 ipheader l4len).symm).add
      (Stands.refl (M := 65535) (val m0 tcpheader l4len.toNat))
    have he : ∀ a b c d e : Nat, a + b + c + d + e = b + (c + (d + e)) + a := by omega
    rw [he]
    exact hps
  intro m'
  have hm' : m' = store16 m0 (tcpheader + thSum) (csumIpv6Magic m0 (ipheader + ip6Src)
      (ipheader + ip6Dst) (UInt32.ofInt l4len) ipprotoTcp
      (csumPartial m0 tcpheader l4len 0)) := rfl
  rw [hm', hpseudo]
  refine onesSum_full o (append_lt hdig (bytesAt_lt _ _ _)) hx htotal ?_
  rw [← hval]
  exact segment_ones ⟨20, by simp [tcp6Pseudo]⟩ ⟨8, rfl⟩ (by omega) m tcpheader _

/-- Two stores to one field leave every other byte alone. -/
private theorem fill_frame (m : Mem) (p : Nat) (v v' : UInt16) {a : Nat} (h : a ≠ p)
    (h' : a ≠ p + 1) : store16 (store16 m p v) p v' a = m a := by
  rw [store16_other _ p v' h h', store16_other m p v h h']

/-- After each of the four fills the covered words sum up to the full word, in either byte order
and at every address, and only the checksum field is written. A segment's field is not part of
the addresses in the other header. -/
theorem nebSockCsumFill_verifies (o : ByteOrder) (m : Mem) :
    (∀ ipheader, 5 ≤ (ipHl m ipheader).toNat →
      let m' := nebSockCsumIp4Fill m ipheader
      onesSum o (bytesAt m' ipheader (4 * (ipHl m ipheader).toNat)) = 0xffff ∧
        ∀ a, a ≠ ipheader + ipSum → a ≠ ipheader + ipSum + 1 → m' a = m a) ∧
    (∀ icmpheader l4len, 4 ≤ l4len →
      let m' := nebSockCsumIcmp4Fill m icmpheader l4len
      onesSum o (bytesAt m' icmpheader l4len.toNat) = 0xffff ∧
        ∀ a, a ≠ icmpheader + icmpCksum → a ≠ icmpheader + icmpCksum + 1 → m' a = m a) ∧
    (∀ ipheader tcpheader l4len, 18 ≤ l4len → l4len ≤ 65535 →
      (tcpheader + thSum + 2 ≤ ipheader + ipSrc ∨ ipheader + ipDst + 4 ≤ tcpheader + thSum) →
      let m' := nebSockCsumTcp4Fill m ipheader tcpheader l4len
      onesSum o (tcp4Pseudo m' ipheader l4len ++ bytesAt m' tcpheader l4len.toNat) = 0xffff ∧
        ∀ a, a ≠ tcpheader + thSum → a ≠ tcpheader + thSum + 1 → m' a = m a) ∧
    (∀ ipheader tcpheader l4len, 18 ≤ l4len → l4len ≤ 65535 →
      (tcpheader + thSum + 2 ≤ ipheader + ip6Src ∨ ipheader + ip6Dst + 16 ≤ tcpheader + thSum) →
      let m' := nebSockCsumTcp6Fill m ipheader tcpheader l4len
      onesSum o (tcp6Pseudo m' ipheader l4len ++ bytesAt m' tcpheader l4len.toNat) = 0xffff ∧
        ∀ a, a ≠ tcpheader + thSum → a ≠ tcpheader + thSum + 1 → m' a = m a) :=
  ⟨fun ipheader h5 => ⟨nebSockCsumIp4Fill_full o m ipheader h5,
      fun _ h h' => fill_frame m _ _ _ h h'⟩,
    fun icmpheader _ h4 => ⟨nebSockCsumIcmp4Fill_full o m icmpheader h4,
      fun _ h h' => fill_frame m _ _ _ h h'⟩,
    fun ipheader tcpheader _ h18 hmax apart =>
      ⟨nebSockCsumTcp4Fill_full o m ipheader tcpheader h18 hmax apart,
        fun _ h h' => fill_frame m _ _ _ h h'⟩,
    fun ipheader tcpheader _ h18 hmax apart =>
      ⟨nebSockCsumTcp6Fill_full o m ipheader tcpheader h18 hmax apart,
        fun _ h h' => fill_frame m _ _ _ h h'⟩⟩

/-- A packet whose headers and segments lie at odd addresses; the byte at address 1 gives the
header five words. -/
def oddPacket : Mem := fun a => UInt8.ofNat (0x44 + a)

theorem nebSockCsumFill_verifies_odd :
    onesSum .big (bytesAt (nebSockCsumIp4Fill oddPacket 1) 1
        (4 * (ipHl oddPacket 1).toNat)) = 0xffff ∧
      onesSum .big (bytesAt (nebSockCsumIcmp4Fill oddPacket 21 7) 21 7) = 0xffff ∧
      onesSum .big (tcp4Pseudo (nebSockCsumTcp4Fill oddPacket 1 21 23) 1 23
        ++ bytesAt (nebSockCsumTcp4Fill oddPacket 1 21 23) 21 23) = 0xffff ∧
      onesSum .little (tcp6Pseudo (nebSockCsumTcp6Fill oddPacket 1 41 25) 1 25
        ++ bytesAt (nebSockCsumTcp6Fill oddPacket 1 41 25) 41 25) = 0xffff := by
  obtain ⟨hip, hicmp, htcp4, -⟩ := nebSockCsumFill_verifies .big oddPacket
  obtain ⟨-, -, -, htcp6⟩ := nebSockCsumFill_verifies .little oddPacket
  exact ⟨(hip 1 (by decide)).1, (hicmp 21 7 (by decide)).1,
    (htcp4 1 21 23 (by decide) (by decide) (by decide)).1,
    (htcp6 1 41 25 (by decide) (by decide) (by decide)).1⟩

end Nebase.Sock.Csum
