/- The keys and masks the tree is given, bit by bit. -/

import Nebase.Net.Radix.Model

set_option autoImplicit false
set_option relaxedAutoImplicit false

namespace Nebase.Net.Radix

theorem bit_cons (c : UInt8) (v : List UInt8) (i : Nat) :
    bit (c :: v) i = if i < 8 then c.toNat.testBit (7 - i) else bit v (i - 8) := by
  unfold bit
  split_ifs with h
  · rw [Nat.div_eq_of_lt h, Nat.mod_eq_of_lt h]
    rfl
  · have hdiv : i / 8 = (i - 8) / 8 + 1 := by omega
    have hmod : i % 8 = (i - 8) % 8 := by omega
    rw [hdiv, hmod]
    rfl

private theorem byte_ext {b c : UInt8}
    (h : ∀ i, i < 8 → b.toNat.testBit (7 - i) = c.toNat.testBit (7 - i)) : b = c := by
  apply UInt8.toNat_inj.mp
  apply Nat.eq_of_testBit_eq
  intro j
  by_cases hj : j < 8
  · have hbit := h (7 - j) (by omega)
    rwa [show 7 - (7 - j) = j by omega] at hbit
  · have hpow : 2 ^ 8 ≤ 2 ^ j := Nat.pow_le_pow_right (by decide) (by omega)
    rw [Nat.testBit_lt_two_pow (b.toNat_lt.trans_le hpow),
      Nat.testBit_lt_two_pow (c.toNat_lt.trans_le hpow)]

private theorem bit_at (v : List UInt8) (q : Nat) {i : Nat} (h : i < 8) :
    bit v (8 * q + i) = (v.getD q 0).toNat.testBit (7 - i) := by
  have hdiv : (8 * q + i) / 8 = q := by omega
  have hmod : (8 * q + i) % 8 = i := by omega
  rw [bit, hdiv, hmod]

theorem eq_of_bits {v w : List UInt8} (length : v.length = w.length)
    (bits : ∀ i, bit v i = bit w i) : v = w := by
  refine List.ext_getElem length (fun q hv hw => ?_)
  refine byte_ext (fun i hi => ?_)
  have hbit := bits (8 * q + i)
  rw [bit_at v q hi, bit_at w q hi] at hbit
  simpa [List.getD_eq_getElem?_getD, hv, hw] using hbit

/-- A key is its own conjunction with the mask when it has no bits outside of it. -/
theorem and_eq_self_iff (k m : List UInt8) :
    (∀ q, k.getD q 0 &&& m.getD q 0 = k.getD q 0) ↔ ∀ i, bit k i = true → bit m i = true := by
  constructor
  · intro h i hi
    have hbyte := congrArg (fun b => b.toNat.testBit (7 - i % 8)) (h (i / 8))
    simp only [UInt8.toNat_and, Nat.testBit_and] at hbyte
    unfold bit at hi ⊢
    rw [hi, Bool.true_and] at hbyte
    exact hbyte
  · intro h q
    refine byte_ext (fun i hi => ?_)
    have hbit := h (8 * q + i)
    rw [bit_at k q hi, bit_at m q hi] at hbit
    rw [UInt8.toNat_and, Nat.testBit_and]
    cases hk : (k.getD q 0).toNat.testBit (7 - i) with
    | false => rfl
    | true => rw [hbit hk, Bool.and_self]

private theorem bit_zeros (k i : Nat) : bit (List.replicate k 0) i = false := by
  have hzero : (List.replicate k (0 : UInt8)).getD (i / 8) 0 = 0 := by
    simp [List.getD_eq_getElem?_getD, List.getElem?_replicate]
    split_ifs <;> rfl
  rw [bit, hzero]
  exact Nat.zero_testBit _

/-- The last byte of a mask that is not whole. -/
private theorem mask_byte (p i : Nat) (hp : p ≤ 8) (hi : i < 8) :
    (UInt8.ofNat ((0xFF <<< (8 - p)) &&& 0xFF)).toNat.testBit (7 - i) = decide (i < p) := by
  have hall : ∀ p : Fin 9, ∀ i : Fin 8,
      (UInt8.ofNat ((0xFF <<< (8 - p.val)) &&& 0xFF)).toNat.testBit (7 - i.val) =
        decide (i.val < p.val) := by decide
  exact hall ⟨p, by omega⟩ ⟨i, hi⟩

/-- `neb_netinet_fill_mask` on zeros sets the first bits. -/
theorem fill_mask_spec (k : Nat) (p : Nat) (hk : 0 < k) (hp : p ≤ 8 * k) :
    ∃ m, nebNetinetFillMask (List.replicate k 0) p = some m ∧ m.length = k ∧
      ∀ i, bit m i = decide (i < p) := by
  induction k generalizing p with
  | zero => omega
  | succ k ih =>
    rw [List.replicate_succ]
    by_cases h : p > 8
    · obtain ⟨m, hm, hlen, hbits⟩ := ih (p - 8) (by omega) (by omega)
      refine ⟨0xFF :: m, by simp [nebNetinetFillMask, h, hm], by simp [hlen], ?_⟩
      intro i
      rw [bit_cons]
      split_ifs with hi
      · have hfull := mask_byte 8 i le_rfl hi
        simp only [Nat.sub_self, Nat.shiftLeft_zero, Nat.and_self] at hfull
        have htrue : decide (i < p) = decide (i < 8) := by simp; omega
        rw [htrue]
        exact hfull
      · rw [hbits]
        simp only [decide_eq_decide]
        omega
    · refine ⟨UInt8.ofNat ((0xFF <<< (8 - p)) &&& 0xFF) :: List.replicate k 0,
        by simp only [nebNetinetFillMask, if_neg h], by simp, ?_⟩
      intro i
      rw [bit_cons]
      split_ifs with hi
      · exact mask_byte p i (by omega) hi
      · rw [bit_zeros]
        symm
        simp only [decide_eq_false_iff_not]
        omega

/-- The bytes that a mask of `p` bits takes, one for an empty prefix. -/
def maskSize (p : Nat) : Nat := max 1 ((p + 7) / 8)

theorem maskSize_of_gt {p : Nat} (h : 8 < p) : maskSize p = maskSize (p - 8) + 1 := by
  unfold maskSize
  omega

theorem maskSize_of_le {p : Nat} (h : p ≤ 8) : maskSize p = 1 := by
  unfold maskSize
  omega

theorem lt_maskSize {k p : Nat} (h : 8 * k < p) : k < maskSize p := by
  unfold maskSize
  omega

/-- A buffer that is too short is overrun. -/
theorem fill_mask_overrun {v : List UInt8} {p : Nat} (h : v.length < maskSize p) :
    nebNetinetFillMask v p = none := by
  induction v generalizing p with
  | nil => rfl
  | cons b v ih =>
    rw [List.length_cons] at h
    by_cases hwhole : p > 8
    · rw [maskSize_of_gt hwhole] at h
      rw [nebNetinetFillMask, if_pos hwhole, ih (by omega)]
      rfl
    · rw [maskSize_of_le (by omega)] at h
      omega

/-! The mask of a prefix length. -/

/-- The mask bytes that the tree compares, for a prefix of `n` bits. -/
def prefixMask (f : Family) (n : Nat) : List UInt8 :=
  ((nebNetinetFillMask (List.replicate (f.sockaddrSize - f.addrOffset) 0) n).getD []).take
    f.addrSize

theorem bit_take {v : List UInt8} {k i : Nat} (h : i < 8 * k) : bit (v.take k) i = bit v i := by
  have hlt : i / 8 < k := by omega
  simp [bit, List.getD_eq_getElem?_getD, hlt]

/-- A prefix beyond the address sets all of its bits, as long as it stays in the `sockaddr`. -/
theorem prefix_mask_bit_min (f : Family) {n : Nat} (hn : n ≤ 8 * (f.sockaddrSize - f.addrOffset))
    (i : Nat) : bit (prefixMask f n) i = decide (i < n ∧ i < 8 * f.addrSize) := by
  obtain ⟨m, hm, hlen, hbits⟩ := fill_mask_spec (f.sockaddrSize - f.addrOffset) n
    (by cases f <;> decide) hn
  unfold prefixMask
  rw [hm, Option.getD_some]
  by_cases hi : i < 8 * f.addrSize
  · rw [bit_take hi, hbits]
    simp [hi]
  · rw [bit_beyond (by rw [List.length_take]; omega)]
    simp [hi]

theorem Family.addr_fits (f : Family) : 8 * f.addrSize ≤ 8 * (f.sockaddrSize - f.addrOffset) := by
  cases f <;> decide

theorem Family.key_fits (f : Family) : 0 < f.sockaddrSize ∧ f.keyLen ≤ f.sockaddrSize := by
  cases f <;> decide

theorem prefix_mask_bit (f : Family) {n : Nat} (hn : n ≤ 8 * f.addrSize) (i : Nat) :
    bit (prefixMask f n) i = decide (i < n) := by
  rw [prefix_mask_bit_min f (hn.trans f.addr_fits), decide_eq_decide]
  omega

theorem prefix_mask_injective (f : Family) {n n' : Nat} (hn : n ≤ 8 * f.addrSize)
    (hn' : n' ≤ 8 * f.addrSize) (h : prefixMask f n = prefixMask f n') : n = n' := by
  have hbits : ∀ i, i < n ↔ i < n' := by
    intro i
    have heq := prefix_mask_bit f hn i
    rw [h, prefix_mask_bit f hn' i] at heq
    simpa [eq_comm] using heq
  have h1 := hbits n
  have h2 := hbits n'
  omega

/-- The network `a` with a prefix of `n` bits contains the address `ip`. -/
def Contains (n : Nat) (a ip : List UInt8) : Prop :=
  ∀ i, i < n → bit ip i = bit a i

theorem covers_prefix_iff (f : Family) {n : Nat} (hn : n ≤ 8 * f.addrSize) (a ip : List UInt8) :
    Covers a (prefixMask f n) ip ↔ Contains n a ip := by
  unfold Covers Contains
  simp only [prefix_mask_bit f hn, decide_eq_true_eq]

theorem more_specific_prefix_iff (f : Family) {n n' : Nat} (hn : n ≤ 8 * f.addrSize)
    (hn' : n' ≤ 8 * f.addrSize) : MoreSpecific (prefixMask f n') (prefixMask f n) ↔ n < n' := by
  unfold MoreSpecific
  simp only [prefix_mask_bit f hn, prefix_mask_bit f hn', decide_eq_true_eq,
    decide_eq_false_iff_not]
  constructor
  · rintro ⟨-, i, hi, hni⟩
    omega
  · intro hlt
    exact ⟨fun i hi => by omega, n, hlt, by omega⟩

/-! Socket addresses. -/

theorem getElem?_memcpyAt {v src : List UInt8} {offset : Nat}
    (h : offset + src.length ≤ v.length) (i : Nat) :
    (memcpyAt v offset src)[i]? =
      if offset ≤ i ∧ i < offset + src.length then src[i - offset]? else v[i]? := by
  unfold memcpyAt
  have htake : (v.take offset).length = offset := by rw [List.length_take]; omega
  split_ifs with hi
  · rw [List.append_assoc, List.getElem?_append_right (by omega), htake,
      List.getElem?_append_left (by omega)]
  · by_cases hlo : i < offset
    · rw [List.append_assoc, List.getElem?_append_left (by omega), List.getElem?_take_of_lt hlo]
    · rw [List.getElem?_append_right (by rw [List.length_append]; omega), List.length_append,
        htake, List.getElem?_drop]
      congr 1
      omega

theorem length_memcpyAt {v src : List UInt8} {offset : Nat}
    (h : offset + src.length ≤ v.length) : (memcpyAt v offset src).length = v.length := by
  simp only [memcpyAt, List.length_append, List.length_take, List.length_drop]
  omega

theorem getElem?_sinAddr (f : Family) (v : Sockaddr) (i : Nat) :
    (sinAddr f v)[i]? = if i < f.addrSize then v[f.addrOffset + i]? else none := by
  unfold sinAddr
  rw [List.getElem?_take, List.getElem?_drop]

theorem sin_addr_congr {f : Family} {v w : Sockaddr}
    (h : ∀ i, f.addrOffset ≤ i → i < f.keyLen → v[i]? = w[i]?) : sinAddr f v = sinAddr f w := by
  apply List.ext_getElem?
  intro i
  rw [getElem?_sinAddr, getElem?_sinAddr]
  split_ifs with hi
  · exact h _ (by omega) (by unfold Family.keyLen; omega)
  · rfl

theorem sin_port_congr {bigEndian : Bool} {v w : Sockaddr} (h2 : v[2]? = w[2]?)
    (h3 : v[3]? = w[3]?) : sinPort bigEndian v = sinPort bigEndian w := by
  simp only [sinPort, hostU16, List.getD_eq_getElem?_getD, h2, h3]

private theorem key_len_toNat (f : Family) : (UInt8.ofNat f.keyLen).toNat = f.keyLen := by
  cases f <;> rfl

/-- A key is compared by the bytes of its address. -/
theorem compared_bytes_key {f : Family} {v : Sockaddr} (hlen : f.keyLen ≤ v.length) :
    comparedBytes f.addrOffset (v.set 0 (UInt8.ofNat f.keyLen)) = sinAddr f v := by
  have hpos : 0 < v.length := lt_of_lt_of_le (by cases f <;> decide) hlen
  unfold comparedBytes
  have hfirst : (v.set 0 (UInt8.ofNat f.keyLen)).getD 0 0 = UInt8.ofNat f.keyLen := by
    simp [List.getD_eq_getElem?_getD, hpos]
  rw [hfirst, key_len_toNat]
  apply List.ext_getElem?
  intro i
  rw [getElem?_sinAddr, List.getElem?_drop, List.getElem?_take]
  have hne : (0 : Nat) ≠ f.addrOffset + i := by cases f <;> simp [Family.addrOffset] <;> omega
  rw [List.getElem?_set_ne hne]
  unfold Family.keyLen
  split_ifs <;> first | rfl | omega

/-- The mask before its bits are set: the first bytes of the key, and zeros. -/
private def blankMask (f : Family) (vk : Sockaddr) : Sockaddr :=
  memcpyAt (List.replicate f.sockaddrSize 0) 0 (vk.take f.addrOffset)

private theorem blank_mask_fits (f : Family) (vk : Sockaddr) :
    0 + (vk.take f.addrOffset).length ≤ (List.replicate f.sockaddrSize (0 : UInt8)).length := by
  have hle : f.addrOffset ≤ f.sockaddrSize := by cases f <;> decide
  rw [List.length_take, List.length_replicate]
  omega

private theorem length_blank_mask (f : Family) (vk : Sockaddr) :
    (blankMask f vk).length = f.sockaddrSize :=
  (length_memcpyAt (blank_mask_fits f vk)).trans List.length_replicate

private theorem getD_blank_mask (f : Family) (vk : Sockaddr) (i : Nat) :
    (blankMask f vk).getD i 0 = if i < f.addrOffset then vk.getD i 0 else 0 := by
  have hzero : (List.replicate f.sockaddrSize (0 : UInt8))[i]?.getD 0 = 0 := by
    rw [List.getElem?_replicate]
    split_ifs <;> rfl
  have hget := getElem?_memcpyAt (blank_mask_fits f vk) i
  have hlen : (vk.take f.addrOffset).length = min f.addrOffset vk.length := List.length_take
  rw [List.getD_eq_getElem?_getD, blankMask, hget]
  by_cases hi : i < f.addrOffset
  · rw [if_pos hi, List.getD_eq_getElem?_getD]
    by_cases hlt : i < vk.length
    · rw [if_pos (by omega), Nat.sub_zero, List.getElem?_take_of_lt hi]
    · rw [if_neg (by omega), hzero, List.getElem?_eq_none (by omega)]
      rfl
  · rw [if_neg hi, if_neg (by omega), hzero]

private theorem drop_blank_mask (f : Family) (vk : Sockaddr) :
    (blankMask f vk).drop f.addrOffset = List.replicate (f.sockaddrSize - f.addrOffset) 0 := by
  refine List.eq_replicate_iff.mpr ⟨by rw [List.length_drop, length_blank_mask], ?_⟩
  intro b hb
  obtain ⟨i, hi, rfl⟩ := List.mem_iff_getElem.mp hb
  rw [List.length_drop] at hi
  have hget := getD_blank_mask f vk (f.addrOffset + i)
  rw [if_neg (by omega), List.getD_eq_getElem?_getD, List.getElem?_eq_getElem (by omega)] at hget
  rw [List.getElem_drop]
  exact hget

private theorem sin_port_blank_mask (bigEndian : Bool) (f : Family) (vk : Sockaddr) :
    sinPort bigEndian (blankMask f vk) = sinPort bigEndian vk := by
  have hoff : 4 ≤ f.addrOffset := by cases f <;> decide
  simp only [sinPort, hostU16, getD_blank_mask, if_pos (show 2 < f.addrOffset by omega),
    if_pos (show 2 + 1 < f.addrOffset by omega)]

/-- The bits that a mask gets are those of the prefix, whatever the key. -/
private theorem rt_get_netmask_eq (bigEndian : Bool) (f : Family) (vk : Sockaddr) :
    rtGetNetmask bigEndian true f vk =
      (nebNetinetFillMask (List.replicate (f.sockaddrSize - f.addrOffset) 0)
        (sinPort bigEndian vk)).map
        (fun mask => some ((blankMask f vk).take f.addrOffset ++ mask)) := by
  unfold rtGetNetmask
  rw [if_pos rfl]
  change (nebNetinetFillMask ((blankMask f vk).drop f.addrOffset)
    (sinPort bigEndian (blankMask f vk))).map _ = _
  rw [drop_blank_mask, sin_port_blank_mask]
  rfl

/-- A mask is compared by the bytes of its prefix. -/
theorem rt_get_netmask_spec (bigEndian : Bool) (f : Family) {vk : Sockaddr}
    (hfirst : vk.getD 0 0 = UInt8.ofNat f.keyLen)
    (hport : sinPort bigEndian vk ≤ 8 * (f.sockaddrSize - f.addrOffset)) :
    ∃ netmask, rtGetNetmask bigEndian true f vk = some (some netmask) ∧
      netmask.getD 0 0 = UInt8.ofNat f.keyLen ∧
      comparedBytes f.addrOffset netmask = prefixMask f (sinPort bigEndian vk) := by
  have hoff : 0 < f.addrOffset ∧ f.addrOffset < f.keyLen ∧ f.addrOffset < f.sockaddrSize := by
    cases f <;> decide
  obtain ⟨m, hm, hmlen, -⟩ := fill_mask_spec (f.sockaddrSize - f.addrOffset)
    (sinPort bigEndian vk) (by omega) hport
  have hlen := length_blank_mask f vk
  have htake : ((blankMask f vk).take f.addrOffset).length = f.addrOffset := by
    rw [List.length_take]
    omega
  have hlead : ((blankMask f vk).take f.addrOffset ++ m).getD 0 0 = UInt8.ofNat f.keyLen := by
    have hget := getD_blank_mask f vk 0
    rw [if_pos hoff.1, hfirst, List.getD_eq_getElem?_getD] at hget
    rw [List.getD_eq_getElem?_getD, List.getElem?_append_left (by omega),
      List.getElem?_take_of_lt hoff.1, hget]
  refine ⟨(blankMask f vk).take f.addrOffset ++ m, ?_, hlead, ?_⟩
  · rw [rt_get_netmask_eq, hm]
    rfl
  · unfold comparedBytes prefixMask
    rw [hlead, key_len_toNat, hm, Option.getD_some, List.take_append, List.drop_append]
    have hsub : (List.take f.keyLen ((blankMask f vk).take f.addrOffset)).length =
        f.addrOffset := by
      rw [List.length_take, htake]
      omega
    rw [hsub, htake, List.drop_of_length_le (by omega), Nat.sub_self]
    simp [Family.keyLen]

/-- The mask stays inside its `sockaddr` exactly for prefixes that do. -/
theorem rt_get_netmask_none_iff (bigEndian : Bool) (f : Family) (vk : Sockaddr) :
    rtGetNetmask bigEndian true f vk = none ↔
      8 * (f.sockaddrSize - f.addrOffset) < sinPort bigEndian vk := by
  have hpos : 0 < f.sockaddrSize - f.addrOffset := by cases f <;> decide
  rw [rt_get_netmask_eq, Option.map_eq_none_iff]
  constructor
  · intro hnone
    by_contra hle
    obtain ⟨m, hm, -⟩ := fill_mask_spec _ (sinPort bigEndian vk) hpos (not_lt.mp hle)
    rw [hm] at hnone
    cases hnone
  · intro hlt
    refine fill_mask_overrun ?_
    rw [List.length_replicate]
    exact lt_maskSize hlt

/-- The first byte of an address makes it a key, and can be set back. -/
theorem key_of_sockaddr (bigEndian : Bool) {f : Family} {v : Sockaddr}
    (size : v.length = f.sockaddrSize) :
    (v.set 0 (UInt8.ofNat f.keyLen)).set 0 (v.getD 0 0) = v ∧
      sinPort bigEndian (v.set 0 (UInt8.ofNat f.keyLen)) = sinPort bigEndian v ∧
      comparedBytes f.addrOffset (v.set 0 (UInt8.ofNat f.keyLen)) = sinAddr f v ∧
      (v.set 0 (UInt8.ofNat f.keyLen)).getD 0 0 = UInt8.ofNat f.keyLen := by
  have hpos : 0 < v.length := size ▸ f.key_fits.1
  refine ⟨?_, sin_port_congr (by simp) (by simp), compared_bytes_key (size ▸ f.key_fits.2), ?_⟩
  · rw [List.set_set]
    simp [List.getD_eq_getElem?_getD, hpos]
  · rw [List.getD_eq_getElem?_getD, List.getElem?_set_self hpos]
    rfl

/-! New entries. -/

/-- The network and the netmask of a new entry for `v`. -/
structure NewEntry (bigEndian : Bool) (f : Family) (v : Sockaddr) (network netmask : Sockaddr) :
    Prop where
  below : sinPort bigEndian v < 8 * f.addrSize
  size : network.length = f.sockaddrSize
  port : sinPort bigEndian network = sinPort bigEndian v
  addr : sinAddr f network = sinAddr f v
  keyLength : network.getD 0 0 = UInt8.ofNat f.keyLen
  maskLength : netmask.getD 0 0 = UInt8.ofNat f.keyLen
  key : comparedBytes f.addrOffset network = sinAddr f v
  mask : comparedBytes f.addrOffset netmask = prefixMask f (sinPort bigEndian v)

theorem entry_new_cases {bigEndian : Bool} {f : Family} {v : Sockaddr}
    (size : v.length = f.sockaddrSize) (family : saFamily bigEndian v = some f) (allocs : Allocs) :
    nebNetRadixEntryNew bigEndian allocs v = some none ∧
        ¬ (sinPort bigEndian v < 8 * f.addrSize ∧ allocs.entry.isSome ∧ allocs.network = true ∧
          allocs.netmask = true) ∨
      ∃ addr network netmask, allocs.entry = some addr ∧
        nebNetRadixEntryNew bigEndian allocs v = some (some (addr, ⟨false, network, netmask, 0⟩)) ∧
        NewEntry bigEndian f v network netmask := by
  have hsizes : 4 ≤ f.addrOffset ∧ f.keyLen ≤ f.sockaddrSize := by cases f <;> decide
  have htake : v.take f.sockaddrSize = v := List.take_of_length_le (by omega)
  unfold nebNetRadixEntryNew rtGetNetwork
  simp only [family, htake, Nat.shiftLeft_eq]
  by_cases below : sinPort bigEndian v < 8 * f.addrSize
  swap
  · left
    rw [if_pos (by omega)]
    refine ⟨?_, fun h => below h.1⟩
    cases allocs.entry <;> rfl
  rw [if_neg (by omega)]
  let network := v.set 0 (UInt8.ofNat f.keyLen)
  obtain ⟨-, hport, hkey, hfirst⟩ := key_of_sockaddr bigEndian size
  have hnlen : network.length = f.sockaddrSize := by simp [network, size]
  have haddr : sinAddr f network = sinAddr f v := by
    refine sin_addr_congr ?_
    intro i h1 h2
    exact List.getElem?_set_ne (by omega)
  obtain ⟨netmask, hmask, hlead, hcompared⟩ := rt_get_netmask_spec bigEndian f hfirst
    (by rw [hport]; exact below.le.trans f.addr_fits)
  have hnew : NewEntry bigEndian f v network netmask :=
    ⟨below, hnlen, hport, haddr, hfirst, hlead, hkey, by rw [hcompared, hport]⟩
  cases hentry : allocs.entry with
  | none => exact .inl ⟨rfl, by simp⟩
  | some addr =>
    cases hnet : allocs.network with
    | false => exact .inl ⟨by simp, by simp⟩
    | true =>
      cases hnm : allocs.netmask with
      | false => exact .inl ⟨by simp [rtGetNetmask], by simp⟩
      | true =>
        refine .inr ⟨addr, network, netmask, rfl, ?_, hnew⟩
        simp only [if_true]
        change (rtGetNetmask bigEndian true f network).map _ = _
        rw [hmask]
        rfl

end Nebase.Net.Radix
