/- The next address: the IPv4 address counts up, the low half of an IPv6 address never changes. -/

import Nebase.Net.Ipaddr.Model
import Nebase.Net.Radix.Mask

set_option autoImplicit false
set_option relaxedAutoImplicit false

namespace Nebase.Net.Ipaddr

open Nebase.Net.Radix

/-- The number that bytes in network order stand for. -/
def networkValue (bytes : List UInt8) : Nat := Nat.ofDigits 256 (bytes.reverse.map (·.toNat))

/-- `v'` holds the address after the one of `v`, and `v'` is `v` everywhere else. -/
structure Successor (f : Family) (v v' : Sockaddr) : Prop where
  addr : networkValue (sinAddr f v') = (networkValue (sinAddr f v) + 1) % 256 ^ f.addrSize
  length : v'.length = v.length
  outside : ∀ i, i < f.addrOffset ∨ f.keyLen ≤ i → v'[i]? = v[i]?

theorem networkValue_append (xs ys : List UInt8) :
    networkValue (xs ++ ys) = 256 ^ ys.length * networkValue xs + networkValue ys := by
  unfold networkValue
  rw [List.reverse_append, List.map_append, Nat.ofDigits_append, List.length_map,
    List.length_reverse, Nat.add_comm]

theorem networkValue_lt (xs : List UInt8) : networkValue xs < 256 ^ xs.length := by
  unfold networkValue
  have hlt := Nat.ofDigits_lt_base_pow_length (b := 256) (l := xs.reverse.map (·.toNat))
    (by decide) (by
      intro d hd
      obtain ⟨b, -, rfl⟩ := List.mem_map.mp hd
      exact b.toNat_lt)
  rwa [List.length_map, List.length_reverse] at hlt

private theorem network_value_htonl (t : UInt32) :
    networkValue [(t >>> 24).toUInt8, (t >>> 16).toUInt8, (t >>> 8).toUInt8, t.toUInt8] =
      t.toNat := by
  have hlt := t.toNat_lt
  have h24 : (t >>> 24).toNat = t.toNat / 2 ^ 24 := by
    rw [UInt32.toNat_shiftRight]
    exact Nat.shiftRight_eq_div_pow t.toNat 24
  have h16 : (t >>> 16).toNat = t.toNat / 2 ^ 16 := by
    rw [UInt32.toNat_shiftRight]
    exact Nat.shiftRight_eq_div_pow t.toNat 16
  have h8 : (t >>> 8).toNat = t.toNat / 2 ^ 8 := by
    rw [UInt32.toNat_shiftRight]
    exact Nat.shiftRight_eq_div_pow t.toNat 8
  simp only [networkValue, List.reverse_cons, List.reverse_nil, List.nil_append, List.cons_append,
    List.map_cons, List.map_nil, Nat.ofDigits_cons, Nat.ofDigits_nil, UInt32.toNat_toUInt8, h24,
    h16, h8]
  omega

private theorem ntohl_at_eq (v : Sockaddr) :
    ntohlAt v 4 = UInt32.ofNat (networkValue (sinAddr .inet v)) := rfl

/-- The carry loop stays in the words below its start. -/
private theorem drop_ipv6_next_loop (i : Nat) (v : Sockaddr) (h : 4 * i ≤ v.length) :
    (ipv6NextLoop i v).drop (4 * i) = v.drop (4 * i) := by
  have hdrop : ∀ (i : Nat) (w src : Sockaddr), src.length = 4 → 4 * (i + 1) ≤ w.length →
      (memcpyAt w (4 * i) src).drop (4 * (i + 1)) = w.drop (4 * (i + 1)) := by
    intro i w src hsrc hw
    apply List.ext_getElem?
    intro j
    rw [List.getElem?_drop, List.getElem?_drop, getElem?_memcpyAt (by omega), if_neg (by omega)]
  induction i generalizing v with
  | zero => rfl
  | succ i ih =>
    unfold ipv6NextLoop
    simp only
    split_ifs with hmax
    · exact hdrop i v _ rfl h
    · have hlen : (memcpyAt v (4 * i) [0, 0, 0, 0]).length = v.length :=
        length_memcpyAt (by simp only [List.length_cons, List.length_nil]; omega)
      have hrest := ih (memcpyAt v (4 * i) [0, 0, 0, 0]) (by omega)
      rw [Nat.mul_add, ← List.drop_drop, hrest, List.drop_drop]
      exact hdrop i v _ rfl h

private theorem network_value_low (w : Sockaddr) (h : ((w.drop 16).take 8).length = 8) :
    networkValue (sinAddr .inet6 w) % 256 ^ 8 = networkValue ((w.drop 16).take 8) := by
  have hsplit : sinAddr .inet6 w = (w.drop 8).take 8 ++ (w.drop 16).take 8 := by
    change (w.drop 8).take (8 + 8) = _
    rw [List.take_add, List.drop_drop]
  have hlt := networkValue_lt ((w.drop 16).take 8)
  rw [h] at hlt
  rw [hsplit, networkValue_append, h, Nat.mul_add_mod, Nat.mod_eq_of_lt hlt]

/-- The last eight bytes of the address lie behind the words that the loop reaches. -/
theorem ipv6AddrNext_low {v : Sockaddr} (size : v.length = Family.inet6.sockaddrSize) :
    networkValue (sinAddr .inet6 (ipv6AddrNext v)) % 256 ^ 8 =
      networkValue (sinAddr .inet6 v) % 256 ^ 8 := by
  have hsize : v.length = 28 := size
  have hsame : (ipv6AddrNext v).drop 16 = v.drop 16 := drop_ipv6_next_loop 4 v (by omega)
  have hlen : ((v.drop 16).take 8).length = 8 := by
    rw [List.length_take, List.length_drop, hsize]
    rfl
  rw [network_value_low v hlen, network_value_low _ (by rw [hsame]; exact hlen), hsame]

theorem ipv4AddrNext_successor {v : Sockaddr} (size : v.length = Family.inet.sockaddrSize) :
    Successor .inet v (ipv4AddrNext v) := by
  have hsize : v.length = 16 := size
  let t := ntohlAt v 4 + 1
  let src : List UInt8 := [(t >>> 24).toUInt8, (t >>> 16).toUInt8, (t >>> 8).toUInt8, t.toUInt8]
  have hnext : ipv4AddrNext v = memcpyAt v 4 src := rfl
  have hroom : 4 + src.length ≤ v.length := by
    rw [hsize]
    exact Nat.le_of_ble_eq_true rfl
  have hget := getElem?_memcpyAt hroom
  have haddr : sinAddr .inet (memcpyAt v 4 src) = src := by
    apply List.ext_getElem?
    intro i
    rw [getElem?_sinAddr]
    change (if i < 4 then (memcpyAt v 4 src)[4 + i]? else none) = _
    split_ifs with hi
    · rw [hget, if_pos ⟨by omega, Nat.add_lt_add_left hi 4⟩, Nat.add_sub_cancel_left]
    · exact (List.getElem?_eq_none (by exact Nat.le_of_not_lt hi)).symm
  refine ⟨?_, ?_, ?_⟩
  · have hlt : networkValue (sinAddr .inet v) < 2 ^ 32 := by
      have hlt := networkValue_lt (sinAddr .inet v)
      have hlen : (sinAddr .inet v).length = 4 := by
        change ((v.drop 4).take 4).length = 4
        rw [List.length_take, List.length_drop, hsize]
        rfl
      rwa [hlen] at hlt
    rw [hnext, haddr, network_value_htonl]
    change (ntohlAt v 4 + 1).toNat = _ % 2 ^ 32
    rw [ntohl_at_eq, UInt32.toNat_add, UInt32.toNat_ofNat', Nat.mod_eq_of_lt hlt]
    rfl
  · rw [hnext, length_memcpyAt hroom]
  · intro i hi
    rw [hnext, hget]
    refine if_neg ?_
    rintro ⟨hlow, hhigh⟩
    change i < 4 ∨ 8 ≤ i at hi
    change i < 8 at hhigh
    omega

/-- `neb_netinet_addr_next` moves to the next address and changes nothing else for IPv4 only. -/
theorem nebNetinetAddrNext_successor_iff (bigEndian : Bool) (f : Family) (v : Sockaddr)
    (size : v.length = f.sockaddrSize) (family : saFamily bigEndian v = some f) :
    Successor f v (nebNetinetAddrNext bigEndian v) ↔ f = .inet := by
  unfold nebNetinetAddrNext
  rw [family]
  cases f with
  | inet => exact ⟨fun _ => rfl, fun _ => ipv4AddrNext_successor size⟩
  | inet6 =>
    refine ⟨fun next => ?_, fun h => by cases h⟩
    exfalso
    have hlow := ipv6AddrNext_low size
    have haddr := next.addr
    change networkValue (sinAddr .inet6 (ipv6AddrNext v)) = _ % 256 ^ 16 at haddr
    omega

/-- 192.0.2.255 port 80. -/
theorem nebNetinetAddrNext_successor_iff_octet :
    Successor .inet [2, 0, 0, 80, 192, 0, 2, 255, 0, 0, 0, 0, 0, 0, 0, 0]
      [2, 0, 0, 80, 192, 0, 3, 0, 0, 0, 0, 0, 0, 0, 0, 0] :=
  (nebNetinetAddrNext_successor_iff false .inet
    [2, 0, 0, 80, 192, 0, 2, 255, 0, 0, 0, 0, 0, 0, 0, 0] rfl rfl).mpr rfl

/-- ::1 becomes 0:0:0:1::1. -/
theorem nebNetinetAddrNext_loopback :
    nebNetinetAddrNext false [10, 0, 0, 0, 0, 0, 0, 0, 0, 0, 0, 0, 0, 0, 0, 0, 0, 0, 0, 0, 0, 0, 0,
        1, 0, 0, 0, 0] =
      [10, 0, 0, 0, 0, 0, 0, 0, 0, 0, 0, 0, 0, 0, 0, 1, 0, 0, 0, 0, 0, 0, 0, 1, 0, 0, 0, 0] ∧
      ¬ Successor .inet6 [10, 0, 0, 0, 0, 0, 0, 0, 0, 0, 0, 0, 0, 0, 0, 0, 0, 0, 0, 0, 0, 0, 0, 1, 0,
        0, 0, 0] (nebNetinetAddrNext false [10, 0, 0, 0, 0, 0, 0, 0, 0, 0, 0, 0, 0, 0, 0, 0, 0, 0, 0,
          0, 0, 0, 0, 1, 0, 0, 0, 0]) := by
  refine ⟨by decide, fun next => ?_⟩
  have haddr := next.addr
  revert haddr
  decide

end Nebase.Net.Ipaddr
