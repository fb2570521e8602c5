/- Reverse names are read back as the address they were made from. -/

import Nebase.Net.Ipaddr.Model

set_option autoImplicit false
set_option relaxedAutoImplicit false

namespace Nebase.Net.Ipaddr

open Nebase.Foundation.Decimal
open Nebase.Net.Radix (Family AF_INET AF_INET6 memcpyAt)

/-- The string in a buffer. -/
def cString (buf : List UInt8) : List UInt8 := buf.takeWhile (· ≠ 0)

def familyNumber : Family → Nat
  | .inet => AF_INET
  | .inet6 => AF_INET6

/-- The sizes that the header promises to be enough. -/
def arpaStrlen : Family → Nat
  | .inet => NEB_INET_ARPASTRLEN
  | .inet6 => NEB_INET6_ARPASTRLEN

/-- The labels of `nebIpv4ArpaDomain` and `nebIpv6ArpaDomain`. -/
def domainLabels : Family → List (List UInt8)
  | .inet => [chars ['i', 'n', '-', 'a', 'd', 'd', 'r'], chars ['a', 'r', 'p', 'a']]
  | .inet6 => [chars ['i', 'p', '6'], chars ['a', 'r', 'p', 'a']]

/-- The labels of a reverse name: the last octet or nibble of the address comes first. -/
def arpaLabels : Family → List UInt8 → List (List UInt8)
  | .inet, addr => addr.reverse.map (fun b => decimal b.toNat) ++ domainLabels .inet
  | .inet6, addr =>
    addr.reverse.flatMap (fun b => [[hexDigit b], [hexDigit (b >>> 4)]]) ++ domainLabels .inet6

/-- A decimal octet. -/
def readOctet (label : List UInt8) : Option UInt8 :=
  if label ≠ [] ∧ label.all isDigit ∧ leadingNumber 0 label < 256 then
    some (UInt8.ofNat (leadingNumber 0 label))
  else
    none

/-- The bytes of octets that stand from last to first. -/
def readOctets : List (List UInt8) → Option (List UInt8)
  | [] => some []
  | label :: labels => (readOctet label).bind (fun b => (readOctets labels).map (· ++ [b]))

/-- The bytes of nibbles that stand from last to first. -/
def readNibbles : List (List UInt8) → Option (List UInt8)
  | [] => some []
  | [low] :: [high] :: labels =>
    (hexmap.idxOf? low).bind (fun low =>
      (hexmap.idxOf? high).bind (fun high =>
        (readNibbles labels).map (· ++ [UInt8.ofNat (16 * high + low)])))
  | _ => none

/-- The address that a reverse name stands for. -/
def readArpa (f : Family) (name : List UInt8) : Option (List UInt8) :=
  let labels := name.splitOn 46
  match f with
  | .inet =>
    if labels.drop 4 = domainLabels .inet then
      readOctets (labels.take 4)
    else
      none
  | .inet6 =>
    if labels.drop 32 = domainLabels .inet6 then
      readNibbles (labels.take 32)
    else
      none

/-! Octets and nibbles. -/

private theorem read_octet_decimal (b : UInt8) : readOctet (decimal b.toNat) = some b := by
  have hpos := decimal_length_pos b.toNat
  have hne : decimal b.toNat ≠ [] := List.ne_nil_of_length_pos hpos
  have hdigits : (decimal b.toNat).all isDigit = true :=
    List.all_eq_true.mpr (fun c hc => isDigit_of_mem_decimal hc)
  unfold readOctet
  rw [leadingNumber_decimal, if_pos ⟨hne, hdigits, b.toNat_lt⟩, UInt8.ofNat_toNat]

private theorem read_octets_append (xs : List UInt8) :
    readOctets (xs.map (fun b => decimal b.toNat)) = some xs.reverse := by
  induction xs with
  | nil => rfl
  | cons b xs ih =>
    rw [List.map_cons, readOctets, read_octet_decimal, Option.bind_some, ih, Option.map_some,
      List.reverse_cons]

private theorem low_nibble (b : UInt8) : (b &&& 0x0F).toNat = b.toNat % 16 := by
  rw [UInt8.toNat_and]
  exact Nat.and_two_pow_sub_one_eq_mod b.toNat 4

private theorem idx_hex_digit (b : UInt8) : hexmap.idxOf? (hexDigit b) = some (b.toNat % 16) := by
  have hall : ∀ n : Fin 16, hexmap.idxOf? (hexmap.getD n.val 0) = some n.val := by decide
  unfold hexDigit
  rw [low_nibble]
  exact hall ⟨b.toNat % 16, Nat.mod_lt _ (by decide)⟩

private theorem high_nibble (b : UInt8) : (b >>> 4).toNat % 16 = b.toNat / 16 := by
  have hlt := b.toNat_lt
  have hshift : (b >>> 4).toNat = b.toNat / 16 := by
    rw [UInt8.toNat_shiftRight]
    exact Nat.shiftRight_eq_div_pow b.toNat 4
  rw [hshift, Nat.mod_eq_of_lt (by omega)]

private theorem read_nibbles_append (xs : List UInt8) :
    readNibbles (xs.flatMap (fun b => [[hexDigit b], [hexDigit (b >>> 4)]])) =
      some xs.reverse := by
  induction xs with
  | nil => rfl
  | cons b xs ih =>
    rw [List.flatMap_cons, List.cons_append, List.cons_append, List.nil_append, readNibbles,
      idx_hex_digit, idx_hex_digit, Option.bind_some, Option.bind_some, ih, high_nibble,
      Option.map_some, Nat.div_add_mod, UInt8.ofNat_toNat, List.reverse_cons]

private theorem not_mem_decimal {c : UInt8} (h : isDigit c = false) (n : Nat) :
    c ∉ decimal n := by
  intro hmem
  rw [isDigit_of_mem_decimal hmem] at h
  cases h

private theorem hex_digit_mem (b : UInt8) : hexDigit b ∈ hexmap := by
  have hall : ∀ n : Fin 16, hexmap.getD n.val 0 ∈ hexmap := by decide
  unfold hexDigit
  rw [low_nibble]
  exact hall ⟨b.toNat % 16, Nat.mod_lt _ (by decide)⟩

/-- A name is split at its dots and ends at its terminator. -/
private theorem plain_label (f : Family) (addr : List UInt8) :
    ∀ label ∈ arpaLabels f addr, (46 : UInt8) ∉ label ∧ (0 : UInt8) ∉ label := by
  have hdomain : ∀ label ∈ domainLabels f, (46 : UInt8) ∉ label ∧ (0 : UInt8) ∉ label := by
    cases f <;> decide +kernel
  have hhex : ∀ b : UInt8, (46 : UInt8) ∉ [hexDigit b] ∧ (0 : UInt8) ∉ [hexDigit b] := by
    intro b
    have hmem := hex_digit_mem b
    have hplain : ∀ c ∈ hexmap, (46 : UInt8) ≠ c ∧ (0 : UInt8) ≠ c := by decide +kernel
    simpa using hplain _ hmem
  intro label hlabel
  cases f with
  | inet =>
    rcases List.mem_append.mp hlabel with hoctet | hlabel
    · obtain ⟨b, -, rfl⟩ := List.mem_map.mp hoctet
      exact ⟨not_mem_decimal (by decide) _, not_mem_decimal (by decide) _⟩
    · exact hdomain label hlabel
  | inet6 =>
    rcases List.mem_append.mp hlabel with hnibble | hlabel
    · obtain ⟨b, -, hb⟩ := List.mem_flatMap.mp hnibble
      simp only [List.mem_cons, List.not_mem_nil, or_false] at hb
      rcases hb with rfl | rfl
      · exact hhex b
      · exact hhex _
    · exact hdomain label hlabel

/-- The text of a reverse name. -/
def arpaName (f : Family) (addr : List UInt8) : List UInt8 :=
  [46].intercalate (arpaLabels f addr)

theorem readArpa_arpaName (f : Family) {addr : List UInt8} (size : addr.length = f.addrSize) :
    readArpa f (arpaName f addr) = some addr := by
  have hsplit : (arpaName f addr).splitOn 46 = arpaLabels f addr := by
    refine List.splitOn_intercalate 46 (fun label h => (plain_label f addr label h).1) ?_
    cases f <;> simp [arpaLabels, domainLabels]
  unfold readArpa
  simp only [hsplit]
  cases f with
  | inet =>
    have hlen : (addr.reverse.map (fun b => decimal b.toNat)).length = 4 := by
      rw [List.length_map, List.length_reverse]
      exact size
    simp only [arpaLabels, ← hlen, List.drop_left, List.take_left, if_true]
    rw [read_octets_append, List.reverse_reverse]
  | inet6 =>
    have hlen : (addr.reverse.flatMap
        (fun b => [[hexDigit b], [hexDigit (b >>> 4)]])).length = 32 := by
      have hsum : ∀ xs : List UInt8,
          (xs.flatMap (fun b => [[hexDigit b], [hexDigit (b >>> 4)]])).length = 2 * xs.length := by
        intro xs
        induction xs with
        | nil => rfl
        | cons b xs ih =>
          rw [List.flatMap_cons, List.length_append, ih, List.length_cons]
          simp only [List.length_cons, List.length_nil]
          omega
      rw [hsum, List.length_reverse, size]
      rfl
    simp only [arpaLabels, ← hlen, List.drop_left, List.take_left, if_true]
    rw [read_nibbles_append, List.reverse_reverse]

/-! The writers. -/

private theorem write_at_append (xs ys : List UInt8) (c d : UInt8) :
    writeAt (xs ++ c :: ys) xs.length d = some (xs ++ d :: ys) := by
  unfold writeAt
  rw [if_pos (by simp), List.set_append_right _ _ le_rfl, Nat.sub_self]
  rfl

private theorem copy_to_append (xs ys src : List UInt8) (h : src.length ≤ ys.length) :
    copyTo (xs ++ ys) xs.length src = some (xs ++ src ++ ys.drop src.length) := by
  unfold copyTo memcpyAt
  rw [if_pos (by rw [List.length_append]; omega), List.take_left, ← List.drop_drop,
    List.drop_left]

private theorem copy_to_front (ys src : List UInt8) (h : src.length ≤ ys.length) :
    copyTo ys 0 src = some (src ++ ys.drop src.length) :=
  copy_to_append [] ys src h

/-- The two nibbles of a byte with their dots, low nibble first. -/
private def nibbleText (b : UInt8) : List UInt8 := [hexDigit b, 46, hexDigit (b >>> 4), 46]

/-- The bytes not yet read fill the template from its end. -/
private theorem ipv6_nibbles_spec (addr tail : List UInt8) (i : Nat) (h : i + addr.length = 16) :
    ipv6Nibbles i addr (List.replicate (4 * addr.length) 46 ++ tail) =
      some (addr.reverse.flatMap nibbleText ++ tail) := by
  induction addr generalizing tail i with
  | nil => rfl
  | cons b addr ih =>
    rw [List.length_cons] at h
    have hoff : fixedLen - 4 - (i <<< 2) = 4 * addr.length := by
      rw [Nat.shiftLeft_eq, fixedLen]
      omega
    let dots : List UInt8 := List.replicate (4 * addr.length) 46
    have hdots : dots.length = 4 * addr.length := List.length_replicate
    have hsplit : List.replicate (4 * (b :: addr).length) (46 : UInt8) ++ tail =
        dots ++ 46 :: 46 :: 46 :: 46 :: tail := by
      rw [List.length_cons, Nat.mul_add, Nat.mul_one, List.replicate_add, List.append_assoc]
      rfl
    have hlow := write_at_append dots (46 :: 46 :: 46 :: tail) 46 (hexDigit b)
    have hhigh := write_at_append (dots ++ [hexDigit b, 46]) (46 :: tail) 46 (hexDigit (b >>> 4))
    rw [List.length_append, hdots, List.append_assoc, List.append_assoc] at hhigh
    rw [hdots] at hlow
    rw [ipv6Nibbles, hoff, hsplit, hlow, Option.bind_some]
    change (writeAt (dots ++ ([hexDigit b, 46] ++ 46 :: 46 :: tail))
      (4 * addr.length + [hexDigit b, 46].length) _).bind _ = _
    rw [hhigh, Option.bind_some]
    have hrest := ih (nibbleText b ++ tail) (i + 1) (by omega)
    rw [List.reverse_cons, List.flatMap_append, List.flatMap_singleton, List.append_assoc, ← hrest]
    rfl

private theorem intercalate_nibbles (xs : List UInt8) (labels : List (List UInt8))
    (h : labels ≠ []) :
    ([46] : List UInt8).intercalate
        (xs.flatMap (fun b => [[hexDigit b], [hexDigit (b >>> 4)]]) ++ labels) =
      xs.flatMap nibbleText ++ [46].intercalate labels := by
  induction xs with
  | nil => rfl
  | cons b xs ih =>
    rw [List.flatMap_cons, List.append_assoc, List.cons_append, List.cons_append, List.nil_append,
      List.intercalate_cons_of_ne_nil (by simp), List.intercalate_cons_of_ne_nil (by simp [h]), ih,
      List.flatMap_cons]
    rfl

private theorem length_nibbles (xs : List UInt8) :
    (xs.flatMap nibbleText).length = 4 * xs.length := by
  induction xs with
  | nil => rfl
  | cons b xs ih =>
    rw [List.flatMap_cons, List.length_append, ih, List.length_cons]
    simp only [nibbleText, List.length_cons, List.length_nil]
    omega

private theorem arpa_name_inet6 (addr : List UInt8) :
    arpaName .inet6 addr = addr.reverse.flatMap nibbleText ++ nebIpv6ArpaDomain := by
  unfold arpaName arpaLabels
  rw [intercalate_nibbles _ _ (by simp [domainLabels])]
  rfl

private theorem ipv6_addr_to_arpa_spec {addr arpa : List UInt8} (size : addr.length = 16)
    (room : NEB_INET6_ARPASTRLEN ≤ arpa.length) :
    (arpaName .inet6 addr).length = 72 ∧
      ipv6AddrToArpa addr arpa =
        some (arpaName .inet6 addr ++ 0 :: arpa.drop ((arpaName .inet6 addr).length + 1)) := by
  have hroom : 73 ≤ arpa.length := room
  have hlen : (addr.reverse.flatMap nibbleText).length = 64 := by
    rw [length_nibbles, List.length_reverse, size]
  have hname : (arpaName .inet6 addr).length = 72 := by
    rw [arpa_name_inet6, List.length_append, hlen]
    rfl
  refine ⟨hname, ?_⟩
  rw [hname]
  have htemplate := copy_to_front arpa (List.replicate fixedLen 46)
    (by rw [List.length_replicate, fixedLen]; omega)
  have hnibbles := ipv6_nibbles_spec addr (arpa.drop 64) 0 (by omega)
  rw [size] at hnibbles
  have height : nebIpv6ArpaDomain.length = 8 := rfl
  have hdomain := copy_to_append (addr.reverse.flatMap nibbleText) (arpa.drop 64)
    nebIpv6ArpaDomain (by rw [List.length_drop]; omega)
  rw [hlen, ← arpa_name_inet6] at hdomain
  have hdrop : (arpa.drop 64).drop nebIpv6ArpaDomain.length = arpa[72] :: arpa.drop 73 := by
    rw [List.drop_drop, height]
    exact List.drop_eq_getElem_cons (by omega)
  have hend := write_at_append (arpaName .inet6 addr) (arpa.drop 73) arpa[72] 0
  rw [hname] at hend
  unfold ipv6AddrToArpa
  rw [htemplate, Option.bind_some, List.length_replicate]
  change (ipv6Nibbles 0 addr (List.replicate (4 * 16) 46 ++ arpa.drop 64)).bind _ = _
  rw [hnibbles, Option.bind_some]
  change (copyTo _ 64 nebIpv6ArpaDomain).bind _ = _
  rw [hdomain, Option.bind_some, hdrop]
  exact hend

private theorem decimal_length_octet (b : UInt8) : (decimal b.toNat).length ≤ 3 := by
  have hlt := b.toNat_lt
  rcases Nat.eq_zero_or_pos b.toNat with hzero | hpos
  · rw [hzero]
    decide
  · exact decimal_length_le hpos (by omega)

private theorem ipv4_addr_to_arpa_spec {addr arpa : List UInt8} (size : addr.length = 4)
    (room : NEB_INET_ARPASTRLEN ≤ arpa.length) :
    (arpaName .inet addr).length ≤ 28 ∧
      ipv4AddrToArpa addr arpa =
        some (arpaName .inet addr ++ 0 :: arpa.drop ((arpaName .inet addr).length + 1)) := by
  obtain ⟨a0, a1, a2, a3, rfl⟩ : ∃ a0 a1 a2 a3, addr = [a0, a1, a2, a3] := by
    match addr, size with
    | [a0, a1, a2, a3], _ => exact ⟨a0, a1, a2, a3, rfl⟩
  have hroom : 29 ≤ arpa.length := room
  let octet := fun b : UInt8 => decimal b.toNat ++ [46]
  have hoctet : ∀ b, (octet b).length ≤ 4 := by
    intro b
    have hle := decimal_length_octet b
    simp only [octet, List.length_append, List.length_singleton]
    omega
  let text := octet a3 ++ octet a2 ++ octet a1 ++ octet a0 ++ nebIpv4ArpaDomain
  have hname : arpaName .inet [a0, a1, a2, a3] = text := by
    simp [arpaName, arpaLabels, domainLabels, text, octet, List.intercalate_cons_cons,
      List.append_assoc]
    rfl
  have hlen : text.length ≤ 28 := by
    have h0 := hoctet a0
    have h1 := hoctet a1
    have h2 := hoctet a2
    have h3 := hoctet a3
    have hdomain : nebIpv4ArpaDomain.length = 12 := rfl
    simp only [text, List.length_append] at h0 h1 h2 h3 ⊢
    omega
  rw [hname]
  refine ⟨hlen, ?_⟩
  have hcopy := copy_to_front arpa (text ++ [0]) (by
    simp only [List.length_append, List.length_singleton]
    omega)
  simp only [List.length_append, List.length_singleton, List.append_assoc,
    List.singleton_append] at hcopy
  have hend := write_at_append text (arpa.drop (text.length + 1)) 0 0
  have hwhole : text.take (NEB_INET_ARPASTRLEN - 1) = text := List.take_of_length_le hlen
  unfold ipv4AddrToArpa
  change (snprintf arpa NEB_INET_ARPASTRLEN text).bind _ = _
  unfold snprintf
  rw [hwhole, hcopy, Option.map_some, Option.bind_some]
  exact hend

/-- The buffer holds the name, its terminator and then what it held before. -/
private theorem addr_to_arpa_spec (f : Family) {addr arpa : List UInt8}
    (size : addr.length = f.addrSize) (room : arpaStrlen f ≤ arpa.length) :
    (arpaName f addr).length ≤ arpaStrlen f - 1 ∧
      (f = .inet6 → (arpaName f addr).length = 72) ∧
      nebNetinetAddrToArpa (familyNumber f) addr arpa =
        some (arpaName f addr ++ 0 :: arpa.drop ((arpaName f addr).length + 1)) := by
  cases f with
  | inet =>
    obtain ⟨hlen, hspec⟩ := ipv4_addr_to_arpa_spec size room
    exact ⟨hlen, by simp, hspec⟩
  | inet6 =>
    obtain ⟨hlen, hspec⟩ := ipv6_addr_to_arpa_spec size room
    exact ⟨hlen.le, fun _ => hlen, hspec⟩

private theorem c_string_append {text ys : List UInt8} (h : (0 : UInt8) ∉ text) :
    cString (text ++ 0 :: ys) = text := by
  have hall : ∀ c ∈ text, (decide (c ≠ 0)) = true := by
    intro c hc
    rw [decide_eq_true_eq]
    rintro rfl
    exact h hc
  unfold cString
  rw [List.takeWhile_append_of_pos hall]
  simp

private theorem not_mem_intercalate {c : UInt8} {sep : List UInt8} {ls : List (List UInt8)}
    (hsep : c ∉ sep) (hls : ∀ label ∈ ls, c ∉ label) : c ∉ sep.intercalate ls := by
  induction ls with
  | nil => simp
  | cons label ls ih =>
    have hlabel := hls label List.mem_cons_self
    have hrest := ih (fun l hl => hls l (List.mem_cons_of_mem label hl))
    cases ls with
    | nil => rwa [List.intercalate_singleton]
    | cons l ls =>
      rw [List.intercalate_cons_cons, List.mem_append, List.mem_append]
      tauto

private theorem c_string_arpa_name (f : Family) (addr ys : List UInt8) :
    cString (arpaName f addr ++ 0 :: ys) = arpaName f addr := by
  refine c_string_append (not_mem_intercalate (by decide) ?_)
  exact fun label h => (plain_label f addr label h).2

/-- Whatever the address, the name fits the size promised for its family, with its terminator, and
is read back as the address; so two addresses never have one name. -/
theorem nebNetinetAddrToArpa_reads_back (f : Family) (addr arpa : List UInt8)
    (size : addr.length = f.addrSize) (room : arpaStrlen f ≤ arpa.length) :
    ∃ buf, nebNetinetAddrToArpa (familyNumber f) addr arpa = some buf ∧
      buf.length = arpa.length ∧ buf.drop (arpaStrlen f) = arpa.drop (arpaStrlen f) ∧
      cString buf = arpaName f addr ∧ buf[(cString buf).length]? = some 0 ∧
      (cString buf).length ≤ arpaStrlen f - 1 ∧ (f = .inet6 → (cString buf).length = 72) ∧
      readArpa f (cString buf) = some addr ∧
      ∀ addr' arpa' buf', addr'.length = f.addrSize → arpaStrlen f ≤ arpa'.length →
        nebNetinetAddrToArpa (familyNumber f) addr' arpa' = some buf' →
        cString buf' = cString buf → addr' = addr := by
  obtain ⟨hlen, hsix, hspec⟩ := addr_to_arpa_spec f size room
  have hstring := c_string_arpa_name f addr (arpa.drop ((arpaName f addr).length + 1))
  have hpos : 1 ≤ arpaStrlen f := by cases f <;> decide
  refine ⟨_, hspec, ?_, ?_, hstring, ?_, ?_, ?_, ?_, ?_⟩
  · simp only [List.length_append, List.length_cons, List.length_drop]
    omega
  · rw [List.drop_append, List.drop_of_length_le (by omega), List.nil_append]
    obtain ⟨k, hk⟩ := Nat.exists_eq_add_of_le
      (show (arpaName f addr).length + 1 ≤ arpaStrlen f by omega)
    rw [show arpaStrlen f - (arpaName f addr).length = k + 1 by omega, List.drop_succ_cons,
      List.drop_drop, hk]
  · rw [hstring, List.getElem?_append_right le_rfl, Nat.sub_self]
    rfl
  · rw [hstring]
    exact hlen
  · rw [hstring]
    exact hsix
  · rw [hstring]
    exact readArpa_arpaName f size
  · intro addr' arpa' buf' size' room' hspec' hsame
    obtain ⟨-, -, hspec''⟩ := addr_to_arpa_spec f size' room'
    obtain rfl := Option.some.inj (hspec''.symm.trans hspec')
    rw [c_string_arpa_name, hstring] at hsame
    have hread := readArpa_arpaName f size'
    rw [hsame, readArpa_arpaName f size] at hread
    exact (Option.some.inj hread).symm

/-- 192.0.2.255 in a buffer of the promised size. -/
theorem nebNetinetAddrToArpa_reads_back_inet :
    ([192, 0, 2, 255] : List UInt8).length = 4 ∧
      ∃ buf, nebNetinetAddrToArpa AF_INET [192, 0, 2, 255] (List.replicate 29 0) = some buf ∧
        readArpa .inet (cString buf) = some [192, 0, 2, 255] := by
  obtain ⟨buf, hspec, -, -, -, -, -, -, hread, -⟩ := nebNetinetAddrToArpa_reads_back .inet
    [192, 0, 2, 255] (List.replicate 29 0) rfl (by decide)
  exact ⟨rfl, buf, hspec, hread⟩

end Nebase.Net.Ipaddr
