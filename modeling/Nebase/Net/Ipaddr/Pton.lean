/- Which strings are read as an IPv6 network, and which should be. -/

import Nebase.Net.Ipaddr.Model
import Nebase.Net.Radix.Mask

set_option autoImplicit false
set_option relaxedAutoImplicit false

namespace Nebase.Net.Ipaddr

open Nebase.Foundation.Decimal
open Nebase.Net.Radix

/-- What `inet_pton` guarantees for IPv6: an address of 16 bytes, from a text without a slash that
fits `INET6_ADDRSTRLEN` with its terminator. -/
structure InetLaws (inet : Inet) : Prop where
  size : ∀ s a, inet.pton s = some a → a.length = 16
  plain : ∀ s a, inet.pton s = some a → (47 : UInt8) ∉ s
  short : ∀ s a, inet.pton s = some a → s.length < INET6_ADDRSTRLEN

/-- The network that a string stands for: an address alone, or with the length of a prefix. -/
def Denotes (inet : Inet) (pres a : List UInt8) (n : Nat) : Prop :=
  (inet.pton pres = some a ∧ n = 128) ∨
    ∃ address digits, pres = address ++ 47 :: digits ∧ inet.pton address = some a ∧
      digits ≠ [] ∧ (∀ b ∈ digits, isDigit b = true) ∧ leadingNumber 0 digits = n ∧ n ≤ 128

/-- `r` and `v'` are the result and the socket address that the string `pres` should give. -/
structure Parsed (inet : Inet) (bigEndian : Bool) (pres : List UInt8) (v : Sockaddr) (r : Int)
    (v' : Sockaddr) : Prop where
  accepted : r = 0 ↔ ∃ a n, Denotes inet pres a n
  network : r = 0 → ∀ a n, Denotes inet pres a n → sinAddr .inet6 v' = a ∧ sinPort bigEndian v' = n
  refused : r ≠ 0 → sinAddr .inet6 v' = sinAddr .inet6 v ∧ sinPort bigEndian v' = sinPort bigEndian v

/-- Everything the function tests holds of `address/rest`. A length that is negative as an `int` is
not tested further. -/
structure Passes (inet : Inet) (address rest : List UInt8) : Prop where
  length : toInt address.length < INET6_ADDRSTRLEN
  stop : strtolEnd rest = []
  nonneg : 0 ≤ strtol rest
  bound : strtol rest ≤ 128
  address : toInt address.length < 0 ∨
    inet.pton (address.take (toInt address.length).toNat) ≠ none

/-- A string that passes the tests at its first slash has a digit behind it, and in front of it as
many bytes as an `int` can count. -/
def Strict (inet : Inet) (pres : List UInt8) : Prop :=
  ∀ address rest, pres = address ++ 47 :: rest → (47 : UInt8) ∉ address →
    Passes inet address rest →
      toInt address.length = address.length ∧ ∃ b ∈ rest.head?, isDigit b = true

/-! The two forms of a string. -/

private theorem plain_or_slash (pres : List UInt8) :
    (47 : UInt8) ∉ pres ∨ ∃ address rest, pres = address ++ 47 :: rest ∧ (47 : UInt8) ∉ address := by
  by_cases h : (47 : UInt8) ∈ pres
  · obtain ⟨address, rest, hsplit, hnot⟩ := List.eq_append_cons_of_mem h
    exact .inr ⟨address, rest, hsplit, hnot⟩
  · exact .inl h

private theorem all_ne {s : List UInt8} (h : (47 : UInt8) ∉ s) :
    ∀ b ∈ s, decide (b ≠ 47) = true := by
  intro b hb
  rw [decide_eq_true_eq]
  rintro rfl
  exact h hb

private theorem split_slash {address : List UInt8} (h : (47 : UInt8) ∉ address)
    (rest : List UInt8) :
    (address ++ 47 :: rest).takeWhile (· ≠ 47) = address ∧
      (address ++ 47 :: rest).dropWhile (· ≠ 47) = 47 :: rest := by
  rw [List.takeWhile_append_of_pos (all_ne h), List.dropWhile_append_of_pos (all_ne h)]
  simp

private theorem slash_unique {address address' rest rest' : List UInt8}
    (h : (47 : UInt8) ∉ address) (h' : (47 : UInt8) ∉ address')
    (heq : address ++ 47 :: rest = address' ++ 47 :: rest') :
    address = address' ∧ rest = rest' := by
  have hs := split_slash h rest
  have hs' := split_slash h' rest'
  rw [heq] at hs
  exact ⟨hs.1.symm.trans hs'.1, (List.cons.inj (hs.2.symm.trans hs'.2)).2⟩

variable {inet : Inet} {bigEndian : Bool} {v : Sockaddr}

private theorem denotes_plain {pres : List UInt8} (h : (47 : UInt8) ∉ pres) (a : List UInt8)
    (n : Nat) : Denotes inet pres a n ↔ inet.pton pres = some a ∧ n = 128 := by
  unfold Denotes
  refine ⟨?_, .inl⟩
  rintro (hplain | ⟨address, digits, rfl, -⟩)
  · exact hplain
  · exact absurd (by simp) h

private theorem denotes_slash (laws : InetLaws inet) {address : List UInt8}
    (h : (47 : UInt8) ∉ address) (rest a : List UInt8) (n : Nat) :
    Denotes inet (address ++ 47 :: rest) a n ↔ inet.pton address = some a ∧ rest ≠ [] ∧
      (∀ b ∈ rest, isDigit b = true) ∧ leadingNumber 0 rest = n ∧ n ≤ 128 := by
  unfold Denotes
  constructor
  · rintro (⟨hplain, -⟩ | ⟨address', digits, heq, hpton, hrest⟩)
    · exact absurd (by simp) (laws.plain _ _ hplain)
    · obtain ⟨rfl, rfl⟩ := slash_unique h (laws.plain _ _ hpton) heq
      exact ⟨hpton, hrest⟩
  · rintro ⟨hpton, hrest⟩
    exact .inr ⟨address, rest, rfl, hpton, hrest⟩

private theorem net6_pton_plain {pres : List UInt8} (h : (47 : UInt8) ∉ pres) :
    net6Pton inet bigEndian pres v = some (netFill inet bigEndian pres 128 v) := by
  have hdrop : pres.dropWhile (· ≠ 47) = [] := List.dropWhile_eq_nil_iff.mpr (all_ne h)
  unfold net6Pton
  simp only [hdrop]
  rfl

private theorem toInt_le (n : Nat) : toInt n ≤ n := by
  unfold toInt
  rw [Int.bmod_def]
  split_ifs <;> omega

private theorem toInt_of_lt {n : Nat} (h : n < 2147483648) : toInt n = n :=
  Int.bmod_eq_of_le (by omega) (by omega)

private theorem net6_pton_slash {address : List UInt8} (h : (47 : UInt8) ∉ address)
    (rest : List UInt8) :
    net6Pton inet bigEndian (address ++ 47 :: rest) v =
      if toInt address.length < INET6_ADDRSTRLEN ∧ strtolEnd rest = [] ∧ 0 ≤ strtol rest ∧
          strtol rest ≤ 128 then
        if toInt address.length < 0 then
          none
        else
          some (netFill inet bigEndian (address.take (toInt address.length).toNat)
            (strtol rest).toNat v)
      else
        some (-1, v) := by
  obtain ⟨htake, hdrop⟩ := split_slash h rest
  have hprefix : (address ++ 47 :: rest).take (toInt address.length).toNat =
      address.take (toInt address.length).toNat := by
    have hle := toInt_le address.length
    exact List.take_append_of_le_length (by omega)
  unfold net6Pton
  simp only [hdrop, htake, hprefix]
  change (if _ then _ else if _ then _ else if strtol rest < 0 ∨ strtol rest > 128 then _ else _) = _
  by_cases hlen : toInt address.length ≥ INET6_ADDRSTRLEN
  · rw [if_pos hlen, if_neg (fun hc => absurd hc.1 (not_lt.mpr hlen))]
  by_cases hend : strtolEnd rest ≠ []
  · rw [if_neg hlen, if_pos hend, if_neg (fun hc => hend hc.2.1)]
  by_cases hrange : strtol rest < 0 ∨ strtol rest > 128
  · rw [if_neg hlen, if_neg hend, if_pos hrange, if_neg (fun hc => by omega)]
  · have hall : toInt address.length < INET6_ADDRSTRLEN ∧ strtolEnd rest = [] ∧
        0 ≤ strtol rest ∧ strtol rest ≤ 128 :=
      ⟨not_le.mp hlen, not_ne_iff.mp hend, by omega, by omega⟩
    rw [if_neg hlen, if_neg hend, if_neg hrange, if_pos hall]

/-! The socket address afterwards. -/

private theorem getElem?_two (size : v.length = Family.inet6.sockaddrSize) (c d : UInt8) (i : Nat) :
    (memcpyAt v 2 [c, d])[i]? = if 2 ≤ i ∧ i < 4 then [c, d][i - 2]? else v[i]? := by
  have hsize : v.length = 28 := size
  exact getElem?_memcpyAt (by simp [hsize]) i

private theorem set_port_spec (bigEndian : Bool) (size : v.length = Family.inet6.sockaddrSize)
    {n : Nat} (h : n < 65536) :
    sinPort bigEndian (setPort bigEndian v n) = n ∧
      sinAddr .inet6 (setPort bigEndian v n) = sinAddr .inet6 v := by
  have hhigh : (UInt8.ofNat (n / 256)).toNat = n / 256 := by
    rw [UInt8.toNat_ofNat']
    omega
  have hlow : (UInt8.ofNat (n % 256)).toNat = n % 256 := by
    rw [UInt8.toNat_ofNat']
    omega
  have hkeep : ∀ c d : UInt8, sinAddr .inet6 (memcpyAt v 2 [c, d]) = sinAddr .inet6 v := by
    intro c d
    refine sin_addr_congr (fun i hi _ => ?_)
    change 8 ≤ i at hi
    rw [getElem?_two size, if_neg (by omega)]
  unfold setPort sinPort hostU16
  cases bigEndian with
  | false =>
    refine ⟨?_, hkeep _ _⟩
    simp [List.getD_eq_getElem?_getD, getElem?_two size, hhigh, hlow, Nat.shiftLeft_eq]
    omega
  | true =>
    refine ⟨?_, hkeep _ _⟩
    simp [List.getD_eq_getElem?_getD, getElem?_two size, hhigh, hlow, Nat.shiftLeft_eq]
    omega

/-- The last steps store the address and the length that they are given. -/
private theorem net_fill_spec (bigEndian : Bool) (laws : InetLaws inet)
    (size : v.length = Family.inet6.sockaddrSize) {buf a : List UInt8} {n : Nat} (h : n < 65536)
    (hpton : inet.pton buf = some a) :
    ∃ v', netFill inet bigEndian buf n v = (0, v') ∧ sinAddr .inet6 v' = a ∧
      sinPort bigEndian v' = n := by
  have hsize : v.length = 28 := size
  have ha := laws.size buf a hpton
  have hroom : 8 + a.length ≤ v.length := by omega
  obtain ⟨hport, haddr⟩ := set_port_spec (v := memcpyAt v 8 a) bigEndian
    (by rw [length_memcpyAt hroom]; exact size) h
  refine ⟨_, by rw [netFill, hpton], ?_, hport⟩
  rw [haddr]
  apply List.ext_getElem?
  intro i
  rw [getElem?_sinAddr, getElem?_memcpyAt hroom]
  change (if i < 16 then (if 8 ≤ 8 + i ∧ 8 + i < 8 + a.length then _ else _) else none) = _
  split_ifs with hi hin
  · congr 1
    exact Nat.add_sub_cancel_left 8 i
  · omega
  · exact (List.getElem?_eq_none (by omega)).symm

/-! Passing the tests and standing for a network. -/

private theorem strtol_number {rest : List UInt8} (digits : ∀ b ∈ rest, isDigit b = true)
    (h : leadingNumber 0 rest ≤ 128 ∨ strtol rest ≤ 128) :
    strtol rest = leadingNumber 0 rest ∧ leadingNumber 0 rest ≤ 128 := by
  rw [strtol_digits digits] at h ⊢
  omega

private theorem passes_of_denotes (laws : InetLaws inet) {address rest a : List UInt8} {n : Nat}
    (h : (47 : UInt8) ∉ address) (denotes : Denotes inet (address ++ 47 :: rest) a n) :
    Passes inet address rest ∧ toInt address.length = address.length ∧
      ∃ b ∈ rest.head?, isDigit b = true := by
  obtain ⟨hpton, hne, hdigits, hnumber, hn⟩ := (denotes_slash laws h rest a n).mp denotes
  have hshort : address.length < 46 := laws.short address a hpton
  have hint := toInt_of_lt (n := address.length) (by omega)
  obtain ⟨hstrtol, -⟩ := strtol_number hdigits (.inl (hnumber.trans_le hn))
  obtain ⟨b, bs, rfl⟩ := List.exists_cons_of_ne_nil hne
  have hb := hdigits b List.mem_cons_self
  refine ⟨⟨?_, (strtolEnd_eq_nil_iff hb).mpr hdigits, by omega, by omega, .inr ?_⟩, hint,
    b, rfl, hb⟩
  · rw [hint]
    exact_mod_cast hshort
  · rw [hint, Int.toNat_natCast, List.take_length, hpton]
    simp

private theorem denotes_of_passes (laws : InetLaws inet) {address rest a : List UInt8}
    (h : (47 : UInt8) ∉ address) (passes : Passes inet address rest)
    (digit : ∃ b ∈ rest.head?, isDigit b = true) (hpton : inet.pton address = some a) :
    Denotes inet (address ++ 47 :: rest) a (strtol rest).toNat := by
  obtain ⟨b, hhead, hb⟩ := digit
  obtain ⟨bs, rfl⟩ := List.head?_eq_some_iff.mp hhead
  have hdigits := (strtolEnd_eq_nil_iff hb).mp passes.stop
  obtain ⟨hstrtol, hn⟩ := strtol_number hdigits (.inr passes.bound)
  rw [denotes_slash laws h, hstrtol, Int.toNat_natCast]
  exact ⟨hpton, List.cons_ne_nil b bs, hdigits, rfl, hn⟩

/-- A string that fails a test is refused. -/
private theorem net6_pton_refused {address rest : List UInt8} (h : (47 : UInt8) ∉ address)
    (fails : ¬ Passes inet address rest) :
    net6Pton inet bigEndian (address ++ 47 :: rest) v = some (-1, v) := by
  rw [net6_pton_slash h]
  split_ifs with htests hneg
  · exact absurd ⟨htests.1, htests.2.1, htests.2.2.1, htests.2.2.2, .inl hneg⟩ fails
  · have hpton : inet.pton (address.take (toInt address.length).toNat) = none := by
      by_contra hne
      exact fails ⟨htests.1, htests.2.1, htests.2.2.1, htests.2.2.2, .inr hne⟩
    rw [netFill, hpton]
  · rfl

private theorem Parsed.of_refused {pres : List UInt8} (h : ∀ a n, ¬ Denotes inet pres a n) :
    Parsed inet bigEndian pres v (-1) v where
  accepted := ⟨fun h0 => absurd h0 (by decide), fun ⟨a, n, hd⟩ => absurd hd (h a n)⟩
  network := fun h0 => absurd h0 (by decide)
  refused := fun _ => ⟨rfl, rfl⟩

private theorem Denotes.unique (laws : InetLaws inet) {pres a a' : List UInt8} {n n' : Nat}
    (h : Denotes inet pres a n) (h' : Denotes inet pres a' n') : a = a' ∧ n = n' := by
  rcases plain_or_slash pres with hplain | ⟨address, rest, rfl, hnot⟩
  · obtain ⟨ha, rfl⟩ := (denotes_plain hplain a n).mp h
    obtain ⟨ha', rfl⟩ := (denotes_plain hplain a' n').mp h'
    exact ⟨Option.some.inj (ha.symm.trans ha'), rfl⟩
  · obtain ⟨ha, -, -, rfl, -⟩ := (denotes_slash laws hnot rest a n).mp h
    obtain ⟨ha', -, -, rfl, -⟩ := (denotes_slash laws hnot rest a' n').mp h'
    exact ⟨Option.some.inj (ha.symm.trans ha'), rfl⟩

private theorem Parsed.of_accepted (laws : InetLaws inet) {pres a : List UInt8} {n : Nat}
    {v' : Sockaddr} (denotes : Denotes inet pres a n) (haddr : sinAddr .inet6 v' = a)
    (hport : sinPort bigEndian v' = n) : Parsed inet bigEndian pres v 0 v' where
  accepted := ⟨fun _ => ⟨a, n, denotes⟩, fun _ => rfl⟩
  network := by
    intro _ a' n' denotes'
    obtain ⟨rfl, rfl⟩ := denotes.unique laws denotes'
    exact ⟨haddr, hport⟩
  refused := fun h => absurd rfl h

/-- A string without a slash is read as the address it is, with all its bits. -/
private theorem net6_pton_plain_parsed (laws : InetLaws inet)
    (size : v.length = Family.inet6.sockaddrSize) {pres : List UInt8} (h : (47 : UInt8) ∉ pres) :
    ∃ r v', net6Pton inet bigEndian pres v = some (r, v') ∧ Parsed inet bigEndian pres v r v' := by
  rw [net6_pton_plain h]
  cases hpton : inet.pton pres with
  | none =>
    refine ⟨-1, v, by rw [netFill, hpton], Parsed.of_refused (fun a n hd => ?_)⟩
    rw [denotes_plain h, hpton] at hd
    cases hd.1
  | some a =>
    obtain ⟨v', hfill, haddr, hport⟩ := net_fill_spec bigEndian laws size
      (n := 128) (by decide) hpton
    exact ⟨0, v', by rw [hfill],
      Parsed.of_accepted laws ((denotes_plain h a 128).mpr ⟨hpton, rfl⟩) haddr hport⟩

/-- A string that passes the tests is read rightly only with a digit behind its slash and a length
before it that fits an `int`: only then does it stand for a network at all. -/
private theorem net6_pton_passes_parsed_iff (laws : InetLaws inet)
    (size : v.length = Family.inet6.sockaddrSize) {address rest : List UInt8}
    (h : (47 : UInt8) ∉ address) (passes : Passes inet address rest) :
    (∃ r v', net6Pton inet bigEndian (address ++ 47 :: rest) v = some (r, v') ∧
        Parsed inet bigEndian (address ++ 47 :: rest) v r v') ↔
      toInt address.length = address.length ∧ ∃ b ∈ rest.head?, isDigit b = true := by
  have htests : toInt address.length < INET6_ADDRSTRLEN ∧ strtolEnd rest = [] ∧
      0 ≤ strtol rest ∧ strtol rest ≤ 128 :=
    ⟨passes.length, passes.stop, passes.nonneg, passes.bound⟩
  have hnum : (strtol rest).toNat < 65536 := by
    have hbound := passes.bound
    omega
  rw [net6_pton_slash h, if_pos htests]
  constructor
  · rintro ⟨r, v', hres, parsed⟩
    -- a negative length never gets as far as a result
    have hnonneg : ¬ toInt address.length < 0 := by
      intro hneg
      rw [if_pos hneg] at hres
      cases hres
    have haccepted := passes.address.resolve_left hnonneg
    obtain ⟨a, ha⟩ := Option.ne_none_iff_exists'.mp haccepted
    obtain ⟨v'', hfill, -⟩ := net_fill_spec bigEndian laws size hnum ha
    rw [if_neg hnonneg, hfill] at hres
    obtain ⟨rfl, rfl⟩ := Prod.mk.inj (Option.some.inj hres)
    obtain ⟨a', n', denotes⟩ := parsed.accepted.mp rfl
    exact (passes_of_denotes laws h denotes).2
  · rintro ⟨hint, digit⟩
    have hnonneg : ¬ toInt address.length < 0 := by omega
    have haccepted := passes.address.resolve_left hnonneg
    rw [hint, Int.toNat_natCast, List.take_length] at haccepted
    obtain ⟨a, ha⟩ := Option.ne_none_iff_exists'.mp haccepted
    obtain ⟨v', hfill, haddr, hport⟩ := net_fill_spec bigEndian laws size hnum ha
    rw [if_neg hnonneg, hint, Int.toNat_natCast, List.take_length, hfill]
    exact ⟨0, v', rfl,
      Parsed.of_accepted laws (denotes_of_passes laws h passes digit ha) haddr hport⟩

private theorem strict_slash_iff {address rest : List UInt8} (h : (47 : UInt8) ∉ address) :
    Strict inet (address ++ 47 :: rest) ↔ (Passes inet address rest →
      toInt address.length = address.length ∧ ∃ b ∈ rest.head?, isDigit b = true) := by
  refine ⟨fun strict => strict address rest rfl h, ?_⟩
  intro himp address' rest' heq h'
  obtain ⟨rfl, rfl⟩ := slash_unique h h' heq
  exact himp

/-- A string is read as the IPv6 network it stands for exactly when it is strict about what stands
around its first slash. -/
theorem nebNetinetNetPton_parses_iff (inet : Inet) (laws : InetLaws inet) (bigEndian : Bool)
    (v : Sockaddr) (size : v.length = Family.inet6.sockaddrSize)
    (family : saFamily bigEndian v = some .inet6) (pres : List UInt8) :
    (∃ r v', nebNetinetNetPton inet bigEndian pres v = some (r, v') ∧
      Parsed inet bigEndian pres v r v') ↔ Strict inet pres := by
  have hrun : nebNetinetNetPton inet bigEndian pres v = net6Pton inet bigEndian pres v := by
    rw [nebNetinetNetPton, family]
  rw [hrun]
  rcases plain_or_slash pres with hplain | ⟨address, rest, rfl, hnot⟩
  · refine iff_of_true (net6_pton_plain_parsed laws size hplain) ?_
    rintro address rest rfl
    exact absurd (by simp) hplain
  rw [strict_slash_iff hnot]
  by_cases passes : Passes inet address rest
  · rw [net6_pton_passes_parsed_iff laws size hnot passes]
    exact ⟨fun h _ => h, fun h => h passes⟩
  · refine iff_of_true ⟨-1, v, net6_pton_refused hnot passes, Parsed.of_refused ?_⟩
      (fun h => absurd h passes)
    intro a n denotes
    exact passes (passes_of_denotes laws hnot denotes).1

/-- An `inet_pton` that knows `::` alone. -/
private def anyOnly : Inet where
  netPton := fun _ => none
  pton := fun s => if s = [58, 58] then some (List.replicate 16 0) else none

private theorem any_only_laws : InetLaws anyOnly where
  size := by
    intro s a h
    simp only [anyOnly] at h
    split_ifs at h
    obtain rfl := Option.some.inj h
    rfl
  plain := by
    intro s a h
    simp only [anyOnly] at h
    split_ifs at h with hs
    rw [hs]
    decide
  short := by
    intro s a h
    simp only [anyOnly] at h
    split_ifs at h with hs
    rw [hs]
    decide

private def unsetSockaddr : Sockaddr := 10 :: List.replicate 27 0

/-- `::/16`. -/
theorem nebNetinetNetPton_parses_iff_digits :
    Strict anyOnly [58, 58, 47, 49, 54] ∧ ∃ r v',
      nebNetinetNetPton anyOnly false [58, 58, 47, 49, 54] unsetSockaddr = some (r, v') ∧
      Parsed anyOnly false [58, 58, 47, 49, 54] unsetSockaddr r v' := by
  have hstrict : Strict anyOnly [58, 58, 47, 49, 54] := by
    intro address rest heq hnot _
    have hany : (47 : UInt8) ∉ ([58, 58] : List UInt8) := by decide
    have hsame : [58, 58] ++ 47 :: [49, 54] = address ++ 47 :: rest := heq
    obtain ⟨rfl, rfl⟩ := slash_unique hany hnot hsame
    exact ⟨by decide, 49, rfl, by decide⟩
  exact ⟨hstrict, (nebNetinetNetPton_parses_iff anyOnly any_only_laws false unsetSockaddr
    (by decide) (by decide) [58, 58, 47, 49, 54]).mpr hstrict⟩

/-- `::/` is accepted as `::/0`. -/
theorem nebNetinetNetPton_accepts_empty :
    nebNetinetNetPton anyOnly false [58, 58, 47] unsetSockaddr = some (0, unsetSockaddr) ∧
      ¬ ∃ r v', nebNetinetNetPton anyOnly false [58, 58, 47] unsetSockaddr = some (r, v') ∧
        Parsed anyOnly false [58, 58, 47] unsetSockaddr r v' := by
  have hrun : nebNetinetNetPton anyOnly false [58, 58, 47] unsetSockaddr =
      some (0, unsetSockaddr) := by decide
  refine ⟨hrun, ?_⟩
  rintro ⟨r, v', hres, parsed⟩
  rw [hrun] at hres
  obtain ⟨rfl, rfl⟩ := Prod.mk.inj (Option.some.inj hres)
  obtain ⟨a, n, denotes⟩ := parsed.accepted.mp rfl
  have hany : (47 : UInt8) ∉ ([58, 58] : List UInt8) := by decide
  have hdenotes := (denotes_slash any_only_laws hany [] a n).mp denotes
  exact hdenotes.2.1 rfl

end Nebase.Net.Ipaddr
