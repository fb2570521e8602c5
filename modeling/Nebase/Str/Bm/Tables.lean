/- The tables of Boyer-Moore search: suffix lengths, least good shifts and last places of bytes. -/

import Nebase.Str.Bm.Model
import Nebase.Foundation.GoodSuffix

set_option autoImplicit false
set_option relaxedAutoImplicit false

namespace Nebase.Str.Bm

open Nebase.Foundation.GoodSuffix

/-- The bytes of a buffer as a function of the index. -/
def bytes (x : List UInt8) (k : Int) : UInt8 := x.getD k.toNat 0

theorem byte_at_eq {x : List UInt8} {k : Int} (h0 : 0 ≤ k) (hk : k < x.length) :
    byteAt x k = some (bytes x k) := by
  have hlt : k.toNat < x.length := by omega
  simp [byteAt, bytes, h0, hlt]

/-! The buffers. -/

theorem IntBuf.write_spec {b : IntBuf} {i : Int} (h0 : 0 ≤ i) (hi : i < b.size) (v : Int) :
    ∃ b', b.write i v = some b' ∧ b'.size = b.size ∧
      ∀ k, b'.read k = if k = i then some v else b.read k := by
  refine ⟨_, if_pos ⟨h0, hi⟩, rfl, ?_⟩
  intro k
  unfold IntBuf.read
  by_cases hk : k = i
  · subst hk
    simp [h0, hi]
  · by_cases hr : 0 ≤ k ∧ k < b.size
    · have hne : k.toNat ≠ i.toNat := by omega
      simp [hk, hr, hne]
    · simp [hk, hr]

theorem fill_buf_spec {v : Int} (n : Nat) {i : Int} {b : IntBuf} (h0 : 0 ≤ i)
    (hn : i + n ≤ b.size) :
    ∃ b', fillBuf v n i b = some b' ∧ b'.size = b.size ∧
      ∀ k, b'.read k = if i ≤ k ∧ k < i + n then some v else b.read k := by
  induction n generalizing i b with
  | zero =>
    refine ⟨b, rfl, rfl, ?_⟩
    intro k
    rw [if_neg (by omega)]
  | succ n ih =>
    obtain ⟨b1, hwrite, hsize1, hread1⟩ := IntBuf.write_spec h0 (by omega : i < b.size) v
    obtain ⟨b2, hfill, hsize2, hread2⟩ := ih (b := b1) (by omega : 0 ≤ i + 1) (by omega)
    refine ⟨b2, by simp [fillBuf, hwrite, hfill], hsize2.trans hsize1, ?_⟩
    intro k
    rw [hread2, hread1]
    split_ifs <;> first | rfl | omega

theorem scan_back_spec {l r : Int → Option UInt8} {a b : Int → UInt8} (n : Nat)
    (hlhs : ∀ k : Int, 0 ≤ k → k < n → l k = some (a k))
    (hrhs : ∀ k : Int, 0 ≤ k → k < n → r k = some (b k)) :
    ∃ g, scanBack l r n = some g ∧ -1 ≤ g ∧ g < n ∧
      (∀ k : Int, g < k → k < n → a k = b k) ∧ (0 ≤ g → a g ≠ b g) := by
  induction n with
  | zero =>
    refine ⟨-1, rfl, le_rfl, by omega, ?_, by omega⟩
    intro k h1 h2
    omega
  | succ n ih =>
    have hl := hlhs n (by omega) (by omega)
    have hr := hrhs n (by omega) (by omega)
    by_cases heq : a n = b n
    · obtain ⟨g, hscan, hg, hgn, hagree, hstop⟩ :=
        ih (fun k h0 hk => hlhs k h0 (by omega)) (fun k h0 hk => hrhs k h0 (by omega))
      refine ⟨g, by simp [scanBack, hl, hr, heq, hscan], hg, by omega, ?_, hstop⟩
      intro k hgk hk
      rcases eq_or_ne k n with rfl | hne
      · exact heq
      · exact hagree k hgk (by omega)
    · refine ⟨n, by simp [scanBack, hl, hr, heq], by omega, by omega, ?_, fun _ => heq⟩
      intro k h1 h2
      omega

/-! `suffixes`. -/

section Tables

variable {x : List UInt8} {m : Int}

/-- The entries of `suff` from `n` on are the suffix lengths. -/
def SuffFrom (x : List UInt8) (m n : Int) (suff : IntBuf) : Prop :=
  suff.size = m.toNat ∧ ∀ i, n ≤ i → 0 ≤ i → i < m →
    ∃ L, suff.read i = some L ∧ SuffixLength (bytes x) m i L

private theorem SuffFrom.write {n : Nat} {suff : IntBuf} (h : SuffFrom x m (n + 1) suff)
    (hn : (n : Int) < m) {L : Int} (hL : SuffixLength (bytes x) m n L) :
    ∃ suff', suff.write n L = some suff' ∧ SuffFrom x m n suff' := by
  have hsize : (suff.size : Int) = m := by rw [h.1]; omega
  obtain ⟨suff', hwrite, hsize', hread⟩ :=
    IntBuf.write_spec (b := suff) (by omega : (0 : Int) ≤ n) (by omega) L
  refine ⟨suff', hwrite, hsize'.trans h.1, ?_⟩
  intro i hni h0 him
  rw [hread]
  split_ifs with heq
  · exact ⟨L, rfl, heq ▸ hL⟩
  · exact h.2 i (by omega) h0 him

/-- Where the window of `suffixes` stands before index `n - 1` is treated. -/
def WindowAt (x : List UInt8) (m n f g : Int) : Prop :=
  n ≤ g + 1 ∨ (-1 ≤ g ∧ n ≤ f ∧ f ≤ m - 2 ∧ Window (bytes x) m f g)

theorem suffixes_loop_spec (hx : m ≤ x.length) (n : Nat) {f g : Int} {suff : IntBuf}
    (hn : (n : Int) ≤ m - 1) (hsuff : SuffFrom x m n suff) (hwin : WindowAt x m n f g) :
    ∃ suff', suffixesLoop x m n f g suff = some suff' ∧ SuffFrom x m 0 suff' := by
  induction n generalizing f g suff with
  | zero => exact ⟨suff, rfl, hsuff⟩
  | succ n ih =>
    push_cast at hn hsuff hwin
    -- the scan from `g` down, once the window starts at `n`
    have scan : ∀ g' : Int, -1 ≤ g' → g' ≤ n → Window (bytes x) m n g' →
        ∃ g'' suff1 suff', scanBack (byteAt x) (fun g => byteAt x (g + m - 1 - n)) (g' + 1).toNat =
            some g'' ∧ suff.write n (n - g'') = some suff1 ∧
          suffixesLoop x m n n g'' suff1 = some suff' ∧ SuffFrom x m 0 suff' := by
      intro g' hg' hgn hw
      obtain ⟨g'', hscan, hg'', hlt, hagree, hstop⟩ :=
        scan_back_spec (a := bytes x) (b := fun k => bytes x (k + m - 1 - n)) (g' + 1).toNat
          (l := byteAt x) (r := fun g => byteAt x (g + m - 1 - n))
          (fun k h0 hk => byte_at_eq h0 (by omega))
          (fun k h0 hk => byte_at_eq (by omega) (by omega))
      have hw' : Window (bytes x) m n g'' := by
        intro k hk hkn
        by_cases hkg : k ≤ g'
        · rw [hagree k hk (by omega)]
          congr 1
          omega
        · exact hw k (by omega) hkn
      have hL := hw'.suffixLength hg'' (by omega) (by
        intro h0
        rw [show g'' + (m - 1 - n) = g'' + m - 1 - n by omega]
        exact hstop h0)
      obtain ⟨suff1, hwrite, hsuff1⟩ := hsuff.write (by omega) hL
      obtain ⟨suff', hloop, hdone⟩ := ih (by omega) hsuff1 (f := n) (g := g'')
        (.inr ⟨hg'', le_rfl, by omega, hw'⟩)
      exact ⟨g'', suff1, suff', hscan, hwrite, hloop, hdone⟩
    by_cases hgt : (n : Int) > g
    · obtain ⟨hg, hf, hfm, hw⟩ : -1 ≤ g ∧ (n : Int) + 1 ≤ f ∧ f ≤ m - 2 ∧
          Window (bytes x) m f g := by
        rcases hwin with h | h
        · omega
        · exact h
      obtain ⟨v, hread, hv⟩ := hsuff.2 (n + m - 1 - f) (by omega) (by omega) (by omega)
      by_cases hshort : v < n - g
      · have hL := hv.copy hw (by omega) (by omega) hg hshort
        obtain ⟨suff1, hwrite, hsuff1⟩ := hsuff.write (by omega) hL
        obtain ⟨suff', hloop, hdone⟩ := ih (by omega) hsuff1 (f := f) (g := g)
          (.inr ⟨hg, by omega, hfm, hw⟩)
        refine ⟨suff', ?_, hdone⟩
        simp [suffixesLoop, hgt, hread, hshort, hwrite, hloop]
      · have hw' : Window (bytes x) m n g := hw.restart (by omega) hv (by omega)
        obtain ⟨g'', suff1, suff', hscan, hwrite, hloop, hdone⟩ := scan g hg (by omega) hw'
        refine ⟨suff', ?_, hdone⟩
        have hnot : ¬ (n : Int) < g := by omega
        simp [suffixesLoop, hgt, hread, hshort, hnot, hscan, hwrite, hloop]
    · have hw' : Window (bytes x) m n n := by
        intro k h1 h2
        omega
      obtain ⟨g'', suff1, suff', hscan, hwrite, hloop, hdone⟩ := scan n (by omega) le_rfl hw'
      refine ⟨suff', ?_, hdone⟩
      have hg : (if (n : Int) < g then (n : Int) else g) = n := by
        split_ifs <;> omega
      simp only [suffixesLoop, if_neg hgt, hg, Option.bind_eq_bind, Option.bind_some,
        Bool.false_eq_true, if_false, hscan, hwrite, hloop]

theorem suffixes_spec (hm : 1 ≤ m) (hx : m ≤ x.length) :
    ∃ suff, suffixes x m (.uninit m.toNat) = some suff ∧ SuffFrom x m 0 suff := by
  have hsize : ((IntBuf.uninit m.toNat).size : Int) = m := by
    change (m.toNat : Int) = m
    omega
  obtain ⟨suff1, hwrite, hsize1, hread⟩ :=
    IntBuf.write_spec (b := .uninit m.toNat) (by omega : 0 ≤ m - 1) (by omega) m
  have hsuff1 : SuffFrom x m (m - 1).toNat suff1 := by
    refine ⟨hsize1, ?_⟩
    intro i hi _ him
    obtain rfl : i = m - 1 := by omega
    refine ⟨m, ?_, suffix_length_last (by omega)⟩
    rw [hread, if_pos rfl]
  obtain ⟨suff, hloop, hdone⟩ :=
    suffixes_loop_spec hx (m - 1).toNat (f := 0) (g := m - 1) (by omega) hsuff1
      (.inl (by omega))
  refine ⟨suff, ?_, hdone⟩
  simp only [suffixes, hwrite, Option.bind_eq_bind, Option.bind_some, hloop]

/-! `preBmGs`. -/

theorem border_fill_spec {s : Int} (n : Nat) {j : Int} {b : IntBuf} (h0 : 0 ≤ j)
    (hn : j + n ≤ b.size) (hm : ∀ q, j ≤ q → q < j + n → b.read q = some m) :
    ∃ b', borderFill m s n j b = some b' ∧ b'.size = b.size ∧
      ∀ q, b'.read q = if j ≤ q ∧ q < j + n then some s else b.read q := by
  induction n generalizing j b with
  | zero =>
    refine ⟨b, rfl, rfl, ?_⟩
    intro q
    rw [if_neg (by omega)]
  | succ n ih =>
    obtain ⟨b1, hwrite, hsize1, hread1⟩ := IntBuf.write_spec h0 (by omega : j < b.size) s
    have hm1 : ∀ q, j + 1 ≤ q → q < j + 1 + n → b1.read q = some m := by
      intro q h1 h2
      rw [hread1, if_neg (by omega)]
      exact hm q (by omega) (by omega)
    obtain ⟨b2, hfill, hsize2, hread2⟩ := ih (b := b1) (by omega : 0 ≤ j + 1) (by omega) hm1
    have hj := hm j le_rfl (by omega)
    refine ⟨b2, by simp [borderFill, hj, hwrite, hfill], hsize2.trans hsize1, ?_⟩
    intro q
    rw [hread2, hread1]
    split_ifs <;> first | rfl | omega

/-- The shifts from `q` on that make the whole pattern agree with itself. -/
def PeriodsBeyond (x : List UInt8) (m q : Int) : Set Int :=
  {s | q < s ∧ s ≤ m ∧ Period (bytes x) m s}

private theorem period_whole : Period (bytes x) m m := by
  intro k h1 h2
  omega

/-- `bmGs` before index `i = n - 1` of the border loop: below `j` the least period beyond each
index, from `j` on still `m`, and no period treated so far lies beyond `j`. -/
structure BorderAt (x : List UInt8) (m n j : Int) (b : IntBuf) : Prop where
  size : b.size = m.toNat
  nonneg : 0 ≤ j
  le : j ≤ m
  done : ∀ q, 0 ≤ q → q < j → ∃ v, b.read q = some v ∧ IsLeast (PeriodsBeyond x m q) v
  rest : ∀ q, j ≤ q → q < m → b.read q = some m
  none_beyond : ∀ s, j < s → s < m - n → ¬ Period (bytes x) m s

theorem border_loop_spec {suff : IntBuf} (hsuff : SuffFrom x m 0 suff) (n : Nat) {j : Int}
    {b : IntBuf} (hn : (n : Int) ≤ m) (hb : BorderAt x m n j b) :
    ∃ b', borderLoop m suff n j b = some b' ∧ b'.size = m.toNat ∧
      ∀ q, 0 ≤ q → q < m → ∃ v, b'.read q = some v ∧ IsLeast (PeriodsBeyond x m q) v := by
  induction n generalizing j b with
  | zero =>
    refine ⟨b, rfl, hb.size, ?_⟩
    intro q h0 hq
    by_cases hqj : q < j
    · exact hb.done q h0 hqj
    · refine ⟨m, hb.rest q (by omega) hq, ⟨hq, le_rfl, period_whole⟩, ?_⟩
      rintro s ⟨hqs, hsm, hs⟩
      by_contra hlt
      exact hb.none_beyond s (by omega) (by push_cast; omega) hs
  | succ n ih =>
    push_cast at hn hb
    obtain ⟨L, hread, hL⟩ := hsuff.2 n (by omega) (by omega) (by omega)
    by_cases hborder : L = n + 1
    · have hperiod : Period (bytes x) m (m - 1 - n) := hL.eq_iff_period.mp hborder
      have hsize : (b.size : Int) = m := by rw [hb.size]; omega
      have hle := hb.le
      obtain ⟨b1, hfill, hsize1, hread1⟩ :=
        border_fill_spec (m := m) (s := m - 1 - n) (m - 1 - n - j).toNat (j := j) (b := b)
          hb.nonneg (by omega) (fun q h1 h2 => hb.rest q h1 (by omega))
      have hb1 : BorderAt x m n (max j (m - 1 - n)) b1 := by
        refine ⟨hsize1.trans hb.size, by have := hb.nonneg; omega, by omega, ?_, ?_, ?_⟩
        · intro q h0 hq
          rw [hread1]
          split_ifs with hin
          · refine ⟨_, rfl, ⟨by omega, by omega, hperiod⟩, ?_⟩
            rintro s ⟨hqs, hsm, hs⟩
            by_contra hlt
            exact hb.none_beyond s (by omega) (by omega) hs
          · exact hb.done q h0 (by omega)
        · intro q h1 h2
          rw [hread1, if_neg (by omega)]
          exact hb.rest q (by omega) h2
        · intro s h1 h2
          omega
      obtain ⟨b', hloop, hdone⟩ := ih (by omega) hb1
      exact ⟨b', by simp [borderLoop, hread, hborder, hfill, hloop], hdone⟩
    · have hb1 : BorderAt x m n j b := by
        refine { hb with none_beyond := ?_ }
        intro s h1 h2 hs
        by_cases hlast : s = m - 1 - n
        · rw [hlast] at hs
          exact hborder (hL.eq_iff_period.mpr hs)
        · exact hb.none_beyond s h1 (by omega) hs
      obtain ⟨b', hloop, hdone⟩ := ih (by omega) hb1
      exact ⟨b', by simp [borderLoop, hread, hborder, hloop], hdone⟩

/-- The good shifts at `q` known before index `i` of the last loop. -/
def ShiftsFrom (x : List UInt8) (m i q : Int) : Set Int :=
  {s | GoodShift (bytes x) m q s ∧ s ≤ m ∧ (q < s ∨ m - i ≤ s)}

theorem shift_loop_spec {suff : IntBuf} (hsuff : SuffFrom x m 0 suff) (n : Nat) {i : Int}
    {b : IntBuf} (h0 : 0 ≤ i) (hn : i + n = m - 1) (hsize : b.size = m.toNat)
    (hb : ∀ q, 0 ≤ q → q < m → ∃ v, b.read q = some v ∧ IsLeast (ShiftsFrom x m i q) v) :
    ∃ b', shiftLoop m suff n i b = some b' ∧ b'.size = m.toNat ∧
      ∀ q, 0 ≤ q → q < m → ∃ v, b'.read q = some v ∧ IsLeast (ShiftsFrom x m (m - 1) q) v := by
  induction n generalizing i b with
  | zero =>
    obtain rfl : i = m - 1 := by simpa using hn
    exact ⟨b, rfl, hsize, hb⟩
  | succ n ih =>
    push_cast at hn
    obtain ⟨L, hread, hL⟩ := hsuff.2 i h0 h0 (by omega)
    have hLle := hL.le
    have hLnonneg := hL.nonneg
    obtain ⟨b1, hwrite, hsize1, hread1⟩ :=
      IntBuf.write_spec (b := b) (by omega : 0 ≤ m - 1 - L) (by omega) (m - 1 - i)
    have hb1 : ∀ q, 0 ≤ q → q < m →
        ∃ v, b1.read q = some v ∧ IsLeast (ShiftsFrom x m (i + 1) q) v := by
      intro q hq0 hqm
      rw [hread1]
      split_ifs with hq
      · -- the entry written: the new shift is good there, and nearer than all known ones
        subst hq
        refine ⟨m - 1 - i, rfl, ⟨hL.goodShift (by omega), by omega, .inr (by omega)⟩, ?_⟩
        rintro s ⟨-, -, hs⟩
        omega
      · obtain ⟨v, hv, ⟨hgood, hvm, hknown⟩, hleast⟩ := hb q hq0 hqm
        refine ⟨v, hv, ⟨hgood, hvm, by omega⟩, ?_⟩
        rintro s ⟨hs, hsm, hcase⟩
        by_cases hold : q < s ∨ m - i ≤ s
        · exact hleast ⟨hs, hsm, hold⟩
        · -- then `s` is the new shift, which is good only at the entry written
          obtain rfl : s = m - 1 - i := by omega
          have hLq := hs.suffixLength hqm (by omega)
            (by rwa [show m - 1 - (m - 1 - i) = i by omega])
          omega
    obtain ⟨b', hloop, hdone⟩ := ih (by omega) (by omega) (hsize1.trans hsize) hb1
    exact ⟨b', by simp [shiftLoop, hread, hwrite, hloop], hdone⟩

/-- Every entry of the good suffix table is the least good shift. -/
theorem preBmGs_spec (hm : 1 ≤ m) (hx : m ≤ x.length) :
    ∃ bmGs, preBmGs x m (.uninit m.toNat) = some bmGs ∧
      ∀ q, 0 ≤ q → q < m → ∃ v, bmGs.read q = some v ∧
        IsLeast {s | GoodShift (bytes x) m q s} v := by
  obtain ⟨suff, hsuff, hlengths⟩ := suffixes_spec hm hx
  obtain ⟨b1, hfill, hsize1, hread1⟩ :=
    fill_buf_spec (v := m) m.toNat (i := 0) (b := .uninit m.toNat) le_rfl (by simp [IntBuf.uninit])
  have hborder : BorderAt x m m.toNat 0 b1 := by
    refine ⟨hsize1, le_rfl, by omega, ?_, ?_, ?_⟩
    · intro q h0 hq
      omega
    · intro q h0 hq
      rw [hread1, if_pos (by omega)]
    · intro s h1 h2
      omega
  obtain ⟨b2, hloop, hsize2, hperiods⟩ := border_loop_spec hlengths m.toNat (by omega) hborder
  have hstart : ∀ q, 0 ≤ q → q < m →
      ∃ v, b2.read q = some v ∧ IsLeast (ShiftsFrom x m 0 q) v := by
    intro q h0 hq
    obtain ⟨v, hv, hleast⟩ := hperiods q h0 hq
    refine ⟨v, hv, ?_⟩
    have hset : ShiftsFrom x m 0 q = PeriodsBeyond x m q := by
      ext s
      constructor
      · rintro ⟨hs, hsm, hcase⟩
        have hqs : q < s := by omega
        exact ⟨hqs, hsm, (good_shift_beyond h0 hqs).mp hs⟩
      · rintro ⟨hqs, hsm, hs⟩
        exact ⟨(good_shift_beyond h0 hqs).mpr hs, hsm, .inl hqs⟩
    rwa [hset]
  obtain ⟨bmGs, hshift, -, hdone⟩ :=
    shift_loop_spec hlengths (m - 1).toNat le_rfl (by omega) hsize2 hstart
  refine ⟨bmGs, ?_, ?_⟩
  · simp only [preBmGs, hsuff, hfill, hloop, hshift, Option.bind_eq_bind, Option.bind_some]
  · intro q h0 hq
    obtain ⟨v, hv, ⟨hgood, hvm, -⟩, hleast⟩ := hdone q h0 hq
    refine ⟨v, hv, hgood, ?_⟩
    intro s hs
    have hpos := hs.pos
    by_cases hsm : s ≤ m
    · exact hleast ⟨hs, hsm, .inr (by omega)⟩
    · omega

/-! `preBmBc`. -/

/-- The distances from the end of the occurrences of `c` below `i`, and the whole length. -/
def DistancesBelow (x : List UInt8) (m i : Int) (c : UInt8) : Set Int :=
  {d | d = m ∨ ∃ k, 0 ≤ k ∧ k < i ∧ bytes x k = c ∧ d = m - 1 - k}

theorem pre_bm_bc_loop_spec (hx : m ≤ x.length) (n : Nat) {i : Int} {b : IntBuf} (h0 : 0 ≤ i)
    (hn : i + n = m - 1) (hsize : b.size = ASIZE)
    (hb : ∀ c : UInt8, ∃ v, b.read c.toNat = some v ∧ IsLeast (DistancesBelow x m i c) v) :
    ∃ b', preBmBcLoop x m n i b = some b' ∧
      ∀ c : UInt8, ∃ v, b'.read c.toNat = some v ∧
        IsLeast (DistancesBelow x m (m - 1) c) v := by
  induction n generalizing i b with
  | zero =>
    obtain rfl : i = m - 1 := by simpa using hn
    exact ⟨b, rfl, hb⟩
  | succ n ih =>
    push_cast at hn
    have hbyte := byte_at_eq h0 (by omega : i < x.length)
    have hlt : (bytes x i).toNat < 256 := UInt8.toNat_lt _
    obtain ⟨b1, hwrite, hsize1, hread1⟩ :=
      IntBuf.write_spec (b := b) (i := ((bytes x i).toNat : Int)) (by omega)
        (by rw [hsize]; simp only [ASIZE]; omega) (m - i - 1)
    have hb1 : ∀ c : UInt8, ∃ v, b1.read c.toNat = some v ∧
        IsLeast (DistancesBelow x m (i + 1) c) v := by
      intro c
      rw [hread1]
      split_ifs with hc
      · have hci : bytes x i = c := by
          rw [← UInt8.toNat_inj]
          omega
        refine ⟨m - i - 1, rfl, .inr ⟨i, h0, by omega, hci, by omega⟩, ?_⟩
        rintro d (rfl | ⟨k, -, hk, -, rfl⟩) <;> omega
      · obtain ⟨v, hv, hmem, hleast⟩ := hb c
        refine ⟨v, hv, ?_, ?_⟩
        · rcases hmem with h | ⟨k, hk0, hk, hkc, hd⟩
          · exact .inl h
          · exact .inr ⟨k, hk0, by omega, hkc, hd⟩
        · rintro d (h | ⟨k, hk0, hk, hkc, hd⟩)
          · exact hleast (.inl h)
          · have hki : k ≠ i := by
              rintro rfl
              exact hc (by rw [hkc])
            exact hleast (.inr ⟨k, hk0, by omega, hkc, hd⟩)
    obtain ⟨b', hloop, hdone⟩ := ih (by omega) (by omega) (hsize1.trans hsize) hb1
    exact ⟨b', by simp [preBmBcLoop, hbyte, hwrite, hloop], hdone⟩

/-- Every entry of the bad character table is the least distance of the byte from the end. -/
theorem preBmBc_spec (hm : 1 ≤ m) (hx : m ≤ x.length) :
    ∃ bmBc, preBmBc x m (.uninit ASIZE) = some bmBc ∧
      ∀ c : UInt8, ∃ v, bmBc.read c.toNat = some v ∧ IsLeast (Distances (bytes x) m c) v := by
  obtain ⟨b1, hfill, hsize1, hread1⟩ :=
    fill_buf_spec (v := m) ASIZE (i := 0) (b := .uninit ASIZE) le_rfl (by simp [IntBuf.uninit])
  have hstart : ∀ c : UInt8, ∃ v, b1.read c.toNat = some v ∧
      IsLeast (DistancesBelow x m 0 c) v := by
    intro c
    have hlt : c.toNat < 256 := UInt8.toNat_lt c
    refine ⟨m, by rw [hread1, if_pos (by simp only [ASIZE]; omega)], .inl rfl, ?_⟩
    rintro d (rfl | ⟨k, hk0, hk, -⟩)
    · exact le_rfl
    · omega
  obtain ⟨bmBc, hloop, hdone⟩ :=
    pre_bm_bc_loop_spec hx (m - 1).toNat le_rfl (by omega) hsize1 hstart
  refine ⟨bmBc, ?_, hdone⟩
  simp only [preBmBc, hfill, hloop, Option.bind_eq_bind, Option.bind_some]

end Tables

end Nebase.Str.Bm
