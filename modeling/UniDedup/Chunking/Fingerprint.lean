import UniDedup.Chunking.Rabin
import UniDedup.Lib.BitPolynomial
import Mathlib.Tactic.LinearCombination

/-!
# The rolling fingerprint

The words of Rabin chunking are polynomials over the field of two elements. `polymult` and `polymod` compute products and
remainders, so the tables hold what they should: `T` the part of a shifted fingerprint that is taken off, `U` the byte that
leaves the window. Sliding a byte in then keeps the fingerprint the remainder of the polynomial of the last 48 bytes.

The fingerprint at a place is therefore a function of these bytes, and so is the answer to the question whether there is a
break. What the circular buffer holds at the start, zeros, counts as bytes before the first.
-/

namespace UniDedup.Chunking

open BitPolynomial Polynomial

/-! ## Remainders of words -/

theorem hasBit_eq (v : BitVec 64) {i : ℕ} (hi : i < 64) : hasBit v i = v.toNat.testBit i := by
  rw [hasBit, ← BitVec.twoPow_eq, BitVec.and_twoPow, BitVec.testBit_toNat]
  by_cases hbit : v.getLsbD i
  · rw [if_pos hbit, hbit]
    refine decide_eq_true fun h ↦ ?_
    have hzero := congrArg (BitVec.getLsbD · i) h
    simp [hi] at hzero
  · rw [if_neg hbit, Bool.eq_false_iff.mpr hbit]
    exact decide_eq_false (not_not.mpr rfl)

/-- The polynomial of two words, the high one first. -/
noncomputable def pairPoly (n : BitVec 64 × BitVec 64) : (ZMod 2)[X] := X ^ 64 * ofWord n.1 + ofWord n.2

theorem ofWord_zero : ofWord (0 : BitVec 64) = 0 := ofBits_zero

theorem pairPoly_zero (v : BitVec 64) : pairPoly (0, v) = ofWord v := by
  rw [pairPoly, ofWord_zero, mul_zero, zero_add]

theorem pairPoly_xor (a b c d : BitVec 64) : pairPoly (a ^^^ c, b ^^^ d) = pairPoly (a, b) + pairPoly (c, d) := by
  rw [pairPoly, pairPoly, pairPoly, ofWord_xor, ofWord_xor]
  ring

theorem pairPoly_shift (v : BitVec 64) {k : ℕ} (hk : k ≤ 64) : pairPoly (v >>> (64 - k), v <<< k) = X ^ k * ofWord v :=
  ofWord_shift v hk

section Polymod

variable {P : ℕ} {d D : BitVec 64} {k : ℕ}

/-- The first loop of `polymod` clears the high word and keeps the residue. -/
theorem foldl_polymodHigh (hD : Leading D.toNat 63) (hres : residue P (ofWord D) = 0) {m : ℕ} (hm : m ≤ 63)
    {n : BitVec 64 × BitVec 64} (hn : n.1.toNat < 2 ^ m) :
    residue P (ofWord ((List.range m).reverse.foldl (polymodHigh D) n).2) = residue P (pairPoly n) := by
  induction m generalizing n with
  | zero =>
    have hzero : ofWord n.1 = 0 := by rw [ofWord, Nat.lt_one_iff.mp hn, ofBits_zero]
    rw [pairPoly, hzero, mul_zero, zero_add]
    rfl
  | succ m ih =>
    rw [List.range_succ, List.reverse_append, List.reverse_singleton, List.singleton_append, List.foldl_cons]
    by_cases hbit : n.1.toNat.testBit m
    · have hlead : Leading (D >>> (63 - m)).toNat m := by
        rw [BitVec.toNat_ushiftRight]
        refine Leading.shiftRight ?_
        rwa [show m + (63 - m) = 63 by omega]
      have hshift : pairPoly (D >>> (63 - m), D <<< (m + 1)) = X ^ (m + 1) * ofWord D := by
        rw [show 63 - m = 64 - (m + 1) by omega]
        exact pairPoly_shift D (by omega)
      have hlt : (n.1 ^^^ (D >>> (63 - m))).toNat < 2 ^ m := by
        rw [BitVec.toNat_xor]
        exact Leading.xor_lt ⟨hbit, hn⟩ hlead
      rw [polymodHigh, hasBit_eq _ (by omega), if_pos hbit, ih (by omega) hlt, pairPoly_xor, hshift, map_add, map_mul,
        hres, mul_zero, add_zero]
    · rw [polymodHigh, hasBit_eq _ (by omega), if_neg hbit]
      exact ih (by omega) (lt_of_testBit_false hn (Bool.eq_false_iff.mpr hbit))

theorem shiftLeft_ushiftRight (hd : Leading d.toNat k) {m : ℕ} (hm : k + m ≤ 63) :
    (d <<< (63 - k)) >>> (63 - (k + m)) = d <<< m := by
  refine BitVec.eq_of_getLsbD_eq fun j hj ↦ ?_
  rw [BitVec.getLsbD_ushiftRight, BitVec.getLsbD_shiftLeft, BitVec.getLsbD_shiftLeft]
  by_cases hmj : m ≤ j
  · rw [show 63 - (k + m) + j - (63 - k) = j - m by omega]
    by_cases hjk : j - m ≤ k
    · simp [hj, show 63 - (k + m) + j < 64 by omega, show ¬63 - (k + m) + j < 63 - k by omega, hmj]
    · have hfalse : d.getLsbD (j - m) = false := by
        rw [← BitVec.testBit_toNat]
        exact testBit_of_lt hd.2 (by omega)
      rw [hfalse, Bool.and_false, Bool.and_false]
  · simp [show j < m by omega, show 63 - (k + m) + j < 63 - k by omega]

/-- The second loop of `polymod` keeps the residue, down to the degree. -/
theorem foldl_polymodLow (hd : Leading d.toNat k) {m : ℕ} (hm : k + m ≤ 64) {nl : BitVec 64} (hnl : nl.toNat < 2 ^ (k + m)) :
    ((List.range' k m).reverse.foldl (polymodLow (d <<< (63 - k))) nl).toNat < 2 ^ k ∧
      residue d.toNat (ofWord ((List.range' k m).reverse.foldl (polymodLow (d <<< (63 - k))) nl)) =
        residue d.toNat (ofWord nl) := by
  induction m generalizing nl with
  | zero => exact ⟨hnl, rfl⟩
  | succ m ih =>
    rw [List.range'_concat, Nat.one_mul, List.reverse_append, List.reverse_singleton, List.singleton_append,
      List.foldl_cons]
    by_cases hbit : nl.toNat.testBit (k + m)
    · have hshift : ofWord (d <<< m) = X ^ m * ofWord d := ofWord_shiftLeft hd.2 (by omega)
      have hlead : Leading (d <<< m).toNat (k + m) := by
        have hlt : d.toNat <<< m < 2 ^ 64 := (hd.shiftLeft m).2.trans_le (Nat.pow_le_pow_right (by decide) (by omega))
        rw [BitVec.toNat_shiftLeft, Nat.mod_eq_of_lt hlt]
        exact hd.shiftLeft m
      have hlt : (nl ^^^ (d <<< m)).toNat < 2 ^ (k + m) := by
        rw [BitVec.toNat_xor]
        exact Leading.xor_lt ⟨hbit, hnl⟩ hlead
      obtain ⟨hresult, hresidue⟩ := ih (by omega) hlt
      rw [polymodLow, hasBit_eq _ (by omega), if_pos hbit, shiftLeft_ushiftRight hd (by omega)]
      refine ⟨hresult, hresidue.trans ?_⟩
      rw [ofWord_xor, hshift, map_add, residue_mul_self, add_zero]
    · rw [polymodLow, hasBit_eq _ (by omega), if_neg hbit]
      exact ih (by omega) (lt_of_testBit_false hnl (Bool.eq_false_iff.mpr hbit))

theorem polymodHigh_spec (hD : Leading D.toNat 63) (hres : residue P (ofWord D) = 0) (nh nl : BitVec 64) :
    residue P (ofWord (if nh ≠ 0 then ((List.range 63).reverse.foldl (polymodHigh D)
      (if hasBit nh 63 then nh ^^^ D else nh, nl)).2 else nl)) = residue P (pairPoly (nh, nl)) := by
  by_cases hnh : nh ≠ 0
  · have hxor : residue P (pairPoly (nh ^^^ D, nl)) = residue P (pairPoly (nh, nl)) := by
      rw [pairPoly, pairPoly, ofWord_xor, mul_add, map_add, map_add, map_add, map_mul _ _ (ofWord D), hres, mul_zero,
        add_zero]
    rw [if_pos hnh, hasBit_eq _ (by omega)]
    by_cases hbit : nh.toNat.testBit 63
    · have hlt : (nh ^^^ D).toNat < 2 ^ 63 := by
        rw [BitVec.toNat_xor]
        exact Leading.xor_lt ⟨hbit, nh.isLt⟩ hD
      rw [if_pos hbit, ← hxor]
      exact foldl_polymodHigh hD hres le_rfl hlt
    · have hlt : nh.toNat < 2 ^ 63 := lt_of_testBit_false nh.isLt (Bool.eq_false_iff.mpr hbit)
      rw [if_neg hbit]
      exact foldl_polymodHigh hD hres le_rfl hlt
  · rw [if_neg hnh, not_not.mp hnh, pairPoly_zero]

/-- **`polymod` computes remainders.** -/
theorem polymod_spec (hk : fls64 d = k + 1) (hd : Leading d.toNat k) (nh nl : BitVec 64) :
    (polymod nh nl d).toNat < 2 ^ k ∧ residue d.toNat (ofWord (polymod nh nl d)) = residue d.toNat (pairPoly (nh, nl)) := by
  have hk63 : k ≤ 63 := by
    by_contra h
    have hbit := hd.1
    rw [testBit_of_lt d.isLt (by omega)] at hbit
    exact Bool.false_ne_true hbit
  have hD : Leading (d <<< (63 - k)).toNat 63 := by
    have hlead := hd.shiftLeft (63 - k)
    rw [show k + (63 - k) = 63 by omega] at hlead
    rw [BitVec.toNat_shiftLeft, Nat.mod_eq_of_lt hlead.2]
    exact hlead
  have hres : residue d.toNat (ofWord (d <<< (63 - k))) = 0 := by
    have hshift : ofWord (d <<< (63 - k)) = X ^ (63 - k) * ofWord d := ofWord_shiftLeft hd.2 (by omega)
    rw [hshift, residue_mul_self]
  have hlow := fun nl : BitVec 64 ↦ @foldl_polymodLow d k hd (64 - k) (by omega) nl (by
    rw [show k + (64 - k) = 64 by omega]
    exact nl.isLt)
  rw [polymod, hk, Nat.add_sub_cancel]
  exact ⟨(hlow _).1, (hlow _).2.trans (polymodHigh_spec hD hres nh nl)⟩

theorem polymult_spec (x y : BitVec 64) : pairPoly (polymult x y) = ofWord x * ofWord y := by
  have hloop : ∀ n ≤ 63, pairPoly ((List.range' 1 n).foldl (polymultStep x y) (0, if hasBit x 0 then y else 0)) =
      ofBits (x.toNat % 2 ^ (n + 1)) * ofWord y := by
    intro n
    induction n with
    | zero =>
      intro _
      rw [ofBits_mod_succ, Nat.pow_zero, Nat.mod_one, ofBits_zero, zero_add, pow_zero, hasBit_eq _ (by decide)]
      refine (pairPoly_zero _).trans ?_
      split_ifs
      · rw [one_mul]
      · rw [zero_mul, ofWord_zero]
    | succ n ih =>
      intro hn
      rw [List.range'_concat, Nat.one_mul, List.foldl_append, List.foldl_cons, List.foldl_nil, polymultStep,
        ofBits_mod_succ, add_mul, ← ih (by omega), @hasBit_eq x (1 + n) (by omega), Nat.add_comm 1 n]
      by_cases hbit : x.toNat.testBit (n + 1)
      · rw [if_pos hbit, if_pos hbit, pairPoly_xor, pairPoly_shift y (by omega)]
      · rw [if_neg hbit, if_neg hbit, zero_mul, add_zero]
  have h := hloop 63 le_rfl
  rwa [Nat.mod_eq_of_lt x.isLt] at h

theorem polymmult_spec (hk : fls64 d = k + 1) (hd : Leading d.toNat k) (x y : BitVec 64) :
    (polymmult x y d).toNat < 2 ^ k ∧
      residue d.toNat (ofWord (polymmult x y d)) = residue d.toNat (ofWord x * ofWord y) := by
  obtain ⟨hlt, hres⟩ := polymod_spec hk hd (polymult x y).1 (polymult x y).2
  exact ⟨hlt, hres.trans (congrArg _ (polymult_spec x y))⟩

end Polymod

/-! ## The tables -/

/-- The residues modulo `FINGERPRINT_PT`. -/
noncomputable abbrev fpResidue : (ZMod 2)[X] →+* AdjoinRoot (ofWord fingerprintPt) := residue fingerprintPt.toNat

theorem leading_fingerprintPt : Leading fingerprintPt.toNat 63 := by decide

theorem fls64_fingerprintPt : fls64 fingerprintPt = 63 + 1 := by decide +kernel

theorem xshift_eq : xshift = 63 := by rw [xshift, fls64_fingerprintPt]

theorem shift_eq : shift = 55 := by rw [shift, xshift_eq]

private theorem tableT_spec (x : BitVec 64) :
    ∃ r : BitVec 64, r.toNat < 2 ^ 63 ∧ fpResidue (ofWord r) = fpResidue (ofWord x * X ^ 63) ∧
      tableT x.toNat = r ^^^ (x <<< 63) := by
  have hT1 : fpResidue (ofWord (polymod 0 (1#64 <<< 63) fingerprintPt)) = fpResidue (X ^ 63) := by
    have hpow : ofWord (1#64 <<< 63) = X ^ 63 := ofBits_two_pow 63
    rw [(polymod_spec fls64_fingerprintPt leading_fingerprintPt 0 (1#64 <<< 63)).2, pairPoly_zero, hpow]
  obtain ⟨hlt, hres⟩ := polymmult_spec fls64_fingerprintPt leading_fingerprintPt x
    (polymod 0 (1#64 <<< 63) fingerprintPt)
  refine ⟨_, hlt, ?_, ?_⟩
  · rw [hres, map_mul, hT1, map_mul]
  · rw [tableT, xshift_eq, BitVec.ofNat_toNat, BitVec.setWidth_eq]
    -- the index only sets the highest bit
    refine BitVec.eq_of_getLsbD_eq fun j hj ↦ ?_
    rw [BitVec.getLsbD_or, BitVec.getLsbD_xor, BitVec.getLsbD_shiftLeft]
    by_cases hj63 : j < 63
    · rw [decide_eq_true hj63, Bool.not_true, Bool.and_false, Bool.false_and, Bool.or_false, Bool.xor_false]
    · have hfalse := testBit_of_lt hlt (not_lt.mp hj63)
      rw [BitVec.testBit_toNat] at hfalse
      rw [hfalse, Bool.false_or, Bool.false_xor]

/-- **`append8`** multiplies by `X ^ 8` and adds the byte, modulo the polynomial. -/
theorem append8_spec (p : BitVec 64) (m : BitVec 8) :
    (append8 p m).toNat < 2 ^ 63 ∧ fpResidue (ofWord (append8 p m)) = fpResidue (X ^ 8 * ofWord p + ofWord m) := by
  obtain ⟨r, hr, hres, hT⟩ := tableT_spec (p >>> 55)
  have hm : (p <<< 8) ||| m.setWidth 64 = (p <<< 8) ^^^ m.setWidth 64 := by
    refine BitVec.eq_of_getLsbD_eq fun j hj ↦ ?_
    rw [BitVec.getLsbD_or, BitVec.getLsbD_xor, BitVec.getLsbD_shiftLeft, BitVec.getLsbD_setWidth]
    by_cases hj8 : j < 8
    · rw [decide_eq_true hj8, Bool.not_true, Bool.and_false, Bool.false_and, Bool.false_or, Bool.false_xor]
    · rw [BitVec.getLsbD_of_ge m j (not_lt.mp hj8), Bool.and_false, Bool.or_false, Bool.xor_false]
  rw [append8, shift_eq, hT, hm]
  constructor
  · -- the highest bit of the index is the one that the shift moves up to bit 63
    refine lt_of_testBit_false (BitVec.isLt _) ?_
    have hrbit := testBit_of_lt hr le_rfl
    rw [BitVec.testBit_toNat] at hrbit ⊢
    rw [BitVec.getLsbD_xor, BitVec.getLsbD_xor, BitVec.getLsbD_xor, hrbit, BitVec.getLsbD_shiftLeft,
      BitVec.getLsbD_shiftLeft, BitVec.getLsbD_ushiftRight, BitVec.getLsbD_setWidth, BitVec.getLsbD_of_ge m 63 (by decide)]
    simp
  · have hword : ofWord (m.setWidth 64) = ofWord m := by
      rw [ofWord, BitVec.toNat_setWidth, Nat.mod_eq_of_lt (m.isLt.trans (by decide))]
    have hlow := ofWord_shift p (k := 8) (by decide)
    have htop := ofWord_shift (p >>> 55) (k := 63) (by decide)
    rw [← BitVec.shiftRight_add] at htop
    have htwice := CharTwo.add_self_eq_zero (X ^ 64 * ofWord (p >>> 56))
    have hsum : ofWord (p <<< 8) + ofWord (p >>> 55 <<< 63) = X ^ 8 * ofWord p + ofWord (p >>> 55) * X ^ 63 := by
      linear_combination hlow + htop - htwice
    have hres_twice : fpResidue (ofWord (p >>> 55) * X ^ 63) + fpResidue (ofWord (p >>> 55) * X ^ 63) = 0 := by
      rw [← map_add, CharTwo.add_self_eq_zero, map_zero]
    have hsum := congrArg fpResidue hsum
    rw [map_add, map_add] at hsum
    rw [ofWord_xor, ofWord_xor, ofWord_xor, hword, map_add, map_add, map_add, hres, map_add]
    linear_combination hsum + hres_twice

theorem sizeshift_spec : sizeshift.toNat < 2 ^ 63 ∧ fpResidue (ofWord sizeshift) = fpResidue (X ^ (8 * 47)) := by
  have hloop : ∀ n, ((List.range n).foldl (fun p _ ↦ append8 p 0) 1).toNat < 2 ^ 63 ∧
      fpResidue (ofWord ((List.range n).foldl (fun p _ ↦ append8 p 0) 1)) = fpResidue (X ^ (8 * n)) := by
    intro n
    induction n with
    | zero => exact ⟨by decide, congrArg fpResidue (ofBits_one.trans (pow_zero X).symm)⟩
    | succ n ih =>
      rw [List.range_succ, List.foldl_append, List.foldl_cons, List.foldl_nil]
      obtain ⟨hlt, hres⟩ := append8_spec ((List.range n).foldl (fun p _ ↦ append8 p 0) 1) 0
      refine ⟨hlt, hres.trans ?_⟩
      have hzero : ofWord (0 : BitVec 8) = 0 := ofBits_zero
      rw [hzero, add_zero, map_mul, ih.2, ← map_mul, ← pow_add, Nat.mul_succ, Nat.add_comm]
  exact hloop 47

theorem tableU_spec (b : BitVec 8) :
    (tableU b.toNat).toNat < 2 ^ 63 ∧
      fpResidue (ofWord (tableU b.toNat)) = fpResidue (X ^ (8 * 47) * ofWord b) := by
  obtain ⟨hlt, hres⟩ := polymmult_spec fls64_fingerprintPt leading_fingerprintPt (.ofNat 64 b.toNat) sizeshift
  refine ⟨hlt, hres.trans ?_⟩
  have hword : ofWord (BitVec.ofNat 64 b.toNat) = ofWord b := by
    rw [ofWord, BitVec.toNat_ofNat, Nat.mod_eq_of_lt (b.isLt.trans (by decide))]
  rw [hword, map_mul, map_mul, sizeshift_spec.2, mul_comm]

/-! ## The last bytes -/

/-- The polynomial of a sequence of bytes, the last byte lowest. -/
noncomputable def bytesPoly (bs : List (BitVec 8)) : (ZMod 2)[X] := bs.foldl (fun f b ↦ X ^ 8 * f + ofWord b) 0

theorem bytesPoly_concat (bs : List (BitVec 8)) (b : BitVec 8) :
    bytesPoly (bs ++ [b]) = X ^ 8 * bytesPoly bs + ofWord b := by
  rw [bytesPoly, List.foldl_append]
  rfl

theorem bytesPoly_cons (b : BitVec 8) (bs : List (BitVec 8)) :
    bytesPoly (b :: bs) = X ^ (8 * bs.length) * ofWord b + bytesPoly bs := by
  induction bs using List.reverseRecOn with
  | nil =>
    rw [bytesPoly, bytesPoly, List.foldl_cons, List.foldl_nil, List.foldl_nil, List.length_nil]
    ring
  | append_singleton bs c ih =>
    rw [← List.cons_append, bytesPoly_concat, ih, bytesPoly_concat, List.length_append, List.length_singleton]
    ring

theorem bytesPoly_zeros (n : ℕ) : bytesPoly (List.replicate n 0) = 0 := by
  induction n with
  | zero => rfl
  | succ n ih =>
    have hzero : ofWord (0 : BitVec 8) = 0 := ofBits_zero
    rw [List.replicate_succ, bytesPoly_cons, ih, hzero, mul_zero, add_zero]

/-- A sequence with the zeros before it that the window holds at the start. -/
def padded (bs : List (BitVec 8)) : List (BitVec 8) := List.replicate windowSize 0 ++ bs

/-- The last bytes of a sequence, as many as the window has. -/
def lastBytes (bs : List (BitVec 8)) : List (BitVec 8) := (padded bs).drop bs.length

theorem length_padded (bs : List (BitVec 8)) : (padded bs).length = windowSize + bs.length := by
  rw [padded, List.length_append, List.length_replicate]

theorem lastBytes_eq_cons (bs : List (BitVec 8)) :
    lastBytes bs = (padded bs).getD bs.length 0 :: (padded bs).drop (bs.length + 1) := by
  have hlt : bs.length < (padded bs).length := by
    rw [length_padded]
    exact Nat.lt_add_of_pos_left (by decide)
  rw [lastBytes, List.drop_eq_getElem_cons hlt, List.getD_eq_getElem _ _ hlt]

theorem lastBytes_concat (bs : List (BitVec 8)) (b : BitVec 8) :
    lastBytes (bs ++ [b]) = (padded bs).drop (bs.length + 1) ++ [b] := by
  rw [lastBytes, padded, ← List.append_assoc, List.length_append, List.length_singleton, List.drop_append_of_le_length]
  · rfl
  · rw [List.length_append, List.length_replicate]
    have hsize : windowSize = 48 := rfl
    omega

/-! ## Sliding -/

/-- The place in `buf` of the byte that `SLIDE` replaces. -/
def Window.next (w : Window) : ℤ := if w.bufPos + 1 ≥ windowSize then 0 else w.bufPos + 1

/-- `x` in `SLIDE`, the index into `T`. -/
def Window.index (w : Window) : BitVec 64 := (w.fp ^^^ tableU (w.buf.getD w.next.toNat 0).toNat) >>> shift

theorem slide_eq (w : Window) (m : BitVec 8) :
    w.slide m = ⟨append8 (w.fp ^^^ tableU (w.buf.getD w.next.toNat 0).toNat) m, w.next, w.buf.set w.next.toNat m⟩ := rfl

/-- The window after a sequence of bytes. -/
structure Window.After (w : Window) (bs : List (BitVec 8)) : Prop where
  fp_lt : w.fp.toNat < 2 ^ 63
  residue_fp : fpResidue (ofWord w.fp) = fpResidue (bytesPoly (lastBytes bs))
  next_eq : w.next = (bs.length % windowSize : ℕ)
  length_buf : w.buf.length = 128
  buf_getD : ∀ i, bs.length ≤ i → i < bs.length + windowSize → w.buf.getD (i % windowSize) 0 = (padded bs).getD i 0

section Slide

variable {w : Window} {bs : List (BitVec 8)}

theorem after_init : Window.init.After [] where
  fp_lt := by decide
  residue_fp := by
    have hlast : bytesPoly (lastBytes []) = 0 := bytesPoly_zeros windowSize
    exact congrArg fpResidue (ofWord_zero.trans hlast.symm)
  next_eq := by decide
  length_buf := List.length_replicate
  buf_getD i _ _ := by
    have hzeros : ∀ n j, (List.replicate n (0 : BitVec 8)).getD j 0 = 0 := by
      intro n j
      rw [List.getD_eq_getElem?_getD, List.getElem?_replicate]
      split_ifs <;> rfl
    rw [padded, List.append_nil, hzeros]
    exact hzeros 128 _

theorem Window.After.without (h : w.After bs) :
    (w.fp ^^^ tableU (w.buf.getD w.next.toNat 0).toNat).toNat < 2 ^ 63 ∧
      fpResidue (ofWord (w.fp ^^^ tableU (w.buf.getD w.next.toNat 0).toNat)) =
        fpResidue (bytesPoly ((padded bs).drop (bs.length + 1))) := by
  have hout : w.buf.getD w.next.toNat 0 = (padded bs).getD bs.length 0 := by
    rw [h.next_eq, Int.toNat_natCast]
    exact h.buf_getD bs.length le_rfl (Nat.lt_add_of_pos_right (by decide))
  rw [hout]
  obtain ⟨hlt, hres⟩ := tableU_spec ((padded bs).getD bs.length 0)
  constructor
  · rw [BitVec.toNat_xor]
    exact Nat.xor_lt_two_pow h.fp_lt hlt
  · have hlength : ((padded bs).drop (bs.length + 1)).length = 47 := by
      rw [List.length_drop, length_padded, windowSize]
      omega
    have htwice := CharTwo.add_self_eq_zero (X ^ (8 * 47) * ofWord ((padded bs).getD bs.length 0))
    rw [ofWord_xor, map_add, h.residue_fp, hres, ← map_add, lastBytes_eq_cons, bytesPoly_cons, hlength]
    refine congrArg fpResidue ?_
    linear_combination htwice

theorem Window.After.index_lt (h : w.After bs) : w.index.toNat < 256 := by
  rw [Window.index, shift_eq, BitVec.toNat_ushiftRight, Nat.shiftRight_eq_div_pow]
  exact Nat.div_lt_of_lt_mul h.without.1

/-- **`SLIDE`.** -/
theorem Window.After.slide (h : w.After bs) (m : BitVec 8) : (w.slide m).After (bs ++ [m]) := by
  obtain ⟨hlt, hres⟩ := append8_spec (w.fp ^^^ tableU (w.buf.getD w.next.toNat 0).toNat) m
  rw [slide_eq]
  refine ⟨hlt, ?_, ?_, ?_, ?_⟩
  · rw [hres, map_add, map_mul, h.without.2, ← map_mul, ← map_add, lastBytes_concat, bytesPoly_concat]
  · rw [Window.next, h.next_eq, List.length_append, List.length_singleton, windowSize]
    dsimp only
    split_ifs <;> omega
  · rw [List.length_set, h.length_buf]
  · intro i hi hlt
    rw [List.length_append, List.length_singleton] at hi hlt
    have hpadded : padded (bs ++ [m]) = padded bs ++ [m] := (List.append_assoc ..).symm
    rw [h.next_eq, Int.toNat_natCast, hpadded, List.getD_eq_getElem?_getD, List.getElem?_set]
    by_cases hlast : i = bs.length + windowSize
    · have hmod : bs.length % windowSize = i % windowSize := by rw [hlast, Nat.add_mod_right]
      have hbuf : bs.length % windowSize < w.buf.length := by
        rw [h.length_buf]
        exact (Nat.mod_lt _ (by decide)).trans (by decide)
      rw [if_pos hmod, if_pos hbuf, List.getD_append_right _ _ _ _ (by rw [length_padded]; omega), length_padded, hlast,
        Nat.add_comm, Nat.sub_self]
      rfl
    · have hmod : bs.length % windowSize ≠ i % windowSize := by
        rw [windowSize] at hlt hlast ⊢
        omega
      rw [if_neg hmod, ← List.getD_eq_getElem?_getD, h.buf_getD i (by omega) (by omega),
        List.getD_append _ _ _ _ (by rw [length_padded]; omega)]

theorem after_foldl (bs : List (BitVec 8)) : (bs.foldl Window.slide .init).After bs := by
  induction bs using List.reverseRecOn with
  | nil => exact after_init
  | append_singleton bs m ih =>
    rw [List.foldl_append]
    exact ih.slide m

end Slide

/-! ## Breaks -/

section Breaks

variable {isBreak : ℕ → BitVec 64 → Bool} {p q : Bytes} {s : Sizes} {count i : ℕ} {w : Window}

/-- The bytes of a buffer from `lo` on, `n` of them. -/
def bytesFrom (p : Bytes) (lo n : ℕ) : List (BitVec 8) := (List.range n).map fun j ↦ byteAt p (lo + j)

/-- The loop, once it comes to a place, stops there if the bytes from the first that was slid in make a break. -/
theorem scan_eq_iff {lo : ℕ} (hlo : 0 < lo) (hi : lo ≤ i) (hlast : i < lo + count)
    (hscan : i ≤ scan isBreak p count lo w) :
    scan isBreak p count lo w = i ↔ isBreak i ((bytesFrom p (lo - 1) (i - lo + 1)).foldl Window.slide w).fp := by
  induction count generalizing lo w with
  | zero => omega
  | succ count ih =>
    have hbytes : bytesFrom p (lo - 1) (i - lo + 1) =
        byteAt p (lo - 1) :: bytesFrom p lo (i - lo) := by
      rw [bytesFrom, List.range_succ_eq_map, List.map_cons, List.map_map]
      refine congrArg₂ List.cons rfl (List.map_congr_left fun j _ ↦ congrArg (byteAt p) ?_)
      change lo - 1 + (j + 1) = lo + j
      omega
    rw [hbytes, List.foldl_cons]
    rw [scan] at hscan ⊢
    rcases hi.eq_or_lt with rfl | hi
    · rw [Nat.sub_self]
      split_ifs with hbreak
      · exact iff_of_true rfl hbreak
      · have hlow : lo + 1 ≤ scan isBreak p count (lo + 1) (w.slide (byteAt p (lo - 1))) := le_scan
        exact iff_of_false (by omega) hbreak
    · split_ifs at hscan ⊢
      · omega
      · have h := @ih (w.slide (byteAt p (lo - 1))) (lo + 1) (Nat.succ_pos lo) hi (by omega) hscan
        rwa [Nat.add_sub_cancel, show i - (lo + 1) + 1 = i - lo by omega] at h

theorem getD_padded (bs : List (BitVec 8)) (k : ℕ) :
    (padded bs).getD k 0 = if k < windowSize then 0 else bs.getD (k - windowSize) 0 := by
  rw [padded]
  split_ifs with hk
  · rw [List.getD_append _ _ _ _ (by rwa [List.length_replicate]), List.getD_eq_getElem _ _ (by rwa [List.length_replicate]),
      List.getElem_replicate]
  · rw [List.getD_append_right _ _ _ _ (by rw [List.length_replicate]; exact not_lt.mp hk), List.length_replicate]

theorem lastBytes_congr {as bs : List (BitVec 8)} (hlength : as.length = bs.length)
    (h : ∀ j < as.length, as.length ≤ j + windowSize → as.getD j 0 = bs.getD j 0) : lastBytes as = lastBytes bs := by
  have hlast : ∀ cs : List (BitVec 8), (lastBytes cs).length = windowSize := fun cs ↦ by
    rw [lastBytes, List.length_drop, length_padded, Nat.add_sub_cancel]
  refine List.ext_getElem ((hlast as).trans (hlast bs).symm) fun j hj hj' ↦ ?_
  rw [hlast] at hj
  simp only [lastBytes, List.getElem_drop]
  rw [← List.getD_eq_getElem _ 0, ← List.getD_eq_getElem _ 0, getD_padded, getD_padded, ← hlength]
  split_ifs with hlt
  · rfl
  · exact h _ (by omega) (by omega)

theorem fp_congr {as bs : List (BitVec 8)} (h : lastBytes as = lastBytes bs) :
    (as.foldl Window.slide .init).fp = (bs.foldl Window.slide .init).fp := by
  have hfp := fun cs ↦ ofBits_eq_modByMonic leading_fingerprintPt (after_foldl cs).fp_lt (after_foldl cs).residue_fp
  refine BitVec.eq_of_toNat_eq (ofBits_injective ?_)
  rw [hfp, hfp, h]


theorem getD_bytesFrom {lo n j : ℕ} (hj : j < n) : (bytesFrom p lo n).getD j 0 = byteAt p (lo + j) := by
  rw [bytesFrom, List.getD_eq_getElem?_getD, List.getElem?_map, List.getElem?_range hj]
  rfl

theorem rabinChunkData_eq_iff (hmin : 0 < s.min) (hi : s.min ≤ i) (hmax : i < s.max) (hp : i < p.length)
    (hreach : i ≤ rabinChunkData s p) :
    rabinChunkData s p = i ↔
      ((bytesFrom p (s.min - 1) (i - s.min + 1)).foldl Window.slide .init).fp &&& (BitVec.ofNat 64 s.avg - 1) =
        breakmarkValue := by
  rw [rabinChunkData, contentChunkData, if_neg (not_le.mpr (hi.trans_lt hp))] at hreach ⊢
  refine (scan_eq_iff hmin hi ?_ hreach).trans decide_eq_true_iff
  split_ifs <;> omega

end Breaks

/-- **The rolling fingerprint** is the remainder of the polynomial of the last bytes, and breaks depend on these alone. -/
theorem rolling_fingerprint :
    (∀ bs : List (BitVec 8),
      ofWord (bs.foldl Window.slide .init).fp = bytesPoly (lastBytes bs) %ₘ ofWord fingerprintPt ∧
        (bs.foldl Window.slide .init).fp.toNat < 2 ^ 63 ∧ (bs.foldl Window.slide .init).index.toNat < 256) ∧
      ∀ (s : Sizes) (p q : Bytes) (i : ℕ), 0 < s.min → s.min ≤ i → i < s.max → i < p.length → i < q.length →
        i ≤ rabinChunkData s p → i ≤ rabinChunkData s q →
        (∀ j, max (s.min - 1) (i - windowSize) ≤ j → j < i → byteAt p j = byteAt q j) →
        (rabinChunkData s p = i ↔ rabinChunkData s q = i) := by
  refine ⟨fun bs ↦ ?_, fun s p q i hmin hi hmax hp hq hreachp hreachq hbytes ↦ ?_⟩
  · have hafter := after_foldl bs
    exact ⟨ofBits_eq_modByMonic leading_fingerprintPt hafter.fp_lt hafter.residue_fp, hafter.fp_lt, hafter.index_lt⟩
  · have hlength : ∀ p : Bytes, (bytesFrom p (s.min - 1) (i - s.min + 1)).length = i - s.min + 1 := fun p ↦ by
      rw [bytesFrom, List.length_map, List.length_range]
    have hlast : lastBytes (bytesFrom p (s.min - 1) (i - s.min + 1)) =
        lastBytes (bytesFrom q (s.min - 1) (i - s.min + 1)) := by
      refine lastBytes_congr ((hlength p).trans (hlength q).symm) fun j hj hwindow ↦ ?_
      rw [hlength] at hj hwindow
      rw [getD_bytesFrom hj, getD_bytesFrom hj]
      exact hbytes _ (max_le (by omega) (by omega)) (by omega)
    rw [rabinChunkData_eq_iff hmin hi hmax hp hreachp, rabinChunkData_eq_iff hmin hi hmax hq hreachq, fp_congr hlast]

/-- Two buffers that break at place 60, where the byte in which they differ has left the window. -/
theorem rolling_fingerprint_two :
    let s : Sizes := ⟨2, 128, 256⟩
    let p := [0, 0, 0, 9] ++ List.replicate 55 0 ++ [120, 1]
    let q := [0, 0, 0, 7] ++ List.replicate 55 0 ++ [120, 5]
    rabinChunkData s p = 60 ∧ rabinChunkData s q = 60 := by
  intro s p q
  have hp : rabinChunkData s p = 60 := by decide +kernel
  have hq : 60 ≤ rabinChunkData s q := by decide +kernel
  exact ⟨hp, (rolling_fingerprint.2 s p q 60 (by decide) (by decide) (by decide) (by decide) (by decide)
    hp.ge hq (by decide)).mp hp⟩

end UniDedup.Chunking
