import Mathlib.Algebra.CharP.Two
import Mathlib.Algebra.Field.ZMod
import Mathlib.Data.Nat.Size
import Mathlib.RingTheory.AdjoinRoot
import Mathlib.Tactic.Ring

/-!
# Numbers as polynomials over the field of two elements

Checksums and rolling hashes read the bits of a word as the coefficients of a polynomial: words are added by exclusive
or, a shift multiplies by a power of `X`, and the remainders modulo a polynomial `P` of degree `k` are the words below
`2 ^ k`. A number is the remainder of a polynomial when both have the same residue, in the ring of polynomials modulo `P`,
and the number is below `2 ^ k`; so an algorithm that computes remainders is followed in that ring.

A product or a shift of words of `w` bits fills two words. What is shifted out at the top is the high one.
-/

open Polynomial

namespace BitPolynomial

/-! ## The polynomial of a number -/

/-- The polynomial whose coefficients are the bits of a number. -/
noncomputable def ofBits (n : ℕ) : (ZMod 2)[X] :=
  ∑ i ∈ Finset.range n.size, if n.testBit i then X ^ i else 0

theorem coeff_ofBits (n i : ℕ) : (ofBits n).coeff i = if n.testBit i then 1 else 0 := by
  have hterm : ∀ j, (if n.testBit j then (X : (ZMod 2)[X]) ^ j else 0).coeff i =
      if i = j then (if n.testBit i then 1 else 0) else 0 := by
    intro j
    by_cases hij : i = j
    · rw [if_pos hij, ← hij]
      split_ifs
      · rw [coeff_X_pow, if_pos rfl]
      · exact coeff_zero i
    · rw [if_neg hij]
      split_ifs
      · rw [coeff_X_pow, if_neg hij]
      · exact coeff_zero i
  rw [ofBits, finsetSum_coeff, Finset.sum_congr rfl fun j _ ↦ hterm j, Finset.sum_ite_eq]
  by_cases hi : i < n.size
  · rw [if_pos (Finset.mem_range.mpr hi)]
  · rw [if_neg fun h ↦ hi (Finset.mem_range.mp h),
      Nat.testBit_lt_two_pow (Nat.size_le.mp (not_lt.mp hi)), if_neg Bool.false_ne_true]

theorem ofBits_injective : Function.Injective ofBits := by
  intro a b h
  refine Nat.eq_of_testBit_eq fun i ↦ ?_
  have hcoeff := congrArg (coeff · i) h
  simp only [coeff_ofBits] at hcoeff
  by_cases ha : a.testBit i <;> by_cases hb : b.testBit i <;> simp_all

@[simp] theorem ofBits_zero : ofBits 0 = 0 := by
  ext i
  rw [coeff_ofBits, Nat.zero_testBit, if_neg Bool.false_ne_true, coeff_zero]

theorem ofBits_xor (a b : ℕ) : ofBits (a ^^^ b) = ofBits a + ofBits b := by
  ext i
  rw [coeff_add, coeff_ofBits, coeff_ofBits, coeff_ofBits, Nat.testBit_xor]
  by_cases ha : a.testBit i <;> by_cases hb : b.testBit i <;> simp [ha, hb, CharTwo.add_self_eq_zero]

theorem ofBits_shiftLeft (n k : ℕ) : ofBits (n <<< k) = X ^ k * ofBits n := by
  ext i
  rw [coeff_X_pow_mul', coeff_ofBits, coeff_ofBits, Nat.testBit_shiftLeft]
  by_cases hk : k ≤ i <;> simp [hk]

theorem ofBits_two_pow (k : ℕ) : ofBits (2 ^ k) = X ^ k := by
  ext i
  rw [coeff_ofBits, coeff_X_pow, Nat.testBit_two_pow]
  by_cases hk : k = i
  · rw [if_pos (decide_eq_true hk), if_pos hk.symm]
  · rw [if_neg (mt of_decide_eq_true hk), if_neg fun h ↦ hk h.symm]

theorem ofBits_one : ofBits 1 = 1 := by
  rw [← pow_zero X, ← ofBits_two_pow, pow_zero]

theorem ofBits_mod_succ (n k : ℕ) :
    ofBits (n % 2 ^ (k + 1)) = ofBits (n % 2 ^ k) + if n.testBit k then X ^ k else 0 := by
  ext i
  rw [coeff_add, coeff_ofBits, coeff_ofBits, Nat.testBit_mod_two_pow, Nat.testBit_mod_two_pow,
    apply_ite (coeff · i), coeff_X_pow, coeff_zero]
  rcases lt_trichotomy i k with hi | rfl | hi
  · have hne : i ≠ k := hi.ne
    simp [hi, Nat.lt_succ_of_lt hi, hne]
  · simp
  · have hne : i ≠ k := hi.ne'
    have h1 : ¬i < k + 1 := by omega
    simp [h1, hi.not_gt, hne]

theorem degree_ofBits_lt {n k : ℕ} (h : n < 2 ^ k) : (ofBits n).degree < k := by
  rw [degree_lt_iff_coeff_zero]
  intro i hi
  rw [coeff_ofBits, Nat.testBit_lt_two_pow (h.trans_le (Nat.pow_le_pow_right (by decide) hi)),
    if_neg Bool.false_ne_true]

/-! ## Leading bits -/

/-- Bit `k` is the leading bit of a number. -/
def Leading (n k : ℕ) : Prop := n.testBit k ∧ n < 2 ^ (k + 1)

instance (n k : ℕ) : Decidable (Leading n k) := inferInstanceAs (Decidable (_ ∧ _))

section Leading

variable {a b n k : ℕ}

theorem testBit_of_lt (h : n < 2 ^ k) {i : ℕ} (hi : k ≤ i) : n.testBit i = false :=
  Nat.testBit_lt_two_pow (h.trans_le (Nat.pow_le_pow_right (by decide) hi))

theorem Leading.xor_lt (ha : Leading a k) (hb : Leading b k) : a ^^^ b < 2 ^ k := by
  refine Nat.lt_pow_two_of_testBit _ fun i hi ↦ ?_
  rw [Nat.testBit_xor]
  rcases hi.eq_or_lt with rfl | hi
  · rw [ha.1, hb.1]
    rfl
  · rw [testBit_of_lt ha.2 hi, testBit_of_lt hb.2 hi]
    rfl

theorem lt_of_testBit_false (hn : n < 2 ^ (k + 1)) (h : n.testBit k = false) : n < 2 ^ k := by
  refine Nat.lt_pow_two_of_testBit _ fun i hi ↦ ?_
  rcases hi.eq_or_lt with rfl | hi
  · exact h
  · exact testBit_of_lt hn hi

theorem Leading.shiftRight {j : ℕ} (h : Leading n (k + j)) : Leading (n >>> j) k := by
  refine ⟨?_, Nat.lt_pow_two_of_testBit _ fun i hi ↦ ?_⟩
  · rw [Nat.testBit_shiftRight, Nat.add_comm]
    exact h.1
  · rw [Nat.testBit_shiftRight]
    exact testBit_of_lt h.2 (by omega)

theorem Leading.shiftLeft (h : Leading n k) (j : ℕ) : Leading (n <<< j) (k + j) := by
  refine ⟨?_, ?_⟩
  · rw [Nat.testBit_shiftLeft, decide_eq_true (Nat.le_add_left j k), Nat.add_sub_cancel]
    exact h.1
  · rw [Nat.shiftLeft_eq, show k + j + 1 = (k + 1) + j by omega, Nat.pow_add]
    exact Nat.mul_lt_mul_of_pos_right h.2 (Nat.two_pow_pos j)

theorem Leading.degree (h : Leading n k) : (ofBits n).degree = k := by
  refine le_antisymm ?_ (le_degree_of_ne_zero ?_)
  · exact Order.le_of_lt_succ (degree_ofBits_lt h.2)
  · rw [coeff_ofBits, if_pos h.1]
    exact one_ne_zero

theorem Leading.monic (h : Leading n k) : (ofBits n).Monic := by
  rw [Monic, leadingCoeff, natDegree_eq_of_degree_eq_some h.degree, coeff_ofBits, if_pos h.1]

end Leading

/-! ## Remainders -/

section Residue

variable {P : ℕ}

/-- The residues modulo the polynomial of `P`. -/
noncomputable abbrev residue (P : ℕ) : (ZMod 2)[X] →+* AdjoinRoot (ofBits P) := AdjoinRoot.mk (ofBits P)

/-- **The remainder** is the number below `2 ^ k` that has the residue. -/
theorem ofBits_eq_modByMonic {k : ℕ} (hP : Leading P k) {r : ℕ} (hr : r < 2 ^ k) {f : (ZMod 2)[X]}
    (h : residue P (ofBits r) = residue P f) : ofBits r = f %ₘ ofBits P := by
  obtain ⟨q, hq⟩ := AdjoinRoot.mk_eq_mk.mp h.symm
  refine ((div_modByMonic_unique q (ofBits r) hP.monic ⟨?_, ?_⟩).2).symm
  · rw [← hq]
    ring
  · rw [hP.degree]
    exact degree_ofBits_lt hr

theorem residue_mul_self (f : (ZMod 2)[X]) : residue P (f * ofBits P) = 0 := by
  rw [map_mul, AdjoinRoot.mk_self, mul_zero]

end Residue

/-! ## Words -/

section Words

variable {w : ℕ}

/-- The polynomial of a word. -/
noncomputable abbrev ofWord (v : BitVec w) : (ZMod 2)[X] := ofBits v.toNat

theorem ofWord_xor (a b : BitVec w) : ofWord (a ^^^ b) = ofWord a + ofWord b := by
  rw [ofWord, BitVec.toNat_xor, ofBits_xor]

theorem ofWord_shift (v : BitVec w) {k : ℕ} (hk : k ≤ w) :
    X ^ w * ofWord (v >>> (w - k)) + ofWord (v <<< k) = X ^ k * ofWord v := by
  ext i
  rw [coeff_add, coeff_X_pow_mul', coeff_X_pow_mul', coeff_ofBits, coeff_ofBits, coeff_ofBits, BitVec.testBit_toNat,
    BitVec.testBit_toNat, BitVec.testBit_toNat, BitVec.getLsbD_ushiftRight, BitVec.getLsbD_shiftLeft]
  by_cases hw : w ≤ i
  · have hindex : w - k + (i - w) = i - k := by omega
    simp [hw, hindex, hk.trans hw, not_lt.mpr hw]
  · by_cases hki : k ≤ i
    · simp [hw, hki, not_le.mp hw, not_lt.mpr hki]
    · simp [hw, hki, not_le.mp hki]

theorem ofWord_shiftLeft {v : BitVec w} {k j : ℕ} (hv : v.toNat < 2 ^ j) (hj : j + k ≤ w) :
    ofWord (v <<< k) = X ^ k * ofWord v := by
  have hlt : v.toNat * 2 ^ k < 2 ^ w := by
    calc v.toNat * 2 ^ k < 2 ^ j * 2 ^ k := Nat.mul_lt_mul_of_pos_right hv (Nat.two_pow_pos k)
      _ = 2 ^ (j + k) := (Nat.pow_add ..).symm
      _ ≤ 2 ^ w := Nat.pow_le_pow_right (by decide) hj
  rw [ofWord, BitVec.toNat_shiftLeft, Nat.mod_eq_of_lt (by rwa [Nat.shiftLeft_eq]), ofBits_shiftLeft]

end Words

end BitPolynomial
