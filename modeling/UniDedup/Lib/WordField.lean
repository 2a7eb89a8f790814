import Mathlib.Algebra.CharP.Two
import Mathlib.Algebra.Field.ZMod
import Mathlib.LinearAlgebra.Matrix.NonsingularInverse
import UniDedup.Lib.GF256

/-!
# Words as elements of a field

Coding libraries compute in fields of characteristic two whose elements are words of some width: zero and
one are the words 0 and 1, words are added bit by bit, and the word 2 stands for a root `x` of the
polynomial of the field, so that a shift that drops no bit multiplies by it.

A routine that inverts matrices is given the width as an argument. Told the width of bytes it inverts over
the field of bytes. Told another width it does so on a matrix of zeros and ones, whose inverse does not
depend on the field, but not on other matrices: the inverse of `x` is `142` over bytes, a word below that
in a narrower field and not a byte in a wider one.
-/

/-- A field whose elements are words of `w` bits. -/
structure WordField (w : ℕ) where
  F : Type
  [field : Field F]
  ofWord : ℕ → F
  zero : ofWord 0 = 0
  one : ofWord 1 = 1
  xor : ∀ a b, a < 2 ^ w → b < 2 ^ w → ofWord (a ^^^ b) = ofWord a + ofWord b
  double : ∀ a, 2 * a < 2 ^ w → ofWord (2 * a) = ofWord 2 * ofWord a
  inj : ∀ a b, a < 2 ^ w → b < 2 ^ w → ofWord a = ofWord b → a = b

namespace WordField

attribute [instance] WordField.field

def toWord (b : GF256) : ℕ := b.bits.toNat

theorem toWord_lt (b : GF256) : toWord b < 256 := b.bits.isLt

@[simp] theorem ofNat_toWord (b : GF256) : GF256.ofNat (toWord b) = b := by
  rw [toWord, GF256.ofNat, BitVec.ofNat_toNat, BitVec.setWidth_eq]

theorem toWord_ofNat {a : ℕ} (ha : a < 256) : toWord (GF256.ofNat a) = a := by
  rw [toWord, GF256.ofNat, BitVec.toNat_ofNat]
  exact Nat.mod_eq_of_lt ha

theorem toWord_add (a b : GF256) : toWord (a + b) = toWord a ^^^ toWord b := BitVec.toNat_xor ..

def bytes : WordField 8 where
  F := GF256
  ofWord := GF256.ofNat
  zero := rfl
  one := rfl
  xor a b ha hb := by
    rw [← toWord_ofNat ha, ← toWord_ofNat hb, ← toWord_add, ofNat_toWord, ofNat_toWord, ofNat_toWord]
  double a ha := by
    have hdouble : ∀ a < 128, GF256.ofNat (2 * a) = GF256.ofNat 2 * GF256.ofNat a := by decide +kernel
    exact hdouble a (by omega)
  inj a b ha hb h := by
    rw [← toWord_ofNat ha, h, toWord_ofNat hb]

variable {w : ℕ} (W : WordField w)

/-- The elements with words below 256 multiply as bytes do. -/
def MulBytes : Prop := ∀ a b : GF256, W.ofWord (toWord (a * b)) = W.ofWord (toWord a) * W.ofWord (toWord b)

/-- The square matrix that some cells hold. -/
def matrix (k : ℕ) (cells : ℕ → ℕ) : Matrix (Fin k) (Fin k) W.F :=
  Matrix.of fun i j ↦ W.ofWord (cells (i * k + j))

/-- The routine inverts every matrix of words over the field that can be inverted. Its arguments are the
matrix, the number of rows and the width of the words. -/
def InvertedBy (invert : (ℕ → ℕ) → ℕ → ℕ → ℕ → ℕ) : Prop :=
  ∀ k cells, (∀ p < k * k, cells p < 2 ^ w) → IsUnit (W.matrix k cells) →
    (∀ p < k * k, invert cells k w p < 2 ^ w) ∧ W.matrix k (invert cells k w) * W.matrix k cells = 1

/-! ## Characteristic two -/

theorem one_lt (hw : 1 ≤ w) : 1 < 2 ^ w := Nat.one_lt_two_pow (by omega)

theorem add_self (hw : 1 ≤ w) (a : W.F) : a + a = 0 := by
  have hone := W.xor 1 1 (one_lt hw) (one_lt hw)
  rw [Nat.xor_self, W.zero, W.one] at hone
  rw [← mul_one a, ← mul_add, ← hone, mul_zero]

theorem charP (hw : 1 ≤ w) : CharP W.F 2 :=
  CharTwo.of_one_ne_zero_of_two_eq_zero one_ne_zero (by rw [← one_add_one_eq_two, W.add_self hw])

/-! ## Cells of a square matrix -/

theorem cell_lt {k i j : ℕ} (hi : i < k) (hj : j < k) : i * k + j < k * k :=
  calc i * k + j < i * k + k := Nat.add_lt_add_left hj _
    _ = (i + 1) * k := (Nat.succ_mul i k).symm
    _ ≤ k * k := Nat.mul_le_mul_right k hi

/-- The square matrix of bytes that some cells hold. -/
def byteMatrix (k : ℕ) (cells : ℕ → GF256) : Matrix (Fin k) (Fin k) GF256 :=
  Matrix.of fun i j ↦ cells (i * k + j)

/-- The routine inverts these cells over bytes. -/
def InvertsBytes (invert : (ℕ → ℕ) → ℕ → ℕ → ℕ → ℕ) (w k : ℕ) (cells : ℕ → GF256) : Prop :=
  (∀ p < k * k, invert (toWord ∘ cells) k w p < 256) ∧
    byteMatrix k (GF256.ofNat ∘ invert (toWord ∘ cells) k w) * byteMatrix k cells = 1

variable {W} {invert : (ℕ → ℕ) → ℕ → ℕ → ℕ → ℕ} {k : ℕ} {cells : ℕ → GF256}

/-- **Told the width of bytes**, the routine inverts over bytes. -/
theorem InvertedBy.invertsBytes (h : W.InvertedBy invert) (hw : w = 8) (hbytes : W.MulBytes)
    (hunit : IsUnit (byteMatrix k cells)) : InvertsBytes invert w k cells := by
  subst hw
  let φ : GF256 →+* W.F :=
    { toFun := fun b ↦ W.ofWord (toWord b)
      map_zero' := W.zero
      map_one' := W.one
      map_mul' := hbytes
      map_add' := fun a b ↦ by rw [toWord_add, W.xor _ _ (toWord_lt a) (toWord_lt b)] }
  have hmatrix : W.matrix k (toWord ∘ cells) = φ.mapMatrix (byteMatrix k cells) := rfl
  obtain ⟨hlt, hone⟩ := h k (toWord ∘ cells) (fun p _ ↦ toWord_lt _) (hmatrix ▸ hunit.map φ.mapMatrix)
  refine ⟨hlt, ?_⟩
  have hinv : W.matrix k (invert (toWord ∘ cells) k 8) =
      φ.mapMatrix (byteMatrix k (GF256.ofNat ∘ invert (toWord ∘ cells) k 8)) := by
    refine Matrix.ext fun i j ↦ ?_
    show W.ofWord _ = W.ofWord (toWord (GF256.ofNat _))
    rw [toWord_ofNat (hlt _ (cell_lt i.isLt j.isLt))]
  rw [hinv, hmatrix, ← map_mul, ← map_one φ.mapMatrix] at hone
  exact Matrix.map_injective φ.injective hone

/-! ## The unit matrix with one row replaced -/

section Replaced

variable {K : Type*} [Field K] {i : Fin k} {r : Fin k → K} (σ : Equiv.Perm (Fin k))

/-- The unit matrix with one row replaced, and its rows permuted, can be inverted when the row has no zero on
the diagonal. -/
theorem isUnit_updateRow_one (hr : r i ≠ 0) :
    IsUnit (((1 : Matrix (Fin k) (Fin k) K).updateRow i r).submatrix σ id) := by
  rw [show (id : Fin k → Fin k) = Equiv.refl (Fin k) from rfl, Matrix.isUnit_submatrix_equiv,
    Matrix.isUnit_iff_isUnit_det, ← Matrix.cramer_transpose_apply, Matrix.transpose_one, Matrix.cramer_one,
    isUnit_iff_ne_zero]
  exact hr

/-- The inverse of such a matrix holds the inverse of the entry on the diagonal. -/
theorem mul_updateRow_one {V : Matrix (Fin k) (Fin k) K}
    (hV : V * ((1 : Matrix (Fin k) (Fin k) K).updateRow i r).submatrix σ id = 1) :
    V i (σ.symm i) * r i = 1 := by
  have hentry := congrFun (congrFun hV i) i
  rw [Matrix.mul_apply, Matrix.one_apply_eq, Finset.sum_eq_single (σ.symm i)] at hentry
  · rwa [Matrix.submatrix_apply, Equiv.apply_symm_apply, id, Matrix.updateRow_self] at hentry
  · intro l _ hl
    have hne : σ l ≠ i := fun h ↦ hl (by rw [← h, Equiv.symm_apply_apply])
    rw [Matrix.submatrix_apply, id, Matrix.updateRow_ne hne, Matrix.one_apply_ne hne, mul_zero]
  · exact fun hi ↦ absurd (Finset.mem_univ _) hi

end Replaced

/-! ## Matrices of zeros and ones -/

def bitOf (b : GF256) : ZMod 2 := if b = 0 then 0 else 1

variable {K : Type*} [Field K] [CharP K 2]

theorem cast_bitOf {b : GF256} (hb : b = 0 ∨ b = 1) (f : GF256 → K) (hzero : f 0 = 0) (hone : f 1 = 1) :
    ZMod.castHom (dvd_refl 2) K (bitOf b) = f b := by
  rcases hb with rfl | rfl
  · rw [bitOf, if_pos rfl, map_zero, hzero]
  · rw [bitOf, if_neg one_ne_zero, map_one, hone]

/-- A matrix of bits can be inverted over every field of characteristic two, or over none. -/
theorem isUnit_mapMatrix_cast (B : Matrix (Fin k) (Fin k) (ZMod 2)) :
    IsUnit ((ZMod.castHom (dvd_refl 2) K).mapMatrix B) ↔ IsUnit B := by
  rw [Matrix.isUnit_iff_isUnit_det, Matrix.isUnit_iff_isUnit_det, isUnit_iff_ne_zero, isUnit_iff_ne_zero,
    ← RingHom.map_det, Ne, map_eq_zero_iff _ (ZMod.castHom (dvd_refl 2) K).injective]

/-- **A matrix of zeros and ones** is inverted over bytes, whatever width the routine is told. -/
theorem InvertedBy.invertsBytes_of_bits (h : W.InvertedBy invert) (hw : 1 ≤ w)
    (hbits : ∀ p < k * k, cells p = 0 ∨ cells p = 1) (hunit : IsUnit (byteMatrix k cells)) :
    InvertsBytes invert w k cells := by
  have hchar := W.charP hw
  let B : Matrix (Fin k) (Fin k) (ZMod 2) := Matrix.of fun i j ↦ bitOf (cells (i * k + j))
  have hbyte : byteMatrix k cells = (ZMod.castHom (dvd_refl 2) GF256).mapMatrix B := by
    refine Matrix.ext fun i j ↦ (cast_bitOf (hbits _ (cell_lt i.isLt j.isLt)) id rfl rfl).symm
  have hword : W.matrix k (toWord ∘ cells) = (ZMod.castHom (dvd_refl 2) W.F).mapMatrix B := by
    refine Matrix.ext fun i j ↦ ?_
    exact (cast_bitOf (hbits _ (cell_lt i.isLt j.isLt)) (fun b ↦ W.ofWord (toWord b)) W.zero W.one).symm
  have hB : IsUnit B := (isUnit_mapMatrix_cast (K := GF256) B).mp (hbyte ▸ hunit)
  have hlt : ∀ p < k * k, (toWord ∘ cells) p < 2 ^ w := by
    intro p hp
    have hone := one_lt hw
    show toWord (cells p) < 2 ^ w
    rcases hbits p hp with h0 | h1
    · rw [h0]
      exact Nat.zero_lt_of_lt hone
    · rw [h1]
      exact hone
  obtain ⟨hlt', hinv⟩ := h k _ hlt (hword ▸ (isUnit_mapMatrix_cast B).mpr hB)
  have hBinv : B⁻¹ * B = 1 := Matrix.nonsing_inv_mul B ((Matrix.isUnit_iff_isUnit_det B).mp hB)
  -- the inverse over the field of words is the one over bits
  have heq : W.matrix k (invert (toWord ∘ cells) k w) = (ZMod.castHom (dvd_refl 2) W.F).mapMatrix B⁻¹ := by
    have hright : W.matrix k (toWord ∘ cells) * (ZMod.castHom (dvd_refl 2) W.F).mapMatrix B⁻¹ = 1 := by
      rw [hword, ← map_mul, Matrix.mul_nonsing_inv B ((Matrix.isUnit_iff_isUnit_det B).mp hB), map_one]
    exact left_inv_eq_right_inv hinv hright
  have hcell : ∀ i j : Fin k, invert (toWord ∘ cells) k w (i * k + j) = 0 ∧ B⁻¹ i j = 0 ∨
      invert (toWord ∘ cells) k w (i * k + j) = 1 ∧ B⁻¹ i j = 1 := by
    intro i j
    have hij : W.ofWord (invert (toWord ∘ cells) k w (i * k + j)) =
        ZMod.castHom (dvd_refl 2) W.F (B⁻¹ i j) := congrFun (congrFun heq i) j
    have hword := hlt' _ (cell_lt i.isLt j.isLt)
    have hbit : ∀ b : ZMod 2, b = 0 ∨ b = 1 := by decide
    rcases hbit (B⁻¹ i j) with hb | hb
    · rw [hb, map_zero, ← W.zero] at hij
      exact .inl ⟨W.inj _ _ hword (Nat.zero_lt_of_lt hword) hij, hb⟩
    · rw [hb, map_one, ← W.one] at hij
      exact .inr ⟨W.inj _ _ hword (one_lt hw) hij, hb⟩
  refine ⟨fun p hp ↦ ?_, ?_⟩
  · have hk : 0 < k := Nat.pos_of_ne_zero fun hk ↦ by simp [hk] at hp
    have hi : p / k < k := Nat.div_lt_of_lt_mul hp
    have hj : p % k < k := Nat.mod_lt p hk
    have hp' : p = p / k * k + p % k := by rw [mul_comm, Nat.div_add_mod]
    rw [hp']
    rcases hcell ⟨p / k, hi⟩ ⟨p % k, hj⟩ with ⟨hp, -⟩ | ⟨hp, -⟩
    · exact hp ▸ (by decide)
    · exact hp ▸ (by decide)
  · have hmatrix : byteMatrix k (GF256.ofNat ∘ invert (toWord ∘ cells) k w) =
        (ZMod.castHom (dvd_refl 2) GF256).mapMatrix B⁻¹ := by
      refine Matrix.ext fun i j ↦ ?_
      show GF256.ofNat _ = ZMod.castHom (dvd_refl 2) GF256 (B⁻¹ i j)
      rcases hcell i j with ⟨hp, hb⟩ | ⟨hp, hb⟩
      · rw [hp, hb, map_zero]
        rfl
      · rw [hp, hb, map_one]
        rfl
    rw [hmatrix, hbyte, ← map_mul, hBinv, map_one]

/-! ## The inverse of `x` -/

/-- **The word of the inverse of `x`**, in a field that is not the one of bytes: it is no byte, or its product
with `x` as bytes is not one. -/
theorem word_inv_two (hw : w ≠ 8) {v : ℕ} (hv : v < 2 ^ w) (hinv : W.ofWord v * W.ofWord 2 = 1) :
    256 ≤ v ∨ GF256.ofNat v * GF256.ofNat 2 ≠ 1 := by
  by_cases hbyte : v < 256
  · right
    rcases Nat.lt_or_gt_of_ne hw with hlt | hgt
    · -- all words are below 142
      have hle : 2 ^ w ≤ 2 ^ 7 := Nat.pow_le_pow_right (by decide) (by omega)
      have hnot : ∀ v < 128, GF256.ofNat v * GF256.ofNat 2 ≠ 1 := by decide +kernel
      exact hnot v (hv.trans_le hle)
    · -- the shift drops no bit
      have hle : 2 ^ 9 ≤ 2 ^ w := Nat.pow_le_pow_right (by decide) (by omega)
      have hdouble := W.double v (by omega)
      rw [mul_comm (W.ofWord 2), hinv, ← W.one] at hdouble
      have := W.inj _ _ (by omega) (by omega) hdouble
      omega
  · exact .inl (Nat.le_of_not_lt hbyte)

end WordField
