import Mathlib.Algebra.CharP.Two
import Mathlib.Algebra.Field.Defs
import Mathlib.GroupTheory.OrderOfElement

/-!
# The field of 256 elements

A byte is read as a polynomial of degree below eight over the field of two elements, bit `i` being the
coefficient of the `i`-th power. Bytes are added bit by bit, and multiplied as polynomials modulo
`x⁸ + x⁴ + x³ + x² + 1`, the polynomial storage codes use for words of eight bits. The operations are
the ones a program computes, so closed products are evaluated by the kernel.

The laws of a ring are checked on the eight powers of `x` below `x⁸`: every byte is a sum of these, and
the product is additive in both of its arguments.
-/

/-- A byte, as an element of the field of 256 elements. -/
@[ext] structure GF256 where
  bits : BitVec 8
deriving DecidableEq, Repr

namespace GF256

/-- The element whose bits are those of a number below 256. -/
def ofNat (n : ℕ) : GF256 := ⟨BitVec.ofNat 8 n⟩

/-- Multiplication by `x`: a shift, and a reduction when the shift drops a bit. -/
def xtime (b : BitVec 8) : BitVec 8 := (b <<< 1) ^^^ (if b.msb then 0x1d#8 else 0#8)

/-- The sum of the multiples `x ^ j * b` over the bits `j < i` that are set in `a`. -/
def mulUpto (a b : BitVec 8) : ℕ → BitVec 8
  | 0 => 0#8
  | i + 1 => mulUpto a b i ^^^ (if a.getLsbD i then xtime^[i] b else 0#8)

instance : Zero GF256 := ⟨⟨0⟩⟩
instance : One GF256 := ⟨⟨1⟩⟩
instance : Add GF256 := ⟨fun a b ↦ ⟨a.bits ^^^ b.bits⟩⟩
instance : Neg GF256 := ⟨id⟩
instance : Mul GF256 := ⟨fun a b ↦ ⟨mulUpto a.bits b.bits 8⟩⟩

instance : AddCommGroup GF256 where
  add_assoc a b c := GF256.ext (BitVec.xor_assoc ..)
  zero_add a := GF256.ext BitVec.zero_xor
  add_zero a := GF256.ext BitVec.xor_zero
  nsmul := nsmulRec
  zsmul := zsmulRec
  neg_add_cancel a := GF256.ext BitVec.xor_self
  add_comm a b := GF256.ext (BitVec.xor_comm ..)

/-! ## The product is additive in both arguments -/

theorem xor_xor_xor_comm (a b c d : BitVec 8) : (a ^^^ b) ^^^ (c ^^^ d) = (a ^^^ c) ^^^ (b ^^^ d) := by
  ac_rfl

theorem xtime_xor (a b : BitVec 8) : xtime (a ^^^ b) = xtime a ^^^ xtime b := by
  have hmask : (if (a ^^^ b).msb then 0x1d#8 else 0#8) =
      (if a.msb then 0x1d#8 else 0#8) ^^^ (if b.msb then 0x1d#8 else 0#8) := by
    rw [BitVec.msb_xor]
    cases a.msb <;> cases b.msb <;> rfl
  rw [xtime, xtime, xtime, hmask, BitVec.shiftLeft_xor_distrib, xor_xor_xor_comm]

theorem iterate_xtime_xor (i : ℕ) (a b : BitVec 8) :
    xtime^[i] (a ^^^ b) = xtime^[i] a ^^^ xtime^[i] b := by
  induction i generalizing a b with
  | zero => rfl
  | succ i ih => rw [Function.iterate_succ_apply, xtime_xor, ih]; rfl

theorem mulUpto_xor (a b c : BitVec 8) (i : ℕ) :
    mulUpto a (b ^^^ c) i = mulUpto a b i ^^^ mulUpto a c i := by
  induction i with
  | zero => exact BitVec.xor_zero.symm
  | succ i ih =>
    have hbit : (if a.getLsbD i then xtime^[i] (b ^^^ c) else 0#8) =
        (if a.getLsbD i then xtime^[i] b else 0#8) ^^^ (if a.getLsbD i then xtime^[i] c else 0#8) := by
      split
      · exact iterate_xtime_xor i b c
      · rfl
    rw [mulUpto, mulUpto, mulUpto, ih, hbit, xor_xor_xor_comm]

theorem xor_mulUpto (a b c : BitVec 8) (i : ℕ) :
    mulUpto (a ^^^ b) c i = mulUpto a c i ^^^ mulUpto b c i := by
  induction i with
  | zero => exact BitVec.xor_zero.symm
  | succ i ih =>
    have hbit : (if (a ^^^ b).getLsbD i then xtime^[i] c else 0#8) =
        (if a.getLsbD i then xtime^[i] c else 0#8) ^^^ (if b.getLsbD i then xtime^[i] c else 0#8) := by
      rw [BitVec.getLsbD_xor]
      cases a.getLsbD i <;> cases b.getLsbD i <;> simp
    rw [mulUpto, mulUpto, mulUpto, ih, hbit, xor_xor_xor_comm]

theorem mul_add_aux (a b c : GF256) : a * (b + c) = a * b + a * c :=
  GF256.ext (mulUpto_xor a.bits b.bits c.bits 8)

theorem add_mul_aux (a b c : GF256) : (a + b) * c = a * c + b * c :=
  GF256.ext (xor_mulUpto a.bits b.bits c.bits 8)

/-! ## The laws of a field -/

/-- The power `x ^ i`, for `i` below eight. -/
def basis (i : Fin 8) : GF256 := ⟨BitVec.twoPow 8 i⟩

/-- The sum of the powers of `x` that are set in a byte. -/
def expand (a : GF256) : GF256 :=
  (List.finRange 8).foldr (fun (i : Fin 8) s ↦ (if a.bits.getLsbD i then basis i else 0) + s) 0

theorem expand_eq (a : GF256) : expand a = a := by
  have h : ∀ b : BitVec 8, expand ⟨b⟩ = ⟨b⟩ := by decide +kernel
  exact h a.bits

/-- **What holds of the powers of `x` and of sums holds of every byte.** -/
theorem additive_induction {P : GF256 → Prop} (zero : P 0) (basis : ∀ i, P (basis i))
    (add : ∀ a b, P a → P b → P (a + b)) (a : GF256) : P a := by
  rw [← expand_eq a, expand]
  induction List.finRange 8 with
  | nil => exact zero
  | cons i is ih =>
    rw [List.foldr_cons]
    refine add _ _ ?_ ih
    split
    · exact basis i
    · exact zero

theorem zero_mul_aux (a : GF256) : 0 * a = 0 := by
  have h := add_mul_aux 0 0 a
  rw [add_zero] at h
  exact left_eq_add.mp h

theorem mul_zero_aux (a : GF256) : a * 0 = 0 := by
  have h := mul_add_aux a 0 0
  rw [add_zero] at h
  exact left_eq_add.mp h

theorem mul_comm_aux (a b : GF256) : a * b = b * a := by
  refine additive_induction (P := fun a ↦ a * b = b * a) ?_ (fun i ↦ ?_) (fun c d hc hd ↦ ?_) a
  · rw [zero_mul_aux, mul_zero_aux]
  · refine additive_induction (P := fun b ↦ basis i * b = b * basis i) ?_ (fun j ↦ ?_)
      (fun c d hc hd ↦ ?_) b
    · rw [zero_mul_aux, mul_zero_aux]
    · revert i j
      decide +kernel
    · rw [mul_add_aux, add_mul_aux, hc, hd]
  · rw [mul_add_aux, add_mul_aux, hc, hd]

theorem basis_mul_assoc : ∀ i j l : Fin 8, basis i * basis j * basis l = basis i * (basis j * basis l) := by
  decide +kernel

theorem mul_assoc_aux (a b c : GF256) : a * b * c = a * (b * c) := by
  refine additive_induction (P := fun a ↦ a * b * c = a * (b * c)) ?_ (fun i ↦ ?_)
    (fun d e hd he ↦ ?_) a
  · rw [zero_mul_aux, zero_mul_aux, zero_mul_aux]
  · refine additive_induction (P := fun b ↦ basis i * b * c = basis i * (b * c)) ?_ (fun j ↦ ?_)
      (fun d e hd he ↦ ?_) b
    · rw [mul_zero_aux, zero_mul_aux, mul_zero_aux]
    · refine additive_induction (P := fun c ↦ basis i * basis j * c = basis i * (basis j * c)) ?_
        (fun l ↦ basis_mul_assoc i j l) (fun d e hd he ↦ ?_) c
      · rw [mul_zero_aux, mul_zero_aux, mul_zero_aux]
      · rw [mul_add_aux, mul_add_aux, mul_add_aux, hd, he]
    · rw [mul_add_aux, add_mul_aux, add_mul_aux, mul_add_aux, hd, he]
  · rw [add_mul_aux, add_mul_aux, add_mul_aux, hd, he]

theorem one_mul_aux (a : GF256) : 1 * a = a := by
  have h : ∀ b : BitVec 8, 1 * (⟨b⟩ : GF256) = ⟨b⟩ := by decide +kernel
  exact h a.bits

instance : CommRing GF256 where
  left_distrib := mul_add_aux
  right_distrib := add_mul_aux
  zero_mul := zero_mul_aux
  mul_zero := mul_zero_aux
  mul_assoc := mul_assoc_aux
  one_mul := one_mul_aux
  mul_one a := (mul_comm_aux a 1).trans (one_mul_aux a)
  mul_comm := mul_comm_aux
  neg_add_cancel := neg_add_cancel
  zsmul := zsmulRec

/-! ## Inverses

The element `x` has order 255, so its powers are all the elements other than zero, and the power 254 is
the inverse. -/

instance : Nontrivial GF256 := ⟨0, 1, by decide⟩

theorem two_pow_seventeen : ofNat 2 ^ 17 = ofNat 152 := by decide +kernel

theorem orderOf_two : orderOf (ofNat 2) = 255 := by
  refine orderOf_eq_of_pow_and_pow_div_prime (by decide) ?_ fun p hp hdvd ↦ ?_
  · rw [show 255 = 17 * 15 from rfl, pow_mul, two_pow_seventeen]
    decide +kernel
  · have hfactor : p = 3 ∨ p = 5 ∨ p = 17 := by
      rw [show 255 = 3 * (5 * 17) from rfl, hp.dvd_mul, hp.dvd_mul] at hdvd
      rwa [Nat.prime_dvd_prime_iff_eq hp (by decide), Nat.prime_dvd_prime_iff_eq hp (by decide),
        Nat.prime_dvd_prime_iff_eq hp (by decide)] at hdvd
    rcases hfactor with rfl | rfl | rfl
    · rw [show 255 / 3 = 17 * 5 from rfl, pow_mul, two_pow_seventeen]
      decide +kernel
    · rw [show 255 / 5 = 17 * 3 from rfl, pow_mul, two_pow_seventeen]
      decide +kernel
    · decide +kernel

/-- The elements are numbered by their bytes. -/
def equivFin : Fin 256 ≃ GF256 := ⟨fun i ↦ ⟨BitVec.ofFin i⟩, fun a ↦ a.bits.toFin, fun _ ↦ rfl, fun _ ↦ rfl⟩

instance : Fintype GF256 := Fintype.ofEquiv (Fin 256) equivFin

theorem card_eq : Fintype.card GF256 = 256 := by
  rw [← Fintype.card_congr equivFin, Fintype.card_fin]

/-- **Every element but zero is a power of `x`.** -/
theorem exists_two_pow_eq {a : GF256} (ha : a ≠ 0) : ∃ i, ofNat 2 ^ i = a := by
  have hinj : Set.InjOn (fun i ↦ ofNat 2 ^ i) (Finset.range 255) := by
    rw [← orderOf_two, Finset.coe_range]
    exact pow_injOn_Iio_orderOf
  have hcard : ((Finset.range 255).image fun i ↦ ofNat 2 ^ i).card = 255 := by
    rw [Finset.card_image_of_injOn hinj, Finset.card_range]
  have hsub : ((Finset.range 255).image fun i ↦ ofNat 2 ^ i) ⊆ Finset.univ.erase 0 := by
    intro b hb
    obtain ⟨i, -, rfl⟩ := Finset.mem_image.mp hb
    have hunit : IsUnit (ofNat 2) := (orderOf_pos_iff.mp (by rw [orderOf_two]; decide)).isUnit
    exact Finset.mem_erase.mpr ⟨(hunit.pow i).ne_zero, Finset.mem_univ _⟩
  have heq := Finset.eq_of_subset_of_card_le hsub (by
    rw [hcard, Finset.card_erase_of_mem (Finset.mem_univ 0), Finset.card_univ, card_eq])
  have hmem : a ∈ (Finset.range 255).image fun i ↦ ofNat 2 ^ i := by
    rw [heq]
    exact Finset.mem_erase.mpr ⟨ha, Finset.mem_univ a⟩
  obtain ⟨i, -, hi⟩ := Finset.mem_image.mp hmem
  exact ⟨i, hi⟩

instance : Inv GF256 := ⟨fun a ↦ a ^ 254⟩

theorem mul_inv_aux (a : GF256) (ha : a ≠ 0) : a * a⁻¹ = 1 := by
  obtain ⟨i, rfl⟩ := exists_two_pow_eq ha
  show ofNat 2 ^ i * (ofNat 2 ^ i) ^ 254 = 1
  have hone : ofNat 2 ^ (254 + 1) = 1 := by
    rw [show 254 + 1 = orderOf (ofNat 2) from orderOf_two.symm, pow_orderOf_eq_one]
  rw [← pow_succ', ← pow_mul, mul_comm, pow_mul, hone, one_pow]

instance : Field GF256 where
  mul_inv_cancel := mul_inv_aux
  inv_zero := zero_pow (by decide)
  nnqsmul := _
  nnqsmul_def := fun _ _ ↦ rfl
  qsmul := _
  qsmul_def := fun _ _ ↦ rfl

instance : CharP GF256 2 := CharTwo.of_one_ne_zero_of_two_eq_zero (by decide) (by decide)

end GF256
