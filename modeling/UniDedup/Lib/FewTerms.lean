import Mathlib.LinearAlgebra.Vandermonde

/-!
# Polynomials with few terms

A vector of `k` coefficients is a polynomial of degree below `k`. It vanishes at `k` distinct points
only when it is zero; here the points may be fewer, as many as the polynomial has terms. One term has
no root but zero, and two terms are both zero or tie the powers of any two roots.
-/

namespace FewTerms

variable {F : Type*} [Field F] {k : ℕ} {x : Fin k → F} {R : Finset F}

/-- The value at `a` of the polynomial with the given coefficients. -/
def value (x : Fin k → F) (a : F) : F := ∑ j : Fin k, a ^ (j : ℕ) * x j

theorem eq_zero_of_card_le (hroot : ∀ a ∈ R, value x a = 0) (hcard : k ≤ R.card) : x = 0 := by
  obtain ⟨S, hS, hSk⟩ := Finset.exists_subset_card_eq hcard
  refine Matrix.eq_zero_of_forall_index_sum_pow_mul_eq_zero
    (f := fun i ↦ ((S.equivFinOfCardEq hSk).symm i : F)) ?_ fun i ↦ ?_
  · exact Subtype.val_injective.comp (Equiv.injective _)
  · exact hroot _ (hS (Subtype.prop _))

theorem value_ne_zero {j : Fin k} (hj : x j ≠ 0) (hother : ∀ i, i ≠ j → x i = 0) {a : F} (ha : a ≠ 0) :
    value x a ≠ 0 := by
  have hvalue : value x a = a ^ (j : ℕ) * x j := by
    refine Finset.sum_eq_single j (fun i _ hi ↦ ?_) fun h ↦ absurd (Finset.mem_univ j) h
    rw [hother i hi, mul_zero]
  rw [hvalue]
  exact mul_ne_zero (pow_ne_zero _ ha) hj

theorem two_terms {i j : Fin k} (hij : i < j) (hother : ∀ l, l ≠ i → l ≠ j → x l = 0) {a : F}
    (ha : a ≠ 0) (hroot : value x a = 0) : x i + a ^ (j - i : ℕ) * x j = 0 := by
  have hvalue : value x a = a ^ (i : ℕ) * x i + a ^ (j : ℕ) * x j := by
    refine Finset.sum_eq_add i j (ne_of_lt hij) (fun l _ hl ↦ ?_) (fun h ↦ absurd (Finset.mem_univ i) h)
      fun h ↦ absurd (Finset.mem_univ j) h
    rw [hother l hl.1 hl.2, mul_zero]
  have hfactor : a ^ (i : ℕ) * (x i + a ^ (j - i : ℕ) * x j) = 0 := by
    rw [mul_add, ← mul_assoc, ← pow_add, Nat.add_sub_cancel' (le_of_lt hij), ← hvalue, hroot]
  exact (mul_eq_zero.mp hfactor).resolve_left (pow_ne_zero _ ha)

theorem pow_eq_pow {i j : Fin k} (hij : i < j) (hj : x j ≠ 0)
    (hother : ∀ l, l ≠ i → l ≠ j → x l = 0) {a b : F} (ha : a ≠ 0) (hb : b ≠ 0)
    (hroot : value x a = 0) (hroot' : value x b = 0) : a ^ (j - i : ℕ) = b ^ (j - i : ℕ) := by
  have hsum : x i + a ^ (j - i : ℕ) * x j = x i + b ^ (j - i : ℕ) * x j := by
    rw [two_terms hij hother ha hroot, two_terms hij hother hb hroot']
  exact mul_right_cancel₀ hj (add_left_cancel hsum)

/-- **As many roots as terms.** Such a polynomial has three roots or more, or the powers of two of its
roots are the same. -/
theorem three_le_or_pow_eq [DecidableEq F] (hx : x ≠ 0) (h0 : 0 ∉ R) (hroot : ∀ a ∈ R, value x a = 0)
    (hterms : (Finset.univ.filter (x · ≠ 0)).card ≤ R.card) :
    3 ≤ R.card ∨ ∃ i j : Fin k, i < j ∧ ∃ a ∈ R, ∃ b ∈ R, a ≠ b ∧
      a ^ (j - i : ℕ) = b ^ (j - i : ℕ) := by
  have hne : ∀ a ∈ R, a ≠ 0 := fun a ha h ↦ h0 (h ▸ ha)
  obtain ⟨j, hj⟩ : ∃ j, x j ≠ 0 := Function.ne_iff.mp hx
  by_cases hone : ∀ i, i ≠ j → x i = 0
  · -- One term: there is a root, and it is not zero.
    have hpos : 0 < (Finset.univ.filter (x · ≠ 0)).card :=
      Finset.card_pos.mpr ⟨j, Finset.mem_filter.mpr ⟨Finset.mem_univ j, hj⟩⟩
    obtain ⟨a, ha⟩ := Finset.card_pos.mp (hpos.trans_le hterms)
    exact absurd (hroot a ha) (value_ne_zero hj hone (hne a ha))
  push Not at hone
  obtain ⟨i, hij, hi⟩ := hone
  have hpair : ({i, j} : Finset (Fin k)) ⊆ Finset.univ.filter (x · ≠ 0) := by
    intro l hl
    rcases Finset.mem_insert.mp hl with rfl | hl
    · exact Finset.mem_filter.mpr ⟨Finset.mem_univ _, hi⟩
    · rw [Finset.mem_singleton.mp hl]
      exact Finset.mem_filter.mpr ⟨Finset.mem_univ _, hj⟩
  by_cases htwo : ∀ l, l ≠ i → l ≠ j → x l = 0
  · right
    have hcard : 1 < R.card := by
      have := (Finset.card_le_card hpair).trans hterms
      rwa [Finset.card_pair hij] at this
    obtain ⟨a, ha, b, hb, hab⟩ := Finset.one_lt_card.mp hcard
    rcases lt_or_gt_of_ne hij with hlt | hlt
    · exact ⟨i, j, hlt, a, ha, b, hb, hab,
        pow_eq_pow hlt hj htwo (hne a ha) (hne b hb) (hroot a ha) (hroot b hb)⟩
    · exact ⟨j, i, hlt, a, ha, b, hb, hab,
        pow_eq_pow hlt hi (fun l hlj hli ↦ htwo l hli hlj) (hne a ha) (hne b hb) (hroot a ha)
          (hroot b hb)⟩
  · left
    push Not at htwo
    obtain ⟨l, hli, hlj, hl⟩ := htwo
    have hthree : insert l ({i, j} : Finset (Fin k)) ⊆ Finset.univ.filter (x · ≠ 0) :=
      Finset.insert_subset (Finset.mem_filter.mpr ⟨Finset.mem_univ l, hl⟩) hpair
    have hnot : l ∉ ({i, j} : Finset (Fin k)) := by simp [hli, hlj]
    have := (Finset.card_le_card hthree).trans hterms
    rwa [Finset.card_insert_of_notMem hnot, Finset.card_pair hij] at this

end FewTerms
