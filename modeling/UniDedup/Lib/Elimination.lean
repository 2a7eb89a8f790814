import Mathlib.Algebra.BigOperators.Ring.Finset
import Mathlib.Algebra.Field.Basic
import Mathlib.Algebra.Module.Submodule.LinearMap
import Mathlib.GroupTheory.GroupAction.Ring

/-!
# Gauss–Jordan elimination

The rows are vectors of any space with coordinates. Columns are taken from left to right: the first row at or
below the diagonal that is not zero in the column is swapped to the diagonal and scaled to one, and its multiples
clear the column below. Then the columns are cleared above the diagonal from right to left.

A linear functional that vanishes on all rows before an operation does so after it, and the other way round
(`SameKernel`). So a pair of a matrix and the unit matrix ends as a unit matrix and the inverse, and a column without
a pivot (`eliminateColumn_eq_none`) leads back to a combination of the columns that was zero from the start.
-/

open Function (update)

namespace Elimination

variable {K V : Type*} [Field K] [AddCommGroup V] [Module K V]

/-! ## Operations on rows -/

def swapRows (i j : ℕ) (rows : ℕ → V) : ℕ → V := rows ∘ Equiv.swap i j

def scaleRow (i : ℕ) (a : K) (rows : ℕ → V) : ℕ → V := update rows i (a • rows i)

/-- Adds a multiple of row `i` to row `j`. -/
def addMultiple (i j : ℕ) (a : K) (rows : ℕ → V) : ℕ → V := update rows j (rows j + a • rows i)

/-- A functional that vanishes on the first `n` rows. -/
def Vanishes (n : ℕ) (f : V →ₗ[K] K) (rows : ℕ → V) : Prop := ∀ r < n, f (rows r) = 0

variable (K) in
def SameKernel (n : ℕ) (rows rows' : ℕ → V) : Prop :=
  ∀ f : V →ₗ[K] K, Vanishes n f rows ↔ Vanishes n f rows'

variable {n i j : ℕ} {rows rows' rows'' : ℕ → V}

theorem SameKernel.refl (rows : ℕ → V) : SameKernel K n rows rows := fun _ ↦ Iff.rfl

theorem SameKernel.trans (h : SameKernel K n rows rows') (h' : SameKernel K n rows' rows'') :
    SameKernel K n rows rows'' := fun f ↦ (h f).trans (h' f)

theorem swap_lt {r : ℕ} (hi : i < n) (hj : j < n) (hr : r < n) : Equiv.swap i j r < n := by
  rcases eq_or_ne r i with rfl | hri
  · rwa [Equiv.swap_apply_left]
  rcases eq_or_ne r j with rfl | hrj
  · rwa [Equiv.swap_apply_right]
  · rwa [Equiv.swap_apply_of_ne_of_ne hri hrj]

theorem sameKernel_swapRows (hi : i < n) (hj : j < n) (rows : ℕ → V) : SameKernel K n rows (swapRows i j rows) := by
  intro f
  refine ⟨fun h r hr ↦ h _ (swap_lt hi hj hr), fun h r hr ↦ ?_⟩
  have hswap := h _ (swap_lt hi hj hr)
  rwa [swapRows, Function.comp_apply, Equiv.swap_apply_self] at hswap

theorem sameKernel_scaleRow {a : K} (ha : a ≠ 0) (rows : ℕ → V) : SameKernel K n rows (scaleRow i a rows) := by
  intro f
  refine ⟨fun h r hr ↦ ?_, fun h r hr ↦ ?_⟩
  · rcases eq_or_ne r i with rfl | hri
    · rw [scaleRow, Function.update_self, map_smul, h r hr, smul_zero]
    · rw [scaleRow, Function.update_of_ne hri, h r hr]
  · have hr' := h r hr
    rcases eq_or_ne r i with rfl | hri
    · rw [scaleRow, Function.update_self, map_smul, smul_eq_mul] at hr'
      exact (mul_eq_zero.mp hr').resolve_left ha
    · rwa [scaleRow, Function.update_of_ne hri] at hr'

theorem sameKernel_addMultiple (hi : i < n) (hij : i ≠ j) (a : K) (rows : ℕ → V) :
    SameKernel K n rows (addMultiple i j a rows) := by
  intro f
  refine ⟨fun h r hr ↦ ?_, fun h r hr ↦ ?_⟩
  · rcases eq_or_ne r j with rfl | hrj
    · rw [addMultiple, Function.update_self, map_add, map_smul, h r hr, h i hi, smul_zero, add_zero]
    · rw [addMultiple, Function.update_of_ne hrj, h r hr]
  · have hi' := h i hi
    rw [addMultiple, Function.update_of_ne hij] at hi'
    have hr' := h r hr
    rcases eq_or_ne r j with rfl | hrj
    · rwa [addMultiple, Function.update_self, map_add, map_smul, hi', smul_zero, add_zero] at hr'
    · rwa [addMultiple, Function.update_of_ne hrj] at hr'

/-! ## The two passes -/

variable (coord : ℕ → V →ₗ[K] K)

/-- Clears a column in some rows by row `i`, which has a one there. -/
def clear (i : ℕ) (js : List ℕ) (rows : ℕ → V) : ℕ → V :=
  js.foldl (fun rows j ↦ addMultiple i j (-coord i (rows j)) rows) rows

open scoped Classical in
/-- The first row at or below the diagonal that is not zero in the column. -/
noncomputable def pivot (n i : ℕ) (rows : ℕ → V) : Option ℕ :=
  (List.range' i (n - i)).find? fun j ↦ decide (coord i (rows j) ≠ 0)

/-- The pivot row is scaled to one and clears the rows below. -/
noncomputable def reduceColumn (n i : ℕ) (rows : ℕ → V) : ℕ → V :=
  clear coord i (List.range' (i + 1) (n - (i + 1))) (scaleRow i (coord i (rows i))⁻¹ rows)

noncomputable def eliminateColumn (n i : ℕ) (rows : ℕ → V) : Option (ℕ → V) :=
  (pivot coord n i rows).map fun j ↦ reduceColumn coord n i (swapRows i j rows)

/-- The pass over the first `m` columns from left to right. -/
noncomputable def forward (n : ℕ) : ℕ → (ℕ → V) → Option (ℕ → V)
  | 0, rows => some rows
  | m + 1, rows => (forward n m rows).bind (eliminateColumn coord n m)

/-- The pass over the first `m` columns from right to left. -/
def backward : ℕ → (ℕ → V) → ℕ → V
  | 0, rows => rows
  | m + 1, rows => backward m (clear coord m (List.range m) rows)

/-- The first `m` columns are one on the diagonal and zero below. -/
def Upper (n m : ℕ) (rows : ℕ → V) : Prop :=
  ∀ c < m, ∀ r < n, c ≤ r → coord c (rows r) = if r = c then 1 else 0

/-- The columns from `m` on are those of the unit matrix. -/
def Reduced (n m : ℕ) (rows : ℕ → V) : Prop :=
  ∀ c < n, m ≤ c → ∀ r < n, coord c (rows r) = if r = c then 1 else 0

variable {coord}

/-! ### Clearing a column -/

theorem clear_apply {js : List ℕ} (hnodup : js.Nodup) (hi : i ∉ js) (rows : ℕ → V) (r : ℕ) :
    clear coord i js rows r = if r ∈ js then rows r - coord i (rows r) • rows i else rows r := by
  induction js generalizing rows with
  | nil => rw [if_neg List.not_mem_nil, clear, List.foldl_nil]
  | cons j js ih =>
    obtain ⟨hj, hnodup⟩ := List.nodup_cons.mp hnodup
    rw [List.mem_cons, not_or] at hi
    rw [clear, List.foldl_cons, ← clear, ih hnodup hi.2]
    rcases eq_or_ne r j with rfl | hrj
    · rw [if_neg hj, if_pos List.mem_cons_self, addMultiple, Function.update_self, neg_smul, sub_eq_add_neg]
    · simp only [addMultiple, Function.update_of_ne hrj, Function.update_of_ne hi.1, List.mem_cons, hrj, false_or]

theorem sameKernel_clear {js : List ℕ} (hin : i < n) (hi : i ∉ js) (rows : ℕ → V) :
    SameKernel K n rows (clear coord i js rows) := by
  induction js generalizing rows with
  | nil => exact .refl rows
  | cons j js ih =>
    rw [List.mem_cons, not_or] at hi
    exact (sameKernel_addMultiple hin hi.1 _ rows).trans (ih hi.2 _)

theorem mem_below {r : ℕ} : r ∈ List.range' (i + 1) (n - (i + 1)) ↔ i < r ∧ r < n := by
  rw [List.mem_range'_1]
  omega

theorem reduceColumn_apply (rows : ℕ → V) (r : ℕ) :
    reduceColumn coord n i rows r =
      if i < r ∧ r < n then rows r - (coord i (rows r) * (coord i (rows i))⁻¹) • rows i
      else if r = i then (coord i (rows i))⁻¹ • rows i else rows r := by
  rw [reduceColumn, clear_apply List.nodup_range' (fun h ↦ (mem_below.mp h).1.false)]
  simp only [mem_below]
  split_ifs with hr hri
  · rw [scaleRow, Function.update_of_ne hr.1.ne', Function.update_self, smul_smul]
  · rw [hri, scaleRow, Function.update_self]
  · rw [scaleRow, Function.update_of_ne hri]

theorem pivot_eq_some (h : pivot coord n i rows = some j) : i ≤ j ∧ j < n ∧ coord i (rows j) ≠ 0 := by
  have hmem := List.mem_range'_1.mp (List.mem_of_find?_eq_some h)
  have hne : coord i (rows j) ≠ 0 := by simpa using List.find?_some h
  exact ⟨hmem.1, by omega, hne⟩

theorem pivot_eq_none (h : pivot coord n i rows = none) : ∀ j, i ≤ j → j < n → coord i (rows j) = 0 := by
  intro j hij hj
  simpa using List.find?_eq_none.mp h j (List.mem_range'_1.mpr ⟨hij, by omega⟩)

/-! ### From left to right -/

theorem Upper.swapRows (h : Upper coord n i rows) (hij : i ≤ j) (hj : j < n) :
    Upper coord n i (swapRows i j rows) := by
  intro c hc r hr hcr
  show coord c (rows (Equiv.swap i j r)) = _
  by_cases hri : r < i
  · rw [Equiv.swap_apply_of_ne_of_ne (by omega) (by omega)]
    exact h c hc r hr hcr
  · -- a row from the diagonal on is zero in the columns before
    have hge : i ≤ Equiv.swap i j r := by
      rcases eq_or_ne r i with rfl | hri'
      · rwa [Equiv.swap_apply_left]
      rcases eq_or_ne r j with rfl | hrj
      · rw [Equiv.swap_apply_right]
      · rw [Equiv.swap_apply_of_ne_of_ne hri' hrj]
        omega
    rw [h c hc _ (swap_lt (hij.trans_lt hj) hj hr) (hc.le.trans hge), if_neg (by omega), if_neg (by omega)]

theorem Upper.reduceColumn (h : Upper coord n i rows) (hi : i < n) (hpivot : coord i (rows i) ≠ 0) :
    Upper coord n (i + 1) (reduceColumn coord n i rows) := by
  intro c hc r hr hcr
  rw [reduceColumn_apply]
  rcases Nat.lt_succ_iff_lt_or_eq.mp hc with hlt | rfl
  · have hzero : coord c (rows i) = 0 := by rw [h c hlt i hi hlt.le, if_neg hlt.ne']
    by_cases hir : i < r ∧ r < n
    · rw [if_pos hir, map_sub, map_smul, hzero, smul_zero, sub_zero, h c hlt r hr hcr]
    · rw [if_neg hir]
      by_cases hri : r = i
      · rw [if_pos hri, map_smul, hzero, smul_zero, if_neg (by omega)]
      · rw [if_neg hri, h c hlt r hr hcr]
  · rcases hcr.eq_or_lt with rfl | hlt
    · rw [if_neg (fun h ↦ h.1.false), if_pos rfl, if_pos rfl, map_smul, smul_eq_mul, inv_mul_cancel₀ hpivot]
    · rw [if_pos ⟨hlt, hr⟩, if_neg hlt.ne', map_sub, map_smul, smul_eq_mul, inv_mul_cancel_right₀ hpivot, sub_self]

theorem sameKernel_reduceColumn (hi : i < n) (hpivot : coord i (rows i) ≠ 0) :
    SameKernel K n rows (reduceColumn coord n i rows) :=
  (sameKernel_scaleRow (inv_ne_zero hpivot) rows).trans
    (sameKernel_clear hi (fun h ↦ (mem_below.mp h).1.false) _)

/-- One column: the columns before stay as they are, and the solutions too. -/
theorem eliminateColumn_eq_some (hupper : Upper coord n i rows) (h : eliminateColumn coord n i rows = some rows') :
    Upper coord n (i + 1) rows' ∧ SameKernel K n rows rows' := by
  obtain ⟨j, hj, rfl⟩ := Option.map_eq_some_iff.mp h
  obtain ⟨hij, hjn, hne⟩ := pivot_eq_some hj
  have hi : i < n := hij.trans_lt hjn
  have hpivot : coord i (swapRows i j rows i) ≠ 0 := by rwa [swapRows, Function.comp_apply, Equiv.swap_apply_left]
  exact ⟨(hupper.swapRows hij hjn).reduceColumn hi hpivot,
    (sameKernel_swapRows hi hjn rows).trans (sameKernel_reduceColumn hi hpivot)⟩

/-- The combination of the first `n` columns with some coefficients. -/
def combination (coord : ℕ → V →ₗ[K] K) (n : ℕ) (x : ℕ → K) : V →ₗ[K] K := ∑ c ∈ Finset.range n, x c • coord c

theorem combination_apply (x : ℕ → K) (v : V) : combination coord n x v = ∑ c ∈ Finset.range n, x c * coord c v := by
  rw [combination, LinearMap.sum_apply]
  rfl

/-- Under a zero pivot column some combination of the columns vanishes: the coefficients are found from the diagonal
upwards, by the ones of the columns before. -/
theorem exists_vanishing (hupper : Upper coord n i rows) (hi : i < n)
    (hzero : ∀ j, i ≤ j → j < n → coord i (rows j) = 0) (m : ℕ) (hm : m ≤ i) :
    ∃ x : ℕ → K, x i = 1 ∧ (∀ c < i - m, x c = 0) ∧ (∀ c, i < c → x c = 0) ∧
      ∀ r < n, i - m ≤ r → combination coord n x (rows r) = 0 := by
  induction m with
  | zero =>
    refine ⟨Pi.single i 1, Pi.single_eq_same i 1, fun c hc ↦ Pi.single_eq_of_ne (by omega) 1,
      fun c hc ↦ Pi.single_eq_of_ne hc.ne' 1, fun r hr hir ↦ ?_⟩
    rw [combination_apply, Finset.sum_eq_single i]
    · rw [hzero r hir hr, mul_zero]
    · exact fun c _ hc ↦ by rw [Pi.single_eq_of_ne hc, zero_mul]
    · exact fun hi' ↦ absurd (Finset.mem_range.mpr hi) hi'
  | succ m ih =>
    obtain ⟨x, hone, hbelow, habove, hrows⟩ := ih (by omega)
    let d := i - (m + 1)
    have hd : d < i - m ∧ d < i ∧ d < n := by omega
    let a := combination coord n x (rows d)
    let y : ℕ → K := fun c ↦ x c - if c = d then a else 0
    have hy : ∀ c ≠ d, y c = x c := fun c hc ↦ by
      show (x c - if c = d then a else 0) = x c
      rw [if_neg hc, sub_zero]
    -- the new coefficient clears row `d`, and column `d` is zero in the rows below
    have hsum : ∀ v, combination coord n y v = combination coord n x v - a * coord d v := by
      intro v
      simp only [combination_apply, y, sub_mul, ite_mul, zero_mul, Finset.sum_sub_distrib]
      rw [Finset.sum_ite_eq', if_pos (Finset.mem_range.mpr hd.2.2)]
    refine ⟨y, ?_, fun c hc ↦ ?_, fun c hc ↦ ?_, fun r hr hdr ↦ ?_⟩
    · rw [hy i hd.2.1.ne', hone]
    · rw [hy c (by omega), hbelow c (by omega)]
    · rw [hy c (by omega), habove c hc]
    · rw [hsum, hupper d hd.2.1 r hr hdr]
      split_ifs with hrd
      · rw [hrd, mul_one, sub_self]
      · rw [hrows r hr (by omega), mul_zero, sub_zero]

variable (coord) in
/-- Some combination of the columns that is not empty is zero. -/
def Dependent (n : ℕ) (rows : ℕ → V) : Prop :=
  ∃ x : ℕ → K, (∃ c < n, x c ≠ 0) ∧ Vanishes n (combination coord n x) rows

theorem eliminateColumn_eq_none (hupper : Upper coord n i rows) (hi : i < n)
    (h : eliminateColumn coord n i rows = none) : Dependent coord n rows := by
  obtain ⟨x, hone, -, -, hrows⟩ :=
    exists_vanishing hupper hi (pivot_eq_none (Option.map_eq_none_iff.mp h)) i le_rfl
  exact ⟨x, ⟨i, hi, hone ▸ one_ne_zero⟩, fun r hr ↦ hrows r hr (by omega)⟩

theorem forward_eq_some {m : ℕ} (h : forward coord n m rows = some rows') :
    Upper coord n m rows' ∧ SameKernel K n rows rows' := by
  induction m generalizing rows' with
  | zero =>
    obtain rfl := Option.some.inj h
    exact ⟨fun c hc ↦ absurd hc (Nat.not_lt_zero c), .refl rows⟩
  | succ m ih =>
    obtain ⟨rows₁, h₁, h₂⟩ := Option.bind_eq_some_iff.mp h
    obtain ⟨hupper, hsame⟩ := ih h₁
    obtain ⟨hupper', hsame'⟩ := eliminateColumn_eq_some hupper h₂
    exact ⟨hupper', hsame.trans hsame'⟩

/-- **The first pass ends early** only on dependent columns. -/
theorem forward_eq_none {m : ℕ} (hm : m ≤ n) (h : forward coord n m rows = none) : Dependent coord n rows := by
  induction m with
  | zero => exact absurd h (Option.some_ne_none rows)
  | succ m ih =>
    cases h₁ : forward coord n m rows with
    | none => exact ih (by omega) h₁
    | some rows₁ =>
      obtain ⟨hupper, hsame⟩ := forward_eq_some h₁
      obtain ⟨x, hx, hvanishes⟩ :=
        eliminateColumn_eq_none hupper (by omega) (Option.bind_eq_none_iff.mp h rows₁ h₁)
      exact ⟨x, hx, (hsame _).mpr hvanishes⟩

/-! ### From right to left -/

theorem Upper.clear {m : ℕ} (h : Upper coord n n rows) (hm : m < n) :
    Upper coord n n (clear coord m (List.range m) rows) := by
  intro c hc r hr hcr
  rw [clear_apply List.nodup_range List.not_mem_range_self]
  by_cases hrm : r ∈ List.range m
  · have hcm : c < m := hcr.trans_lt (List.mem_range.mp hrm)
    rw [if_pos hrm, map_sub, map_smul, h c hc m hm hcm.le, if_neg hcm.ne', smul_zero, sub_zero, h c hc r hr hcr]
  · rw [if_neg hrm, h c hc r hr hcr]

theorem Reduced.clear {m : ℕ} (hupper : Upper coord n n rows) (h : Reduced coord n (m + 1) rows) (hm : m < n) :
    Reduced coord n m (clear coord m (List.range m) rows) := by
  intro c hc hmc r hr
  rw [clear_apply List.nodup_range List.not_mem_range_self]
  rcases hmc.eq_or_lt with rfl | hlt
  · by_cases hrm : r < m
    · rw [if_pos (List.mem_range.mpr hrm), map_sub, map_smul, hupper m hc m hm le_rfl, if_pos rfl, smul_eq_mul,
        mul_one, sub_self, if_neg hrm.ne]
    · rw [if_neg (fun h ↦ hrm (List.mem_range.mp h)), hupper m hc r hr (Nat.le_of_not_lt hrm)]
  · by_cases hrm : r ∈ List.range m
    · rw [if_pos hrm, map_sub, map_smul, h c hc hlt m hm, if_neg hlt.ne, smul_zero, sub_zero, h c hc hlt r hr]
    · rw [if_neg hrm, h c hc hlt r hr]

/-- **The second pass** ends with the unit matrix. -/
theorem reduced_backward {m : ℕ} (hm : m ≤ n) (hupper : Upper coord n n rows) (h : Reduced coord n m rows) :
    Reduced coord n 0 (backward coord m rows) ∧ SameKernel K n rows (backward coord m rows) := by
  induction m generalizing rows with
  | zero => exact ⟨h, .refl rows⟩
  | succ m ih =>
    obtain ⟨hreduced, hsame⟩ := ih (by omega) (hupper.clear (by omega)) (h.clear hupper (by omega))
    exact ⟨hreduced, (sameKernel_clear (by omega) List.not_mem_range_self rows).trans hsame⟩

end Elimination
