import Mathlib.LinearAlgebra.Matrix.ToLin
import UniDedup.Lib.Elimination
import UniDedup.Lib.WordField
import UniDedup.Storage.Decoding

/-!
# The inversion of matrices

`jerasure_invert_matrix` inverts the matrix of a decoder in place: it turns `mat` into the unit matrix, and does to
`inv`, which it fills with the unit matrix first, what it does to `mat`. It returns `-1` where it finds no pivot. The
second pass writes only one cell of `mat` for every row it changes, since the row it subtracts is known to be one of the
unit matrix.

The cells are words. The multiplication and the division of words are a library's, `gfp_array[w]`, and parameters
here (`Galois.Computes`).
-/

open Function (update)

namespace UniDedup.Storage

/-- The words of a matrix, row after row. -/
abbrev Cells := ℕ → ℕ

section Routine

variable (multiply divide : ℕ → ℕ → ℕ → ℕ)

/-- `galois_single_multiply`. -/
def Galois.singleMultiply (x y w : ℕ) : ℕ :=
  if x = 0 ∨ y = 0 then 0 else if w ≤ 32 then multiply w x y else 0

/-- `galois_single_divide`, which returns the word of `-1` for a division by zero. -/
def Galois.singleDivide (x y w : ℕ) : ℕ :=
  if x = 0 then 0 else if y = 0 then 2 ^ 32 - 1 else if w ≤ 32 then divide w x y else 0

namespace Jerasure

/-- The first loop, which fills `inv` and counts the cells in `k`. -/
def fillUnit (rows : ℕ) (inv : Cells) : Cells :=
  ((List.range rows).foldl
    (fun (s : Cells × ℕ) i ↦
      (List.range rows).foldl (fun s j ↦ (update s.1 s.2 (if i = j then 1 else 0), s.2 + 1)) s)
    (inv, 0)).1

/-- A loop over the columns that treats `mat` and `inv` alike. -/
def eachColumn (cols : ℕ) (f : Cells → ℕ → Cells) (s : Cells × Cells) : Cells × Cells :=
  (List.range cols).foldl (fun s k ↦ (f s.1 k, f s.2 k)) s

def swapCell (a b : ℕ) (m : Cells) (k : ℕ) : Cells :=
  update (update m (a + k) (m (b + k))) (b + k) (m (a + k))

def scaleCell (w inverse a : ℕ) (m : Cells) (k : ℕ) : Cells :=
  update m (a + k) (Galois.singleMultiply multiply (m (a + k)) inverse w)

def xorCell (a b : ℕ) (m : Cells) (k : ℕ) : Cells := update m (b + k) (m (b + k) ^^^ m (a + k))

def addCell (w tmp a b : ℕ) (m : Cells) (k : ℕ) : Cells :=
  update m (b + k) (m (b + k) ^^^ Galois.singleMultiply multiply tmp (m (a + k)) w)

/-- The loop that looks for a row to swap with. -/
def findRow (rows i : ℕ) (mat : Cells) : Option ℕ :=
  (List.range' (i + 1) (rows - (i + 1))).find? fun j ↦ mat (rows * j + i) ≠ 0

/-- The swap for a zero on the diagonal; `none` where the routine gives up. -/
def swapStep (rows i : ℕ) (s : Cells × Cells) : Option (Cells × Cells) :=
  if s.1 (rows * i + i) = 0 then
    (findRow rows i s.1).map fun j ↦ eachColumn rows (swapCell (rows * i) (j * rows)) s
  else some s

/-- The multiplication of the row by one over its cell on the diagonal. -/
def scaleStep (rows w i : ℕ) (s : Cells × Cells) : Cells × Cells :=
  let tmp := s.1 (rows * i + i)
  if tmp ≠ 1 then eachColumn rows (scaleCell multiply w (Galois.singleDivide divide 1 tmp w) (rows * i)) s else s

/-- One turn of the loop over the rows below. -/
def clearBelow (rows w i : ℕ) (s : Cells × Cells) (j : ℕ) : Cells × Cells :=
  let tmp := s.1 (rows * j + i)
  if tmp ≠ 0 then
    if tmp = 1 then eachColumn rows (xorCell (rows * i) (rows * j)) s
    else eachColumn rows (addCell multiply w tmp (rows * i) (rows * j)) s
  else s

/-- One turn of the loop that makes the matrix upper triangular. The arrays stay as they are where it gives up. -/
def upperStep (rows w : ℕ) (s : Cells × Cells) (i : ℕ) : Except (Cells × Cells) (Cells × Cells) :=
  match swapStep rows i s with
  | none => .error s
  | some s => .ok ((List.range' (i + 1) (rows - (i + 1))).foldl (clearBelow multiply rows w i)
      (scaleStep multiply divide rows w i s))

/-- One turn of the loop over the rows above. -/
def clearAbove (rows w i : ℕ) (s : Cells × Cells) (j : ℕ) : Cells × Cells :=
  let tmp := s.1 (j * rows + i)
  if tmp ≠ 0 then
    (update s.1 (j * rows + i) 0,
      (List.range rows).foldl (addCell multiply w tmp (i * rows) (j * rows)) s.2)
  else s

/-- `jerasure_invert_matrix`: what it returns, and the cells of `mat` and `inv` after it. -/
def invertMatrix (mat inv : Cells) (rows w : ℕ) : ℤ × (Cells × Cells) :=
  match (List.range rows).foldlM (upperStep multiply divide rows w) (mat, fillUnit rows inv) with
  | .error s => (-1, s)
  | .ok s => (0, (List.range rows).reverse.foldl
      (fun s i ↦ (List.range i).foldl (clearAbove multiply rows w i) s) s)

end Jerasure

end Routine

/-- The words are multiplied and divided as in a field. -/
structure Galois.Computes {w : ℕ} (W : WordField w) (multiply divide : ℕ → ℕ → ℕ → ℕ) : Prop where
  pos : 1 ≤ w
  width : w ≤ 32
  multiply_lt : ∀ x y, x ≠ 0 → y ≠ 0 → x < 2 ^ w → y < 2 ^ w → multiply w x y < 2 ^ w
  multiply_eq : ∀ x y, x ≠ 0 → y ≠ 0 → x < 2 ^ w → y < 2 ^ w →
    W.ofWord (multiply w x y) = W.ofWord x * W.ofWord y
  divide_lt : ∀ x y, x ≠ 0 → y ≠ 0 → x < 2 ^ w → y < 2 ^ w → divide w x y < 2 ^ w
  divide_eq : ∀ x y, x ≠ 0 → y ≠ 0 → x < 2 ^ w → y < 2 ^ w →
    W.ofWord (divide w x y) = W.ofWord x / W.ofWord y

namespace Jerasure

/-! ## Loops over the columns of a row -/

theorem eachColumn_eq (cols : ℕ) (f : Cells → ℕ → Cells) (s : Cells × Cells) :
    eachColumn cols f s = ((List.range cols).foldl f s.1, (List.range cols).foldl f s.2) := by
  rw [eachColumn]
  induction List.range cols generalizing s with
  | nil => rfl
  | cons k ks ih => rw [List.foldl_cons, ih, List.foldl_cons, List.foldl_cons]

/-- A loop that rewrites a row cell by cell, from itself and the same column of another row. -/
theorem foldl_writeRow {n : ℕ} (g : ℕ → ℕ → ℕ) (m : Cells) (i j r : ℕ) {c l : ℕ} (hc : c < n) (hl : l ≤ n) :
    (List.range l).foldl (fun m k ↦ update m (j * n + k) (g (m (j * n + k)) (m (i * n + k)))) m (r * n + c) =
      if r = j ∧ c < l then g (m (j * n + c)) (m (i * n + c)) else m (r * n + c) := by
  induction l generalizing r c with
  | zero => rw [if_neg (fun h ↦ Nat.not_lt_zero c h.2), List.range_zero, List.foldl_nil]
  | succ l ih =>
    have hl' : l < n := hl
    rw [List.range_succ, List.foldl_append, List.foldl_cons, List.foldl_nil]
    -- column `l` has not been written before
    have hj := ih j hl' hl'.le
    have hi := ih i hl' hl'.le
    rw [if_neg (fun h ↦ h.2.false)] at hj hi
    rcases eq_or_ne (r * n + c) (j * n + l) with heq | hne
    · obtain ⟨rfl, rfl⟩ := (cell_inj hc hl').mp heq
      rw [Function.update_self, hj, hi, if_pos ⟨rfl, Nat.lt_succ_self c⟩]
    · have hiff : r = j ∧ c < l ↔ r = j ∧ c < l + 1 := by
        refine ⟨fun h ↦ ⟨h.1, h.2.trans (Nat.lt_succ_self l)⟩, fun h ↦ ⟨h.1, ?_⟩⟩
        rcases Nat.lt_succ_iff_lt_or_eq.mp h.2 with hlt | rfl
        · exact hlt
        · exact absurd (by rw [h.1]) hne
      rw [Function.update_of_ne hne, ih r hc hl'.le]
      simp only [hiff]

theorem foldl_swapCell {n : ℕ} (m : Cells) {i j : ℕ} (hij : i ≠ j) (r : ℕ) {c l : ℕ} (hc : c < n) (hl : l ≤ n) :
    (List.range l).foldl (swapCell (n * i) (j * n)) m (r * n + c) =
      if c < l then m (Equiv.swap i j r * n + c) else m (r * n + c) := by
  induction l generalizing r c with
  | zero => rw [if_neg (Nat.not_lt_zero c), List.range_zero, List.foldl_nil]
  | succ l ih =>
    have hl' : l < n := hl
    rw [List.range_succ, List.foldl_append, List.foldl_cons, List.foldl_nil, swapCell, mul_comm n i]
    rw [mul_comm n i] at ih
    have hrow := fun r ↦ ih r hl' hl'.le
    simp only [Nat.lt_irrefl, if_false] at hrow
    rw [hrow, hrow]
    rcases eq_or_ne c l with rfl | hcl
    · rw [if_pos (Nat.lt_succ_self c)]
      rcases eq_or_ne r j with rfl | hrj
      · rw [Function.update_self, Equiv.swap_apply_right]
      rw [Function.update_of_ne fun h ↦ hrj ((cell_inj hc hc).mp h).1]
      rcases eq_or_ne r i with rfl | hri
      · rw [Function.update_self, Equiv.swap_apply_left]
      · rw [Function.update_of_ne fun h ↦ hri ((cell_inj hc hc).mp h).1, hrow, Equiv.swap_apply_of_ne_of_ne hri hrj]
    · have hiff : c < l + 1 ↔ c < l := by omega
      rw [Function.update_of_ne fun h ↦ hcl ((cell_inj hc hl').mp h).2,
        Function.update_of_ne fun h ↦ hcl ((cell_inj hc hl').mp h).2, ih r hc hl'.le]
      simp only [hiff]

/-! ## The operations on rows -/

section Words

open Elimination

variable {w n : ℕ} {W : WordField w} {multiply divide : ℕ → ℕ → ℕ → ℕ} {s : Cells × Cells} {i j : ℕ}

/-- The rows of both matrices, side by side. -/
def rowsOf (W : WordField w) (n : ℕ) (s : Cells × Cells) (r : ℕ) : (Fin n → W.F) × (Fin n → W.F) :=
  (fun c ↦ W.ofWord (s.1 (r * n + c)), fun c ↦ W.ofWord (s.2 (r * n + c)))

def Bounded (n w : ℕ) (s : Cells × Cells) : Prop :=
  ∀ r < n, ∀ c < n, s.1 (r * n + c) < 2 ^ w ∧ s.2 (r * n + c) < 2 ^ w

/-- A coordinate of the row of `mat`. -/
def column (W : WordField w) (n c : ℕ) : (Fin n → W.F) × (Fin n → W.F) →ₗ[W.F] W.F :=
  if h : c < n then LinearMap.proj ⟨c, h⟩ ∘ₗ LinearMap.fst W.F _ _ else 0

theorem column_rowsOf (W : WordField w) {c : ℕ} (hc : c < n) (s : Cells × Cells) (r : ℕ) :
    column W n c (rowsOf W n s r) = W.ofWord (s.1 (r * n + c)) := by
  rw [column, dif_pos hc]
  rfl

theorem ofWord_eq_zero (W : WordField w) {x : ℕ} (hx : x < 2 ^ w) : W.ofWord x = 0 ↔ x = 0 := by
  refine ⟨fun h ↦ W.inj x 0 hx (Nat.zero_lt_of_lt hx) (by rw [h, W.zero]), ?_⟩
  rintro rfl
  exact W.zero

theorem singleMultiply_spec (h : Galois.Computes W multiply divide) {x y : ℕ} (hx : x < 2 ^ w) (hy : y < 2 ^ w) :
    Galois.singleMultiply multiply x y w < 2 ^ w ∧
      W.ofWord (Galois.singleMultiply multiply x y w) = W.ofWord x * W.ofWord y := by
  rw [Galois.singleMultiply]
  split_ifs with hzero hw
  · refine ⟨Nat.zero_lt_of_lt hx, ?_⟩
    rcases hzero with rfl | rfl
    · rw [W.zero, zero_mul]
    · rw [W.zero, mul_zero]
  · rw [not_or] at hzero
    exact ⟨h.multiply_lt x y hzero.1 hzero.2 hx hy, h.multiply_eq x y hzero.1 hzero.2 hx hy⟩
  · exact absurd h.width hw

theorem singleDivide_spec (h : Galois.Computes W multiply divide) {y : ℕ} (hy : y < 2 ^ w) (hy0 : y ≠ 0) :
    Galois.singleDivide divide 1 y w < 2 ^ w ∧
      W.ofWord (Galois.singleDivide divide 1 y w) = (W.ofWord y)⁻¹ := by
  have hone := WordField.one_lt h.pos
  rw [Galois.singleDivide, if_neg one_ne_zero, if_neg hy0, if_pos h.width,
    h.divide_eq 1 y one_ne_zero hy0 hone hy, W.one, one_div]
  exact ⟨h.divide_lt 1 y one_ne_zero hy0 hone hy, rfl⟩

theorem neg_word (hw : 1 ≤ w) (x : W.F) : -x = x := neg_eq_of_add_eq_zero_left (W.add_self hw x)

/-- A loop that writes a linear combination of two rows over the first one. -/
theorem rowsOf_writeRow {g : ℕ → ℕ → ℕ} {a b : W.F} (hs : Bounded n w s) (hi : i < n) (hj : j < n)
    (hg : ∀ x y, x < 2 ^ w → y < 2 ^ w → g x y < 2 ^ w ∧ W.ofWord (g x y) = a * W.ofWord x + b * W.ofWord y)
    {s' : Cells × Cells}
    (hs' : s' = eachColumn n (fun m k ↦ update m (j * n + k) (g (m (j * n + k)) (m (i * n + k)))) s) :
    Bounded n w s' ∧ rowsOf W n s' = update (rowsOf W n s) j (a • rowsOf W n s j + b • rowsOf W n s i) := by
  rw [eachColumn_eq] at hs'
  have hcell : ∀ r c, c < n →
      s'.1 (r * n + c) = (if r = j then g (s.1 (j * n + c)) (s.1 (i * n + c)) else s.1 (r * n + c)) ∧
        s'.2 (r * n + c) = if r = j then g (s.2 (j * n + c)) (s.2 (i * n + c)) else s.2 (r * n + c) := by
    intro r c hc
    have hrow := fun m ↦ foldl_writeRow g m i j r hc le_rfl
    simp only [hc, and_true] at hrow
    rw [hs']
    exact ⟨hrow s.1, hrow s.2⟩
  refine ⟨fun r hr c hc ↦ ?_, funext fun r ↦ ?_⟩
  · rw [(hcell r c hc).1, (hcell r c hc).2]
    split_ifs
    · exact ⟨(hg _ _ (hs j hj c hc).1 (hs i hi c hc).1).1, (hg _ _ (hs j hj c hc).2 (hs i hi c hc).2).1⟩
    · exact hs r hr c hc
  · rcases eq_or_ne r j with rfl | hrj
    · rw [Function.update_self]
      refine Prod.ext (funext fun c ↦ ?_) (funext fun c ↦ ?_)
      · show W.ofWord (s'.1 (r * n + c)) = _
        rw [(hcell r c c.isLt).1, if_pos rfl]
        exact (hg _ _ (hs r hj c c.isLt).1 (hs i hi c c.isLt).1).2
      · show W.ofWord (s'.2 (r * n + c)) = _
        rw [(hcell r c c.isLt).2, if_pos rfl]
        exact (hg _ _ (hs r hj c c.isLt).2 (hs i hi c c.isLt).2).2
    · rw [Function.update_of_ne hrj]
      refine Prod.ext (funext fun c ↦ ?_) (funext fun c ↦ ?_)
      · show W.ofWord (s'.1 (r * n + c)) = _
        rw [(hcell r c c.isLt).1, if_neg hrj]
        rfl
      · show W.ofWord (s'.2 (r * n + c)) = _
        rw [(hcell r c c.isLt).2, if_neg hrj]
        rfl

theorem rowsOf_swap (hs : Bounded n w s) (hi : i < n) (hj : j < n) (hij : i ≠ j) :
    Bounded n w (eachColumn n (swapCell (n * i) (j * n)) s) ∧
      rowsOf W n (eachColumn n (swapCell (n * i) (j * n)) s) = swapRows i j (rowsOf W n s) := by
  rw [eachColumn_eq]
  have hcell : ∀ (m : Cells) r c, c < n →
      (List.range n).foldl (swapCell (n * i) (j * n)) m (r * n + c) = m (Equiv.swap i j r * n + c) := by
    intro m r c hc
    rw [foldl_swapCell m hij r hc le_rfl, if_pos hc]
  refine ⟨fun r hr c hc ↦ ?_, funext fun r ↦ Prod.ext (funext fun c ↦ ?_) (funext fun c ↦ ?_)⟩
  · obtain ⟨hmat, hinv⟩ := hs _ (swap_lt hi hj hr) c hc
    exact ⟨(hcell s.1 r c hc).trans_lt hmat, (hcell s.2 r c hc).trans_lt hinv⟩
  · exact congrArg W.ofWord (hcell s.1 r c c.isLt)
  · exact congrArg W.ofWord (hcell s.2 r c c.isLt)

theorem rowsOf_scaleStep (h : Galois.Computes W multiply divide) (hs : Bounded n w s) (hi : i < n)
    (hpivot : s.1 (i * n + i) ≠ 0) :
    Bounded n w (scaleStep multiply divide n w i s) ∧ rowsOf W n (scaleStep multiply divide n w i s) =
      scaleRow i (column W n i (rowsOf W n s i))⁻¹ (rowsOf W n s) := by
  rw [column_rowsOf W hi, scaleStep, mul_comm n i]
  by_cases hone : s.1 (i * n + i) = 1
  · rw [if_neg (not_not.mpr hone), hone, W.one, inv_one, scaleRow, one_smul, Function.update_eq_self]
    exact ⟨hs, rfl⟩
  · rw [if_pos hone]
    obtain ⟨hlt, heq⟩ := singleDivide_spec h (hs i hi i hi).1 hpivot
    have hg : ∀ x y, x < 2 ^ w → y < 2 ^ w →
        Galois.singleMultiply multiply x (Galois.singleDivide divide 1 (s.1 (i * n + i)) w) w < 2 ^ w ∧
          W.ofWord (Galois.singleMultiply multiply x (Galois.singleDivide divide 1 (s.1 (i * n + i)) w) w) =
            (W.ofWord (s.1 (i * n + i)))⁻¹ * W.ofWord x + 0 * W.ofWord y := by
      intro x y hx _
      obtain ⟨hlt', heq'⟩ := singleMultiply_spec h hx hlt
      exact ⟨hlt', by rw [heq', heq, zero_mul, add_zero, mul_comm]⟩
    obtain ⟨hbound, hrows⟩ := rowsOf_writeRow hs hi hi hg rfl
    rw [zero_smul, add_zero] at hrows
    exact ⟨hbound, hrows⟩

theorem rowsOf_addCell (h : Galois.Computes W multiply divide) (hs : Bounded n w s) (hi : i < n) (hj : j < n) {tmp : ℕ}
    (htmp : tmp < 2 ^ w) : Bounded n w (eachColumn n (addCell multiply w tmp (i * n) (j * n)) s) ∧
      rowsOf W n (eachColumn n (addCell multiply w tmp (i * n) (j * n)) s) =
        addMultiple i j (-W.ofWord tmp) (rowsOf W n s) := by
  have hg : ∀ x y, x < 2 ^ w → y < 2 ^ w → x ^^^ Galois.singleMultiply multiply tmp y w < 2 ^ w ∧
      W.ofWord (x ^^^ Galois.singleMultiply multiply tmp y w) = 1 * W.ofWord x + -W.ofWord tmp * W.ofWord y := by
    intro x y hx hy
    obtain ⟨hlt, heq⟩ := singleMultiply_spec h htmp hy
    exact ⟨Nat.xor_lt_two_pow hx hlt, by rw [W.xor x _ hx hlt, heq, one_mul, neg_word h.pos]⟩
  obtain ⟨hbound, hrows⟩ := rowsOf_writeRow hs hi hj hg rfl
  rw [one_smul] at hrows
  exact ⟨hbound, hrows⟩

theorem rowsOf_xorCell (h : Galois.Computes W multiply divide) (hs : Bounded n w s) (hi : i < n) (hj : j < n) :
    Bounded n w (eachColumn n (xorCell (i * n) (j * n)) s) ∧
      rowsOf W n (eachColumn n (xorCell (i * n) (j * n)) s) = addMultiple i j (-W.ofWord 1) (rowsOf W n s) := by
  have hg : ∀ x y, x < 2 ^ w → y < 2 ^ w →
      x ^^^ y < 2 ^ w ∧ W.ofWord (x ^^^ y) = 1 * W.ofWord x + -W.ofWord 1 * W.ofWord y := by
    intro x y hx hy
    exact ⟨Nat.xor_lt_two_pow hx hy, by rw [W.xor x y hx hy, W.one, one_mul, neg_word h.pos, one_mul]⟩
  obtain ⟨hbound, hrows⟩ := rowsOf_writeRow hs hi hj hg rfl
  rw [one_smul] at hrows
  exact ⟨hbound, hrows⟩

theorem addMultiple_zero {V : Type*} [AddCommGroup V] [Module W.F V] (i j : ℕ) (rows : ℕ → V) :
    addMultiple i j (-(0 : W.F)) rows = rows := by
  rw [addMultiple, neg_zero, zero_smul, add_zero, Function.update_eq_self]

theorem rowsOf_clearBelow (h : Galois.Computes W multiply divide) (hs : Bounded n w s) (hi : i < n) (hj : j < n) :
    Bounded n w (clearBelow multiply n w i s j) ∧ rowsOf W n (clearBelow multiply n w i s j) =
      addMultiple i j (-column W n i (rowsOf W n s j)) (rowsOf W n s) := by
  rw [column_rowsOf W hi, clearBelow, mul_comm n i, mul_comm n j]
  by_cases hzero : s.1 (j * n + i) = 0
  · rw [if_neg (not_not.mpr hzero), hzero, W.zero, addMultiple_zero]
    exact ⟨hs, rfl⟩
  · rw [if_pos hzero]
    split_ifs with hone
    · rw [hone]
      exact rowsOf_xorCell h hs hi hj
    · exact rowsOf_addCell h hs hi hj (hs j hj i hi).1

/-! ## The first pass -/

theorem rowsOf_foldl_clearBelow (h : Galois.Computes W multiply divide) (hi : i < n) {js : List ℕ} (hjs : ∀ j ∈ js, j < n)
    (hs : Bounded n w s) : Bounded n w (js.foldl (clearBelow multiply n w i) s) ∧
      rowsOf W n (js.foldl (clearBelow multiply n w i) s) = clear (column W n) i js (rowsOf W n s) := by
  induction js generalizing s with
  | nil => exact ⟨hs, rfl⟩
  | cons j js ih =>
    obtain ⟨hbound, hrows⟩ := rowsOf_clearBelow h hs hi (hjs j List.mem_cons_self)
    obtain ⟨hbound', hrows'⟩ := ih (fun j hj ↦ hjs j (List.mem_cons_of_mem _ hj)) hbound
    rw [hrows] at hrows'
    exact ⟨hbound', hrows'⟩

theorem pivot_eq_findRow (hs : Bounded n w s) (hi : i < n) :
    pivot (column W n) n i (rowsOf W n s) = if s.1 (i * n + i) = 0 then findRow n i s.1 else some i := by
  have hzero : ∀ j < n, column W n i (rowsOf W n s j) = 0 ↔ s.1 (j * n + i) = 0 := fun j hj ↦ by
    rw [column_rowsOf W hi, ofWord_eq_zero W (hs j hj i hi).1]
  have hsucc : n - i = n - (i + 1) + 1 := by omega
  rw [pivot, hsucc, List.range'_succ]
  split_ifs with hdiag
  · rw [List.find?_cons_of_neg (by simpa using (hzero i hi).mpr hdiag), findRow]
    refine List.find?_congr fun j hj ↦ ?_
    have hj' := (mem_below.mp hj).2
    rw [mul_comm n j]
    exact decide_eq_decide.mpr (not_congr (hzero j hj'))
  · rw [List.find?_cons_of_pos (by simpa using (hzero i hi).not.mpr hdiag)]

theorem swapStep_spec (hs : Bounded n w s) (hi : i < n) :
    (swapStep n i s = none → pivot (column W n) n i (rowsOf W n s) = none) ∧
      ∀ s', swapStep n i s = some s' → Bounded n w s' ∧
        ∃ j, pivot (column W n) n i (rowsOf W n s) = some j ∧ rowsOf W n s' = swapRows i j (rowsOf W n s) := by
  rw [swapStep, mul_comm n i]
  by_cases hdiag : s.1 (i * n + i) = 0
  · rw [pivot_eq_findRow hs hi, if_pos hdiag, if_pos hdiag]
    refine ⟨fun h ↦ Option.map_eq_none_iff.mp h, fun s' hs' ↦ ?_⟩
    obtain ⟨j, hj, rfl⟩ := Option.map_eq_some_iff.mp hs'
    obtain ⟨hij, hjn⟩ := mem_below.mp (List.mem_of_find?_eq_some hj)
    obtain ⟨hbound, hrows⟩ := rowsOf_swap (W := W) hs hi hjn hij.ne
    rw [mul_comm n i] at hbound hrows
    exact ⟨hbound, j, hj, hrows⟩
  · rw [pivot_eq_findRow hs hi, if_neg hdiag, if_neg hdiag]
    refine ⟨fun h ↦ absurd h (Option.some_ne_none s), fun s' hs' ↦ ?_⟩
    obtain rfl := Option.some.inj hs'
    refine ⟨hs, i, rfl, ?_⟩
    rw [swapRows, Equiv.swap_self]
    rfl

theorem upperStep_spec (h : Galois.Computes W multiply divide) (hs : Bounded n w s) (hi : i < n) :
    (upperStep multiply divide n w s i).toOption.map (rowsOf W n) =
        eliminateColumn (column W n) n i (rowsOf W n s) ∧
      ∀ s', upperStep multiply divide n w s i = .ok s' → Bounded n w s' := by
  obtain ⟨hnone, hsome⟩ := swapStep_spec (W := W) hs hi
  rw [upperStep, eliminateColumn]
  cases hswap : swapStep n i s with
  | none =>
    rw [hnone hswap]
    refine ⟨rfl, fun s' hs' ↦ ?_⟩
    cases hs'
  | some s₁ =>
    obtain ⟨hs₁, j, hj, hrows₁⟩ := hsome s₁ hswap
    have hpivot : s₁.1 (i * n + i) ≠ 0 := by
      rw [Ne, ← ofWord_eq_zero W (hs₁ i hi i hi).1, ← column_rowsOf W hi, hrows₁, swapRows, Function.comp_apply,
        Equiv.swap_apply_left]
      exact (pivot_eq_some hj).2.2
    obtain ⟨hs₂, hrows₂⟩ := rowsOf_scaleStep h hs₁ hi hpivot
    obtain ⟨hs₃, hrows₃⟩ := rowsOf_foldl_clearBelow h hi (fun j hj ↦ (mem_below.mp hj).2) hs₂
    rw [hrows₂, hrows₁] at hrows₃
    rw [hj]
    refine ⟨congrArg some hrows₃, fun s' hs' ↦ ?_⟩
    obtain rfl := Except.ok.inj hs'
    exact hs₃

/-- **The first pass** is the elimination below the diagonal. -/
theorem foldlM_upperStep (h : Galois.Computes W multiply divide) (hs : Bounded n w s) {m : ℕ} (hm : m ≤ n) :
    ((List.range m).foldlM (upperStep multiply divide n w) s).toOption.map (rowsOf W n) =
        forward (column W n) n m (rowsOf W n s) ∧
      ∀ s', (List.range m).foldlM (upperStep multiply divide n w) s = .ok s' → Bounded n w s' := by
  induction m with
  | zero =>
    refine ⟨rfl, fun s' hs' ↦ ?_⟩
    obtain rfl := Except.ok.inj hs'
    exact hs
  | succ m ih =>
    obtain ⟨hforward, hbound⟩ := ih (by omega)
    rw [List.range_succ, List.foldlM_append, forward, ← hforward]
    cases hrun : (List.range m).foldlM (upperStep multiply divide n w) s with
    | error s₁ =>
      refine ⟨rfl, fun s' hs' ↦ ?_⟩
      cases hs'
    | ok s₁ =>
      have hlast : [m].foldlM (upperStep multiply divide n w) s₁ = upperStep multiply divide n w s₁ m := by
        rw [List.foldlM_cons]
        exact bind_pure _
      obtain ⟨hstep, hbound'⟩ := upperStep_spec (W := W) h (hbound s₁ hrun) hm
      show (([m].foldlM (upperStep multiply divide n w) s₁).toOption.map (rowsOf W n)) = _ ∧
        ∀ s', [m].foldlM (upperStep multiply divide n w) s₁ = .ok s' → Bounded n w s'
      rw [hlast]
      exact ⟨hstep, hbound'⟩

/-! ## The second pass -/

/-- The row that is subtracted is one of the unit matrix, so one cell of `mat` changes. -/
theorem rowsOf_clearAbove (h : Galois.Computes W multiply divide) (hs : Bounded n w s) (hi : i < n) (hj : j < n)
    (hunit : ∀ c < n, s.1 (i * n + c) = if c = i then 1 else 0) :
    Bounded n w (clearAbove multiply n w i s j) ∧ rowsOf W n (clearAbove multiply n w i s j) =
      addMultiple i j (-column W n i (rowsOf W n s j)) (rowsOf W n s) := by
  rw [column_rowsOf W hi, clearAbove]
  by_cases hzero : s.1 (j * n + i) = 0
  · rw [if_neg (not_not.mpr hzero), hzero, W.zero, addMultiple_zero]
    exact ⟨hs, rfl⟩
  rw [if_pos hzero]
  obtain ⟨hbound, hrows⟩ := rowsOf_addCell h hs hi hj (hs j hj i hi).1
  rw [eachColumn_eq] at hbound hrows
  have hmat : ∀ r < n, ∀ c < n, update s.1 (j * n + i) 0 (r * n + c) < 2 ^ w := by
    intro r hr c hc
    rcases eq_or_ne (r * n + c) (j * n + i) with heq | hne
    · rw [heq, Function.update_self]
      exact Nat.zero_lt_of_lt (WordField.one_lt h.pos)
    · rw [Function.update_of_ne hne]
      exact (hs r hr c hc).1
  refine ⟨fun r hr c hc ↦ ⟨hmat r hr c hc, (hbound r hr c hc).2⟩, ?_⟩
  refine funext fun r ↦ Prod.ext (funext fun c ↦ ?_) ?_
  · show W.ofWord (update s.1 (j * n + i) 0 (r * n + c)) = _
    rcases eq_or_ne r j with rfl | hrj
    · rw [addMultiple, Function.update_self]
      show _ = W.ofWord (s.1 (r * n + c)) + -W.ofWord (s.1 (r * n + i)) * W.ofWord (s.1 (i * n + c))
      rw [hunit c c.isLt]
      by_cases hci : (c : ℕ) = i
      · rw [hci, Function.update_self, if_pos rfl, W.zero, W.one, mul_one, add_neg_cancel]
      · rw [Function.update_of_ne fun heq ↦ hci ((cell_inj c.isLt hi).mp heq).2, if_neg hci, W.zero, mul_zero, add_zero]
    · rw [Function.update_of_ne fun heq ↦ hrj ((cell_inj c.isLt hi).mp heq).1, addMultiple, Function.update_of_ne hrj]
      rfl
  · have hinv := congrArg (fun rows : ℕ → (Fin n → W.F) × (Fin n → W.F) ↦ (rows r).2) hrows
    exact hinv

theorem clearAbove_row (hi : i < n) (hij : i ≠ j) {c : ℕ} (hc : c < n) :
    (clearAbove multiply n w i s j).1 (i * n + c) = s.1 (i * n + c) := by
  rw [clearAbove]
  split_ifs
  · exact Function.update_of_ne (fun heq ↦ hij ((cell_inj hc hi).mp heq).1) 0 s.1
  · rfl

theorem rowsOf_foldl_clearAbove (h : Galois.Computes W multiply divide) (hi : i < n) {js : List ℕ}
    (hjs : ∀ j ∈ js, j < n ∧ i ≠ j) (hs : Bounded n w s)
    (hunit : ∀ c < n, s.1 (i * n + c) = if c = i then 1 else 0) :
    Bounded n w (js.foldl (clearAbove multiply n w i) s) ∧
      rowsOf W n (js.foldl (clearAbove multiply n w i) s) = clear (column W n) i js (rowsOf W n s) := by
  induction js generalizing s with
  | nil => exact ⟨hs, rfl⟩
  | cons j js ih =>
    obtain ⟨hj, hij⟩ := hjs j List.mem_cons_self
    obtain ⟨hbound, hrows⟩ := rowsOf_clearAbove h hs hi hj hunit
    obtain ⟨hbound', hrows'⟩ := ih (fun j hj ↦ hjs j (List.mem_cons_of_mem _ hj)) hbound fun c hc ↦ by
      rw [clearAbove_row hi hij hc, hunit c hc]
    rw [hrows] at hrows'
    exact ⟨hbound', hrows'⟩

theorem unit_row (hw : 1 ≤ w) (hs : Bounded n w s) (hi : i < n) (hupper : Upper (column W n) n n (rowsOf W n s))
    (hreduced : Reduced (column W n) n (i + 1) (rowsOf W n s)) :
    ∀ c < n, s.1 (i * n + c) = if c = i then 1 else 0 := by
  intro c hc
  have hcell : W.ofWord (s.1 (i * n + c)) = if i = c then 1 else 0 := by
    rw [← column_rowsOf W hc]
    rcases Nat.lt_or_ge i c with hlt | hle
    · exact hreduced c hc hlt i hi
    · exact hupper c hc i hi hle
  have hlt := (hs i hi c hc).1
  split_ifs with hci
  · rw [if_pos hci.symm, ← W.one] at hcell
    exact W.inj _ _ hlt (WordField.one_lt hw) hcell
  · rw [if_neg (Ne.symm hci)] at hcell
    exact (ofWord_eq_zero W hlt).mp hcell

/-- **The second pass** is the elimination above the diagonal. -/
theorem foldl_clearAbove (h : Galois.Computes W multiply divide) {m : ℕ} (hm : m ≤ n) (hs : Bounded n w s)
    (hupper : Upper (column W n) n n (rowsOf W n s)) (hreduced : Reduced (column W n) n m (rowsOf W n s)) :
    Bounded n w ((List.range m).reverse.foldl
        (fun s i ↦ (List.range i).foldl (clearAbove multiply n w i) s) s) ∧
      rowsOf W n ((List.range m).reverse.foldl
        (fun s i ↦ (List.range i).foldl (clearAbove multiply n w i) s) s) =
        backward (column W n) m (rowsOf W n s) := by
  induction m generalizing s with
  | zero => exact ⟨hs, rfl⟩
  | succ m ih =>
    have hunit := unit_row h.pos hs hm hupper hreduced
    obtain ⟨hbound, hrows⟩ := rowsOf_foldl_clearAbove h hm
      (fun j hj ↦ ⟨(List.mem_range.mp hj).trans hm, (List.mem_range.mp hj).ne'⟩) hs hunit
    rw [List.range_succ, List.reverse_append, List.reverse_singleton, List.singleton_append, List.foldl_cons,
      backward, ← hrows]
    exact ih (by omega) hbound (hrows ▸ hupper.clear hm) (hrows ▸ hreduced.clear hupper hm)

/-! ## The unit matrix -/

theorem foldl_fill (g : ℕ → ℕ) (m : Cells) (k l : ℕ) :
    (List.range l).foldl (fun (s : Cells × ℕ) j ↦ (update s.1 s.2 (g j), s.2 + 1)) (m, k) =
      (fun p ↦ if k ≤ p ∧ p < k + l then g (p - k) else m p, k + l) := by
  induction l with
  | zero =>
    refine Prod.ext (funext fun p ↦ ?_) rfl
    exact (if_neg (by omega)).symm
  | succ l ih =>
    rw [List.range_succ, List.foldl_append, ih]
    refine Prod.ext (funext fun p ↦ ?_) rfl
    show update (fun p ↦ if k ≤ p ∧ p < k + l then g (p - k) else m p) (k + l) (g l) p =
      if k ≤ p ∧ p < k + (l + 1) then g (p - k) else m p
    rcases eq_or_ne p (k + l) with rfl | hp
    · rw [Function.update_self, if_pos (by omega), Nat.add_sub_cancel_left]
    · have hiff : k ≤ p ∧ p < k + (l + 1) ↔ k ≤ p ∧ p < k + l := by omega
      rw [Function.update_of_ne hp]
      simp only [hiff]

theorem fillUnit_apply (inv : Cells) {r c : ℕ} (hr : r < n) (hc : c < n) :
    fillUnit n inv (r * n + c) = if r = c then 1 else 0 := by
  have hrun : ∀ l, ∃ m : Cells, ((List.range l).foldl
      (fun (s : Cells × ℕ) i ↦
        (List.range n).foldl (fun s j ↦ (update s.1 s.2 (if i = j then 1 else 0), s.2 + 1)) s)
      (inv, 0)) = (m, l * n) ∧ ∀ r < l, ∀ c < n, m (r * n + c) = if r = c then 1 else 0 := by
    intro l
    induction l with
    | zero => exact ⟨inv, by rw [zero_mul]; rfl, fun r hr ↦ absurd hr (Nat.not_lt_zero r)⟩
    | succ l ih =>
      obtain ⟨m, hm, hcells⟩ := ih
      rw [List.range_succ, List.foldl_append, hm, List.foldl_cons, List.foldl_nil,
        foldl_fill fun j ↦ if l = j then 1 else 0]
      refine ⟨_, by rw [Nat.succ_mul], fun r hr c hc ↦ ?_⟩
      rcases Nat.lt_succ_iff_lt_or_eq.mp hr with hlt | rfl
      · have hbelow : r * n + c < l * n :=
          calc r * n + c < r * n + n := Nat.add_lt_add_left hc _
            _ = (r + 1) * n := (Nat.succ_mul r n).symm
            _ ≤ l * n := Nat.mul_le_mul_right n hlt
        exact (if_neg (by omega)).trans (hcells r hlt c hc)
      · refine (if_pos ⟨Nat.le_add_right _ _, Nat.add_lt_add_left hc _⟩).trans ?_
        rw [Nat.add_sub_cancel_left]
  obtain ⟨m, hm, hcells⟩ := hrun n
  rw [fillUnit, hm]
  exact hcells r hr c hc

/-! ## The routine -/

/-- A functional of both halves of a row: a combination of the columns of `mat`, less one of those of `inv`. -/
def relation (x y : Fin n → W.F) : (Fin n → W.F) × (Fin n → W.F) →ₗ[W.F] W.F :=
  Fintype.linearCombination W.F x ∘ₗ LinearMap.fst W.F _ _ - Fintype.linearCombination W.F y ∘ₗ LinearMap.snd W.F _ _

theorem relation_rowsOf (x y : Fin n → W.F) (s : Cells × Cells) (r : Fin n) :
    relation x y (rowsOf W n s r) = (W.matrix n s.1).mulVec x r - (W.matrix n s.2).mulVec y r := rfl

theorem vanishes_relation {x y : Fin n → W.F} :
    Vanishes n (relation x y) (rowsOf W n s) ↔ (W.matrix n s.1).mulVec x = (W.matrix n s.2).mulVec y := by
  refine ⟨fun h ↦ funext fun r ↦ ?_, fun h r hr ↦ ?_⟩
  · have hr := h r r.isLt
    rwa [relation_rowsOf, sub_eq_zero] at hr
  · rw [relation_rowsOf x y s ⟨r, hr⟩, h, sub_self]

theorem combination_column (x : ℕ → W.F) :
    combination (column W n) n x = relation (fun c : Fin n ↦ x c) 0 := by
  refine LinearMap.ext fun v ↦ ?_
  have hcolumn : ∀ c : Fin n, x c * column W n c v = v.1 c • x c := by
    intro c
    rw [column, dif_pos c.isLt, smul_eq_mul, mul_comm]
    rfl
  rw [combination_apply, Finset.sum_range, Finset.sum_congr rfl fun c _ ↦ hcolumn c, relation, LinearMap.sub_apply,
    LinearMap.comp_apply, LinearMap.comp_apply, Fintype.linearCombination_apply, Fintype.linearCombination_apply]
  simp only [Pi.zero_apply, smul_zero, Finset.sum_const_zero, sub_zero]
  rfl

theorem bounded_start (hw : 1 ≤ w) {mat : Cells} (hmat : ∀ p < n * n, mat p < 2 ^ w) (inv : Cells) :
    Bounded n w (mat, fillUnit n inv) := by
  intro r hr c hc
  refine ⟨hmat _ (WordField.cell_lt hr hc), ?_⟩
  show fillUnit n inv (r * n + c) < 2 ^ w
  rw [fillUnit_apply inv hr hc]
  split_ifs
  · exact WordField.one_lt hw
  · exact Nat.zero_lt_of_lt (WordField.one_lt hw)

theorem matrix_fillUnit (W : WordField w) (n : ℕ) (inv : Cells) : W.matrix n (fillUnit n inv) = 1 := by
  refine Matrix.ext fun r c ↦ ?_
  show W.ofWord (fillUnit n inv (r * n + c)) = _
  rw [fillUnit_apply inv r.isLt c.isLt, Matrix.one_apply]
  split_ifs with hrc hrc' hrc'
  · exact W.one
  · exact absurd (Fin.ext hrc) hrc'
  · exact absurd (congrArg Fin.val hrc') hrc
  · exact W.zero

theorem matrix_eq_one (hreduced : Reduced (column W n) n 0 (rowsOf W n s)) : W.matrix n s.1 = 1 := by
  refine Matrix.ext fun r c ↦ ?_
  have hcell := hreduced c c.isLt (Nat.zero_le _) r r.isLt
  rw [column_rowsOf W c.isLt] at hcell
  rw [Matrix.one_apply]
  refine hcell.trans ?_
  simp only [Fin.ext_iff]

theorem not_isUnit_of_dependent (hdep : Dependent (column W n) n (rowsOf W n s)) : ¬IsUnit (W.matrix n s.1) := by
  obtain ⟨x, ⟨c, hc, hne⟩, hvanishes⟩ := hdep
  rw [combination_column, vanishes_relation, Matrix.mulVec_zero] at hvanishes
  intro hunit
  have hzero := Matrix.mulVec_injective_of_isUnit hunit (hvanishes.trans (Matrix.mulVec_zero _).symm)
  exact hne (congrFun hzero ⟨c, hc⟩)

/-- The routine runs to its end, with the inverse in `inv`, or it finds no pivot in a column. -/
theorem invertMatrix_cases (h : Galois.Computes W multiply divide) {mat : Cells} (hmat : ∀ p < n * n, mat p < 2 ^ w)
    (inv : Cells) :
    (∃ mat' inv', invertMatrix multiply divide mat inv n w = (0, mat', inv') ∧ (∀ p < n * n, inv' p < 2 ^ w) ∧
      W.matrix n inv' * W.matrix n mat = 1 ∧ W.matrix n mat' = 1) ∨
    (∃ s, invertMatrix multiply divide mat inv n w = (-1, s)) ∧ ¬IsUnit (W.matrix n mat) := by
  have hs := bounded_start h.pos hmat inv
  obtain ⟨hforward, hbound⟩ := foldlM_upperStep (W := W) h hs le_rfl
  rw [invertMatrix]
  cases hrun : (List.range n).foldlM (upperStep multiply divide n w) (mat, fillUnit n inv) with
  | error s₁ =>
    rw [hrun] at hforward
    exact .inr ⟨⟨s₁, rfl⟩, not_isUnit_of_dependent (forward_eq_none le_rfl hforward.symm)⟩
  | ok s₁ =>
    rw [hrun] at hforward
    obtain ⟨hupper, hsame⟩ := forward_eq_some hforward.symm
    have hlast : Reduced (column W n) n n (rowsOf W n s₁) := fun c hc hnc ↦ absurd hnc (Nat.not_le_of_lt hc)
    obtain ⟨hbound₂, hrows⟩ := foldl_clearAbove h le_rfl (hbound s₁ hrun) hupper hlast
    obtain ⟨hreduced, hsame'⟩ := reduced_backward le_rfl hupper hlast
    rw [← hrows] at hreduced hsame'
    have hone := matrix_eq_one hreduced
    refine .inl ⟨_, _, rfl, fun p hp ↦ ?_, Matrix.ext_iff_mulVec.mpr fun x ↦ ?_, hone⟩
    · have hn : 0 < n := Nat.pos_of_ne_zero fun hn ↦ by simp [hn] at hp
      have hcell := (hbound₂ (p / n) (Nat.div_lt_of_lt_mul hp) (p % n) (Nat.mod_lt p hn)).2
      rwa [mul_comm, Nat.div_add_mod] at hcell
    · -- what `mat` relates to the unit matrix, the unit matrix relates to the inverse
      have hstart : Vanishes n (relation x ((W.matrix n mat).mulVec x)) (rowsOf W n (mat, fillUnit n inv)) := by
        rw [vanishes_relation, matrix_fillUnit, Matrix.one_mulVec]
      have hend := vanishes_relation.mp ((hsame.trans hsame' _).mp hstart)
      rw [hone] at hend
      rw [← Matrix.mulVec_mulVec, ← hend]

/-- **`jerasure_invert_matrix`** inverts every matrix that can be inverted and returns `-1` for the others. -/
theorem invertMatrix_inverts (h : Galois.Computes W multiply divide) {mat inv mat' inv' : Cells} {ret : ℤ}
    (hmat : ∀ p < n * n, mat p < 2 ^ w) (hret : invertMatrix multiply divide mat inv n w = (ret, mat', inv')) :
    (ret = 0 ↔ IsUnit (W.matrix n mat)) ∧ (ret = -1 ↔ ¬IsUnit (W.matrix n mat)) ∧
      (ret = 0 → (∀ p < n * n, inv' p < 2 ^ w) ∧ W.matrix n inv' * W.matrix n mat = 1 ∧ W.matrix n mat' = 1) := by
  obtain ⟨mat₁, inv₁, hrun, hlt, hinv, hone⟩ | ⟨⟨s, hrun⟩, hsingular⟩ := invertMatrix_cases h hmat inv
  · obtain ⟨rfl, hs⟩ := Prod.mk.inj (hret.symm.trans hrun)
    obtain ⟨rfl, rfl⟩ := Prod.mk.inj hs
    have hunit : IsUnit (W.matrix n mat) := IsUnit.of_mul_eq_one_right _ hinv
    exact ⟨iff_of_true rfl hunit, iff_of_false (by decide) (not_not.mpr hunit), fun _ ↦ ⟨hlt, hinv, hone⟩⟩
  · obtain ⟨rfl, -⟩ := Prod.mk.inj (hret.symm.trans hrun)
    exact ⟨iff_of_false (by decide) hsingular, iff_of_true rfl hsingular, fun h ↦ absurd h (by decide)⟩

end Words

/-! ## Words that are bytes -/

def byteMultiply (_ x y : ℕ) : ℕ := WordField.toWord (GF256.ofNat x * GF256.ofNat y)

def byteDivide (_ x y : ℕ) : ℕ := WordField.toWord (GF256.ofNat x / GF256.ofNat y)

theorem computes_bytes : Galois.Computes WordField.bytes byteMultiply byteDivide where
  pos := by decide
  width := by decide
  multiply_lt x y _ _ _ _ := WordField.toWord_lt _
  multiply_eq x y _ _ _ _ := WordField.ofNat_toWord _
  divide_lt x y _ _ _ _ := WordField.toWord_lt _
  divide_eq x y _ _ _ _ := WordField.ofNat_toWord _

/-- A matrix of two rows whose first pivot is in the second row. -/
def swapped : Cells := fun p ↦ if p = 0 then 0 else p + 1

theorem invertMatrix_inverts_swapped :
    (invertMatrix byteMultiply byteDivide swapped swapped 2 8).1 = 0 ∧
      IsUnit (WordField.bytes.matrix 2 swapped) ∧
      WordField.bytes.matrix 2 (invertMatrix byteMultiply byteDivide swapped swapped 2 8).2.2 *
        WordField.bytes.matrix 2 swapped = 1 := by
  have hlt : ∀ p < 2 * 2, swapped p < 2 ^ 8 := by decide
  have hret : (invertMatrix byteMultiply byteDivide swapped swapped 2 8).1 = 0 := by decide +kernel
  have heta : ∀ r : ℤ × (Cells × Cells), r = (r.1, r.2.1, r.2.2) := fun _ ↦ rfl
  obtain ⟨hzero, -, hinv⟩ := invertMatrix_inverts computes_bytes hlt (heta _)
  exact ⟨hret, hzero.mp hret, (hinv hret).2.1⟩

variable {multiply divide : ℕ → ℕ → ℕ → ℕ}

/-- The multiplication of bytes that the codes call. -/
def gfMultiply (multiply : ℕ → ℕ → ℕ → ℕ) (a b : GF256) : GF256 :=
  GF256.ofNat (Galois.singleMultiply multiply (WordField.toWord a) (WordField.toWord b) 8)

end Jerasure

end UniDedup.Storage
