import Mathlib.LinearAlgebra.Matrix.NonsingularInverse
import UniDedup.Lib.FewTerms
import UniDedup.Lib.GF256

/-!
# The generator matrix of the Reed–Solomon codes

`generate_matrix` fills the `n × k` matrix that the codes of the storage layer encode and decode with:
the identity on top, so that the first `k` blocks of a stripe are the data, and below it row `k + i`
with the powers `(i + 1) ^ j`. `Decode` selects the rows of `k` surviving blocks and inverts them, and
it does not look at what `jerasure_invert_matrix` returns.

The integers of the matrix are bytes, read in the field of 256 elements. The multiplication of the field
is a library's: `gfMultiply` is the function `galois_single_multiply` calls on operands that are not
zero, and the results assume that it multiplies.

## The minors of the matrix

A vector in the kernel of `k` selected rows is a polynomial: a selected row of the identity erases one
of its `k` terms, and a selected row below makes `i + 1` a root. So it has at most as many terms as it
has roots among the selected points. One term has no root but zero. Two terms `i < j` have the roots
`a` and `b` only when `a ^ (j - i) = b ^ (j - i)`. Three terms can have three roots, as `x³ + 7x + 6`
has: it vanishes at `1`, `2` and `3`. So the selection is always invertible when there are at most three
data blocks or at most two parity blocks, and in every other case some selection is not.
-/

namespace UniDedup.Storage

open Function (update)

/-- `RS_N_MAX`, the largest number of blocks of a stripe. -/
def rsNMax : ℕ := 128

/-! ## Filling the matrix -/

section Fill

variable (gfMultiply : GF256 → GF256 → GF256)

/-- `galois_single_multiply` for words of eight bits. -/
def galoisSingleMultiply (x y : GF256) : GF256 :=
  if x = 0 ∨ y = 0 then 0 else gfMultiply x y

/-- `Computation::singleMulti`, which calls the multiplication under a lock. -/
def singleMulti (a b : GF256) : GF256 := galoisSingleMultiply gfMultiply a b

/-- The loop over the columns that writes the powers of `a` into one row: the cells and `tmp`. -/
def fillRow (a : GF256) (base k : ℕ) (matrix : ℕ → GF256) : (ℕ → GF256) × GF256 :=
  (List.range k).foldl
    (fun s j ↦ (update s.1 (base + j) s.2, singleMulti gfMultiply s.2 a)) (matrix, 1)

/-- `memset` and the loop that writes the identity. -/
def fillIdentity (rows k : ℕ) (matrix : ℕ → GF256) : ℕ → GF256 :=
  (List.range k).foldl (fun matrix i ↦ update matrix (i * k + i) 1)
    (fun p ↦ if p < rows * k then 0 else matrix p)

/-- `generate_matrix`, on the cells of `_encode_matrix`. -/
def generateMatrix (matrix : ℕ → GF256) (rows cols : ℕ) : ℕ → GF256 :=
  (List.range (rows - cols)).foldl
    (fun matrix i ↦ (fillRow gfMultiply (GF256.ofNat (i + 1)) ((i + cols) * cols) cols matrix).1)
    (fillIdentity rows cols matrix)

/-- `Clay::generate_matrix`, which counts the points in a variable of its own. -/
def Clay.generateMatrix (matrix : ℕ → GF256) (rows cols : ℕ) : ℕ → GF256 :=
  ((List.range (rows - cols)).foldl
    (fun (s : (ℕ → GF256) × ℕ) i ↦
      ((fillRow gfMultiply (GF256.ofNat s.2) ((i + cols) * cols) cols s.1).1, s.2 + 1))
    (fillIdentity rows cols matrix, 1)).1

end Fill

/-- The codes that fill a matrix of their own with a copy of the function. -/
inductive MatrixCode
  | rsconv | rspipe | rsppr | rsbindx | rsas | rsasp | rsrpconv | rssmartlz | clay
deriving DecidableEq, Repr

/-- `generate_matrix` of each code. -/
def MatrixCode.generateMatrix (gfMultiply : GF256 → GF256 → GF256) :
    MatrixCode → (ℕ → GF256) → ℕ → ℕ → ℕ → GF256
  | .clay => Clay.generateMatrix gfMultiply
  | _ => Storage.generateMatrix gfMultiply

/-! ## The entries -/

/-- The entry of the generator of `k` data blocks in row `r` and column `c`. -/
def generator (k r c : ℕ) : GF256 :=
  if r < k then if r = c then 1 else 0 else GF256.ofNat (r - k + 1) ^ c

section Entries

variable {gfMultiply : GF256 → GF256 → GF256}

theorem cell_inj {k r r' c c' : ℕ} (hc : c < k) (hc' : c' < k) :
    r * k + c = r' * k + c' ↔ r = r' ∧ c = c' := by
  have hk : 0 < k := by omega
  constructor
  · intro h
    have hrow : (r * k + c) / k = r := by
      rw [mul_comm, Nat.mul_add_div hk, Nat.div_eq_of_lt hc, add_zero]
    have hrow' : (r' * k + c') / k = r' := by
      rw [mul_comm, Nat.mul_add_div hk, Nat.div_eq_of_lt hc', add_zero]
    have hr : r = r' := by rw [← hrow, h, hrow']
    subst hr
    exact ⟨rfl, by omega⟩
  · rintro ⟨rfl, rfl⟩
    rfl

theorem singleMulti_eq (hmul : ∀ a b, gfMultiply a b = a * b) (a b : GF256) :
    singleMulti gfMultiply a b = a * b := by
  rw [singleMulti, galoisSingleMultiply]
  split
  · next h => rcases h with rfl | rfl <;> simp
  · exact hmul a b

/-- After `j` turns the row holds the powers below `j`, and `tmp` is the next one. -/
theorem fillRow_eq (hmul : ∀ a b, gfMultiply a b = a * b) (a : GF256) (base j : ℕ)
    (matrix : ℕ → GF256) :
    fillRow gfMultiply a base j matrix =
      (fun p ↦ if base ≤ p ∧ p < base + j then a ^ (p - base) else matrix p, a ^ j) := by
  induction j with
  | zero =>
    refine Prod.ext (funext fun p ↦ ?_) (pow_zero a).symm
    have hp : ¬(base ≤ p ∧ p < base + 0) := by omega
    exact (if_neg hp).symm
  | succ j ih =>
    rw [fillRow, List.range_succ, List.foldl_append, ← fillRow, ih]
    refine Prod.ext (funext fun p ↦ ?_) ?_
    · show update (fun p ↦ if base ≤ p ∧ p < base + j then a ^ (p - base) else matrix p) (base + j)
        (a ^ j) p = if base ≤ p ∧ p < base + (j + 1) then a ^ (p - base) else matrix p
      rcases eq_or_ne p (base + j) with rfl | hp
      · rw [Function.update_self, if_pos (by omega), Nat.add_sub_cancel_left]
      · have hiff : base ≤ p ∧ p < base + j ↔ base ≤ p ∧ p < base + (j + 1) := by omega
        rw [Function.update_of_ne hp]
        simp only [hiff]
    · show singleMulti gfMultiply (a ^ j) a = a ^ (j + 1)
      rw [singleMulti_eq hmul, pow_succ]

theorem fillRow_apply (hmul : ∀ a b, gfMultiply a b = a * b) (a : GF256) (matrix : ℕ → GF256)
    {k r c : ℕ} (hc : c < k) (r' : ℕ) :
    (fillRow gfMultiply a (r' * k) k matrix).1 (r * k + c) =
      if r = r' then a ^ c else matrix (r * k + c) := by
  rw [fillRow_eq hmul]
  show (if r' * k ≤ r * k + c ∧ r * k + c < r' * k + k then _ else _) = _
  rcases eq_or_ne r r' with rfl | hr
  · rw [if_pos (by omega), if_pos rfl, Nat.add_sub_cancel_left]
  · rw [if_neg hr, if_neg]
    rintro ⟨hle, hlt⟩
    -- The cell lies in the `k` cells from `r' * k` on, so it is a cell of row `r'`.
    obtain ⟨c', hc'⟩ := Nat.exists_eq_add_of_le hle
    have hrow : r * k + c = r' * k + c' := hc'
    exact hr ((cell_inj hc (by omega)).mp hrow).1

theorem foldl_diagonal (k i : ℕ) (matrix : ℕ → GF256) {r c : ℕ} (hc : c < k) (hi : i ≤ k) :
    (List.range i).foldl (fun matrix i ↦ update matrix (i * k + i) 1) matrix (r * k + c) =
      if r < i ∧ r = c then 1 else matrix (r * k + c) := by
  induction i with
  | zero => simp
  | succ i ih =>
    rw [List.range_succ, List.foldl_append, List.foldl_cons, List.foldl_nil]
    by_cases hcell : r * k + c = i * k + i
    · obtain ⟨rfl, rfl⟩ := (cell_inj hc (by omega)).mp hcell
      rw [Function.update_self, if_pos ⟨by omega, rfl⟩]
    · have hne : ¬(r = i ∧ c = i) := fun h ↦ hcell ((cell_inj hc (by omega)).mpr h)
      have hiff : r < i ∧ r = c ↔ r < i + 1 ∧ r = c := by omega
      rw [Function.update_of_ne hcell, ih (by omega)]
      simp only [hiff]

theorem fillIdentity_apply (rows : ℕ) (matrix : ℕ → GF256) {k r c : ℕ} (hc : c < k) (hr : r < rows) :
    fillIdentity rows k matrix (r * k + c) = if r < k ∧ r = c then 1 else 0 := by
  have hcell : r * k + c < rows * k := by
    calc r * k + c < (r + 1) * k := by rw [add_mul, one_mul]; omega
      _ ≤ rows * k := Nat.mul_le_mul_right k hr
  rw [fillIdentity, foldl_diagonal k k _ hc le_rfl]
  simp only [if_pos hcell]

/-- After `i` turns the rows from `k` to `k + i` hold the powers of their points. -/
theorem foldl_fillRow (hmul : ∀ a b, gfMultiply a b = a * b) (k i : ℕ) (matrix : ℕ → GF256)
    {r c : ℕ} (hc : c < k) :
    (List.range i).foldl
        (fun matrix i ↦ (fillRow gfMultiply (GF256.ofNat (i + 1)) ((i + k) * k) k matrix).1)
        matrix (r * k + c) =
      if k ≤ r ∧ r < k + i then GF256.ofNat (r - k + 1) ^ c else matrix (r * k + c) := by
  induction i with
  | zero => rw [if_neg (by omega)]; rfl
  | succ i ih =>
    rw [List.range_succ, List.foldl_append, List.foldl_cons, List.foldl_nil, fillRow_apply hmul _ _ hc,
      ih]
    rcases eq_or_ne r (i + k) with rfl | hr
    · rw [if_pos rfl, if_pos (by omega), Nat.add_sub_cancel]
    · have hiff : k ≤ r ∧ r < k + i ↔ k ≤ r ∧ r < k + (i + 1) := by omega
      rw [if_neg hr]
      simp only [hiff]

theorem generateMatrix_apply (hmul : ∀ a b, gfMultiply a b = a * b) (matrix : ℕ → GF256)
    {n k r c : ℕ} (hr : r < n) (hc : c < k) :
    generateMatrix gfMultiply matrix n k (r * k + c) = generator k r c := by
  rw [generateMatrix, foldl_fillRow hmul k _ _ hc, fillIdentity_apply n matrix hc hr, generator]
  by_cases hrk : r < k
  · rw [if_neg (by omega), if_pos hrk]
    simp only [hrk, true_and]
  · rw [if_pos (by omega), if_neg hrk]

theorem Clay.foldl_eq (cols i : ℕ) (matrix : ℕ → GF256) :
    (List.range i).foldl
        (fun (s : (ℕ → GF256) × ℕ) i ↦
          ((fillRow gfMultiply (GF256.ofNat s.2) ((i + cols) * cols) cols s.1).1, s.2 + 1))
        (matrix, 1) =
      ((List.range i).foldl
        (fun matrix i ↦ (fillRow gfMultiply (GF256.ofNat (i + 1)) ((i + cols) * cols) cols matrix).1)
        matrix, i + 1) := by
  induction i with
  | zero => rfl
  | succ i ih => rw [List.range_succ, List.foldl_append, List.foldl_append, ih]; rfl

theorem Clay.generateMatrix_eq : Clay.generateMatrix gfMultiply = Storage.generateMatrix gfMultiply := by
  funext matrix rows cols
  rw [Clay.generateMatrix, Clay.foldl_eq]
  rfl

/-- **The codes fill the same matrix.** -/
theorem MatrixCode.generateMatrix_eq (code : MatrixCode) :
    code.generateMatrix gfMultiply = Storage.generateMatrix gfMultiply := by
  cases code
  case clay => exact Clay.generateMatrix_eq
  all_goals rfl

end Entries

/-! ## Selected rows -/

/-- `_select_matrix`: the rows of the surviving blocks, as `memcpy` copies them. -/
def selectMatrix {k : ℕ} (matrix : ℕ → GF256) (sids : Fin k → ℕ) : Matrix (Fin k) (Fin k) GF256 :=
  Matrix.of fun i j ↦ matrix (sids i * k + j)

/-- Every `k` distinct rows of a matrix of `n` rows can be inverted. -/
def EverySelectionInvertible (matrix : ℕ → GF256) (n k : ℕ) : Prop :=
  ∀ sids : Fin k → ℕ, Function.Injective sids → (∀ i, sids i < n) → IsUnit (selectMatrix matrix sids)

/-- The rows of the generator for the given blocks. -/
def generatorRows {k : ℕ} (sids : Fin k → ℕ) : Matrix (Fin k) (Fin k) GF256 :=
  Matrix.of fun i j ↦ generator k (sids i) j

theorem selectMatrix_generateMatrix {gfMultiply : GF256 → GF256 → GF256}
    (hmul : ∀ a b, gfMultiply a b = a * b) (matrix : ℕ → GF256) {n k : ℕ} {sids : Fin k → ℕ}
    (hsids : ∀ i, sids i < n) :
    selectMatrix (generateMatrix gfMultiply matrix n k) sids = generatorRows sids := by
  exact Matrix.ext fun i j ↦ generateMatrix_apply hmul matrix (hsids i) j.isLt

theorem ofNat_inj {a b : ℕ} (ha : a < 256) (hb : b < 256) : GF256.ofNat a = GF256.ofNat b ↔ a = b := by
  constructor
  · intro h
    have hbits : BitVec.ofNat 8 a = BitVec.ofNat 8 b := congrArg GF256.bits h
    have hnat := congrArg BitVec.toNat hbits
    rwa [BitVec.toNat_ofNat, BitVec.toNat_ofNat, Nat.mod_eq_of_lt ha, Nat.mod_eq_of_lt hb] at hnat
  · rintro rfl
    rfl

section Kernel

variable {n k : ℕ} {sids : Fin k → ℕ} {x : Fin k → GF256}

theorem coefficient_eq_zero (hker : (generatorRows sids).mulVec x = 0)
    {i j : Fin k} (hij : sids i = j) : x j = 0 := by
  have hrow : ∑ l : Fin k, generator k (sids i) l * x l = 0 := congrFun hker i
  rw [Finset.sum_eq_single j] at hrow
  · rwa [generator, if_pos (by omega), if_pos hij, one_mul] at hrow
  · intro l _ hl
    have hne : sids i ≠ l := fun h ↦ hl (Fin.ext (by omega))
    rw [generator, if_pos (by omega), if_neg hne, zero_mul]
  · exact fun h ↦ absurd (Finset.mem_univ j) h

theorem value_eq_zero (hker : (generatorRows sids).mulVec x = 0)
    {i : Fin k} (hi : k ≤ sids i) : FewTerms.value x (GF256.ofNat (sids i - k + 1)) = 0 := by
  have hrow : ∑ l : Fin k, generator k (sids i) l * x l = 0 := congrFun hker i
  rw [← hrow, FewTerms.value]
  refine Finset.sum_congr rfl fun l _ ↦ ?_
  rw [generator, if_neg (by omega)]

/-- The points of the selected rows below the identity. -/
def roots (sids : Fin k → ℕ) : Finset GF256 :=
  (Finset.univ.filter (k ≤ sids ·)).image fun i ↦ GF256.ofNat (sids i - k + 1)

theorem mem_roots {a : GF256} : a ∈ roots sids ↔ ∃ i, k ≤ sids i ∧ GF256.ofNat (sids i - k + 1) = a := by
  simp [roots]

theorem card_roots (hinj : Function.Injective sids) (hsids : ∀ i, sids i < n) (hn : n ≤ rsNMax) :
    (roots sids).card = (Finset.univ.filter (k ≤ sids ·)).card := by
  rw [rsNMax] at hn
  refine Finset.card_image_of_injOn fun i hi j hj hij ↦ hinj ?_
  have hik : k ≤ sids i := (Finset.mem_filter.mp hi).2
  have hjk : k ≤ sids j := (Finset.mem_filter.mp hj).2
  have hin := hsids i
  have hjn := hsids j
  have hpoint := (ofNat_inj (by omega) (by omega)).mp hij
  omega

theorem zero_notMem_roots (hsids : ∀ i, sids i < n) (hn : n ≤ rsNMax) : 0 ∉ roots sids := by
  rw [rsNMax] at hn
  intro h0
  obtain ⟨i, -, hi⟩ := mem_roots.mp h0
  have hin := hsids i
  have hpoint := (ofNat_inj (b := 0) (by omega) (by decide)).mp hi
  omega

/-- **A vector in the kernel has at most as many terms as roots.** -/
theorem card_terms_le (hinj : Function.Injective sids) (hsids : ∀ i, sids i < n) (hn : n ≤ rsNMax)
    (hker : (generatorRows sids).mulVec x = 0) :
    (Finset.univ.filter (x · ≠ 0)).card ≤ (roots sids).card := by
  -- The selected rows of the identity are coefficients that are zero.
  have herased : (Finset.univ.filter fun i ↦ ¬k ≤ sids i).card ≤
      (Finset.univ.filter fun j ↦ ¬x j ≠ 0).card := by
    rw [← Finset.card_image_of_injective _ hinj, ← Finset.card_image_of_injective _ Fin.val_injective]
    refine Finset.card_le_card fun r hr ↦ ?_
    obtain ⟨i, hi, rfl⟩ := Finset.mem_image.mp hr
    have hlt : sids i < k := by simpa using hi
    refine Finset.mem_image.mpr ⟨⟨sids i, hlt⟩, ?_, rfl⟩
    have hzero : x ⟨sids i, hlt⟩ = 0 := coefficient_eq_zero hker rfl
    simp [hzero]
  have hrows := Finset.card_filter_add_card_filter_not (s := Finset.univ) (k ≤ sids ·)
  have hterms := Finset.card_filter_add_card_filter_not (s := Finset.univ) (x · ≠ 0)
  rw [card_roots hinj hsids hn]
  omega

theorem isUnit_of_kernel (hker : ∀ x, (generatorRows sids).mulVec x = 0 → x = 0) :
    IsUnit (generatorRows sids) := by
  rw [← Matrix.mulVec_injective_iff_isUnit]
  intro y z hyz
  have hsub : (generatorRows sids).mulVec (y - z) = 0 := by
    rw [Matrix.mulVec_sub, sub_eq_zero]
    exact hyz
  exact sub_eq_zero.mp (hker _ hsub)

/-- With at most three data blocks the exponents differ by one or two, and squares are distinct. -/
theorem isUnit_of_le_three (hinj : Function.Injective sids) (hsids : ∀ i, sids i < n) (hn : n ≤ rsNMax)
    (hk : k ≤ 3) : IsUnit (generatorRows sids) := by
  refine isUnit_of_kernel fun x hker ↦ by_contra fun hx ↦ ?_
  have hroot : ∀ a ∈ roots sids, FewTerms.value x a = 0 := by
    intro a ha
    obtain ⟨i, hi, rfl⟩ := mem_roots.mp ha
    exact value_eq_zero hker hi
  rcases FewTerms.three_le_or_pow_eq hx (zero_notMem_roots hsids hn) hroot
    (card_terms_le hinj hsids hn hker) with hthree | ⟨i, j, hij, a, -, b, -, hab, hpow⟩
  · exact hx (FewTerms.eq_zero_of_card_le hroot (hk.trans hthree))
  · have hj := j.isLt
    have hexp : (j - i : ℕ) = 1 ∨ (j - i : ℕ) = 2 := by omega
    rcases hexp with hexp | hexp
    · rw [hexp, pow_one, pow_one] at hpow
      exact hab hpow
    · rw [hexp] at hpow
      exact hab (CharTwo.sq_inj.mp hpow)

/-- With at most two parity blocks the points are `1` and `2`, and no power of `2` below the 255th
is `1`. -/
theorem isUnit_of_sub_le_two (hinj : Function.Injective sids) (hsids : ∀ i, sids i < n)
    (hn : n ≤ rsNMax) (hm : n - k ≤ 2) :
    IsUnit (generatorRows sids) := by
  refine isUnit_of_kernel fun x hker ↦ by_contra fun hx ↦ ?_
  have hpoint : ∀ a ∈ roots sids, a = 1 ∨ a = GF256.ofNat 2 := by
    intro a ha
    obtain ⟨i, hi, rfl⟩ := mem_roots.mp ha
    have hin := hsids i
    have hexp : sids i - k + 1 = 1 ∨ sids i - k + 1 = 2 := by omega
    rcases hexp with hexp | hexp
    · exact .inl (by rw [hexp]; rfl)
    · exact .inr (by rw [hexp])
  have hroot : ∀ a ∈ roots sids, FewTerms.value x a = 0 := by
    intro a ha
    obtain ⟨i, hi, rfl⟩ := mem_roots.mp ha
    exact value_eq_zero hker hi
  rcases FewTerms.three_le_or_pow_eq hx (zero_notMem_roots hsids hn) hroot
    (card_terms_le hinj hsids hn hker) with hthree | ⟨i, j, hij, a, ha, b, hb, hab, hpow⟩
  · have hsub : roots sids ⊆ {1, GF256.ofNat 2} := by
      intro a ha
      rcases hpoint a ha with rfl | rfl <;> simp
    have := (Finset.card_le_card hsub).trans Finset.card_le_two
    omega
  · have hj := j.isLt
    have hkn : k ≤ n := by
      have := Finset.card_le_card_of_injOn sids (s := Finset.univ) (t := Finset.range n)
        (fun i _ ↦ Finset.mem_coe.mpr (Finset.mem_range.mpr (hsids i))) hinj.injOn
      simpa using this
    have hlt : (j - i : ℕ) < orderOf (GF256.ofNat 2) := by
      rw [GF256.orderOf_two]
      rw [rsNMax] at hn
      omega
    have hne := pow_ne_one_of_lt_orderOf (by omega) hlt
    rcases hpoint a ha with rfl | rfl <;> rcases hpoint b hb with rfl | rfl
    · exact hab rfl
    · rw [one_pow] at hpow
      exact hne hpow.symm
    · rw [one_pow] at hpow
      exact hne hpow
    · exact hab rfl

end Kernel

/-! ## A selection that cannot be inverted

Blocks `0`, `1` and `3` are lost, and the first three parity blocks stand in for them. -/

/-- The surviving blocks: three parity blocks, block `2`, and the blocks from `4` on. -/
def singularRows (k : ℕ) (i : Fin k) : ℕ :=
  if (i : ℕ) < 3 then k + i else if (i : ℕ) = 3 then 2 else i

/-- The coefficients of `x³ + 7x + 6`, the product of `x + 1`, `x + 2` and `x + 3`. -/
def cubic (j : ℕ) : GF256 :=
  if j = 0 then GF256.ofNat 6 else if j = 1 then GF256.ofNat 7 else if j = 3 then 1 else 0

theorem singularRows_injective (k : ℕ) : Function.Injective (singularRows k) := by
  intro i j hij
  have hi := i.isLt
  have hj := j.isLt
  rw [singularRows, singularRows] at hij
  refine Fin.ext ?_
  split_ifs at hij <;> omega

theorem singularRows_lt {n k : ℕ} (hk : 4 ≤ k) (hm : 3 ≤ n - k) (i : Fin k) : singularRows k i < n := by
  have hi := i.isLt
  rw [singularRows]
  split_ifs <;> omega

theorem sum_cubic : ∀ i : Fin 3, ∑ j ∈ Finset.range 4, GF256.ofNat (i + 1) ^ j * cubic j = 0 := by
  decide +kernel

theorem mulVec_singularRows {k : ℕ} (hk : 4 ≤ k) :
    (generatorRows (singularRows k)).mulVec (fun j : Fin k ↦ cubic j) = 0 := by
  funext i
  show ∑ j : Fin k, generator k (singularRows k i) j * cubic j = 0
  by_cases hi : (i : ℕ) < 3
  · have hterm : ∀ j : Fin k,
        generator k (singularRows k i) j * cubic j = GF256.ofNat (i + 1) ^ (j : ℕ) * cubic j := by
      intro j
      rw [singularRows, if_pos hi, generator, if_neg (by omega), Nat.add_sub_cancel_left]
    rw [Finset.sum_congr rfl fun j _ ↦ hterm j,
      Fin.sum_univ_eq_sum_range fun j ↦ GF256.ofNat (i + 1) ^ j * cubic j, ← sum_cubic ⟨i, hi⟩]
    -- The terms from the fourth on are zero.
    refine (Finset.sum_subset (Finset.range_mono hk) fun j _ hj ↦ ?_).symm
    have hj4 : 4 ≤ j := by simpa using hj
    rw [cubic, if_neg (by omega), if_neg (by omega), if_neg (by omega), mul_zero]
  · refine Finset.sum_eq_zero fun j _ ↦ ?_
    have hlt := i.isLt
    have hrow : singularRows k i < k ∧ cubic (singularRows k i) = 0 := by
      rw [singularRows, if_neg hi]
      split_ifs with h3
      · exact ⟨by omega, rfl⟩
      · refine ⟨hlt, ?_⟩
        rw [cubic, if_neg (by omega), if_neg (by omega), if_neg (by omega)]
    rw [generator, if_pos hrow.1]
    split_ifs with hij
    · rw [← hij, hrow.2, mul_zero]
    · rw [zero_mul]

theorem not_isUnit_singularRows {k : ℕ} (hk : 4 ≤ k) : ¬IsUnit (generatorRows (singularRows k)) := by
  rw [← Matrix.mulVec_injective_iff_isUnit]
  intro hinj
  have hzero : (fun j : Fin k ↦ cubic j) = 0 := by
    refine hinj ?_
    rw [mulVec_singularRows hk, Matrix.mulVec_zero]
  have hthree : cubic 3 = 0 := congrFun hzero ⟨3, by omega⟩
  exact absurd hthree (by decide)

/-- **Which Reed–Solomon codes tolerate every loss of `n - k` blocks.** All choices of `k` distinct rows
are invertible exactly when there are at most three data blocks or at most two parity blocks. -/
theorem everySelectionInvertible_iff (code : MatrixCode) {gfMultiply : GF256 → GF256 → GF256}
    (hmul : ∀ a b, gfMultiply a b = a * b) (matrix : ℕ → GF256) {n k : ℕ} (hn : n ≤ rsNMax) :
    EverySelectionInvertible (code.generateMatrix gfMultiply matrix n k) n k ↔ k ≤ 3 ∨ n - k ≤ 2 := by
  rw [code.generateMatrix_eq]
  constructor
  · intro hall
    by_contra hcond
    have hk4 : 4 ≤ k := by omega
    have hm3 : 3 ≤ n - k := by omega
    have hunit := hall (singularRows k) (singularRows_injective k) (singularRows_lt hk4 hm3)
    rw [selectMatrix_generateMatrix hmul matrix (singularRows_lt hk4 hm3)] at hunit
    exact not_isUnit_singularRows hk4 hunit
  · intro hcond sids hinj hsids
    rw [selectMatrix_generateMatrix hmul matrix hsids]
    rcases hcond with hcond | hcond
    · exact isUnit_of_le_three hinj hsids hn hcond
    · exact isUnit_of_sub_le_two hinj hsids hn hcond

/-- Four data blocks and two parity blocks. -/
theorem everySelectionInvertible_six_four :
    EverySelectionInvertible (MatrixCode.rsconv.generateMatrix (· * ·) 0 6 4) 6 4 :=
  (everySelectionInvertible_iff .rsconv (fun _ _ ↦ rfl) 0 (by decide)).mpr
    (.inr (by decide))

/-- With four data blocks and three parity blocks, blocks `0`, `1` and `3` cannot be rebuilt. -/
theorem not_everySelectionInvertible_seven_four :
    ¬EverySelectionInvertible (MatrixCode.rsconv.generateMatrix (· * ·) 0 7 4) 7 4 := by
  intro hall
  have hsids := singularRows_lt (n := 7) (k := 4) (by decide) (by decide)
  have hunit := hall (singularRows 4) (singularRows_injective 4) hsids
  rw [MatrixCode.generateMatrix_eq, selectMatrix_generateMatrix (fun _ _ ↦ rfl) 0 hsids] at hunit
  exact not_isUnit_singularRows (by decide) hunit

end UniDedup.Storage
