import Mathlib.Data.List.GetD
import UniDedup.Storage.Evaluation
import UniDedup.Storage.Generator

/-!
# The Reed–Solomon codes and their layouts

`RSCONV`, `RSPIPE` and `RSPPR` encode with the same matrix and differ in the graph that decodes. Decoding
computes the row of a lost block over the surviving ones, the row of the generator times the inverse of
the selected rows; `RSCONV` joins a lost sub-packet to all the survivors at once, `RSPIPE` along a chain
that starts at another survivor for every sub-packet when it is cyclic, and `RSPPR` along a tree.

A block is `w` sub-packets, and sub-packet `wi` of block `r` has the number `r * w + wi`. `RSPPR` is used
with one sub-packet in a block. The matrix is inverted by `jerasure_invert_matrix`, a parameter here.

The matrix of each of the three has `RS_N_MAX * RS_N_MAX` cells, and none of them looks whether that is enough. The
constructors clear a part of it, and `Encode` and `Decode` fill the `n * k` cells of the generator. Where one of
them writes behind the matrix, into other members of the code or past its end, its result is `none`.
-/

namespace UniDedup.Storage

open Matrix

/-- The fields of a code that its methods read: the parameters and what `_encode_matrix` holds before. -/
structure RSCode where
  n : ℕ
  k : ℕ
  w : ℕ
  matrix : ℕ → GF256

/-- The numbers of the sub-packets of some blocks. -/
def subPackets (w : ℕ) (sids : List ℕ) : List ℕ :=
  (List.range (sids.length * w)).map fun p ↦ sids.getD (p / w) 0 * w + p % w

/-- `fromsids` and `tosids`: the block of every `w`-th sub-packet. -/
def blockIds (w : ℕ) (ids : List ℕ) : List ℕ :=
  (List.range ((ids.length + (w - 1)) / w)).map fun i ↦ ids.getD (i * w) 0 / w

section Codes

variable (gfMultiply : GF256 → GF256 → GF256)
variable (invert : (ℕ → GF256) → ℕ → ℕ → GF256)

/-- `jerasure_matrix_multiply` for words of eight bits: the cells of the product. -/
def jerasureMatrixMultiply (m1 m2 : ℕ → GF256) (c1 r2 c2 : ℕ) (p : ℕ) : GF256 :=
  (List.range r2).foldl
    (fun s l ↦ s + galoisSingleMultiply gfMultiply (m1 (p / c2 * c1 + l)) (m2 (l * c2 + p % c2))) 0

namespace RSCode

variable (c : RSCode)

/-- `generate_matrix` stays inside a matrix of `RS_N_MAX * RS_N_MAX` cells. -/
def Fits : Prop := c.n * c.k ≤ rsNMax * rsNMax

instance : Decidable c.Fits := inferInstanceAs (Decidable (_ ≤ _))

/-- The cells of `_encode_matrix` after `generate_matrix`. -/
def encodeMatrix : ℕ → GF256 := generateMatrix gfMultiply c.matrix c.n c.k

/-- The cells of `_select_matrix`. -/
def selectCells (fromsids : List ℕ) (p : ℕ) : GF256 :=
  c.encodeMatrix gfMultiply (fromsids.getD (p / c.k) 0 * c.k + p % c.k)

/-- `_coef_vector`: the coefficients of a lost block over the first `k` survivors. -/
def coefVector (fromsids : List ℕ) (ridx j : ℕ) : GF256 :=
  jerasureMatrixMultiply gfMultiply (fun j ↦ c.encodeMatrix gfMultiply (ridx * c.k + j))
    (invert (c.selectCells gfMultiply fromsids) c.k) c.k c.k c.k j

end RSCode

/-! ## The constructors -/

/-- The constructor of `RSCONV`, on what its matrix holds before. -/
def RSCONV.new (n k w : ℕ) (cells : ℕ → GF256) : Option RSCode :=
  if n * k ≤ rsNMax * rsNMax then some ⟨n, k, w, fun p ↦ if p < n * k then 0 else cells p⟩ else none

/-- The constructor of `RSPIPE`, which clears `(k + m) * m` cells. -/
def RSPIPE.new (n k w : ℕ) (cells : ℕ → GF256) : Option RSCode :=
  if n * (n - k) ≤ rsNMax * rsNMax then some ⟨n, k, w, fun p ↦ if p < n * (n - k) then 0 else cells p⟩ else none

/-- The constructor of `RSPPR`, the same. -/
def RSPPR.new (n k w : ℕ) (cells : ℕ → GF256) : Option RSCode := RSPIPE.new n k w cells

/-! ## Encoding -/

/-- The joins of `Encode` for sub-packet `wi`. -/
def encodeJoins (c : RSCode) (wi : ℕ) (dag : ECDAG) : ECDAG :=
  (List.range (c.n - c.k)).foldl
    (fun dag i ↦ dag.join ((c.k + i) * c.w + wi) ((List.range c.k).map fun j ↦ j * c.w + wi)
      ((List.range c.k).map fun j ↦ c.encodeMatrix gfMultiply ((i + c.k) * c.k + j)))
    dag

/-- The loop of `Encode` over the sub-packets. -/
def encodeStripe (c : RSCode) : ECDAG :=
  (List.range c.w).foldl (fun dag wi ↦ encodeJoins gfMultiply c wi dag) {}

def RSCONV.encode (c : RSCode) : Option ECDAG := if c.Fits then some (encodeStripe gfMultiply c) else none

def RSPIPE.encode (c : RSCode) : Option ECDAG := RSCONV.encode gfMultiply c

/-- `Encode` of the codes that number the blocks and bind the parity blocks. -/
def encodeBlocks (c : RSCode) : Option ECDAG :=
  let code := (List.range (c.n - c.k)).map (c.k + ·)
  let dag := (List.range (c.n - c.k)).foldl
    (fun dag i ↦ dag.join (c.k + i) (List.range c.k)
      ((List.range c.k).map fun j ↦ c.encodeMatrix gfMultiply ((i + c.k) * c.k + j)))
    ({} : ECDAG)
  if 1 < code.length then (dag.bindX code).map Prod.fst else some dag

def RSPPR.encode (c : RSCode) : Option ECDAG := if c.Fits then encodeBlocks gfMultiply c else none

/-! ## Decoding -/

/-- `RSCONV::Decode`; `none` also where `fromsids` is read past its end. -/
def RSCONV.decode (c : RSCode) (from' to' : List ℕ) : Option ECDAG :=
  let fromsids := blockIds c.w from'
  let tosids := blockIds c.w to'
  if ¬c.Fits ∨ fromsids.length < c.k then none else
  some <| (List.range c.w).foldl
    (fun dag wi ↦ tosids.foldl
      (fun dag r ↦ dag.join (r * c.w + wi)
        ((List.range c.k).map fun ki ↦ fromsids.getD ki 0 * c.w + wi)
        ((List.range c.k).map (c.coefVector gfMultiply invert fromsids r)))
      dag)
    {}

/-- The loop of `RSPIPE::Decode` over the two queues, which are filled and emptied together. The graph and
`tmpname` are returned. -/
def RSPIPE.pipeline (cidx : ℕ) : ℕ → ECDAG → ℕ → List (ℕ × GF256) → Option (ECDAG × ℕ)
  | fuel + 1, dag, tmpname, (d₀, c₀) :: (d₁, c₁) :: queue => do
    let (toadd, tmpname) := if queue.isEmpty then (cidx, tmpname) else (tmpname, tmpname + 1)
    let dag ← (dag.join toadd [d₀, d₁] [c₀, c₁]).bindY toadd d₁
    pipeline cidx fuel dag tmpname ((toadd, 1) :: queue)
  | _, dag, tmpname, _ => some (dag, tmpname)

/-- One turn of the loop of `RSPIPE::Decode` over the sub-packets, with the graph, `tmpname` and `cyc`. -/
def RSPIPE.decodeSubPacket (c : RSCode) (cyclic : Bool) (fromsids tosids : List ℕ) (s : (ECDAG × ℕ) × ℕ)
    (wi : ℕ) : Option ((ECDAG × ℕ) × ℕ) := do
  let t ← tosids.foldlM
    (fun (t : ECDAG × ℕ) r ↦
      RSPIPE.pipeline (r * c.w + wi) c.k t.1 t.2 ((List.range c.k).map fun j ↦
        (fromsids.getD ((j + s.2) % c.k) 0 * c.w + wi,
          c.coefVector gfMultiply invert fromsids r ((j + s.2) % c.k))))
    s.1
  some (t, if cyclic then s.2 + 1 else s.2)

/-- `RSPIPE::Decode`, with `_cyclic`. -/
def RSPIPE.decode (c : RSCode) (cyclic : Bool) (from' to' : List ℕ) : Option ECDAG :=
  let fromsids := blockIds c.w from'
  let tosids := blockIds c.w to'
  if ¬c.Fits ∨ fromsids.length < c.k then none else
  ((List.range c.w).foldlM (RSPIPE.decodeSubPacket gfMultiply invert c cyclic fromsids tosids)
    (({}, bindStart + c.n * c.w), 0)).map fun s ↦ s.1.1

/-- The loop of `RSPPR::Decode`, with the count that chooses the child of `BindY`. -/
def RSPPR.tree (ridx : ℕ) : ℕ → ECDAG → ℕ → ℤ → List (ℕ × GF256) → Option (ECDAG × ℕ)
  | fuel + 1, dag, tmpname, layernum, (d₀, c₀) :: (d₁, c₁) :: queue => do
    let layernum := if layernum = 0 then (queue.length + 2 : ℤ) else layernum
    let (toadd, tmpname) := if queue.isEmpty then (ridx, tmpname) else (tmpname, tmpname + 1)
    let dag ← (dag.join toadd [d₀, d₁] [c₀, c₁]).bindY toadd (if layernum ≥ 2 then d₁ else d₀)
    tree ridx fuel dag tmpname (layernum - 2) (queue ++ [(toadd, 1)])
  | _, dag, tmpname, _, _ => some (dag, tmpname)

/-- One turn of the loop of `RSPPR::Decode` over the lost blocks, with the graph and `tmpname`. -/
def RSPPR.decodeBlock (c : RSCode) (from' : List ℕ) (t : ECDAG × ℕ) (ridx : ℕ) : Option (ECDAG × ℕ) :=
  RSPPR.tree ridx c.k t.1 t.2 0
    ((List.range c.k).map fun j ↦ (from'.getD j 0, c.coefVector gfMultiply invert from' ridx j))

/-- `RSPPR::Decode`, on numbers of blocks. -/
def RSPPR.decode (c : RSCode) (from' to' : List ℕ) : Option ECDAG :=
  if ¬c.Fits ∨ from'.length < c.k then none else
  (to'.foldlM (RSPPR.decodeBlock gfMultiply invert c from') ({}, c.n)).map Prod.fst

end Codes

/-! ## The stripe -/

section Stripe

variable {gfMultiply : GF256 → GF256 → GF256} {invert : (ℕ → GF256) → ℕ → ℕ → GF256}
variable {c : RSCode}

theorem length_subPackets (w : ℕ) (sids : List ℕ) : (subPackets w sids).length = sids.length * w := by
  rw [subPackets, List.length_map, List.length_range]

theorem blockIds_subPackets {w : ℕ} (hw : 1 ≤ w) (sids : List ℕ) :
    blockIds w (subPackets w sids) = sids := by
  have hlen : (sids.length * w + (w - 1)) / w = sids.length := by
    rw [mul_comm, Nat.mul_add_div (by omega), Nat.div_eq_of_lt (by omega), add_zero]
  refine List.ext_getElem ?_ fun i hi hi' ↦ ?_
  · rw [blockIds, List.length_map, List.length_range, length_subPackets, hlen]
  · have hiw : i * w < sids.length * w := Nat.mul_lt_mul_of_pos_right hi' hw
    have hget : (subPackets w sids).getD (i * w) 0 = sids.getD i 0 * w := by
      rw [List.getD_eq_getElem _ _ (by rw [length_subPackets]; exact hiw)]
      simp only [subPackets, List.getElem_map, List.getElem_range]
      rw [Nat.mul_div_cancel _ hw, Nat.mul_mod_left, add_zero]
    simp only [blockIds, List.getElem_map, List.getElem_range]
    rw [hget, Nat.mul_div_cancel _ hw, List.getD_eq_getElem _ _ hi']

/-- Sub-packet `wi` of block `r`, as the generator combines the data. -/
def RSCode.symbol (c : RSCode) (data : ℕ → GF256) (r wi : ℕ) : GF256 :=
  ∑ l : Fin c.k, generator c.k r l * data (l * c.w + wi)

theorem RSCode.symbol_of_lt (data : ℕ → GF256) {r : ℕ} (wi : ℕ) (hr : r < c.k) :
    c.symbol data r wi = data (r * c.w + wi) := by
  rw [symbol, Finset.sum_eq_single ⟨r, hr⟩]
  · rw [generator, if_pos hr, if_pos rfl, one_mul]
  · intro l _ hl
    have hne : r ≠ l := fun h ↦ hl (Fin.ext h.symm)
    rw [generator, if_pos hr, if_neg hne, zero_mul]
  · exact fun h ↦ absurd (Finset.mem_univ _) h

/-- What `jerasure_invert_matrix` is for: it inverts what can be inverted. -/
def Inverts (invert : (ℕ → GF256) → ℕ → ℕ → GF256) : Prop :=
  ∀ (k : ℕ) (mat : ℕ → GF256), IsUnit (selectMatrix (k := k) mat (·)) →
    selectMatrix (k := k) (invert mat k) (·) * selectMatrix mat (·) = 1

theorem encodeMatrix_apply (hmul : ∀ a b, gfMultiply a b = a * b) {r j : ℕ} (hr : r < c.n)
    (hj : j < c.k) : c.encodeMatrix gfMultiply (r * c.k + j) = generator c.k r j :=
  generateMatrix_apply hmul c.matrix hr hj

theorem selectMatrix_selectCells (fromsids : List ℕ) :
    selectMatrix (c.selectCells gfMultiply fromsids) (fun i : Fin c.k ↦ (i : ℕ)) =
      selectMatrix (c.encodeMatrix gfMultiply) (fun i : Fin c.k ↦ fromsids.getD i 0) := by
  refine Matrix.ext fun i j ↦ ?_
  show c.selectCells gfMultiply fromsids (i * c.k + j) = _
  have hdiv : ((i : ℕ) * c.k + j) / c.k = i := by
    rw [mul_comm, Nat.mul_add_div (i.pos), Nat.div_eq_of_lt j.isLt, add_zero]
  have hmod : ((i : ℕ) * c.k + j) % c.k = j := by
    rw [mul_comm, Nat.mul_add_mod, Nat.mod_eq_of_lt j.isLt]
  rw [RSCode.selectCells, hdiv, hmod]
  rfl

theorem sum_map_range (f : ℕ → GF256) (k : ℕ) : ((List.range k).map f).sum = ∑ l : Fin k, f l := by
  induction k with
  | zero => rfl
  | succ k ih =>
    rw [List.range_succ, List.map_append, List.sum_append, ih, Fin.sum_univ_castSucc]
    simp

theorem foldl_add_eq_sum (f : ℕ → GF256) (ls : List ℕ) (s : GF256) :
    ls.foldl (fun s l ↦ s + f l) s = s + (ls.map f).sum := by
  induction ls generalizing s with
  | nil => exact (add_zero s).symm
  | cons l ls ih => rw [List.foldl_cons, ih, List.map_cons, List.sum_cons, add_assoc]

theorem coefVector_eq (hmul : ∀ a b, gfMultiply a b = a * b) (fromsids : List ℕ) {r : ℕ}
    (hr : r < c.n) (j : Fin c.k) :
    c.coefVector gfMultiply invert fromsids r j =
      Matrix.vecMul (fun l : Fin c.k ↦ generator c.k r l)
        (selectMatrix (invert (c.selectCells gfMultiply fromsids) c.k) (·)) j := by
  rw [RSCode.coefVector, jerasureMatrixMultiply, foldl_add_eq_sum, zero_add, sum_map_range]
  refine Finset.sum_congr rfl fun l _ ↦ ?_
  rw [Nat.div_eq_of_lt j.isLt, zero_mul, zero_add, Nat.mod_eq_of_lt j.isLt,
    encodeMatrix_apply hmul hr l.isLt]
  exact singleMulti_eq hmul _ _

/-- **A lost block over the survivors.** When the selected rows were inverted, the coefficients rebuild every
sub-packet of the lost block from the same sub-packet of the first `k` survivors. -/
theorem sum_coefVector_of_inverse (hmul : ∀ a b, gfMultiply a b = a * b) {fromsids : List ℕ}
    (hfrom : ∀ j : Fin c.k, fromsids.getD j 0 < c.n)
    (hone : selectMatrix (k := c.k) (invert (c.selectCells gfMultiply fromsids) c.k) (·) *
      selectMatrix (c.selectCells gfMultiply fromsids) (·) = 1)
    {r : ℕ} (hr : r < c.n) (data : ℕ → GF256) (wi : ℕ) :
    ∑ j : Fin c.k, c.coefVector gfMultiply invert fromsids r j *
      c.symbol data (fromsids.getD j 0) wi = c.symbol data r wi := by
  let V := selectMatrix (invert (c.selectCells gfMultiply fromsids) c.k) fun i : Fin c.k ↦ (i : ℕ)
  let M := generatorRows fun j : Fin c.k ↦ fromsids.getD j 0
  let g : Fin c.k → GF256 := fun l ↦ generator c.k r l
  let d : Fin c.k → GF256 := fun l ↦ data (l * c.w + wi)
  have hselect : selectMatrix (c.encodeMatrix gfMultiply) (fun i : Fin c.k ↦ fromsids.getD i 0) = M :=
    selectMatrix_generateMatrix hmul c.matrix hfrom
  have hVM : V * M = 1 := by
    rw [← hselect, ← selectMatrix_selectCells]
    exact hone
  calc ∑ j : Fin c.k, c.coefVector gfMultiply invert fromsids r j * c.symbol data (fromsids.getD j 0) wi
      = ∑ j : Fin c.k, Matrix.vecMul g V j * M.mulVec d j := by
        refine Finset.sum_congr rfl fun j _ ↦ ?_
        rw [coefVector_eq hmul fromsids hr]
        rfl
    _ = Matrix.vecMul g (V * M) ⬝ᵥ d := by
        rw [← Matrix.vecMul_vecMul, ← Matrix.dotProduct_mulVec]
        rfl
    _ = c.symbol data r wi := by
        rw [hVM, Matrix.vecMul_one]
        rfl

theorem sum_coefVector (hmul : ∀ a b, gfMultiply a b = a * b) (hinv : Inverts invert)
    {fromsids : List ℕ} (hfrom : ∀ j : Fin c.k, fromsids.getD j 0 < c.n)
    (hunit : IsUnit (selectMatrix (c.encodeMatrix gfMultiply) fun i : Fin c.k ↦ fromsids.getD i 0))
    {r : ℕ} (hr : r < c.n) (data : ℕ → GF256) (wi : ℕ) :
    ∑ j : Fin c.k, c.coefVector gfMultiply invert fromsids r j *
      c.symbol data (fromsids.getD j 0) wi = c.symbol data r wi := by
  refine sum_coefVector_of_inverse hmul hfrom (hinv c.k (c.selectCells gfMultiply fromsids) ?_) hr data wi
  rw [selectMatrix_selectCells]
  exact hunit

end Stripe

end UniDedup.Storage
