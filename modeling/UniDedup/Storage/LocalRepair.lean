import UniDedup.Storage.Building
import UniDedup.Storage.RS

/-!
# The locally repairable code

`WASLRC` cuts the data blocks into groups of `k / l` blocks and has a local parity block for each of the `l` groups, and
`r` global parity blocks. A block that is lost alone is repaired within its group.

As the division is truncated, the last `k % l` data blocks belong to none of these groups: their columns are zero in all
parity rows, so no other block depends on them, and they cannot be repaired at all (`WASLRC.repairs_iff`).

A block has one sub-packet. The entries of the matrix are integers, which are cut to bytes when they are used; what
the library multiplies is irrelevant here, as encoding and decoding fill the same matrix.
-/

namespace UniDedup.Storage

open ECDAG Function

def waslrcNMax : ℕ := 32

/-- The fields of the code. -/
structure WASLRC where
  n : ℕ
  k : ℕ
  l : ℕ
  r : ℕ
  encodeMatrix : ℕ → ℕ

namespace WASLRC

/-! ## Filling the matrix -/

section Fill

variable (gfMultiply : ℕ → ℕ → ℕ)

/-- `galois_single_multiply` on integers. -/
def singleMulti (a b : ℕ) : ℕ := if a = 0 ∨ b = 0 then 0 else gfMultiply a b

/-- The identity in the first `k` rows, and zero below. -/
def fillData (n k : ℕ) (matrix : ℕ → ℕ) : ℕ → ℕ :=
  (List.range k).foldl (fun matrix i ↦ update matrix (i * k + i) 1) fun p ↦ if p < n * k then 0 else matrix p

def fillLocal (k nr : ℕ) (matrix : ℕ → ℕ) (i : ℕ) : ℕ → ℕ :=
  (List.range nr).foldl (fun matrix j ↦ update matrix ((k + i) * k + i * nr + j) 1) matrix

/-- The part of the row of a global parity block for one group, with `tmp`. -/
def fillGroup (k l nr i j : ℕ) (matrix : ℕ → ℕ) : (ℕ → ℕ) × ℕ :=
  (List.range nr).foldl
    (fun s ii ↦ (update s.1 ((k + l + i) * k + j * nr + ii) s.2, singleMulti gfMultiply s.2 (i + 2))) (matrix, 1)

def fillGlobal (k l nr : ℕ) (matrix : ℕ → ℕ) (i : ℕ) : ℕ → ℕ :=
  (List.range l).foldl (fun matrix j ↦ (fillGroup gfMultiply k l nr i j matrix).1) matrix

def generateMatrix (matrix : ℕ → ℕ) (k l r : ℕ) : ℕ → ℕ :=
  let nr := k / l
  (List.range r).foldl (fillGlobal gfMultiply k l nr)
    ((List.range l).foldl (fillLocal k nr) (fillData (k + l + r) k matrix))

end Fill

/-! ### The entries -/

section Entries

variable {k l nr p : ℕ}

theorem foldl_keep {α σ : Type*} {f : σ → α → σ} (cell : σ → ℕ) {xs : List α}
    (h : ∀ x ∈ xs, ∀ s, cell (f s x) = cell s) (s : σ) : cell (xs.foldl f s) = cell s := by
  induction xs generalizing s with
  | nil => rfl
  | cons x xs ih =>
    rw [List.foldl_cons, ih fun y hy ↦ h y (List.mem_cons_of_mem x hy), h x List.mem_cons_self]

theorem foldl_update_one (pos : ℕ → ℕ) (m : ℕ) (matrix : ℕ → ℕ) :
    (List.range m).foldl (fun matrix i ↦ update matrix (pos i) 1) matrix p =
      if ∃ i < m, p = pos i then 1 else matrix p := by
  induction m with
  | zero => simp
  | succ m ih =>
    rw [List.range_succ, List.foldl_append, List.foldl_cons, List.foldl_nil]
    by_cases hp : p = pos m
    · rw [hp, update_self, if_pos ⟨m, m.lt_succ_self, rfl⟩]
    · have hiff : (∃ i < m + 1, p = pos i) ↔ ∃ i < m, p = pos i := by
        refine exists_congr fun i ↦ and_congr_left fun hi ↦ ?_
        have hne : i ≠ m := fun h ↦ hp (h ▸ hi)
        omega
      rw [update_of_ne hp, ih]
      simp only [hiff]

theorem column_lt (hnr : l * nr ≤ k) {i j : ℕ} (hi : i < l) (hj : j < nr) : i * nr + j < l * nr ∧ i * nr + j < k := by
  have hlt : i * nr + j < l * nr := by
    calc i * nr + j < i * nr + nr := Nat.add_lt_add_left hj _
      _ = (i + 1) * nr := (Nat.succ_mul i nr).symm
      _ ≤ l * nr := Nat.mul_le_mul_right nr hi
  exact ⟨hlt, hlt.trans_le hnr⟩

/-- What stands in the rows of the global parity blocks is written to the columns of the groups. -/
theorem fillGlobal_apply (gfMultiply : ℕ → ℕ → ℕ) (hnr : l * nr ≤ k) {i row c : ℕ} (hc : c < k)
    (h : row ≠ k + l + i ∨ l * nr ≤ c) (matrix : ℕ → ℕ) :
    fillGlobal gfMultiply k l nr matrix i (row * k + c) = matrix (row * k + c) := by
  refine foldl_keep (fun m : ℕ → ℕ ↦ m (row * k + c)) (fun j hj m ↦ ?_) matrix
  refine foldl_keep (fun s : (ℕ → ℕ) × ℕ ↦ s.1 (row * k + c)) (fun ii hii s ↦ ?_) (m, 1)
  refine update_of_ne (fun heq ↦ ?_) _ _
  obtain ⟨hlt, hltk⟩ := column_lt hnr (List.mem_range.mp hj) (List.mem_range.mp hii)
  rw [add_assoc] at heq
  obtain ⟨hrow, hcol⟩ := (cell_inj hc hltk).mp heq
  rcases h with h | h
  · exact h hrow
  · omega

theorem fillLocal_apply (hnr : l * nr ≤ k) {i row c : ℕ} (hi : i < l) (hc : c < k) (matrix : ℕ → ℕ) :
    fillLocal k nr matrix i (row * k + c) =
      if row = k + i ∧ i * nr ≤ c ∧ c < i * nr + nr then 1 else matrix (row * k + c) := by
  rw [fillLocal, foldl_update_one fun j ↦ (k + i) * k + i * nr + j]
  have hiff : (∃ j < nr, row * k + c = (k + i) * k + i * nr + j) ↔ row = k + i ∧ i * nr ≤ c ∧ c < i * nr + nr := by
    constructor
    · rintro ⟨j, hj, heq⟩
      rw [add_assoc] at heq
      obtain ⟨hrow, hcol⟩ := (cell_inj hc (column_lt hnr hi hj).2).mp heq
      omega
    · rintro ⟨rfl, hle, hlt⟩
      exact ⟨c - i * nr, by omega, by omega⟩
  simp only [hiff]

theorem foldl_fillLocal_apply (hnr : l * nr ≤ k) {m row c : ℕ} (hm : m ≤ l) (hc : c < k) (matrix : ℕ → ℕ) :
    (List.range m).foldl (fillLocal k nr) matrix (row * k + c) =
      if ∃ i < m, row = k + i ∧ i * nr ≤ c ∧ c < i * nr + nr then 1 else matrix (row * k + c) := by
  induction m with
  | zero => simp
  | succ m ih =>
    rw [List.range_succ, List.foldl_append, List.foldl_cons, List.foldl_nil, fillLocal_apply hnr (by omega) hc,
      ih (by omega)]
    by_cases hrow : row = k + m ∧ m * nr ≤ c ∧ c < m * nr + nr
    · rw [if_pos hrow, if_pos ⟨m, m.lt_succ_self, hrow⟩]
    · have hiff : (∃ i < m + 1, row = k + i ∧ i * nr ≤ c ∧ c < i * nr + nr) ↔
          ∃ i < m, row = k + i ∧ i * nr ≤ c ∧ c < i * nr + nr := by
        refine exists_congr fun i ↦ and_congr_left fun hi ↦ ?_
        have hne : i ≠ m := fun h ↦ hrow (h ▸ hi)
        omega
      rw [if_neg hrow]
      simp only [hiff]

theorem fillData_apply {n row c : ℕ} (matrix : ℕ → ℕ) (hc : c < k) (hrow : k ≤ row) (hn : row < n) :
    fillData n k matrix (row * k + c) = 0 := by
  have hcell : row * k + c < n * k := by
    calc row * k + c < (row + 1) * k := by rw [add_mul, one_mul]; omega
      _ ≤ n * k := Nat.mul_le_mul_right k hn
  rw [fillData, foldl_update_one fun i ↦ i * k + i, if_neg, if_pos hcell]
  rintro ⟨i, hi, heq⟩
  have := ((cell_inj hc hi).mp heq).1
  omega

theorem generateMatrix_local (gfMultiply : ℕ → ℕ → ℕ) (matrix : ℕ → ℕ) {r i c : ℕ} (hi : i < l) (hc : c < k) :
    generateMatrix gfMultiply matrix k l r ((k + i) * k + c) =
      if i * (k / l) ≤ c ∧ c < i * (k / l) + k / l then 1 else 0 := by
  have hnr : l * (k / l) ≤ k := Nat.mul_div_le k l
  rw [generateMatrix, foldl_keep (fun m : ℕ → ℕ ↦ m ((k + i) * k + c)) fun j _ m ↦
    fillGlobal_apply gfMultiply hnr hc (.inl (by omega)) m]
  rw [foldl_fillLocal_apply hnr le_rfl hc, fillData_apply matrix hc (by omega) (by omega)]
  have hiff : (∃ i' < l, k + i = k + i' ∧ i' * (k / l) ≤ c ∧ c < i' * (k / l) + k / l) ↔
      i * (k / l) ≤ c ∧ c < i * (k / l) + k / l := by
    constructor
    · rintro ⟨i', -, heq, h⟩
      obtain rfl : i = i' := Nat.add_left_cancel heq
      exact h
    · exact fun h ↦ ⟨i, hi, rfl, h⟩
  simp only [hiff]

theorem generateMatrix_tail (gfMultiply : ℕ → ℕ → ℕ) (matrix : ℕ → ℕ) {r row c : ℕ} (hrow : k ≤ row)
    (hn : row < k + l + r) (hc : c < k) (htail : l * (k / l) ≤ c) :
    generateMatrix gfMultiply matrix k l r (row * k + c) = 0 := by
  have hnr : l * (k / l) ≤ k := Nat.mul_div_le k l
  rw [generateMatrix, foldl_keep (fun m : ℕ → ℕ ↦ m (row * k + c)) fun j _ m ↦
    fillGlobal_apply gfMultiply hnr hc (.inr htail) m]
  rw [foldl_fillLocal_apply hnr le_rfl hc, fillData_apply matrix hc hrow hn, if_neg]
  rintro ⟨i, hi, -, -, hlt⟩
  have hle : (i + 1) * (k / l) ≤ l * (k / l) := Nat.mul_le_mul_right _ hi
  rw [add_mul, one_mul] at hle
  omega

end Entries

/-! ## The graphs -/

section Graphs

variable (gfMultiply : ℕ → ℕ → ℕ) (c : WASLRC)

/-- The constructor, on what is in the memory of the matrix; `none` where `memset` writes behind it. -/
def new (memory : ℕ → ℕ) (n k l r : ℕ) : Option WASLRC :=
  if n * k ≤ waslrcNMax * waslrcNMax then some ⟨n, k, l, r, fun p ↦ if p < n * k then 0 else memory p⟩ else none

/-- The coefficients of a block over the data blocks. -/
def row (r : ℕ) : List GF256 :=
  (List.range c.k).map fun j ↦ GF256.ofNat (generateMatrix gfMultiply c.encodeMatrix c.k c.l c.r (r * c.k + j))

def encode : Option ECDAG :=
  let data := List.range c.k
  let code := (List.range (c.n - c.k)).map (c.k + ·)
  let dag := code.foldl (fun dag p ↦ dag.join p data (c.row gfMultiply p)) ({} : ECDAG)
  if 1 < code.length then (dag.bindX code).map Prod.fst else some dag

/-- The blocks that a lost block is joined to. -/
def helpers (ridx : ℕ) : List ℕ :=
  let nr := c.k / c.l
  if ridx < c.k then
    let gidx := ridx / nr
    ((List.range nr).map (gidx * nr + ·)).filter (ridx ≠ ·) ++ [c.k + gidx]
  else if ridx < c.k + c.l then
    let gidx := ridx - c.k
    (List.range nr).map (gidx * nr + ·)
  else List.range c.k

def helperCoefs (ridx : ℕ) : List GF256 :=
  if ridx < c.k + c.l then List.replicate (c.helpers ridx).length 1 else c.row gfMultiply ridx

def decode (_from to' : List ℕ) : ECDAG :=
  match to' with
  | [ridx] => ({} : ECDAG).join ridx (c.helpers ridx) (c.helperCoefs gfMultiply ridx)
  | _ => {}

end Graphs

/-! ## What is computed -/

section Evaluation

variable {gfMultiply : ℕ → ℕ → ℕ} {c : WASLRC} {env data : ℕ → GF256}

theorem evaluates_over_leaves {S : ℕ → Option Shape} {id : ℕ} {cs : List ℕ} {coefs : List GF256} (hne : cs ≠ [])
    (h : S id = some (cs, AList.singleton id coefs)) (hleaf : ∀ i ∈ cs, S i = some ([], ∅)) :
    Evaluates S env id (dot coefs (cs.map env)) := by
  have hbind : bindOf S cs = none := by
    rcases cs with _ | ⟨i, _ | ⟨j, rest⟩⟩
    · rfl
    · rw [bindOf, hleaf i List.mem_cons_self]
      rfl
    · rfl
  have hlookup : (AList.singleton id coefs : CoefMap).lookup id = some coefs := AList.lookup_insert ∅
  have hrow : rowOf S id (cs, AList.singleton id coefs) = some (cs, coefs) := by
    rw [rowOf, hbind, Option.getD_none, hlookup]
    rfl
  refine evaluates_row h hne hrow ?_
  rw [List.forall₂_map_right_iff, List.forall₂_same]
  exact fun i hi ↦ evaluates_leaf (hleaf i hi)

/-- A block of the stripe of the given data. -/
def symbol (gfMultiply : ℕ → ℕ → ℕ) (c : WASLRC) (data : ℕ → GF256) (r : ℕ) : GF256 :=
  if r < c.k then data r else dot (c.row gfMultiply r) ((List.range c.k).map data)

/-- **`Encode`** computes every block of the stripe. -/
theorem encode_evaluates (gfMultiply : ℕ → ℕ → ℕ) (c : WASLRC) (hk : 0 < c.k) (hkn : c.k < c.n) (hn : c.n ≤ bindStart) :
    ∃ enc, c.encode gfMultiply = some enc ∧
      ∀ data, ∀ r < c.n, Evaluates enc.shape data r (c.symbol gfMultiply data r) := by
  have hcode : ∀ r, r ∈ (List.range (c.n - c.k)).map (c.k + ·) ↔ c.k ≤ r ∧ r < c.n := by
    intro r
    rw [List.mem_map]
    constructor
    · rintro ⟨i, hi, rfl⟩
      have := List.mem_range.mp hi
      omega
    · exact fun ⟨hr, hrn⟩ ↦ ⟨r - c.k, List.mem_range.mpr (by omega), by omega⟩
  have hnodup : ((List.range (c.n - c.k)).map (c.k + ·)).Nodup :=
    List.nodup_range.map (add_right_injective c.k)
  rw [encode]
  generalize (List.range (c.n - c.k)).map (c.k + ·) = code at hcode hnodup
  have hne : code ≠ [] := List.ne_nil_of_mem ((hcode c.k).mpr ⟨le_rfl, hkn⟩)
  have hdata : List.range c.k ≠ [] := by
    rw [Ne, List.range_eq_nil]
    exact hk.ne'
  have hshape := shape_foldl_join (List.range c.k) (c.row gfMultiply) code {}
  have hbindId := bindId_foldl_join (List.range c.k) (c.row gfMultiply) code {}
  have hcluster := findCluster_foldl_join (List.range c.k) (c.row gfMultiply) hne {}
  generalize code.foldl (fun dag p ↦ dag.join p (List.range c.k) (c.row gfMultiply p)) ({} : ECDAG) = dag
    at hshape hbindId hcluster
  have hparity : ∀ r ∈ code, dag.shape r = some (List.range c.k, AList.singleton r (c.row gfMultiply r)) :=
    fun r hr ↦ by rw [hshape, if_pos hr]
  have hleaf : ∀ r < c.k, dag.shape r = some ([], ∅) := by
    intro r hr
    rw [hshape, if_neg fun hmem ↦ ((hcode r).mp hmem).1.not_gt hr, if_pos ⟨hne, List.mem_range.mpr hr, rfl⟩]
  -- a single parity block is not bound
  split_ifs with hlen
  · obtain ⟨i, j, is, rfl⟩ : ∃ i j is, code = i :: j :: is := by
      rcases code with _ | ⟨i, _ | ⟨j, is⟩⟩
      · exact absurd rfl hne
      · exact absurd hlen (Nat.lt_irrefl 1)
      · exact ⟨i, j, is, rfl⟩
    have hbound : c.n ≤ dag.bindId := hn.trans_eq hbindId.symm
    have hfree : dag.bindId ∉ dag.nodes := by
      refine shape_eq_none.mp ?_
      rw [hshape, if_neg fun hmem ↦ ((hcode _).mp hmem).2.not_ge hbound, if_neg]
      · rfl
      · rintro ⟨-, hmem, -⟩
        exact ((List.mem_range.mp hmem).trans hkn).not_ge hbound
    obtain ⟨enc, hbind, henc⟩ := bindX_eq_some hnodup hfree hparity (fun _ _ ↦ .refl _) hcluster
    refine ⟨enc, by rw [hbind]; rfl, fun data r hr ↦ ?_⟩
    have hleafEnc : ∀ r < c.k, enc.shape r = some ([], ∅) := by
      intro r hr
      rw [henc, if_neg fun hmem ↦ ((hcode r).mp hmem).1.not_gt hr, if_neg (by omega), hleaf r hr]
    rw [symbol]
    split_ifs with hrk
    · exact evaluates_leaf (hleafEnc r hrk)
    · have hmem : r ∈ i :: j :: is := (hcode r).mpr ⟨not_lt.mp hrk, hr⟩
      have hnode : enc.shape dag.bindId = some (List.range c.k, bindCoefs (c.row gfMultiply) (i :: j :: is) ∅) := by
        rw [henc, if_neg fun hmem ↦ ((hcode _).mp hmem).2.not_ge hbound, if_pos rfl]
      have hij : i ≠ j := fun h ↦ (List.nodup_cons.mp hnodup).1 (h ▸ List.mem_cons_self)
      have hlookup : ∀ r ∈ i :: j :: is,
          (bindCoefs (c.row gfMultiply) (i :: j :: is) ∅).lookup r = some (c.row gfMultiply r) :=
        fun r hr ↦ lookup_bindCoefs hr ∅
      have hkeys := one_lt_length_keys hij (hlookup i List.mem_cons_self)
        (hlookup j (List.mem_cons_of_mem i List.mem_cons_self))
      refine evaluates_bound (by rw [henc, if_pos hmem]) hnode hkeys (hlookup r hmem) ?_
      rw [List.forall₂_map_right_iff, List.forall₂_same]
      exact fun id hid ↦ evaluates_leaf (hleafEnc id (List.mem_range.mp hid))
  · refine ⟨dag, rfl, fun data r hr ↦ ?_⟩
    rw [symbol]
    split_ifs with hrk
    · exact evaluates_leaf (hleaf r hrk)
    · exact evaluates_over_leaves hdata (hparity r ((hcode r).mpr ⟨not_lt.mp hrk, hr⟩))
        fun i hi ↦ hleaf i (List.mem_range.mp hi)

theorem decode_evaluates (gfMultiply : ℕ → ℕ → ℕ) (env : ℕ → GF256) (from' : List ℕ) {b : ℕ}
    (hne : c.helpers b ≠ []) (hnot : b ∉ c.helpers b) :
    Evaluates (c.decode gfMultiply from' [b]).shape env b
      (dot (c.helperCoefs gfMultiply b) ((c.helpers b).map env)) := by
  refine evaluates_over_leaves hne (by rw [decode, shape_join, if_pos rfl]) fun i hi ↦ ?_
  have hib : i ≠ b := fun heq ↦ hnot (heq ▸ hi)
  rw [decode, shape_join, if_neg hib, if_pos ⟨hi, rfl⟩]

theorem of_leaf (from' : List ℕ) {b id : ℕ} (hne : c.helpers b ≠ [])
    (h : (c.decode gfMultiply from' [b]).shape id = some ([], ∅)) : id ≠ b ∧ id ∈ c.helpers b := by
  rw [decode, shape_join] at h
  by_cases hid : id = b
  · rw [if_pos hid] at h
    exact absurd (congrArg Prod.fst (Option.some.inj h)) hne
  · rw [if_neg hid] at h
    refine ⟨hid, by_contra fun hmem ↦ ?_⟩
    rw [if_neg fun hand ↦ hmem hand.1] at h
    exact Option.some_ne_none _ h.symm

/-! ### Sums over groups -/

theorem dot_replicate_one (vs : List GF256) : dot (List.replicate vs.length 1) vs = vs.sum := by
  induction vs with
  | nil => rfl
  | cons v vs ih => rw [List.length_cons, List.replicate_succ, dot_cons, one_mul, ih, List.sum_cons]

theorem dot_row (r : ℕ) (data : ℕ → GF256) : dot (c.row gfMultiply r) ((List.range c.k).map data) =
    ((List.range c.k).map fun j ↦
      GF256.ofNat (generateMatrix gfMultiply c.encodeMatrix c.k c.l c.r (r * c.k + j)) * data j).sum := by
  rw [dot, row, List.zipWith_map, List.zipWith_self]

theorem sum_map_eq_zero (xs : List ℕ) {f : ℕ → GF256} (h : ∀ x ∈ xs, f x = 0) : (xs.map f).sum = 0 := by
  refine List.sum_eq_zero fun y hy ↦ ?_
  obtain ⟨x, hx, rfl⟩ := List.mem_map.mp hy
  exact h x hx

theorem sum_window {a m k : ℕ} (hfit : a + m ≤ k) (f : ℕ → GF256) :
    ((List.range k).map fun j ↦ if a ≤ j ∧ j < a + m then f j else 0).sum =
      ((List.range m).map fun j ↦ f (a + j)).sum := by
  obtain ⟨t, rfl⟩ := Nat.exists_eq_add_of_le hfit
  rw [List.range_add, List.range_add, List.map_append, List.map_append, List.sum_append, List.sum_append,
    sum_map_eq_zero (List.range a), sum_map_eq_zero ((List.range t).map (a + m + ·)), zero_add, add_zero,
    List.map_map]
  · refine congrArg List.sum (List.map_congr_left fun j hj ↦ if_pos ⟨Nat.le_add_right a j, ?_⟩)
    exact Nat.add_lt_add_left (List.mem_range.mp hj) a
  · intro j hj
    obtain ⟨i, -, rfl⟩ := List.mem_map.mp hj
    exact if_neg (by omega)
  · intro j hj
    have hlt := List.mem_range.mp hj
    exact if_neg (by omega)

theorem symbol_local {i : ℕ} (hi : i < c.l) (data : ℕ → GF256) :
    c.symbol gfMultiply data (c.k + i) =
      ((List.range (c.k / c.l)).map fun j ↦ data (i * (c.k / c.l) + j)).sum := by
  have hfit : i * (c.k / c.l) + c.k / c.l ≤ c.k := by
    calc i * (c.k / c.l) + c.k / c.l = (i + 1) * (c.k / c.l) := (Nat.succ_mul i _).symm
      _ ≤ c.l * (c.k / c.l) := Nat.mul_le_mul_right _ hi
      _ ≤ c.k := Nat.mul_div_le c.k c.l
  rw [symbol, if_neg (by omega), dot_row, ← sum_window hfit]
  refine congrArg List.sum (List.map_congr_left fun j hj ↦ ?_)
  rw [generateMatrix_local gfMultiply c.encodeMatrix hi (List.mem_range.mp hj)]
  split_ifs
  · exact one_mul _
  · exact zero_mul _

theorem symbol_tail (gfMultiply : ℕ → ℕ → ℕ) (hn : c.n = c.k + c.l + c.r) {b r : ℕ} (hb : c.l * (c.k / c.l) ≤ b)
    (hbk : b < c.k) (hr : r < c.n) :
    c.symbol gfMultiply (fun i ↦ if i = b then 1 else 0) r = if r = b then 1 else 0 := by
  rw [symbol]
  split_ifs with hrk hrb hrb
  · rfl
  · rfl
  · omega
  · rw [dot_row]
    refine sum_map_eq_zero _ fun j hj ↦ ?_
    split_ifs with hjb
    · subst hjb
      rw [generateMatrix_tail gfMultiply c.encodeMatrix (not_lt.mp hrk) (hr.trans_eq hn) hbk hb]
      exact zero_mul _
    · exact mul_zero _

/-! ### The helpers -/

variable {b : ℕ}

theorem helpers_data (hb : b < c.k) : c.helpers b =
    ((List.range (c.k / c.l)).map (b / (c.k / c.l) * (c.k / c.l) + ·)).filter (b ≠ ·) ++ [c.k + b / (c.k / c.l)] :=
  if_pos hb

theorem helpers_local (hb : c.k ≤ b) (hbl : b < c.k + c.l) :
    c.helpers b = (List.range (c.k / c.l)).map ((b - c.k) * (c.k / c.l) + ·) := by
  rw [helpers, if_neg hb.not_gt, if_pos hbl]

theorem helpers_global (hb : c.k + c.l ≤ b) : c.helpers b = List.range c.k := by
  rw [helpers, if_neg (by omega), if_neg hb.not_gt]

theorem helpers_spec (hl : 1 ≤ c.l) (hlk : c.l ≤ c.k) : c.helpers b ≠ [] ∧ b ∉ c.helpers b := by
  have hnr : 0 < c.k / c.l := Nat.div_pos hlk hl
  rcases lt_or_ge b c.k with hb | hb
  · rw [helpers_data hb]
    refine ⟨List.append_ne_nil_of_right_ne_nil _ (List.cons_ne_nil _ _), fun hmem ↦ ?_⟩
    rcases List.mem_append.mp hmem with hmem | hmem
    · exact of_decide_eq_true (List.mem_filter.mp hmem).2 rfl
    · have heq := List.mem_singleton.mp hmem
      have hle := Nat.le_add_right c.k (b / (c.k / c.l))
      exact absurd (heq ▸ hb) hle.not_gt
  rcases lt_or_ge b (c.k + c.l) with hbl | hbl
  · rw [helpers_local hb hbl]
    refine ⟨fun hnil ↦ ?_, fun hmem ↦ ?_⟩
    · rw [List.map_eq_nil_iff, List.range_eq_nil] at hnil
      omega
    · obtain ⟨j, hj, heq⟩ := List.mem_map.mp hmem
      have hlt := (column_lt (Nat.mul_div_le c.k c.l) (i := b - c.k) (by omega) (List.mem_range.mp hj)).2
      omega
  · rw [helpers_global hbl]
    refine ⟨fun hnil ↦ ?_, fun hmem ↦ ?_⟩
    · rw [List.range_eq_nil] at hnil
      omega
    · have := List.mem_range.mp hmem
      omega

end Evaluation

/-! ## The repair -/

/-- The group of a data block or a local parity block. -/
def groupOf (k l b : ℕ) : ℕ := if b < k then b / (k / l) else b - k

/-- The data blocks of a group and its local parity block. -/
def InGroup (k l g id : ℕ) : Prop := g * (k / l) ≤ id ∧ id < g * (k / l) + k / l ∨ id = k + g

/-- The blocks of the stripe that a graph computes from the data. -/
def IsStripe (enc : ECDAG) (n : ℕ) (data stripe : ℕ → GF256) : Prop :=
  ∀ r < n, Evaluates enc.shape data r (stripe r)

/-- A block that is lost alone: the stripe can be encoded; the block is rebuilt wherever the leaves hold the other blocks
of a stripe, whatever they hold in its place; it is no leaf itself, and for a data block or a local parity block the
leaves are in its group. -/
def Repairs (gfMultiply : ℕ → ℕ → ℕ) (memory : ℕ → ℕ) (k l r b : ℕ) : Prop :=
  ∃ c enc, new memory (k + l + r) k l r = some c ∧ c.encode gfMultiply = some enc ∧
    (∀ data, ∃ stripe, IsStripe enc (k + l + r) data stripe) ∧
    ∀ from', (∀ data stripe env, IsStripe enc (k + l + r) data stripe → (∀ i < k + l + r, i ≠ b → env i = stripe i) →
        Evaluates (c.decode gfMultiply from' [b]).shape env b (stripe b)) ∧
      ∀ id, (c.decode gfMultiply from' [b]).shape id = some ([], ∅) →
        id ≠ b ∧ (b < k + l → InGroup k l (groupOf k l b) id)

section Repair

variable {gfMultiply : ℕ → ℕ → ℕ} {c : WASLRC} {enc : ECDAG} {data stripe : ℕ → GF256} {b : ℕ}

theorem sum_filter_add_sum {xs : List ℕ} (hxs : xs.Nodup) (hb : b ∈ xs) (f : ℕ → GF256) :
    ((xs.filter (b ≠ ·)).map f).sum + (xs.map f).sum = f b := by
  have herase : xs.erase b = xs.filter (b ≠ ·) := by
    rw [hxs.erase_eq_filter]
    refine List.filter_congr fun x _ ↦ ?_
    rw [Bool.eq_iff_iff, bne_iff_ne, decide_eq_true_iff]
    exact ne_comm
  rw [← herase, ← List.sum_map_erase f hb, add_left_comm, CharTwo.add_self_eq_zero, add_zero]

/-- **A block is the combination of its helpers**, unless it is one of the last `k % l` data blocks. -/
theorem dot_helpers (hn : c.n = c.k + c.l + c.r) (hl : 1 ≤ c.l) (hlk : c.l ≤ c.k)
    (hb : b < c.l * (c.k / c.l) ∨ c.k ≤ b) (hbn : b < c.n)
    (hstripe : ∀ r < c.n, stripe r = c.symbol gfMultiply data r) :
    dot (c.helperCoefs gfMultiply b) ((c.helpers b).map stripe) = stripe b := by
  have hnr : 0 < c.k / c.l := Nat.div_pos hlk hl
  have hfit : c.l * (c.k / c.l) ≤ c.k := Nat.mul_div_le c.k c.l
  have hones : b < c.k + c.l →
      dot (c.helperCoefs gfMultiply b) ((c.helpers b).map stripe) = ((c.helpers b).map stripe).sum := by
    intro hlt
    have hlen : (c.helpers b).length = ((c.helpers b).map stripe).length := List.length_map .. |>.symm
    rw [helperCoefs, if_pos hlt, hlen, dot_replicate_one]
  -- the sum of the group is its local parity block
  have hlocal : ∀ i < c.l, ((List.range (c.k / c.l)).map fun j ↦ stripe (i * (c.k / c.l) + j)).sum = stripe (c.k + i) := by
    intro i hi
    rw [hstripe (c.k + i) (by omega), symbol_local hi]
    refine congrArg List.sum (List.map_congr_left fun j hj ↦ ?_)
    have hlt := (column_lt hfit hi (List.mem_range.mp hj)).2
    rw [hstripe _ (by omega), symbol, if_pos hlt]
  rcases lt_or_ge b c.k with hbk | hbk
  · have hbl : b < c.l * (c.k / c.l) := hb.resolve_right hbk.not_ge
    have hg : b / (c.k / c.l) < c.l := Nat.div_lt_of_lt_mul (by rwa [mul_comm] at hbl)
    rw [hones (by omega), helpers_data hbk, List.map_append, List.sum_append, List.map_singleton, List.sum_singleton,
      ← hlocal _ hg]
    have hmem : b ∈ (List.range (c.k / c.l)).map (b / (c.k / c.l) * (c.k / c.l) + ·) :=
      List.mem_map.mpr ⟨b % (c.k / c.l), List.mem_range.mpr (Nat.mod_lt b hnr), Nat.div_add_mod' b _⟩
    have hsum := sum_filter_add_sum (List.nodup_range.map (add_right_injective _)) hmem stripe
    rw [List.map_map] at hsum
    exact hsum
  rcases lt_or_ge b (c.k + c.l) with hbl | hbl
  · rw [hones hbl, helpers_local hbk hbl, List.map_map]
    have := hlocal (b - c.k) (by omega)
    rw [Nat.add_sub_cancel' hbk] at this
    exact this
  · rw [helperCoefs, if_neg hbl.not_gt, helpers_global hbl, hstripe b hbn, symbol, if_neg (by omega)]
    refine congrArg (dot _) (List.map_congr_left fun j hj ↦ ?_)
    have hlt := List.mem_range.mp hj
    rw [hstripe j (by omega), symbol, if_pos hlt]

/-- The helpers are blocks of the stripe, unless the block is one of the last `k % l` data blocks. -/
theorem helpers_lt (hn : c.n = c.k + c.l + c.r) (hb : b < c.l * (c.k / c.l) ∨ c.k ≤ b) {i : ℕ}
    (hi : i ∈ c.helpers b) : i < c.n := by
  have hfit : c.l * (c.k / c.l) ≤ c.k := Nat.mul_div_le c.k c.l
  rcases lt_or_ge b c.k with hbk | hbk
  · have hbl : b < c.l * (c.k / c.l) := hb.resolve_right hbk.not_ge
    have hg : b / (c.k / c.l) < c.l := Nat.div_lt_of_lt_mul (by rwa [mul_comm] at hbl)
    rw [helpers_data hbk, List.mem_append, List.mem_filter, List.mem_singleton] at hi
    rcases hi with ⟨hmem, -⟩ | rfl
    · obtain ⟨j, hj, rfl⟩ := List.mem_map.mp hmem
      have hlt := (column_lt hfit hg (List.mem_range.mp hj)).2
      omega
    · omega
  rcases lt_or_ge b (c.k + c.l) with hbl | hbl
  · rw [helpers_local hbk hbl] at hi
    obtain ⟨j, hj, rfl⟩ := List.mem_map.mp hi
    have hlt := (column_lt hfit (i := b - c.k) (by omega) (List.mem_range.mp hj)).2
    omega
  · rw [helpers_global hbl] at hi
    have hlt := List.mem_range.mp hi
    omega

theorem inGroup_of_mem_helpers {id : ℕ} (hb : b < c.k + c.l) (hid : id ∈ c.helpers b) :
    InGroup c.k c.l (groupOf c.k c.l b) id := by
  rw [InGroup, groupOf]
  rcases lt_or_ge b c.k with hbk | hbk
  · rw [if_pos hbk]
    rw [helpers_data hbk, List.mem_append, List.mem_filter] at hid
    rcases hid with ⟨hmem, -⟩ | hmem
    · obtain ⟨j, hj, rfl⟩ := List.mem_map.mp hmem
      exact .inl ⟨Nat.le_add_right _ j, Nat.add_lt_add_left (List.mem_range.mp hj) _⟩
    · exact .inr (List.mem_singleton.mp hmem)
  · rw [if_neg hbk.not_gt]
    rw [helpers_local hbk hb] at hid
    obtain ⟨j, hj, rfl⟩ := List.mem_map.mp hid
    exact .inl ⟨Nat.le_add_right _ j, Nat.add_lt_add_left (List.mem_range.mp hj) _⟩

theorem dot_eq_zero {cs : List ℕ} {coefs : List GF256} {f : ℕ → GF256} (h : ∀ i ∈ cs, f i = 0) :
    dot coefs (cs.map f) = 0 := by
  induction cs generalizing coefs with
  | nil => rw [List.map_nil, dot, List.zipWith_nil_right, List.sum_nil]
  | cons i cs ih =>
    cases coefs with
    | nil => exact dot_nil _
    | cons co coefs =>
      rw [List.map_cons, dot_cons, h i List.mem_cons_self, mul_zero, zero_add,
        ih fun j hj ↦ h j (List.mem_cons_of_mem i hj)]

theorem exists_encode (gfMultiply : ℕ → ℕ → ℕ) (memory : ℕ → ℕ) {k l r : ℕ} (hl : 1 ≤ l) (hlk : l ≤ k)
    (hsize : (k + l + r) * k ≤ waslrcNMax * waslrcNMax) :
    ∃ c enc, new memory (k + l + r) k l r = some c ∧ (c.n = k + l + r ∧ c.k = k ∧ c.l = l ∧ c.r = r) ∧
      c.encode gfMultiply = some enc ∧ ∀ data, ∀ i < c.n, Evaluates enc.shape data i (c.symbol gfMultiply data i) := by
  have hk : 0 < k := hl.trans hlk
  have hle : k + l + r ≤ bindStart := by
    calc k + l + r ≤ (k + l + r) * k := Nat.le_mul_of_pos_right _ hk
      _ ≤ waslrcNMax * waslrcNMax := hsize
      _ ≤ bindStart := by decide
  let c : WASLRC := ⟨k + l + r, k, l, r, fun p ↦ if p < (k + l + r) * k then 0 else memory p⟩
  have hkn : c.k < c.n := show k < k + l + r by omega
  obtain ⟨enc, henc, hvalue⟩ := encode_evaluates gfMultiply c hk hkn hle
  exact ⟨c, enc, if_pos hsize, ⟨rfl, rfl, rfl, rfl⟩, henc, hvalue⟩

/-- **One lost block** is repaired unless it is one of the last `k % l` data blocks. -/
theorem repairs_block_iff (gfMultiply : ℕ → ℕ → ℕ) (memory : ℕ → ℕ) {k l r : ℕ} (hl : 1 ≤ l) (hlk : l ≤ k)
    (hb : b < k + l + r) : Repairs gfMultiply memory k l r b ↔
      (k + l + r) * k ≤ waslrcNMax * waslrcNMax ∧ (b < l * (k / l) ∨ k ≤ b) := by
  constructor
  · rintro ⟨c, enc, hnew, henc, -, hrepair⟩
    have hsize : (k + l + r) * k ≤ waslrcNMax * waslrcNMax := by
      by_contra hlarge
      rw [new, if_neg hlarge] at hnew
      exact (Option.some_ne_none c).symm hnew
    obtain ⟨c', enc', hnew', ⟨hn, rfl, rfl, rfl⟩, henc', hvalue⟩ := exists_encode gfMultiply memory hl hlk hsize
    obtain rfl : c = c' := Option.some.inj (hnew.symm.trans hnew')
    obtain rfl : enc = enc' := Option.some.inj (henc.symm.trans henc')
    refine ⟨hsize, ?_⟩
    by_contra htail
    rw [not_or, not_lt, not_le] at htail
    -- the data that are zero but for the lost block are the whole stripe
    let data : ℕ → GF256 := fun i ↦ if i = b then 1 else 0
    have hstripe : IsStripe enc (c.k + c.l + c.r) data data := by
      intro i hi
      have hval := hvalue data i (hi.trans_eq hn.symm)
      rwa [symbol_tail gfMultiply hn htail.1 htail.2 (hi.trans_eq hn.symm)] at hval
    have hval := (hrepair []).1 data data data hstripe fun _ _ _ ↦ rfl
    obtain ⟨hne, hnot⟩ := helpers_spec (b := b) hl hlk
    have hzero : ∀ i ∈ c.helpers b, data i = 0 := by
      intro i hi
      refine if_neg fun heq ↦ ?_
      exact hnot (heq ▸ hi)
    have heq := hval.unique (decode_evaluates gfMultiply data [] hne hnot)
    rw [dot_eq_zero hzero] at heq
    exact absurd ((if_pos rfl).symm.trans heq) (by decide)
  · rintro ⟨hsize, hb'⟩
    obtain ⟨c, enc, hnew, ⟨hn, rfl, rfl, rfl⟩, henc, hvalue⟩ := exists_encode gfMultiply memory hl hlk hsize
    obtain ⟨hne, hnot⟩ := helpers_spec (b := b) hl hlk
    refine ⟨c, enc, hnew, henc, fun data ↦ ⟨_, fun i hi ↦ hvalue data i (hi.trans_eq hn.symm)⟩, fun from' ↦
      ⟨fun data stripe env hstripe hothers ↦ ?_, fun id hleaf ↦ ?_⟩⟩
    · have hsymbol : ∀ i < c.n, stripe i = c.symbol gfMultiply data i := fun i hi ↦
        (hstripe i (hi.trans_eq hn)).unique (hvalue data i hi)
      have henv : (c.helpers b).map env = (c.helpers b).map stripe := List.map_congr_left fun i hi ↦
        hothers i ((helpers_lt hn hb' hi).trans_eq hn) fun heq ↦ hnot (heq ▸ hi)
      have hval := decode_evaluates gfMultiply env from' hne hnot
      rwa [henv, dot_helpers hn hl hlk hb' (hb.trans_eq hn.symm) hsymbol] at hval
    · obtain ⟨hid, hmem⟩ := of_leaf from' hne hleaf
      exact ⟨hid, fun hbl ↦ inGroup_of_mem_helpers hbl hmem⟩

theorem covered_iff (gfMultiply : ℕ → ℕ → ℕ) (memory : ℕ → ℕ) {k l r : ℕ} (hl : 1 ≤ l) (hlk : l ≤ k) (hb : b < k) :
    (∃ i < l, generateMatrix gfMultiply memory k l r ((k + i) * k + b) ≠ 0) ↔ b < l * (k / l) := by
  have hnr : 0 < k / l := Nat.div_pos hlk hl
  constructor
  · rintro ⟨i, hi, hne⟩
    rw [generateMatrix_local gfMultiply memory hi hb, ne_eq, ite_eq_right_iff] at hne
    have hwindow : i * (k / l) ≤ b ∧ b < i * (k / l) + k / l := by
      by_contra hnot
      exact hne fun h ↦ absurd h hnot
    calc b < i * (k / l) + k / l := hwindow.2
      _ = (i + 1) * (k / l) := (Nat.succ_mul i _).symm
      _ ≤ l * (k / l) := Nat.mul_le_mul_right _ hi
  · intro hlt
    have hi : b / (k / l) < l := Nat.div_lt_of_lt_mul (by rwa [mul_comm] at hlt)
    have hsplit := Nat.div_add_mod' b (k / l)
    have hmod := Nat.mod_lt b hnr
    refine ⟨b / (k / l), hi, ?_⟩
    rw [generateMatrix_local gfMultiply memory hi hb, if_pos (by omega)]
    exact Nat.one_ne_zero

/-- Nothing is left over exactly where the number of groups divides the number of data blocks. -/
theorem forall_lt_iff_dvd {k l : ℕ} (hk : 0 < k) : (∀ b < k, b < l * (k / l)) ↔ l ∣ k := by
  constructor
  · intro h
    have hlast := h (k - 1) (Nat.sub_lt hk Nat.one_pos)
    have hle : l * (k / l) ≤ k := Nat.mul_div_le k l
    exact ⟨k / l, by omega⟩
  · intro hdvd b hb
    rwa [Nat.mul_div_cancel' hdvd]

/-- **Local repair.** -/
theorem repairs_iff (gfMultiply : ℕ → ℕ → ℕ) (memory : ℕ → ℕ) {k l : ℕ} (r : ℕ) (hl : 1 ≤ l) (hlk : l ≤ k) :
    (∀ b < k + l + r, Repairs gfMultiply memory k l r b ↔
      (k + l + r) * k ≤ waslrcNMax * waslrcNMax ∧ (b < l * (k / l) ∨ k ≤ b)) ∧
    ((∀ b < k, ∃ i < l, generateMatrix gfMultiply memory k l r ((k + i) * k + b) ≠ 0) ↔ l ∣ k) ∧
    ((∀ b < k + l + r, Repairs gfMultiply memory k l r b) ↔
      (k + l + r) * k ≤ waslrcNMax * waslrcNMax ∧ l ∣ k) := by
  have hblock := fun b hb ↦ repairs_block_iff gfMultiply memory (r := r) (b := b) hl hlk hb
  have hk : 0 < k := hl.trans hlk
  refine ⟨hblock, ?_, ?_⟩
  · rw [← forall_lt_iff_dvd hk]
    exact forall₂_congr fun b hb ↦ covered_iff gfMultiply memory hl hlk hb
  · rw [← forall_lt_iff_dvd hk]
    constructor
    · intro h
      refine ⟨((hblock 0 (by omega)).mp (h 0 (by omega))).1, fun b hb ↦ ?_⟩
      have hbn : b < k + l + r := by omega
      exact ((hblock b hbn).mp (h b hbn)).2.resolve_right hb.not_ge
    · rintro ⟨hsize, hcovered⟩ b hb
      exact (hblock b hb).mpr ⟨hsize, (lt_or_ge b k).imp_left (hcovered b)⟩

/-- Two groups of two blocks and a global parity block. -/
theorem repairs_fourTwo : Repairs (· * ·) (fun _ ↦ 0) 4 2 1 3 :=
  ((repairs_iff (· * ·) (fun _ ↦ 0) 1 (by decide) (by decide)).1 3 (by decide)).mpr ⟨by decide, .inl (by decide)⟩

/-- Of three data blocks in two groups the last one is in none. -/
theorem not_repairs_threeTwo : ¬Repairs (· * ·) (fun _ ↦ 0) 3 2 1 2 := by
  intro h
  have htail := ((repairs_block_iff (· * ·) (fun _ ↦ 0) (by decide) (by decide) (by decide)).mp h).2
  exact absurd htail (by decide)

end Repair

end WASLRC

end UniDedup.Storage
