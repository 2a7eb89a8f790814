import UniDedup.Storage.BindRuns
import UniDedup.Storage.Encoding
import UniDedup.Storage.Executor

/-!
# The code that is not systematic

`RSNSYS` stores no block of the data as it is: `Encode` computes all `n` blocks, the first `k` included, from
the data, and `NormalRead` computes the data from the first `k` blocks. Both give the sub-packets they
compute the numbers of the ones they read, so in both graphs every node has a child that has to be computed
before it. The topological sort finds no node to begin with, and no task is made: an online write stores
the data as it is and zeros for the other blocks, and a read returns zeros.

## Memory

The two matrices of the code have `RSNSYS_N_MAX * RSNSYS_N_MAX` cells. The constructor writes all the cells of both
generators without looking whether they fit; where they do not it has no result here.

`NormalRead` allocates the inverse for the `k * m` sub-packets of the data and runs through one sub-packet more, as its
inner loop goes up to `_w`. In the last block this one has no row: what is read for it lies behind the allocation. What
such a read gives is left to a parameter, `past`, which may also say that it faults. The matrix holds integers, which are
cut to bytes when a task uses them, and what the library multiplies is irrelevant here: a row of the generator has the
powers of its number, which may be too large for a byte.
-/

namespace UniDedup.Storage

open ECDAG Function

def rsnsysNMax : ℕ := 256

/-- The fields of the code that `Encode` and `NormalRead` read. -/
structure RSNSYS where
  n : ℕ
  k : ℕ
  w : ℕ
  encodeMatrix : ℕ → ℕ

namespace RSNSYS

section Code

variable (gfMultiply : ℕ → ℕ → ℕ)
variable (invert : (ℕ → ℕ) → ℕ → ℕ → ℕ)

/-- `galois_single_multiply` on integers. -/
def singleMulti (a b : ℕ) : ℕ := if a = 0 ∨ b = 0 then 0 else gfMultiply a b

/-- One row of the generator, with `tmp`. -/
def fillRow (cols : ℕ) (matrix : ℕ → ℕ) (i : ℕ) : (ℕ → ℕ) × ℕ :=
  (List.range cols).foldl
    (fun s j ↦ (update s.1 (i * cols + j) s.2, singleMulti gfMultiply s.2 (i + 1))) (matrix, 1)

/-- `generate_matrix`: row `i` has the powers of `i + 1`. -/
def generateMatrix (matrix : ℕ → ℕ) (rows cols : ℕ) : ℕ → ℕ :=
  (List.range rows).foldl (fun matrix i ↦ (fillRow gfMultiply cols matrix i).1)
    fun p ↦ if p < rows * cols then 0 else matrix p

/-- The generators stay inside `_encode_matrix` and `_repair_matrix`. -/
def Fits (n k : ℕ) : Prop :=
  n * (n - k) * (k * (n - k)) ≤ rsnsysNMax * rsnsysNMax ∧ (n - k) * (n - 1) ≤ rsnsysNMax * rsnsysNMax

instance (n k : ℕ) : Decidable (Fits n k) := inferInstanceAs (Decidable (_ ∧ _))

/-- The constructor, on what `_encode_matrix` holds before; `none` where its assertion fails or it writes behind a
matrix. `Encode` and `NormalRead` do not read `_repair_matrix`. -/
def new (memory : ℕ → ℕ) (n k w : ℕ) : Option RSNSYS :=
  if n - k = w ∧ Fits n k then
    some ⟨n, k, w, generateMatrix gfMultiply memory (n * (n - k)) (k * (n - k))⟩
  else none

variable (c : RSNSYS)

/-- The coefficients of slice `j` of chunk `i`. -/
def encodeCoefs (i j : ℕ) : List GF256 :=
  (List.range (c.k * (c.n - c.k))).map fun l ↦
    GF256.ofNat (c.encodeMatrix ((i * (c.n - c.k) + j) * (c.n - c.k) + l))

/-- The joins of `Encode`. -/
def encodeJoins : ECDAG :=
  (List.range c.n).foldl
    (fun dag i ↦ (List.range c.w).foldl
      (fun dag j ↦ dag.join (i * c.w + j) (List.range (c.k * c.w)) (encodeCoefs c i j)) dag)
    {}

/-- `Encode`; `none` where an assertion fails. -/
def encode : Option ECDAG := do
  let (dag, vn) ← (encodeJoins c).bindX (blockSubPackets c.w (List.range c.n))
  dag.bindYOf vn 0

/-- The number of rows of the matrix that `NormalRead` inverts. -/
def dataRows : ℕ := c.k * (c.n - c.k)

/-- A cell of the allocated inverse; `past` is what a read behind it gives, if it does not fault. -/
def invertCell (past : ℕ → Option ℕ) (p : ℕ) : Option ℕ :=
  if p < c.dataRows * c.dataRows then some (invert c.encodeMatrix c.dataRows p) else past (p - c.dataRows * c.dataRows)

/-- The coefficients that `NormalRead` takes for a sub-packet. -/
def readCoefs (past : ℕ → Option ℕ) (cidx : ℕ) : Option (List GF256) :=
  (List.range c.dataRows).mapM fun j ↦ (c.invertCell invert past (cidx * c.dataRows + j)).map GF256.ofNat

/-- `NormalRead`, whose inner loop runs up to `_w`. -/
def normalRead (past : ℕ → Option ℕ) : Option ECDAG :=
  (List.range c.k).foldlM
    (fun dag i ↦ (List.range (c.w + 1)).foldlM
      (fun dag wi ↦ (c.readCoefs invert past (i * c.w + wi)).map
        (dag.join (i * c.w + wi) (List.range c.dataRows)))
      dag)
    {}

/-- An online write of the data and a read of the first `k` blocks that were stored. The nodes of a graph are
run through in the given order. -/
def readBack (past : ℕ → Option ℕ) (order : ECDAG → List ℕ) (memory : ℕ → ℕ) (n k w : ℕ) (data : ℕ → GF256) :
    Option Buffers := do
  let c ← new gfMultiply memory n k w
  let enc ← encode c
  let stored ← onlineEncode n k w data (enc.computeTasks (order enc))
  let read ← c.normalRead invert past
  nonSysRead k w (fun id ↦ (stored.written id).getD 0) (read.computeTasks (order read))

end Code

end RSNSYS

/-! ## Joins to one list of children -/

section Joins

theorem blockSubPackets_range (w n : ℕ) : blockSubPackets w (List.range n) = List.range (n * w) := by
  induction n with
  | zero => simp [blockSubPackets]
  | succ n ih =>
    rw [blockSubPackets, List.range_succ, List.flatMap_append, ← blockSubPackets, ih, Nat.succ_mul,
      List.range_add]
    simp

/-- The loop over blocks and their sub-packets is a loop over the sub-packets. -/
theorem foldl_blockSubPackets {α : Type*} (w : ℕ) (sids : List ℕ) (f : α → ℕ → α) (s : α) :
    sids.foldl (fun s i ↦ (List.range w).foldl (fun s j ↦ f s (i * w + j)) s) s =
      (blockSubPackets w sids).foldl f s := by
  rw [blockSubPackets, List.foldl_flatMap]
  simp only [List.foldl_map]

/-- A graph in which every node has a child is sorted to nothing, so there is no task. -/
theorem computeTasks_eq_nil {dag : ECDAG} {order : List ℕ} (horder : order.Perm dag.nodes.keys)
    (h : ∀ id sh, dag.shape id = some sh → sh.1 ≠ []) : dag.computeTasks order = [] := by
  have hnil : dag.toposort order = [] := by
    refine Toposort.toposort_eq_nil (horder.nodup_iff.mpr dag.nodes.keys_nodup) fun p hp ↦ ?_
    obtain ⟨sh, hsh⟩ := mem_nodes_iff.mp (AList.mem_keys.mpr (horder.mem_iff.mp hp))
    rw [childs_of_shape hsh]
    exact h p sh hsh
  rw [computeTasks, hnil]
  rfl

end Joins

/-! ## The two graphs -/

namespace RSNSYS

variable {gfMultiply : ℕ → ℕ → ℕ} {invert : (ℕ → ℕ) → ℕ → ℕ → ℕ} {c : RSNSYS} {past : ℕ → Option ℕ}

theorem encodeJoins_eq :
    encodeJoins c = (List.range (c.n * c.w)).foldl
      (fun dag p ↦ dag.join p (List.range (c.k * c.w)) (encodeCoefs c (p / c.w) (p % c.w))) {} := by
  rw [← blockSubPackets_range c.w c.n, ← foldl_blockSubPackets, encodeJoins]
  refine congrArg (fun f ↦ List.foldl f ({} : ECDAG) (List.range c.n)) (funext₂ fun dag i ↦ ?_)
  refine List.foldl_ext _ _ dag fun dag j hj ↦ ?_
  rw [subPacket_div (List.mem_range.mp hj), subPacket_mod (List.mem_range.mp hj)]

theorem shape_encodeJoins (hkn : c.k < c.n) (id : ℕ) :
    (encodeJoins c).shape id =
      if id < c.n * c.w then some (List.range (c.k * c.w),
        AList.singleton id (encodeCoefs c (id / c.w) (id % c.w))) else none := by
  rw [encodeJoins_eq, shape_foldl_join]
  have hle := Nat.mul_le_mul_right c.w hkn.le
  by_cases hid : id < c.n * c.w
  · rw [if_pos (List.mem_range.mpr hid), if_pos hid]
  · have hdata : ¬(List.range (c.n * c.w) ≠ [] ∧ id ∈ List.range (c.k * c.w) ∧ shape {} id = none) :=
      fun h ↦ hid ((List.mem_range.mp h.2.1).trans_le hle)
    rw [if_neg (mt List.mem_range.mp hid), if_neg hid, if_neg hdata]
    rfl

/-- **`Encode` succeeds** when the number of the bind node is not that of a sub-packet: all sub-packets are
bound to one bind node over the data. -/
theorem encode_eq_some (hkn : c.k < c.n) (hlow : 2 ≤ c.n * c.w) (hhigh : c.n * c.w ≤ bindStart) :
    ∃ enc M, encode c = some enc ∧ 1 < M.keys.length ∧ ∀ id, enc.shape id =
      if id < c.n * c.w then some ([bindStart], AList.singleton id [1])
      else if id = bindStart then some (List.range (c.k * c.w), M) else none := by
  have hshape := @shape_encodeJoins c hkn
  have hbindId : (encodeJoins c).bindId = bindStart := by
    rw [encodeJoins_eq, bindId_foldl_join]
  have hcluster : ((encodeJoins c).findCluster (List.range (c.k * c.w))).isSome := by
    rw [encodeJoins_eq]
    exact findCluster_foldl_join _ _ (by rw [Ne, List.range_eq_nil]; omega) _
  rw [encode, blockSubPackets_range]
  generalize encodeJoins c = dag at hshape hbindId hcluster
  have hfree : dag.bindId ∉ dag.nodes := by
    rw [← shape_eq_none, hshape, if_neg (by omega)]
  -- a bind needs two nodes, and `Encode` has them unless there is one sub-packet only
  obtain ⟨i, j, is, hidxs⟩ : ∃ i j is, List.range (c.n * c.w) = i :: j :: is := by
    rcases hlist : List.range (c.n * c.w) with _ | ⟨i, _ | ⟨j, is⟩⟩
    · rw [List.range_eq_nil] at hlist
      omega
    · have hlen := congrArg List.length hlist
      rw [List.length_range] at hlen
      exact absurd (hlow.trans_eq hlen) (Nat.not_succ_le_self 1)
    · exact ⟨i, j, is, rfl⟩
  have hmem : ∀ id, id ∈ i :: j :: is ↔ id < c.n * c.w := fun id ↦ by rw [← hidxs, List.mem_range]
  have hnodup : (i :: j :: is).Nodup := hidxs ▸ List.nodup_range
  obtain ⟨dag', hbind, hshape'⟩ := bindX_eq_some hnodup hfree
    (fun l hl ↦ by rw [hshape, if_pos ((hmem l).mp hl)]) (fun _ _ ↦ .refl _) hcluster
  rw [hbindId] at hbind hshape'
  simp only [hmem] at hshape'
  have hcluster' : (dag'.findCluster (List.range (c.k * c.w))).isSome := by
    rcases bindX_asserts hbind with ⟨hle, -⟩ | ⟨-, hframe, -⟩
    · exact absurd hle (by simp)
    · rwa [findCluster_of_frame hframe]
  have hnode := hshape' bindStart
  rw [if_neg (by omega), if_pos rfl] at hnode
  have hfirst := hshape' 0
  rw [if_pos (by omega)] at hfirst
  obtain ⟨enc, hbindY, hkeep⟩ := bindY_eq_some hnode hfirst hcluster'
  refine ⟨enc, bindCoefs (fun l ↦ encodeCoefs c (l / c.w) (l % c.w)) (i :: j :: is) ∅, ?_, ?_,
    fun id ↦ ?_⟩
  · rw [hidxs, hbind]
    exact hbindY
  · have hij : i ≠ j := fun hij ↦ (List.nodup_cons.mp hnodup).1 (hij ▸ List.mem_cons_self)
    exact one_lt_length_keys hij (lookup_bindCoefs List.mem_cons_self ∅)
      (lookup_bindCoefs (List.mem_cons_of_mem i List.mem_cons_self) ∅)
  · rw [hkeep, hshape', hshape]
    split <;> rfl

theorem encode_eq_none (hkn : c.k < c.n) (hbound : ¬(2 ≤ c.n * c.w ∧ c.n * c.w ≤ bindStart)) :
    encode c = none := by
  have hshape := @shape_encodeJoins c hkn
  have hbindId : (encodeJoins c).bindId = bindStart := by
    rw [encodeJoins_eq, bindId_foldl_join]
  rw [encode, blockSubPackets_range]
  generalize encodeJoins c = dag at hshape hbindId
  rcases hidxs : List.range (c.n * c.w) with _ | ⟨i, _ | ⟨j, is⟩⟩
  · rfl
  · rfl
  · -- the number of the bind node is taken
    have hlen : c.n * c.w = is.length + 2 := by
      rw [← List.length_range (n := c.n * c.w), hidxs]
      rfl
    have hmem : dag.bindId ∈ dag.nodes := by
      rw [mem_nodes_iff, hshape, hbindId, if_pos (by omega)]
      exact ⟨_, rfl⟩
    simp [bindX, hmem]

/-- **Encoding makes no task**: the sub-packets wait for the bind node, and the bind node for the sub-packets
of the data. -/
theorem computeTasks_encode (hkn : c.k < c.n) {enc : ECDAG} (henc : encode c = some enc)
    {order : List ℕ} (horder : order.Perm enc.nodes.keys) : enc.computeTasks order = [] := by
  by_cases hbound : 2 ≤ c.n * c.w ∧ c.n * c.w ≤ bindStart
  · obtain ⟨enc', M, henc', hkeys, hshape⟩ := @encode_eq_some c hkn hbound.1 hbound.2
    obtain rfl : enc = enc' := Option.some.inj (henc.symm.trans henc')
    have hcase : ∀ id sh, enc.shape id = some sh → sh.1 = [bindStart] ∨ sh = (List.range (c.k * c.w), M) := by
      intro id sh hsh
      rw [hshape] at hsh
      split at hsh
      · exact .inl (by rw [← Option.some.inj hsh])
      · split at hsh
        · exact .inr (Option.some.inj hsh).symm
        · exact absurd hsh.symm (Option.some_ne_none sh)
    by_cases hk : c.k * c.w = 0
    · -- without data the bind node is a leaf, and the nodes over it are bound
      rw [computeTasks, List.filterMap_eq_nil_iff]
      intro id _
      cases hsh : enc.shape id with
      | none => rw [parseForClient, (Option.map_eq_none_iff.mp hsh), Option.bind_none]
      | some sh =>
        rcases hcase id sh hsh with hbind | rfl
        · have hnode : enc.shape bindStart = some (List.range (c.k * c.w), M) := by
            rw [hshape, if_neg (by omega), if_pos rfl]
          exact parseForClient_bound (hsh.trans (congrArg some (Prod.ext hbind rfl))) hnode hkeys
        · rw [hk, List.range_zero] at hsh
          exact parseForClient_leaf hsh
    · refine computeTasks_eq_nil horder fun id sh hsh ↦ ?_
      rcases hcase id sh hsh with hbind | rfl
      · rw [hbind]
        exact List.cons_ne_nil _ _
      · rwa [Ne, List.range_eq_nil]
  · rw [encode_eq_none hkn hbound] at henc
    exact absurd henc.symm (Option.some_ne_none enc)

/-- The sub-packets `NormalRead` joins. -/
def readIds (c : RSNSYS) : List ℕ :=
  (List.range c.k).flatMap fun i ↦ (List.range (c.w + 1)).map fun wi ↦ i * c.w + wi

theorem mem_readIds {id : ℕ} (hid : id < c.k * c.w) : id ∈ readIds c := by
  have hw : 0 < c.w := Nat.pos_of_ne_zero fun hw ↦ by simp [hw] at hid
  refine List.mem_flatMap.mpr ⟨id / c.w, List.mem_range.mpr (Nat.div_lt_of_lt_mul (by rwa [mul_comm])), ?_⟩
  refine List.mem_map.mpr ⟨id % c.w, List.mem_range.mpr (Nat.lt_succ_of_lt (Nat.mod_lt _ hw)), ?_⟩
  rw [mul_comm, Nat.div_add_mod]

/-- The coefficients of a sub-packet, where all the cells can be read. -/
def readRow (invert : (ℕ → ℕ) → ℕ → ℕ → ℕ) (past : ℕ → Option ℕ) (c : RSNSYS) (cidx : ℕ) : List GF256 :=
  (List.range c.dataRows).map fun j ↦ GF256.ofNat ((c.invertCell invert past (cidx * c.dataRows + j)).getD 0)

/-- The rows of the inverse are followed by the one that `past` gives. -/
theorem readCoefs_eq_some (hpast : ∀ j < c.dataRows, (past j).isSome) {cidx : ℕ} (hcidx : cidx ≤ c.dataRows) :
    c.readCoefs invert past cidx = some (readRow invert past c cidx) := by
  refine Fold.mapM_eq_map fun j hj ↦ ?_
  have hj := List.mem_range.mp hj
  have hcell : (c.invertCell invert past (cidx * c.dataRows + j)).isSome := by
    rw [invertCell]
    split
    · rfl
    · next hcell =>
      refine hpast _ ?_
      have hle := Nat.mul_le_mul_right c.dataRows hcidx
      omega
  obtain ⟨v, hv⟩ := Option.isSome_iff_exists.mp hcell
  rw [hv]
  rfl

theorem normalRead_eq_some (hw : c.w = c.n - c.k) (hpast : ∀ j < c.dataRows, (past j).isSome) :
    c.normalRead invert past = some ((readIds c).foldl
      (fun dag p ↦ dag.join p (List.range c.dataRows) (readRow invert past c p)) {}) := by
  rw [readIds, List.foldl_flatMap]
  simp only [List.foldl_map]
  refine Fold.foldlM_eq_foldl (fun i hi dag ↦ Fold.foldlM_eq_foldl (fun wi hwi dag ↦ ?_) dag) ({} : ECDAG)
  have hlast : i * c.w + wi ≤ c.dataRows := by
    have hle : i * c.w + c.w ≤ c.k * c.w :=
      (Nat.succ_mul i c.w).symm.trans_le (Nat.mul_le_mul_right c.w (List.mem_range.mp hi))
    have hwi := List.mem_range.mp hwi
    rw [dataRows, ← hw]
    omega
  rw [readCoefs_eq_some hpast hlast, Option.map_some]

/-- The last sub-packet that `NormalRead` joins takes its coefficients from behind the inverse. -/
theorem normalRead_eq_none (hw : c.w = c.n - c.k) {j : ℕ} (hj : j < c.dataRows) (hpast : past j = none) :
    c.normalRead invert past = none := by
  obtain ⟨k, hk⟩ : ∃ k, c.k = k + 1 := Nat.exists_eq_succ_of_ne_zero fun hk ↦ by
    rw [dataRows, hk, Nat.zero_mul] at hj
    exact Nat.not_lt_zero j hj
  have hcoefs : c.readCoefs invert past (k * c.w + c.w) = none := by
    by_contra hsome
    obtain ⟨coefs, hcoefs⟩ := Option.ne_none_iff_exists'.mp hsome
    obtain ⟨co, -, hco⟩ := Fold.exists_of_mapM hcoefs (List.mem_range.mpr hj)
    have hrow : k * c.w + c.w = c.dataRows := by
      rw [dataRows, ← hw, hk, Nat.succ_mul]
    rw [hrow, invertCell, if_neg (Nat.le_add_right ..).not_gt, Nat.add_sub_cancel_left, hpast, Option.map_none] at hco
    exact Option.some_ne_none co hco.symm
  refine Fold.foldlM_eq_none (List.mem_range.mpr (k.lt_succ_self.trans_eq hk.symm)) (fun dag ↦ ?_) ({} : ECDAG)
  refine Fold.foldlM_eq_none (List.mem_range.mpr c.w.lt_succ_self) (fun dag ↦ ?_) dag
  rw [hcoefs, Option.map_none]

theorem shape_normalRead {read : ECDAG} (hw : c.w = c.n - c.k) (hpast : ∀ j < c.dataRows, (past j).isSome)
    (hread : c.normalRead invert past = some read) (id : ℕ) : read.shape id =
    if id ∈ readIds c then some (List.range c.dataRows, AList.singleton id (readRow invert past c id))
    else if readIds c ≠ [] ∧ id ∈ List.range c.dataRows ∧ shape {} id = none then some ([], ∅)
    else none := by
  rw [normalRead_eq_some hw hpast] at hread
  rw [← Option.some.inj hread, shape_foldl_join]
  rfl

/-- **Reading makes no task**: the data is joined to itself. -/
theorem computeTasks_normalRead {read : ECDAG} (hkn : c.k < c.n) (hw : c.w = c.n - c.k)
    (hpast : ∀ j < c.dataRows, (past j).isSome) (hread : c.normalRead invert past = some read) {order : List ℕ}
    (horder : order.Perm read.nodes.keys) : read.computeTasks order = [] := by
  refine computeTasks_eq_nil horder fun id sh hsh ↦ ?_
  rw [shape_normalRead hw hpast hread] at hsh
  split at hsh
  · next hmem =>
    -- what is joined is joined to the data, of which there is some
    rw [← Option.some.inj hsh, Ne, List.range_eq_nil]
    have hk : 0 < c.k := by
      by_contra hk
      simp [readIds, Nat.eq_zero_of_not_pos hk] at hmem
    have hm : 0 < c.n - c.k := Nat.sub_pos_of_lt hkn
    exact (Nat.mul_pos hk hm).ne'
  · next hmem =>
    split at hsh
    · next hdata =>
      -- the data is joined itself
      have hlt := List.mem_range.mp hdata.2.1
      rw [dataRows, ← hw] at hlt
      exact absurd (mem_readIds hlt) hmem
    · exact absurd hsh.symm (Option.some_ne_none sh)

/-! ## Reading back -/

section ReadBack

variable {n k w : ℕ} {memory : ℕ → ℕ} {order : ECDAG → List ℕ}

theorem readBack_eq_some (hkn : k < n) (hw : w = n - k) (horder : ∀ dag, (order dag).Perm dag.nodes.keys)
    (hfits : Fits n k) (hlow : 2 ≤ n * w) (hhigh : n * w ≤ bindStart)
    (hpast : ∀ j < k * (n - k), (past j).isSome) (data : ℕ → GF256) :
    ∃ s, readBack gfMultiply invert past order memory n k w data = some s ∧
      ∀ id < k * w, s.written id = some 0 := by
  let c : RSNSYS := ⟨n, k, w, generateMatrix gfMultiply memory (n * (n - k)) (k * (n - k))⟩
  have hnew : new gfMultiply memory n k w = some c := if_pos ⟨hw.symm, hfits⟩
  obtain ⟨enc, M, henc, -⟩ := encode_eq_some (c := c) hkn hlow hhigh
  obtain ⟨read, hread⟩ : ∃ read, c.normalRead invert past = some read := ⟨_, normalRead_eq_some (c := c) hw hpast⟩
  rw [readBack, hnew, Option.bind_eq_bind, Option.bind_some, henc, Option.bind_eq_bind, Option.bind_some,
    computeTasks_encode hkn henc (horder enc), hread]
  dsimp only [Option.bind_eq_bind, Option.bind_some]
  rw [computeTasks_normalRead (c := c) hkn hw hpast hread (horder read)]
  refine ⟨_, rfl, fun id hid ↦ ?_⟩
  rw [Buffers.written]
  dsimp only
  rw [lookup_packetBufs, if_pos (List.mem_range.mpr hid)]
  rfl

theorem of_readBack_eq_some (hkn : k < n) {data : ℕ → GF256} {s : Buffers}
    (hs : readBack gfMultiply invert past order memory n k w data = some s) :
    Fits n k ∧ (2 ≤ n * w ∧ n * w ≤ bindStart) ∧ ∀ j < k * (n - k), (past j).isSome := by
  simp only [readBack, Option.bind_eq_bind] at hs
  obtain ⟨c, hnew, hs⟩ := Option.bind_eq_some_iff.mp hs
  rw [new] at hnew
  split_ifs at hnew with hfits
  obtain rfl := Option.some.inj hnew
  obtain ⟨enc, henc, hs⟩ := Option.bind_eq_some_iff.mp hs
  obtain ⟨stored, -, hs⟩ := Option.bind_eq_some_iff.mp hs
  obtain ⟨read, hread, -⟩ := Option.bind_eq_some_iff.mp hs
  refine ⟨hfits.2, ?_, fun j hj ↦ ?_⟩
  · by_contra hbound
    rw [encode_eq_none hkn hbound] at henc
    exact Option.some_ne_none enc henc.symm
  · by_contra hnone
    rw [normalRead_eq_none hfits.1.symm hj (Option.not_isSome_iff_eq_none.mp hnone)] at hread
    exact Option.some_ne_none read hread.symm

end ReadBack

/-- **What is read back.** Data comes back exactly when it is all zeros, the generators fit their matrices, the number of
the bind node is not that of a sub-packet, and the row that `NormalRead` reads behind the inverse can be read. -/
theorem readBack_iff {n k w : ℕ} (hkn : k < n) (hw : w = n - k) {order : ECDAG → List ℕ}
    (horder : ∀ dag, (order dag).Perm dag.nodes.keys) (memory : ℕ → ℕ) (data : ℕ → GF256) :
    (∃ s, readBack gfMultiply invert past order memory n k w data = some s ∧
      ∀ id < k * w, s.written id = some (data id)) ↔
      Fits n k ∧ (2 ≤ n * w ∧ n * w ≤ bindStart) ∧ (∀ j < k * (n - k), (past j).isSome) ∧
        ∀ id < k * w, data id = 0 := by
  constructor
  · rintro ⟨s, hs, hdata⟩
    obtain ⟨hfits, hbound, hpast⟩ := of_readBack_eq_some hkn hs
    obtain ⟨s', hs', hzero⟩ := readBack_eq_some hkn hw horder hfits hbound.1 hbound.2 hpast data
    obtain rfl : s = s' := Option.some.inj (hs.symm.trans hs')
    exact ⟨hfits, hbound, hpast, fun id hid ↦ Option.some.inj ((hdata id hid).symm.trans (hzero id hid))⟩
  · rintro ⟨hfits, hbound, hpast, hdata⟩
    obtain ⟨s, hs, hzero⟩ := readBack_eq_some hkn hw horder hfits hbound.1 hbound.2 hpast data
    exact ⟨s, hs, fun id hid ↦ by rw [hzero id hid, hdata id hid]⟩

/-- The one slice of data of two blocks is a one, and so is the matrix to invert. Even if the read behind the inverse
gives a zero, what comes back is not the data. -/
theorem not_readBack_one :
    (∃ c, new (· * ·) 0 2 1 1 = some c ∧ c.dataRows = 1 ∧
      IsUnit (selectMatrix (k := 1) (fun p ↦ GF256.ofNat (c.encodeMatrix p)) fun i : Fin 1 ↦ (i : ℕ))) ∧
    ¬∃ s, readBack (· * ·) (fun mat _ ↦ mat) (fun _ ↦ some 0) (fun dag ↦ dag.nodes.keys) 0 2 1 1 1 = some s ∧
      ∀ id < 1, s.written id = some 1 := by
  refine ⟨⟨_, rfl, rfl, ?_⟩, ?_⟩
  · have hone : selectMatrix (k := 1) (fun p ↦ GF256.ofNat (generateMatrix (· * ·) 0 (2 * 1) (1 * 1) p))
        (fun i : Fin 1 ↦ (i : ℕ)) = 1 := by
      refine Matrix.ext fun i j ↦ ?_
      rw [Subsingleton.elim i 0, Subsingleton.elim j 0]
      decide
    exact hone ▸ isUnit_one
  rintro ⟨s, hs, hdata⟩
  obtain ⟨s', hs', hzero⟩ : ∃ s', readBack (· * ·) (fun mat _ ↦ mat) (fun _ ↦ some 0) (fun dag ↦ dag.nodes.keys)
      0 2 1 1 1 = some s' ∧ ∀ id < 1 * 1, s'.written id = some 0 :=
    readBack_eq_some (by decide) rfl (fun _ ↦ .refl _) (by decide) (by decide) (by decide) (fun _ _ ↦ rfl) 1
  obtain rfl : s = s' := Option.some.inj (hs.symm.trans hs')
  exact absurd ((hdata 0 Nat.one_pos).symm.trans (hzero 0 Nat.one_pos)) (by decide)

/-- Zeros come back from a stripe of six blocks of two slices, if the read behind the inverse does not fault. -/
theorem readBack_zero :
    (∃ s, readBack (· * ·) (fun mat _ ↦ mat) (fun _ ↦ some 7) (fun dag ↦ dag.nodes.keys) 0 6 4 2 0 = some s ∧
      ∀ id < 4 * 2, s.written id = some 0) ∧
    ¬∃ s, readBack (· * ·) (fun mat _ ↦ mat) (fun _ ↦ none) (fun dag ↦ dag.nodes.keys) 0 6 4 2 0 = some s ∧
      ∀ id < 4 * 2, s.written id = some 0 := by
  constructor
  · exact (readBack_iff (n := 6) (k := 4) (by decide) rfl (fun _ ↦ .refl _) 0 0).mpr
      ⟨by decide, by decide, fun _ _ ↦ rfl, fun _ _ ↦ rfl⟩
  · intro h
    obtain ⟨-, -, hpast, -⟩ := (readBack_iff (n := 6) (k := 4) (by decide) rfl (fun _ ↦ .refl _) 0 0).mp h
    exact absurd (hpast 0 (by decide)) (by decide)

end RSNSYS

end UniDedup.Storage
