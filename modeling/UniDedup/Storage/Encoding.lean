import UniDedup.Storage.Building
import UniDedup.Storage.RS

/-!
# What the codes encode

The graph of `Encode` has the value of every sub-packet of the stripe: the data as it is read, and the
parity sub-packets as the rows of the generator combine it. `RSCONV` and `RSPIPE` build the same graph;
`RSPPR` numbers whole blocks and computes its parity blocks by a bind node.
-/

namespace UniDedup.Storage

open ECDAG

section Encode

variable {gfMultiply : GF256 → GF256 → GF256} {c : RSCode} {data : ℕ → GF256}

theorem subPacket_lt {w r wi n : ℕ} (hr : r < n) (hwi : wi < w) : r * w + wi < n * w := by
  calc r * w + wi < (r + 1) * w := by rw [add_mul, one_mul]; omega
    _ ≤ n * w := Nat.mul_le_mul_right w hr

theorem subPacket_div {w r wi : ℕ} (hwi : wi < w) : (r * w + wi) / w = r := by
  rw [mul_comm, Nat.mul_add_div (by omega), Nat.div_eq_of_lt hwi, add_zero]

theorem subPacket_mod {w r wi : ℕ} (hwi : wi < w) : (r * w + wi) % w = wi := by
  rw [mul_comm, Nat.mul_add_mod, Nat.mod_eq_of_lt hwi]

/-- Encoding reads the data blocks and computes the parity blocks. -/
def encodePlan (c : RSCode) (data : ℕ → GF256) (hkn : c.k ≤ c.n) : Plan where
  env := data
  want id := c.symbol data (id / c.w) (id % c.w)
  src id := id < c.k * c.w
  target id := c.k * c.w ≤ id ∧ id < c.n * c.w
  bound := c.n * c.w
  src_not_target _ hs h := by omega
  src_lt _ hs := hs.trans_le (Nat.mul_le_mul_right _ hkn)
  target_lt _ h := h.2
  want_src s hs := by
    have hr : s / c.w < c.k := Nat.div_lt_of_lt_mul (by rwa [mul_comm])
    rw [RSCode.symbol_of_lt data _ hr, mul_comm, Nat.div_add_mod]

theorem dot_encode (hmul : ∀ a b, gfMultiply a b = a * b) (data : ℕ → GF256) {r : ℕ} (wi : ℕ)
    (hr : r < c.n) :
    dot ((List.range c.k).map fun j ↦ c.encodeMatrix gfMultiply (r * c.k + j))
      (((List.range c.k).map fun j ↦ j * c.w + wi).map data) = c.symbol data r wi := by
  rw [dot, List.map_map, List.zipWith_map, List.zipWith_self, sum_map_range, RSCode.symbol]
  refine Finset.sum_congr rfl fun l _ ↦ ?_
  rw [encodeMatrix_apply hmul hr l.isLt]
  rfl

theorem encodeJoins_built (hmul : ∀ a b, gfMultiply a b = a * b) (hk : 2 ≤ c.k) (hkn : c.k < c.n)
    {wi : ℕ} (hwi : wi < c.w) {dag : ECDAG} {tmp : ℕ} {done : ℕ → Prop}
    (h : Built (encodePlan c data hkn.le) dag.shape tmp done) :
    Built (encodePlan c data hkn.le) (encodeJoins gfMultiply c wi dag).shape tmp fun id ↦
      done id ∨ ∃ r < c.n, id = r * c.w + wi := by
  have hloop := h.foldl (List.range (c.n - c.k))
    (Q := fun i id ↦ id = (c.k + i) * c.w + wi ∨ id ∈ (List.range c.k).map fun j ↦ j * c.w + wi)
    fun i hi dag done h ↦ by
      have hi := List.mem_range.mp hi
      have hrow : c.k + i < c.n := by omega
      refine h.joinTarget (p := (c.k + i) * c.w + wi)
        ((List.range c.k).map fun j ↦ c.encodeMatrix gfMultiply ((i + c.k) * c.k + j)) ?_ ?_ ?_ ?_
      · exact ⟨(Nat.mul_le_mul_right _ (Nat.le_add_right ..)).trans (Nat.le_add_right ..),
          subPacket_lt hrow hwi⟩
      · intro id hid
        obtain ⟨j, hj, rfl⟩ := List.mem_map.mp hid
        exact subPacket_lt (List.mem_range.mp hj) hwi
      · rw [List.length_map, List.length_range]
        exact hk
      · show dot _ (((List.range c.k).map fun j ↦ j * c.w + wi).map data) =
          c.symbol data (((c.k + i) * c.w + wi) / c.w) (((c.k + i) * c.w + wi) % c.w)
        rw [subPacket_div hwi, subPacket_mod hwi, add_comm i, dot_encode hmul data wi hrow]
  refine hloop.imp fun id hid ↦ ?_
  rcases hid with hid | ⟨r, hr, rfl⟩
  · exact .inl hid
  right
  by_cases hrk : r < c.k
  · exact ⟨0, List.mem_range.mpr (by omega), .inr (List.mem_map.mpr ⟨r, List.mem_range.mpr hrk, rfl⟩)⟩
  · refine ⟨r - c.k, List.mem_range.mpr (by omega), .inl ?_⟩
    rw [Nat.add_sub_cancel' (by omega)]

/-- **`Encode` of `RSCONV` and `RSPIPE`** computes every sub-packet of the stripe. -/
theorem encodeStripe_evaluates (hmul : ∀ a b, gfMultiply a b = a * b) (hk : 2 ≤ c.k) (hkn : c.k < c.n)
    (data : ℕ → GF256) {r wi : ℕ} (hr : r < c.n) (hwi : wi < c.w) :
    Evaluates (encodeStripe gfMultiply c).shape data (r * c.w + wi) (c.symbol data r wi) := by
  have hbuilt := (Built.empty (encodePlan c data hkn.le)).foldl (List.range c.w)
    fun wi hwi dag done h ↦ encodeJoins_built hmul hk hkn (List.mem_range.mp hwi) h
  have hval := hbuilt.value (r * c.w + wi) (.inr ⟨wi, List.mem_range.mpr hwi, r, hr, rfl⟩)
  have hwant : (encodePlan c data hkn.le).want (r * c.w + wi) = c.symbol data r wi := by
    show c.symbol data ((r * c.w + wi) / c.w) ((r * c.w + wi) % c.w) = _
    rw [subPacket_div hwi, subPacket_mod hwi]
  rwa [hwant] at hval

/-! `RSPPR` joins the parity blocks to the same list of data blocks, and binds them when there are two or
more. -/

/-- The coefficients `Encode` joins a parity block with. -/
def parityCoefs (gfMultiply : GF256 → GF256 → GF256) (c : RSCode) (r : ℕ) : List GF256 :=
  (List.range c.k).map fun j ↦ c.encodeMatrix gfMultiply (r * c.k + j)

/-- The graph of `RSPPR::Encode` before `BindX`, after the joins of some parity blocks. -/
structure ParityJoins (gfMultiply : GF256 → GF256 → GF256) (c : RSCode) (is : List ℕ) (dag : ECDAG) :
    Prop where
  bindId : dag.bindId = bindStart
  shape : ∀ id, dag.shape id =
    if ∃ i ∈ is, id = c.k + i then some (List.range c.k, AList.singleton id (parityCoefs gfMultiply c id))
    else if id < c.k ∧ is ≠ [] then some ([], ∅) else none
  cluster : is ≠ [] → (dag.findCluster (List.range c.k)).isSome

theorem ParityJoins.join {is : List ℕ} {dag : ECDAG} (h : ParityJoins gfMultiply c is dag) (i : ℕ) :
    ParityJoins gfMultiply c (is ++ [i])
      (dag.join (c.k + i) (List.range c.k) (parityCoefs gfMultiply c (c.k + i))) where
  bindId := by rw [bindId_join, h.bindId]
  shape id := by
    rw [shape_join]
    by_cases hid : id = c.k + i
    · have hex : ∃ i' ∈ is ++ [i], id = c.k + i' :=
        ⟨i, List.mem_append_right _ (List.mem_singleton_self i), hid⟩
      rw [if_pos hid, if_pos hex, hid]
    · have hex : (∃ i' ∈ is ++ [i], id = c.k + i') ↔ ∃ i' ∈ is, id = c.k + i' := by
        simp [or_and_right, exists_or, hid]
      have hne : is ++ [i] ≠ [] := List.append_ne_nil_of_right_ne_nil _ (List.cons_ne_nil i [])
      rw [if_neg hid]
      simp only [hex, h.shape, List.mem_range]
      by_cases hparity : ∃ i' ∈ is, id = c.k + i'
      · simp [hparity]
      · by_cases hlt : id < c.k <;> by_cases hnil : is = [] <;> simp [hparity, hlt, hnil]
  cluster _ := findCluster_join ..

theorem parityJoins_encode (gfMultiply : GF256 → GF256 → GF256) (c : RSCode) :
    ParityJoins gfMultiply c (List.range (c.n - c.k))
      ((List.range (c.n - c.k)).foldl
      (fun dag i ↦ dag.join (c.k + i) (List.range c.k)
        ((List.range c.k).map fun j ↦ c.encodeMatrix gfMultiply ((i + c.k) * c.k + j)))
      ({} : ECDAG)) := by
  induction c.n - c.k with
  | zero =>
    refine ⟨rfl, fun id ↦ ?_, fun h ↦ absurd rfl h⟩
    simp [ECDAG.shape]
  | succ m ih =>
    rw [List.range_succ, List.foldl_append, List.foldl_cons, List.foldl_nil, add_comm m c.k]
    exact ih.join m

/-- Where the data blocks are leaves, the values of the data are there. -/
theorem forall₂_leaves {S : ℕ → Option Shape} (hw : c.w = 1)
    (hleaf : ∀ id < c.k, S id = some ([], ∅)) (data : ℕ → GF256) :
    List.Forall₂ (Evaluates S data) (List.range c.k)
      (((List.range c.k).map fun j ↦ j * c.w + 0).map data) := by
  have hids : (List.range c.k).map (fun j ↦ j * c.w + 0) = List.range c.k := by
    simp [hw]
  rw [hids, List.forall₂_map_right_iff, List.forall₂_same]
  exact fun id hid ↦ evaluates_leaf (hleaf id (List.mem_range.mp hid))

theorem ParityJoins.parity {dag : ECDAG} (h : ParityJoins gfMultiply c (List.range (c.n - c.k)) dag)
    {r : ℕ} (hr : c.k ≤ r) (hrn : r < c.n) :
    dag.shape r = some (List.range c.k, AList.singleton r (parityCoefs gfMultiply c r)) := by
  rw [h.shape, if_pos ⟨r - c.k, List.mem_range.mpr (by omega), by omega⟩]

theorem ParityJoins.leaf {dag : ECDAG} (h : ParityJoins gfMultiply c (List.range (c.n - c.k)) dag)
    (hkn : c.k < c.n) {id : ℕ} (hid : id < c.k) : dag.shape id = some ([], ∅) := by
  have hnil : List.range (c.n - c.k) ≠ [] := by
    rw [Ne, List.range_eq_nil]
    omega
  rw [h.shape, if_neg (by rintro ⟨i, -, rfl⟩; omega), if_pos ⟨hid, hnil⟩]

theorem ParityJoins.absent {dag : ECDAG} (h : ParityJoins gfMultiply c (List.range (c.n - c.k)) dag)
    {id : ℕ} (hid : c.n ≤ id) (hkn : c.k < c.n) : dag.shape id = none := by
  rw [h.shape, if_neg, if_neg (by omega)]
  rintro ⟨i, hi, rfl⟩
  have := List.mem_range.mp hi
  omega

theorem ParityJoins.bindX {dag : ECDAG} (h : ParityJoins gfMultiply c (List.range (c.n - c.k)) dag)
    (hm : 2 ≤ c.n - c.k) (hn : c.n < bindStart) :
    ∃ enc b M, dag.bindX ((List.range (c.n - c.k)).map (c.k + ·)) = some (enc, b) ∧
      (∀ id < c.k, enc.shape id = some ([], ∅)) ∧
      enc.shape dag.bindId = some (List.range c.k, M) ∧ 1 < M.keys.length ∧
      (∀ r, c.k ≤ r → r < c.n → enc.shape r = some ([dag.bindId], AList.singleton r [1]) ∧
        M.lookup r = some (parityCoefs gfMultiply c r)) ∧
      ∀ id, c.n ≤ id → id ≠ dag.bindId → enc.shape id = none := by
  obtain ⟨m, hm'⟩ : ∃ m, c.n - c.k = m + 2 := ⟨c.n - c.k - 2, by omega⟩
  have hcode : (List.range (c.n - c.k)).map (c.k + ·) =
      c.k :: (c.k + 1) :: (List.range m).map (c.k + 2 + ·) := by
    rw [hm', List.range_succ_eq_map, List.range_succ_eq_map]
    simp [add_comm, add_left_comm]
  have hmem : ∀ r, r ∈ (List.range (c.n - c.k)).map (c.k + ·) ↔ c.k ≤ r ∧ r < c.n := by
    intro r
    rw [List.mem_map]
    constructor
    · rintro ⟨i, hi, rfl⟩
      have := List.mem_range.mp hi
      exact ⟨Nat.le_add_right .., by omega⟩
    · rintro ⟨hr, hrn⟩
      exact ⟨r - c.k, List.mem_range.mpr (by omega), by omega⟩
  have hnodup : ((List.range (c.n - c.k)).map (c.k + ·)).Nodup :=
    List.nodup_range.map (add_right_injective c.k)
  have hbound : c.n < dag.bindId := h.bindId.symm ▸ hn
  have hfree : dag.bindId ∉ dag.nodes := shape_eq_none.mp (h.absent hbound.le (by omega))
  have hcluster := h.cluster (by rw [Ne, List.range_eq_nil]; omega)
  have hparity : ∀ r ∈ (List.range (c.n - c.k)).map (c.k + ·),
      dag.shape r = some (List.range c.k, AList.singleton r (parityCoefs gfMultiply c r)) :=
    fun r hr ↦ h.parity ((hmem r).mp hr).1 ((hmem r).mp hr).2
  rw [hcode] at hnodup hparity
  obtain ⟨enc, hbind, hshape⟩ := bindX_eq_some hnodup hfree hparity (fun _ _ ↦ .refl _) hcluster
  rw [← hcode] at hbind hshape
  have hlookup : ∀ r, c.k ≤ r → r < c.n → (bindCoefs (parityCoefs gfMultiply c)
      ((List.range (c.n - c.k)).map (c.k + ·)) ∅).lookup r = some (parityCoefs gfMultiply c r) :=
    fun r hr hrn ↦ lookup_bindCoefs ((hmem r).mpr ⟨hr, hrn⟩) ∅
  refine ⟨enc, _, _, hbind, fun id hid ↦ ?_, ?_, ?_, fun r hr hrn ↦ ⟨?_, hlookup r hr hrn⟩, fun id hid hne ↦ ?_⟩
  · have hnot : id ∉ (List.range (c.n - c.k)).map (c.k + ·) := fun h ↦ by
      have := (hmem id).mp h
      omega
    rw [hshape, if_neg hnot, if_neg (by omega), h.leaf (by omega) hid]
  · have hnot : dag.bindId ∉ (List.range (c.n - c.k)).map (c.k + ·) := fun h ↦ by
      have := (hmem dag.bindId).mp h
      omega
    rw [hshape, if_neg hnot, if_pos rfl]
  · exact one_lt_length_keys (Nat.succ_ne_self c.k).symm (hlookup c.k le_rfl (by omega))
      (hlookup (c.k + 1) (by omega) (by omega))
  · rw [hshape, if_pos ((hmem r).mpr ⟨hr, hrn⟩)]
  · rw [hshape, if_neg fun hmem' ↦ not_lt.mpr hid ((hmem id).mp hmem').2, if_neg hne, h.absent hid (by omega)]

/-- **`RSPPR::Encode`** computes every block of the stripe, whether it binds the parity blocks or not. -/
theorem encodeBlocks_evaluates (hmul : ∀ a b, gfMultiply a b = a * b) (hk : 2 ≤ c.k) (hkn : c.k < c.n)
    (hw : c.w = 1) (hn : c.n < bindStart) :
    ∃ enc, encodeBlocks gfMultiply c = some enc ∧
      ∀ (data : ℕ → GF256), ∀ r < c.n, Evaluates enc.shape data r (c.symbol data r 0) := by
  have hjoins := parityJoins_encode gfMultiply c
  rw [encodeBlocks]
  generalize (List.range (c.n - c.k)).foldl _ ({} : ECDAG) = dag at hjoins
  have hdata : ∀ (S : ℕ → Option Shape) (data : ℕ → GF256), (∀ id < c.k, S id = some ([], ∅)) →
      ∀ r < c.k, Evaluates S data r (c.symbol data r 0) := by
    intro S data hleaf r hr
    rw [RSCode.symbol_of_lt data 0 hr, hw, mul_one, add_zero]
    exact evaluates_leaf (hleaf r hr)
  have hlength : ((List.range (c.n - c.k)).map (c.k + ·)).length = c.n - c.k := by
    rw [List.length_map, List.length_range]
  by_cases hm : 1 < c.n - c.k
  · obtain ⟨enc, b, M, hbind, hleaf, hnode, hkeys, hparity, -⟩ := hjoins.bindX hm hn
    refine ⟨enc, ?_, fun data r hr ↦ ?_⟩
    · simp only [hlength, if_pos hm, hbind]
      rfl
    by_cases hrk : r < c.k
    · exact hdata _ data hleaf r hrk
    · obtain ⟨hshape, hrow⟩ := hparity r (by omega) hr
      rw [← dot_encode hmul data 0 hr]
      exact evaluates_bound hshape hnode hkeys hrow (forall₂_leaves hw hleaf data)
  · have hleaf : ∀ id < c.k, dag.shape id = some ([], ∅) := fun id hid ↦ hjoins.leaf hkn hid
    refine ⟨dag, ?_, fun data r hr ↦ ?_⟩
    · simp only [hlength, if_neg hm]
    by_cases hrk : r < c.k
    · exact hdata _ data hleaf r hrk
    · rw [← dot_encode hmul data 0 hr]
      refine evaluates_own (hjoins.parity (by omega) hr) ?_ (forall₂_leaves hw hleaf data)
      rw [List.length_range]
      exact hk

end Encode

end UniDedup.Storage
