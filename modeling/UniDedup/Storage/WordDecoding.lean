import UniDedup.Lib.WordField
import UniDedup.Storage.BindBuilding
import UniDedup.Storage.Decoding

/-!
# The codes that invert over words of `k` bits

`RSBINDX` and `RSAS` pass the number of data blocks to `jerasure_invert_matrix` where it takes the width of
the words, and multiply the inverse as bytes. With eight data blocks this is the field of bytes. With one
parity block the selected rows hold zeros and ones only, and the width does not matter. In every other case
there is a loss they decode wrongly, or hand a word to the multiplication of bytes that is none.

`RSAS` binds the targets of every sub-packet and ties the bind node to a survivor; its `Encode` does so even
for a single parity block, where `BindX` binds nothing and returns a negative number.
-/

namespace UniDedup.Storage

open ECDAG WordField

section Codes

variable (gfMultiply : GF256 → GF256 → GF256)
variable (invert : (ℕ → ℕ) → ℕ → ℕ → ℕ → ℕ)

/-- `galois_single_multiply` for words of eight bits, on integers. The tables it reads are for bytes. -/
def multiplyInts (x y : ℕ) : Option GF256 :=
  if x = 0 ∨ y = 0 then some 0
  else if x < 256 ∧ y < 256 then some (gfMultiply (GF256.ofNat x) (GF256.ofNat y)) else none

/-- `jerasure_matrix_multiply` for words of eight bits, on integers. -/
def matrixMultiplyInts (m1 m2 : ℕ → ℕ) (c1 r2 c2 p : ℕ) : Option GF256 :=
  (List.range r2).foldlM
    (fun s l ↦ (multiplyInts gfMultiply (m1 (p / c2 * c1 + l)) (m2 (l * c2 + p % c2))).map (s + ·)) 0

/-- `_coef_vector`, when `jerasure_invert_matrix` is called for words of the given width. -/
def RSCode.coefInts (c : RSCode) (width : ℕ) (fromsids : List ℕ) (ridx : ℕ) : Option (List GF256) :=
  (List.range c.k).mapM fun j ↦
    matrixMultiplyInts gfMultiply (fun l ↦ toWord (c.encodeMatrix gfMultiply (ridx * c.k + l)))
      (invert (toWord ∘ c.selectCells gfMultiply fromsids) c.k width) c.k c.k c.k j

def RSBINDX.encode (c : RSCode) : Option ECDAG := encodeBlocks gfMultiply c

/-- `RSBINDX::Decode`, on numbers of blocks. -/
def RSBINDX.decode (c : RSCode) (from' to' : List ℕ) : Option ECDAG :=
  if from'.length < c.k then none else
  let data := (List.range c.k).map fun i ↦ from'.getD i 0
  to'.foldlM (fun dag ridx ↦ (c.coefInts gfMultiply invert c.k from' ridx).map fun coef ↦
    dag.join ridx data coef) {}

/-- One turn of the loop of `RSAS::Encode` over the sub-packets. -/
def RSAS.encodeSubPacket (c : RSCode) (dag : ECDAG) (wi : ℕ) : Option ECDAG := do
  let data := (List.range c.k).map fun ki ↦ ki * c.w + wi
  let tobindX := (List.range (c.n - c.k)).map fun mi ↦ (c.k + mi) * c.w + wi
  let (dag, bindXIdx) ← (encodeJoins gfMultiply c wi dag).bindX tobindX
  dag.bindYOf bindXIdx (data.getD wi 0)

def RSAS.encode (c : RSCode) : Option ECDAG :=
  if c.k ≠ c.w then none else
  (List.range c.w).foldlM (RSAS.encodeSubPacket gfMultiply c) {}

/-- One turn of the loop of `RSAS::Decode` over the sub-packets. -/
def RSAS.decodeSubPacket (c : RSCode) (fromsids tosids : List ℕ) (coefs : List (List GF256)) (dag : ECDAG)
    (wi : ℕ) : Option ECDAG := do
  let wdata := (List.range c.k).map fun ki ↦ fromsids.getD ki 0 * c.w + wi
  let tobindx := tosids.map fun r ↦ r * c.w + wi
  let dag := (tosids.zip coefs).foldl (fun dag e ↦ dag.join (e.1 * c.w + wi) wdata e.2) dag
  let (dag, bindXIdx) ← if 1 < tosids.length then dag.bindX tobindx
    else tobindx.head?.bind fun idx ↦ dag.bindXSp idx
  dag.bindYOf bindXIdx (wdata.getD wi 0)

def RSAS.decode (c : RSCode) (from' to' : List ℕ) : Option ECDAG := do
  let fromsids := blockIds c.w from'
  let tosids := blockIds c.w to'
  if fromsids.length < c.k then none else
  let coefs ← tosids.mapM (c.coefInts gfMultiply invert c.k fromsids)
  (List.range c.w).foldlM (RSAS.decodeSubPacket c fromsids tosids coefs) {}

end Codes

/-! ## The coefficients -/

section Coefficients

variable {gfMultiply : GF256 → GF256 → GF256} {invert : (ℕ → ℕ) → ℕ → ℕ → ℕ → ℕ}
variable {c : RSCode} {width : ℕ} {fromsids : List ℕ}

theorem multiplyInts_toWord (a : GF256) {y : ℕ} (hy : y < 256) :
    multiplyInts gfMultiply (toWord a) y = some (galoisSingleMultiply gfMultiply a (GF256.ofNat y)) := by
  have ha : toWord a = 0 ↔ a = 0 := by
    constructor
    · intro h
      rw [← ofNat_toWord a, h]
      rfl
    · rintro rfl
      rfl
  have hy' : y = 0 ↔ GF256.ofNat y = 0 := by
    constructor
    · rintro rfl
      rfl
    · intro h
      rw [← toWord_ofNat hy, h]
      rfl
  have hcond : toWord a = 0 ∨ y = 0 ↔ a = 0 ∨ GF256.ofNat y = 0 := or_congr ha hy'
  rw [multiplyInts, galoisSingleMultiply]
  by_cases hzero : a = 0 ∨ GF256.ofNat y = 0
  · rw [if_pos (hcond.mpr hzero), if_pos hzero]
  · rw [if_neg (mt hcond.mp hzero), if_neg hzero, if_pos ⟨toWord_lt a, hy⟩, ofNat_toWord]

def inverseBytes (invert : (ℕ → ℕ) → ℕ → ℕ → ℕ → ℕ) (width : ℕ) (cells : ℕ → GF256) (k : ℕ) : ℕ → GF256 :=
  GF256.ofNat ∘ invert (toWord ∘ cells) k width

/-- **Where the inverse is one over bytes**, the coefficients are the ones of the field. -/
theorem coefInts_eq_some (hinv : InvertsBytes invert width c.k (c.selectCells gfMultiply fromsids)) (r : ℕ) :
    c.coefInts gfMultiply invert width fromsids r =
      some ((List.range c.k).map (c.coefVector gfMultiply (inverseBytes invert width) fromsids r)) := by
  rw [RSCode.coefInts, mapM_eq_some_iff, List.forall₂_map_right_iff, List.forall₂_same]
  intro j hj
  have hj := List.mem_range.mp hj
  rw [RSCode.coefVector, matrixMultiplyInts, jerasureMatrixMultiply]
  have hfold : ∀ (ls : List ℕ) (s : GF256), (∀ l ∈ ls, l < c.k) → ls.foldlM
      (fun s l ↦ (multiplyInts gfMultiply
        (toWord (c.encodeMatrix gfMultiply (r * c.k + (j / c.k * c.k + l))))
        (invert (toWord ∘ c.selectCells gfMultiply fromsids) c.k width (l * c.k + j % c.k))).map (s + ·)) s =
      some (ls.foldl (fun s l ↦ s + galoisSingleMultiply gfMultiply
        (c.encodeMatrix gfMultiply (r * c.k + (j / c.k * c.k + l)))
        (inverseBytes invert width (c.selectCells gfMultiply fromsids) c.k (l * c.k + j % c.k))) s) := by
    intro ls
    induction ls with
    | nil => exact fun s _ ↦ rfl
    | cons l ls ih =>
      intro s hls
      have hlt : l * c.k + j % c.k < c.k * c.k :=
        cell_lt (hls l List.mem_cons_self) (Nat.mod_lt _ (Nat.zero_lt_of_lt hj))
      rw [List.foldlM_cons, multiplyInts_toWord _ (hinv.1 _ hlt), Option.map_some, List.foldl_cons,
        ← ih _ fun l hl ↦ hls l (List.mem_cons_of_mem _ hl)]
      rfl
  exact hfold (List.range c.k) 0 fun l hl ↦ List.mem_range.mp hl

theorem dot_coefInts (hmul : ∀ a b, gfMultiply a b = a * b)
    (hinv : InvertsBytes invert width c.k (c.selectCells gfMultiply fromsids))
    (hfrom : ∀ j : Fin c.k, fromsids.getD j 0 < c.n) {r : ℕ} (hr : r < c.n) (data : ℕ → GF256) (wi : ℕ) :
    dot ((List.range c.k).map (c.coefVector gfMultiply (inverseBytes invert width) fromsids r))
      ((List.range c.k).map fun j ↦ c.symbol data (fromsids.getD j 0) wi) = c.symbol data r wi := by
  have hone : selectMatrix (k := c.k) (inverseBytes invert width (c.selectCells gfMultiply fromsids) c.k) (·) *
      selectMatrix (c.selectCells gfMultiply fromsids) (·) = 1 := hinv.2
  rw [dot, List.zipWith_map, List.zipWith_self, sum_map_range]
  exact sum_coefVector_of_inverse hmul hfrom hone hr data wi

end Coefficients

/-! ## The graphs

Whatever the coefficients are, the graph of `Decode` combines the survivors with them. -/

section Graphs

variable {gfMultiply : GF256 → GF256 → GF256} {invert : (ℕ → ℕ) → ℕ → ℕ → ℕ → ℕ}
variable {c : RSCode} (L : Loss c) {co : ℕ → List GF256} {stripe : ℕ → GF256}

/-- The survivors of a sub-packet, combined with the coefficients of a lost block. -/
def Loss.combine (co : ℕ → List GF256) (stripe : ℕ → GF256) (r wi : ℕ) : GF256 :=
  dot (co r) ((List.range c.k).map fun j ↦ stripe (L.survivors.getD j 0 * c.w + wi))

/-- Decoding that computes the given values. -/
def Loss.wantPlan (stripe : ℕ → GF256) (f : ℕ → ℕ → GF256) : Plan :=
  { L.plan (L.agrees_self stripe) (le_refl (c.n * c.w)) with
    want := fun id ↦ if id / c.w ∈ L.lost then f (id / c.w) (id % c.w) else stripe id
    want_src := by
      rintro id ⟨j, hj, wi, hwi, rfl⟩
      rw [subPacket_div hwi]
      exact if_neg fun hr ↦ L.disjoint _ hr (L.survivor_mem hj) }

theorem Loss.want_wantPlan (f : ℕ → ℕ → GF256) {r wi : ℕ} (hr : r ∈ L.lost) (hwi : wi < c.w) :
    (L.wantPlan stripe f).want (r * c.w + wi) = f r wi := by
  show (if (r * c.w + wi) / c.w ∈ L.lost then _ else _) = _
  rw [subPacket_div hwi, subPacket_mod hwi, if_pos hr]

/-- Decoding with the given coefficients. -/
def Loss.combinePlan (co : ℕ → List GF256) (stripe : ℕ → GF256) : Plan :=
  L.wantPlan stripe (L.combine co stripe)

theorem Loss.want_combinePlan {r wi : ℕ} (hr : r ∈ L.lost) (hwi : wi < c.w) :
    (L.combinePlan co stripe).want (r * c.w + wi) = L.combine co stripe r wi :=
  L.want_wantPlan _ hr hwi

def Loss.read (wi : ℕ) : List ℕ := (List.range c.k).map fun ki ↦ L.survivors.getD ki 0 * c.w + wi

theorem Loss.src_of_mem_read (co : ℕ → List GF256) (stripe : ℕ → GF256) {wi : ℕ} (hwi : wi < c.w)
    {id : ℕ} (hid : id ∈ L.read wi) : (L.combinePlan co stripe).src id := by
  obtain ⟨j, hj, rfl⟩ := List.mem_map.mp hid
  exact ⟨j, List.mem_range.mp hj, wi, hwi, rfl⟩

theorem Loss.length_read (wi : ℕ) : (L.read wi).length = c.k := by
  rw [read, List.length_map, List.length_range]

def Loss.targets (wi : ℕ) : List ℕ := L.lost.map fun r ↦ r * c.w + wi

theorem Loss.target_of_mem (co : ℕ → List GF256) (stripe : ℕ → GF256) {wi : ℕ} (hwi : wi < c.w)
    {id : ℕ} (hid : id ∈ L.targets wi) : (L.combinePlan co stripe).target id ∧
      dot (co (id / c.w)) ((L.read wi).map stripe) = (L.combinePlan co stripe).want id := by
  obtain ⟨r, hr, rfl⟩ := List.mem_map.mp hid
  refine ⟨⟨r, hr, wi, hwi, rfl⟩, ?_⟩
  rw [L.want_combinePlan hr hwi, subPacket_div hwi, read, List.map_map]
  rfl

/-- The graph combines the survivors with the coefficients. -/
def Loss.Combines (co : ℕ → List GF256) (dec : ECDAG) : Prop :=
  ∀ stripe : ℕ → GF256, ∀ r ∈ L.lost, ∀ wi < c.w,
    Evaluates dec.shape stripe (r * c.w + wi) (L.combine co stripe r wi)

theorem RSBINDX.decode_combines (hk : 2 ≤ c.k) (hw : c.w = 1)
    (hco : ∀ r ∈ L.lost, c.coefInts gfMultiply invert c.k L.survivors r = some (co r)) :
    ∃ dec, RSBINDX.decode gfMultiply invert c L.survivors L.lost = some dec ∧ L.Combines co dec := by
  have hread : (List.range c.k).map (fun i ↦ L.survivors.getD i 0) = L.read 0 := by
    simp [Loss.read, hw]
  have hfold : ∀ (rs : List ℕ) (dag : ECDAG), (∀ r ∈ rs, r ∈ L.lost) →
      rs.foldlM (fun dag ridx ↦ (c.coefInts gfMultiply invert c.k L.survivors ridx).map fun coef ↦
        dag.join ridx (L.read 0) coef) dag =
      some (rs.foldl (fun dag p ↦ dag.join p (L.read 0) (co p)) dag) := by
    intro rs
    induction rs with
    | nil => exact fun dag _ ↦ rfl
    | cons r rs ih =>
      intro dag hrs
      rw [List.foldlM_cons, hco r (hrs r List.mem_cons_self), List.foldl_cons,
        ← ih _ fun r hr ↦ hrs r (List.mem_cons_of_mem _ hr)]
      rfl
  rw [RSBINDX.decode, if_neg (not_lt.mpr L.enough), hread]
  refine ⟨_, hfold L.lost {} fun r hr ↦ hr, fun stripe r hr wi hwi ↦ ?_⟩
  obtain rfl : wi = 0 := by omega
  have htargets : L.targets 0 = L.lost := by simp [Loss.targets, hw]
  have hbuilt := (Built.empty (L.combinePlan co stripe)).foldl L.lost
    (Q := fun p id ↦ id = p ∨ id ∈ L.read 0) fun p hp dag done h ↦ by
      obtain ⟨htarget, hdot⟩ := L.target_of_mem co stripe hwi (htargets ▸ hp)
      rw [hw, Nat.div_one] at hdot
      exact h.joinTarget (co p) htarget (fun id hid ↦ L.src_of_mem_read co stripe hwi hid)
        (by rw [L.length_read]; exact hk) hdot
  have hval := hbuilt.value r (.inr ⟨r, hr, .inl rfl⟩)
  rw [← L.want_combinePlan hr hwi, hw, mul_one, add_zero]
  exact hval

theorem Loss.foldl_zip (co : ℕ → List GF256) {wi : ℕ} (hwi : wi < c.w) (dag : ECDAG) :
    (L.lost.zip (L.lost.map co)).foldl (fun dag e ↦ dag.join (e.1 * c.w + wi) (L.read wi) e.2) dag =
      (L.targets wi).foldl (fun dag p ↦ dag.join p (L.read wi) (co (p / c.w))) dag := by
  rw [← List.map_prod_left_eq_zip, List.foldl_map, targets, List.foldl_map]
  simp only [subPacket_div hwi]

/-- A turn of `RSAS::Decode` joins the lost sub-packets of an index and binds them. -/
theorem RSAS.decodeSubPacket_built (hk : 2 ≤ c.k) (hw : c.w = c.k) (hne : L.lost ≠ []) (hnodup : L.lost.Nodup)
    {lim wi : ℕ} (hwi : wi < c.w) {dag : ECDAG} {done : ℕ → Prop}
    (h : BindBuilt (L.combinePlan co stripe) lim dag lim done) (hlim : dag.bindId < lim) :
    ∃ dag', RSAS.decodeSubPacket c L.survivors L.lost (L.lost.map co) dag wi = some dag' ∧
      dag'.bindId = dag.bindId + 1 ∧
      BindBuilt (L.combinePlan co stripe) lim dag' lim fun id ↦ done id ∨ id ∈ L.targets wi := by
  have hread : L.survivors.getD wi 0 * c.w + wi ∈ L.read wi :=
    List.mem_map.mpr ⟨wi, List.mem_range.mpr (hw ▸ hwi), rfl⟩
  have hget : (L.read wi).getD wi 0 = L.survivors.getD wi 0 * c.w + wi := by
    rw [Loss.read, List.getD_eq_getElem _ _ (by rw [List.length_map, List.length_range, ← hw]; exact hwi)]
    simp
  have htargets : ∀ p ∈ L.targets wi, _ := fun p hp ↦ L.target_of_mem co stripe hwi hp
  have hsrc : ∀ id ∈ L.read wi, _ := fun id hid ↦ L.src_of_mem_read co stripe hwi hid
  have hlength : 2 ≤ (L.read wi).length := by
    rw [L.length_read]
    exact hk
  have hdecode : RSAS.decodeSubPacket c L.survivors L.lost (L.lost.map co) dag wi =
      (if 1 < L.lost.length then
        ((L.targets wi).foldl (fun dag p ↦ dag.join p (L.read wi) (co (p / c.w))) dag).bindX (L.targets wi)
      else (L.targets wi).head?.bind fun idx ↦
        ((L.targets wi).foldl (fun dag p ↦ dag.join p (L.read wi) (co (p / c.w))) dag).bindXSp idx).bind
      fun e ↦ e.1.bindYOf e.2 (L.survivors.getD wi 0 * c.w + wi) := by
    rw [← L.foldl_zip co hwi, ← hget]
    by_cases hone : 1 < L.lost.length
    · simp only [RSAS.decodeSubPacket, if_pos hone]
      rfl
    · simp only [RSAS.decodeSubPacket, if_neg hone]
      rfl
  rw [hdecode]
  by_cases hone : 1 < L.lost.length
  · have htwo : 2 ≤ (L.targets wi).length := by
      rw [Loss.targets, List.length_map]
      exact hone
    have hdistinct : (L.targets wi).Nodup := by
      refine hnodup.map fun r r' hrr ↦ ?_
      exact ((cell_inj hwi hwi).mp hrr).1
    obtain ⟨d, b, dag', hbind, hbindY, hbindId, hbuilt⟩ := h.joinTargets_bindX hlim hsrc hlength
      (fun p ↦ co (p / c.w)) (fun p hp ↦ (htargets p hp).1) hdistinct htwo (fun p hp ↦ (htargets p hp).2) hread
    exact ⟨dag', by simp only [if_pos hone, hbind, Option.bind_some, hbindY], hbindId,
      hbuilt.imp fun q hq ↦ hq.imp_right .inl⟩
  · obtain ⟨r, hr⟩ : ∃ r, L.lost = [r] :=
      List.length_eq_one_iff.mp (by have := List.length_pos_of_ne_nil hne; omega)
    have hp : L.targets wi = [r * c.w + wi] := by
      rw [Loss.targets, hr]
      rfl
    rw [hp] at htargets
    obtain ⟨htarget, hdot⟩ := htargets _ (List.mem_singleton_self _)
    obtain ⟨d, b, dag', hbind, hbindY, hbindId, hbuilt⟩ :=
      h.join_bindXSp hlim hsrc hlength htarget hdot hread
    refine ⟨dag', ?_, hbindId, hbuilt.imp fun q hq ↦ hq.imp_right fun hq ↦ ?_⟩
    · simp only [if_neg hone, hp, List.foldl_cons, List.foldl_nil, List.head?_cons, Option.bind_some, hbind,
        hbindY]
    · rw [hp] at hq
      exact List.mem_singleton.mp hq

theorem BindBuilt.foldlM {P : Plan} {f : ECDAG → ℕ → Option ECDAG} {Q : ℕ → ℕ → Prop} (w : ℕ)
    (hbound : P.bound ≤ bindStart)
    (hstep : ∀ wi < w, ∀ (dag : ECDAG) (done : ℕ → Prop), BindBuilt P (bindStart + w) dag (bindStart + w) done →
      dag.bindId < bindStart + w → ∃ dag', f dag wi = some dag' ∧ dag'.bindId = dag.bindId + 1 ∧
        BindBuilt P (bindStart + w) dag' (bindStart + w) fun id ↦ done id ∨ Q wi id) :
    ∃ dag', (List.range w).foldlM f {} = some dag' ∧
      BindBuilt P (bindStart + w) dag' (bindStart + w) fun id ↦ ∃ wi < w, Q wi id := by
  have hturns : ∀ i ≤ w, ∃ dag', (List.range i).foldlM f {} = some dag' ∧ dag'.bindId = bindStart + i ∧
      BindBuilt P (bindStart + w) dag' (bindStart + w) fun id ↦ ∃ wi < i, Q wi id := by
    intro i
    induction i with
    | zero =>
      intro _
      refine ⟨{}, rfl, rfl, (BindBuilt.empty P hbound (Nat.le_add_right ..)).imp fun id hid ↦ ?_⟩
      obtain ⟨wi, hwi, -⟩ := hid
      exact absurd hwi (Nat.not_lt_zero wi)
    | succ i ih =>
      intro hi
      obtain ⟨dag, hdag, hbindId, hbuilt⟩ := ih (by omega)
      obtain ⟨dag', hdag', hbindId', hbuilt'⟩ := hstep i (by omega) dag _ hbuilt (by omega)
      refine ⟨dag', ?_, by omega, hbuilt'.imp fun id hid ↦ ?_⟩
      · rw [List.range_succ, List.foldlM_append, hdag]
        simp only [Option.bind_eq_bind, Option.bind_some, List.foldlM_cons, hdag', List.foldlM_nil]
        rfl
      · obtain ⟨wi, hwi, hq⟩ := hid
        rcases Nat.lt_succ_iff_lt_or_eq.mp hwi with hwi | rfl
        · exact .inl ⟨wi, hwi, hq⟩
        · exact .inr hq
  obtain ⟨dag', hdag', -, hbuilt⟩ := hturns w le_rfl
  exact ⟨dag', hdag', hbuilt⟩

theorem RSAS.decode_combines (hk : 2 ≤ c.k) (hw : c.w = c.k) (hbound : c.n * c.w ≤ bindStart)
    (hne : L.lost ≠ []) (hnodup : L.lost.Nodup)
    (hco : ∀ r ∈ L.lost, c.coefInts gfMultiply invert c.k L.survivors r = some (co r)) :
    ∃ dec, RSAS.decode gfMultiply invert c (subPackets c.w L.survivors) (subPackets c.w L.lost) = some dec ∧
      L.Combines co dec := by
  have hw1 : 1 ≤ c.w := by omega
  have hcoefs : L.lost.mapM (c.coefInts gfMultiply invert c.k L.survivors) = some (L.lost.map co) := by
    rw [mapM_eq_some_iff, List.forall₂_map_right_iff, List.forall₂_same]
    exact hco
  have hloop : ∀ stripe, ∃ dec, (List.range c.w).foldlM
      (RSAS.decodeSubPacket c L.survivors L.lost (L.lost.map co)) {} = some dec ∧
      BindBuilt (L.combinePlan co stripe) (bindStart + c.w) dec (bindStart + c.w)
        fun id ↦ ∃ wi < c.w, id ∈ L.targets wi := fun stripe ↦
    BindBuilt.foldlM c.w hbound fun wi hwi dag done h hlim ↦
      RSAS.decodeSubPacket_built L hk hw hne hnodup hwi h hlim
  obtain ⟨dec, hdec, -⟩ := hloop 0
  refine ⟨dec, ?_, fun stripe r hr wi hwi ↦ ?_⟩
  · rw [RSAS.decode]
    simp only [blockIds_subPackets hw1, if_neg (not_lt.mpr L.enough), hcoefs, Option.bind_eq_bind,
      Option.bind_some, hdec]
  · obtain ⟨dec', hdec', hbuilt⟩ := hloop stripe
    obtain rfl : dec = dec' := Option.some.inj (hdec.symm.trans hdec')
    rw [← L.want_combinePlan hr hwi]
    exact hbuilt.value _ ⟨wi, hwi, List.mem_map.mpr ⟨r, hr, rfl⟩⟩

end Graphs

/-! ## Encoding -/

section Encode

variable {gfMultiply : GF256 → GF256 → GF256} {c : RSCode}

/-- A turn of `RSAS::Encode` computes the sub-packets of an index, when there are two parity blocks or more. -/
theorem RSAS.encodeSubPacket_built (hmul : ∀ a b, gfMultiply a b = a * b) (hk : 2 ≤ c.k) (hw : c.w = c.k)
    (hkn : c.k ≤ c.n) (hm : c.k + 2 ≤ c.n) {data : ℕ → GF256} {lim wi : ℕ} (hwi : wi < c.w) {dag : ECDAG}
    {done : ℕ → Prop} (h : BindBuilt (encodePlan c data hkn) lim dag lim done) (hlim : dag.bindId < lim) :
    ∃ dag', RSAS.encodeSubPacket gfMultiply c dag wi = some dag' ∧ dag'.bindId = dag.bindId + 1 ∧
      BindBuilt (encodePlan c data hkn) lim dag' lim fun id ↦ done id ∨ ∃ r < c.n, id = r * c.w + wi := by
  let read := (List.range c.k).map fun ki ↦ ki * c.w + wi
  let code := (List.range (c.n - c.k)).map fun mi ↦ (c.k + mi) * c.w + wi
  have hjoins : encodeJoins gfMultiply c wi dag =
      code.foldl (fun dag p ↦ dag.join p read (parityCoefs gfMultiply c (p / c.w))) dag := by
    rw [encodeJoins, List.foldl_map]
    simp only [subPacket_div hwi, parityCoefs, add_comm c.k]
    rfl
  have hsrc : ∀ id ∈ read, (encodePlan c data hkn).src id := by
    intro id hid
    obtain ⟨j, hj, rfl⟩ := List.mem_map.mp hid
    exact subPacket_lt (List.mem_range.mp hj) hwi
  have hrow : ∀ p ∈ code, ∃ r, c.k ≤ r ∧ r < c.n ∧ p = r * c.w + wi := by
    intro p hp
    obtain ⟨mi, hmi, rfl⟩ := List.mem_map.mp hp
    have := List.mem_range.mp hmi
    exact ⟨c.k + mi, Nat.le_add_right .., by omega, rfl⟩
  have htarget : ∀ p ∈ code, (encodePlan c data hkn).target p := by
    intro p hp
    obtain ⟨r, hr, hrn, rfl⟩ := hrow p hp
    exact ⟨(Nat.mul_le_mul_right _ hr).trans (Nat.le_add_right ..), subPacket_lt hrn hwi⟩
  have hdot : ∀ p ∈ code, dot (parityCoefs gfMultiply c (p / c.w)) (read.map (encodePlan c data hkn).env) =
      (encodePlan c data hkn).want p := by
    intro p hp
    obtain ⟨r, -, hrn, rfl⟩ := hrow p hp
    show dot _ (read.map data) = c.symbol data ((r * c.w + wi) / c.w) ((r * c.w + wi) % c.w)
    rw [subPacket_div hwi, subPacket_mod hwi]
    exact dot_encode hmul data wi hrn
  have hnodup : code.Nodup := by
    refine List.nodup_range.map fun i j hij ↦ ?_
    exact Nat.add_left_cancel ((cell_inj hwi hwi).mp hij).1
  have hlength : 2 ≤ read.length := by
    rw [List.length_map, List.length_range]
    exact hk
  have htwo : 2 ≤ code.length := by
    rw [List.length_map, List.length_range]
    omega
  have hread : wi * c.w + wi ∈ read := List.mem_map.mpr ⟨wi, List.mem_range.mpr (hw ▸ hwi), rfl⟩
  have hget : read.getD wi 0 = wi * c.w + wi := by
    rw [List.getD_eq_getElem _ _ (by rw [List.length_map, List.length_range, ← hw]; exact hwi)]
    simp [read]
  obtain ⟨d, b, dag', hbind, hbindY, hbindId, hbuilt⟩ := h.joinTargets_bindX hlim hsrc hlength
    (fun p ↦ parityCoefs gfMultiply c (p / c.w)) htarget hnodup htwo hdot hread
  refine ⟨dag', ?_, hbindId, hbuilt.imp fun id hid ↦ hid.imp_right ?_⟩
  · rw [← hjoins] at hbind
    rw [← hget] at hbindY
    simp only [RSAS.encodeSubPacket, Option.bind_eq_bind]
    rw [hbind, Option.bind_some]
    exact hbindY
  · rintro ⟨r, hr, rfl⟩
    by_cases hrk : r < c.k
    · exact .inr (List.mem_map.mpr ⟨r, List.mem_range.mpr hrk, rfl⟩)
    · refine .inl (List.mem_map.mpr ⟨r - c.k, List.mem_range.mpr (by omega), ?_⟩)
      rw [Nat.add_sub_cancel' (by omega)]

/-- **`RSAS::Encode`** computes every sub-packet of the stripe, when there are two parity blocks or more. -/
theorem RSAS.encode_evaluates (hmul : ∀ a b, gfMultiply a b = a * b) (hk : 2 ≤ c.k) (hw : c.w = c.k)
    (hm : c.k + 2 ≤ c.n) (hbound : c.n * c.w ≤ bindStart) :
    ∃ enc, RSAS.encode gfMultiply c = some enc ∧ ∀ data : ℕ → GF256, ∀ r < c.n, ∀ wi < c.w,
      Evaluates enc.shape data (r * c.w + wi) (c.symbol data r wi) := by
  have hkn : c.k ≤ c.n := by omega
  have hloop : ∀ data, ∃ enc, (List.range c.w).foldlM (RSAS.encodeSubPacket gfMultiply c) {} = some enc ∧
      BindBuilt (encodePlan c data hkn) (bindStart + c.w) enc (bindStart + c.w)
        fun id ↦ ∃ wi < c.w, ∃ r < c.n, id = r * c.w + wi := fun data ↦
    BindBuilt.foldlM c.w hbound fun wi hwi dag done h hlim ↦
      RSAS.encodeSubPacket_built hmul hk hw hkn hm hwi h hlim
  obtain ⟨enc, henc, -⟩ := hloop 0
  refine ⟨enc, ?_, fun data r hr wi hwi ↦ ?_⟩
  · rw [RSAS.encode, if_neg (fun hne ↦ hne hw.symm), henc]
  · obtain ⟨enc', henc', hbuilt⟩ := hloop data
    obtain rfl : enc = enc' := Option.some.inj (henc.symm.trans henc')
    have hval := hbuilt.value (r * c.w + wi) ⟨wi, hwi, r, hr, rfl⟩
    have hwant : (encodePlan c data hkn).want (r * c.w + wi) = c.symbol data r wi := by
      show c.symbol data ((r * c.w + wi) / c.w) ((r * c.w + wi) % c.w) = _
      rw [subPacket_div hwi, subPacket_mod hwi]
    rwa [hwant] at hval

/-- With a single parity block an assertion of `RSAS::Encode` fails: `BindX` of one target binds nothing. -/
theorem RSAS.encode_eq_none (hk : 2 ≤ c.k) (hw : c.w = c.k) (hm : c.n = c.k + 1) :
    RSAS.encode gfMultiply c = none := by
  have hturn : ∀ (dag : ECDAG) (wi : ℕ), RSAS.encodeSubPacket gfMultiply c dag wi = none := by
    intro dag wi
    have hone : c.n - c.k = 1 := by omega
    simp [RSAS.encodeSubPacket, hone, bindX, bindYOf]
  obtain ⟨w, hw'⟩ : ∃ w, c.w = w + 1 := ⟨c.w - 1, by omega⟩
  rw [RSAS.encode, if_neg (fun hne ↦ hne hw.symm), hw', List.range_succ_eq_map, List.foldlM_cons, hturn]
  rfl

end Encode

end UniDedup.Storage
