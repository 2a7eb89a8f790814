import UniDedup.Storage.WordDecoding

/-!
# The width that `RSBINDX` and `RSAS` hand over

Both codes decode every loss exactly when the width they hand over does not matter: with eight data blocks,
and, for `RSBINDX`, with a single parity block. Otherwise block 1 cannot be rebuilt from the other data
blocks and parity block `k + 1`, whose row has a 2 in column 1: the coefficient is the inverse of 2 over
words of `k` bits.
-/

namespace UniDedup.Storage

open ECDAG WordField

/-! ## Another block for data block 1 -/

/-- Survivors that are the data blocks but block 1, and parity block `k + q`, which is survivor `i`. -/
structure Replaced (k q : ℕ) (sids : ℕ → ℕ) (i : Fin k) : Prop where
  parity : sids i = k + q
  data : ∀ l : Fin k, l ≠ i → sids l < k ∧ sids l ≠ 1
  inj : ∀ l l' : Fin k, sids l = sids l' → l = l'

section Replaced

variable {k q : ℕ} {sids : ℕ → ℕ} {i : Fin k} (h : Replaced k q sids i)
include h

/-- The place of a survivor among the data blocks, with the parity block in the place of block 1. -/
theorem Replaced.exists_perm (hk : 2 ≤ k) :
    ∃ σ : Equiv.Perm (Fin k), σ i = ⟨1, hk⟩ ∧ ∀ l, l ≠ i → (σ l : ℕ) = sids l := by
  let place : Fin k → Fin k := fun l ↦ if hl : l = i then ⟨1, hk⟩ else ⟨sids l, (h.data l hl).1⟩
  have hinj : Function.Injective place := by
    intro l l' hll
    by_cases hl : l = i <;> by_cases hl' : l' = i
    · rw [hl, hl']
    · have hval : 1 = sids l' := by simpa [place, hl, hl'] using hll
      exact absurd hval.symm (h.data l' hl').2
    · have hval : sids l = 1 := by simpa [place, hl, hl'] using hll
      exact absurd hval (h.data l hl).2
    · exact h.inj l l' (by simpa [place, hl, hl'] using hll)
  refine ⟨Equiv.ofBijective place (Finite.injective_iff_bijective.mp hinj), ?_, fun l hl ↦ ?_⟩
  · exact dif_pos rfl
  · rw [Equiv.ofBijective_apply]
    simp only [place, dif_neg hl]

/-- The selected rows are those of the unit matrix but for the row of block 1. -/
theorem Replaced.rows_eq {K : Type*} [Field K] (hk : 2 ≤ k) {f : GF256 → K} (hzero : f 0 = 0) (hone : f 1 = 1)
    {σ : Equiv.Perm (Fin k)} (hi : σ i = ⟨1, hk⟩) (hσ : ∀ l, l ≠ i → (σ l : ℕ) = sids l) :
    (Matrix.of fun l j : Fin k ↦ f (generator k (sids l) j)) =
      ((1 : Matrix (Fin k) (Fin k) K).updateRow ⟨1, hk⟩ fun j ↦ f (generator k (k + q) j)).submatrix σ id := by
  refine Matrix.ext fun l j ↦ ?_
  rw [Matrix.of_apply, Matrix.submatrix_apply, id]
  by_cases hl : l = i
  · rw [hl, hi, Matrix.updateRow_self, h.parity]
  · have hne : σ l ≠ ⟨1, hk⟩ := fun heq ↦ hl (σ.injective (heq.trans hi.symm))
    rw [Matrix.updateRow_ne hne, generator, if_pos (h.data l hl).1, ← hσ l hl, Matrix.one_apply]
    by_cases hlj : σ l = j
    · rw [if_pos (congrArg Fin.val hlj), if_pos hlj, hone]
    · rw [if_neg (fun heq ↦ hlj (Fin.ext heq)), if_neg hlj, hzero]

end Replaced

section Coefficients

variable {gfMultiply : GF256 → GF256 → GF256} {invert : (ℕ → ℕ) → ℕ → ℕ → ℕ → ℕ}
variable {c : RSCode} {fromsids : List ℕ} {i : Fin c.k} {q : ℕ}

theorem generator_one (k q : ℕ) : generator k (k + q) 1 = GF256.ofNat (q + 1) := by
  rw [generator, if_neg (by omega), Nat.add_sub_cancel_left, pow_one]

theorem selectCells_apply (hmul : ∀ a b, gfMultiply a b = a * b) (hlt : ∀ l : Fin c.k, fromsids.getD l 0 < c.n)
    (l j : Fin c.k) : c.selectCells gfMultiply fromsids (l * c.k + j) = generator c.k (fromsids.getD l 0) j := by
  rw [RSCode.selectCells, subPacket_div j.isLt, subPacket_mod j.isLt, encodeMatrix_apply hmul (hlt l) j.isLt]

theorem Replaced.isUnit (h : Replaced c.k q (fun l ↦ fromsids.getD l 0) i) (hmul : ∀ a b, gfMultiply a b = a * b)
    (hk : 2 ≤ c.k) (hlt : ∀ l : Fin c.k, fromsids.getD l 0 < c.n) (hq : GF256.ofNat (q + 1) ≠ 0) :
    IsUnit (selectMatrix (c.encodeMatrix gfMultiply) fun i : Fin c.k ↦ fromsids.getD i 0) := by
  obtain ⟨σ, hi, hσ⟩ := h.exists_perm hk
  have hrows := h.rows_eq hk (f := id) rfl rfl hi hσ
  rw [RSCode.encodeMatrix, selectMatrix_generateMatrix hmul c.matrix hlt]
  have hgen : generatorRows (fun l : Fin c.k ↦ fromsids.getD l 0) =
    Matrix.of fun l j : Fin c.k ↦ id (generator c.k (fromsids.getD l 0) j) := rfl
  rw [hgen, hrows]
  refine isUnit_updateRow_one σ ?_
  show generator c.k (c.k + q) 1 ≠ 0
  rwa [generator_one]

/-- The words of a row of powers fit, except over words of eight bits. -/
theorem toWord_generator_lt {k q j : ℕ} (hk : k ≠ 8) (hq : q ≤ 1) (hj : j < k) :
    toWord (generator k (k + q) j) < 2 ^ k := by
  rcases Nat.lt_or_gt_of_ne hk with hlt | hgt
  · have hpow : ∀ k < 8, ∀ q ≤ 1, ∀ j < k, toWord (GF256.ofNat (q + 1) ^ j) < 2 ^ k := by decide +kernel
    rw [generator, if_neg (by omega), Nat.add_sub_cancel_left]
    exact hpow k hlt q hq j hj
  · have hpow : 2 ^ 8 ≤ 2 ^ k := Nat.pow_le_pow_right (by decide) hgt.le
    exact (toWord_lt _).trans_le hpow

/-- **The coefficient of the parity block** in rebuilding block 1 is the inverse of 2 over words of `k` bits. -/
theorem Replaced.mul_two {W : WordField c.k} (h : Replaced c.k 1 (fun l ↦ fromsids.getD l 0) i)
    (hmul : ∀ a b, gfMultiply a b = a * b) (hinv : W.InvertedBy invert) (hk : 2 ≤ c.k) (hk8 : c.k ≠ 8)
    (hlt : ∀ l : Fin c.k, fromsids.getD l 0 < c.n) :
    invert (toWord ∘ c.selectCells gfMultiply fromsids) c.k c.k (1 * c.k + i) < 2 ^ c.k ∧
      W.ofWord (invert (toWord ∘ c.selectCells gfMultiply fromsids) c.k c.k (1 * c.k + i)) * W.ofWord 2 = 1 := by
  obtain ⟨σ, hi, hσ⟩ := h.exists_perm hk
  have hrows := h.rows_eq hk (f := fun b ↦ W.ofWord (toWord b)) W.zero W.one hi hσ
  have hmatrix : W.matrix c.k (toWord ∘ c.selectCells gfMultiply fromsids) =
      Matrix.of fun l j : Fin c.k ↦ W.ofWord (toWord (generator c.k (fromsids.getD l 0) j)) := by
    refine Matrix.ext fun l j ↦ ?_
    rw [WordField.matrix, Matrix.of_apply, Matrix.of_apply, Function.comp, selectCells_apply hmul hlt]
  have hcells : ∀ p < c.k * c.k, (toWord ∘ c.selectCells gfMultiply fromsids) p < 2 ^ c.k := by
    intro p hp
    have hdiv : p / c.k < c.k := Nat.div_lt_of_lt_mul hp
    have hmod : p % c.k < c.k := Nat.mod_lt p (by omega)
    have hp' : p = p / c.k * c.k + p % c.k := by rw [mul_comm, Nat.div_add_mod]
    rw [hp', Function.comp, selectCells_apply hmul hlt ⟨p / c.k, hdiv⟩ ⟨p % c.k, hmod⟩]
    by_cases hl : (⟨p / c.k, hdiv⟩ : Fin c.k) = i
    · rw [hl, h.parity]
      exact toWord_generator_lt hk8 le_rfl hmod
    · have hone := one_lt (w := c.k) (by omega)
      rw [generator, if_pos (h.data _ hl).1]
      split
      · exact hone
      · exact Nat.zero_lt_of_lt hone
  have htwo : W.ofWord (toWord (generator c.k (c.k + 1) 1)) = W.ofWord 2 := by
    rw [generator_one]
    rfl
  have hne : W.ofWord 2 ≠ 0 := by
    have hpow : 2 ^ 2 ≤ 2 ^ c.k := Nat.pow_le_pow_right (by decide) hk
    rw [← W.zero]
    exact fun heq ↦ absurd (W.inj 2 0 (by omega) (by omega) heq) (by decide)
  have hunit : IsUnit (W.matrix c.k (toWord ∘ c.selectCells gfMultiply fromsids)) := by
    rw [hmatrix, hrows]
    refine isUnit_updateRow_one σ ?_
    show W.ofWord (toWord (generator c.k (c.k + 1) 1)) ≠ 0
    rwa [htwo]
  obtain ⟨hword, hone⟩ := hinv c.k _ hcells hunit
  refine ⟨hword _ (cell_lt (by omega) i.isLt), ?_⟩
  rw [hmatrix, hrows] at hone
  have hentry := mul_updateRow_one σ hone
  have hsymm : σ.symm ⟨1, hk⟩ = i := by rw [← hi, Equiv.symm_apply_apply]
  rw [hsymm] at hentry
  rw [← htwo]
  exact hentry

/-- The data that is one in block `b` and zero in the others. -/
def unitBlock (w b id : ℕ) : GF256 := if id / w = b then 1 else 0

theorem symbol_unitBlock {b wi : ℕ} (hb : b < c.k) (hwi : wi < c.w) (r : ℕ) :
    c.symbol (unitBlock c.w b) r wi = generator c.k r b := by
  rw [RSCode.symbol, Finset.sum_eq_single (⟨b, hb⟩ : Fin c.k)]
  · rw [unitBlock, subPacket_div hwi, if_pos rfl, mul_one]
  · intro l _ hl
    rw [unitBlock, subPacket_div hwi, if_neg (fun heq ↦ hl (Fin.ext heq)), mul_zero]
  · exact fun hmem ↦ absurd (Finset.mem_univ _) hmem

theorem eq_map_of_mapM {β : Type*} {f : ℕ → Option β} {g : ℕ → β} {p : ℕ → Prop} {ids : List ℕ} {vs : List β}
    (h : ids.mapM f = some vs) (hf : ∀ id ∈ ids, ∀ v, f id = some v → v = g id ∧ p id) :
    vs = ids.map g ∧ ∀ id ∈ ids, p id := by
  rw [mapM_eq_some_iff] at h
  induction h with
  | nil => exact ⟨rfl, fun id hid ↦ absurd hid List.not_mem_nil⟩
  | @cons id v ids vs hv h ih =>
    obtain ⟨hvs, hids⟩ := ih fun id hid ↦ hf id (List.mem_cons_of_mem _ hid)
    obtain ⟨rfl, hid⟩ := hf id List.mem_cons_self v hv
    exact ⟨by rw [hvs, List.map_cons], List.forall_mem_cons.mpr ⟨hid, hids⟩⟩

theorem multiplyInts_one (hmul : ∀ a b, gfMultiply a b = a * b) {y : ℕ} {x : GF256}
    (hx : multiplyInts gfMultiply 1 y = some x) : x = GF256.ofNat y ∧ y < 256 := by
  rw [multiplyInts] at hx
  by_cases hzero : y = 0
  · rw [if_pos (.inr hzero)] at hx
    rw [← Option.some.inj hx, hzero]
    exact ⟨rfl, by decide⟩
  · rw [if_neg (by simpa using hzero)] at hx
    by_cases hlt : y < 256
    · rw [if_pos ⟨by decide, hlt⟩, hmul] at hx
      exact ⟨(Option.some.inj hx).symm.trans (one_mul _), hlt⟩
    · rw [if_neg (fun hand ↦ hlt hand.2)] at hx
      exact absurd hx.symm (Option.some_ne_none x)

theorem matrixMultiplyInts_unit (hmul : ∀ a b, gfMultiply a b = a * b) {row V : ℕ → ℕ} {k r j : ℕ} (hr : r < k)
    (hj : j < k) (hrow : ∀ l < k, row l = if l = r then 1 else 0) {x : GF256}
    (hx : matrixMultiplyInts gfMultiply row V k k k j = some x) :
    x = GF256.ofNat (V (r * k + j)) ∧ V (r * k + j) < 256 := by
  -- a product with zero is zero whatever the other word is, so only the word at `r` has to be a byte
  have hfold : ∀ (ls : List ℕ) (s x : GF256), (∀ l ∈ ls, l < k) →
      ls.foldlM (fun s l ↦ (multiplyInts gfMultiply (row l) (V (l * k + j))).map (s + ·)) s = some x →
      x = s + (ls.map fun l ↦ if l = r then GF256.ofNat (V (r * k + j)) else 0).sum ∧
        (r ∈ ls → V (r * k + j) < 256) := by
    intro ls
    induction ls with
    | nil =>
      intro s x _ hx
      refine ⟨?_, fun hmem ↦ absurd hmem List.not_mem_nil⟩
      rw [List.map_nil, List.sum_nil, add_zero, Option.some.inj hx]
    | cons l ls ih =>
      intro s x hls hx
      rw [List.foldlM_cons, hrow l (hls l List.mem_cons_self)] at hx
      obtain ⟨s', hs', hx⟩ := Option.bind_eq_some_iff.mp hx
      obtain ⟨y, hy, rfl⟩ := Option.map_eq_some_iff.mp hs'
      obtain ⟨rfl, hlt⟩ := ih (s + y) x (fun l hl ↦ hls l (List.mem_cons_of_mem _ hl)) hx
      rw [List.map_cons, List.sum_cons, ← add_assoc]
      by_cases hlr : l = r
      · subst hlr
        rw [if_pos rfl] at hy
        obtain ⟨heq, hbyte⟩ := multiplyInts_one hmul hy
        exact ⟨by rw [if_pos rfl, heq], fun _ ↦ hbyte⟩
      · rw [if_neg hlr, multiplyInts, if_pos (.inl rfl)] at hy
        refine ⟨by rw [if_neg hlr, ← Option.some.inj hy], fun hmem ↦ hlt ?_⟩
        exact (List.mem_cons.mp hmem).resolve_left fun heq ↦ hlr heq.symm
  rw [matrixMultiplyInts, Nat.div_eq_of_lt hj, Nat.mod_eq_of_lt hj, zero_mul] at hx
  simp only [zero_add] at hx
  obtain ⟨rfl, hlt⟩ := hfold (List.range k) 0 x (fun l hl ↦ List.mem_range.mp hl) hx
  refine ⟨?_, hlt (List.mem_range.mpr hr)⟩
  rw [zero_add, sum_map_range, Finset.sum_eq_single (⟨r, hr⟩ : Fin k)]
  · rw [if_pos rfl]
  · exact fun l _ hl ↦ if_neg fun heq ↦ hl (Fin.ext heq)
  · exact fun hmem ↦ absurd (Finset.mem_univ _) hmem

theorem coefInts_one (hmul : ∀ a b, gfMultiply a b = a * b) (hk : 2 ≤ c.k) (hkn : c.k ≤ c.n) {width : ℕ}
    {co : List GF256} (hco : c.coefInts gfMultiply invert width fromsids 1 = some co) :
    co = (List.range c.k).map (fun j ↦
        GF256.ofNat (invert (toWord ∘ c.selectCells gfMultiply fromsids) c.k width (1 * c.k + j))) ∧
      ∀ j ∈ List.range c.k,
        invert (toWord ∘ c.selectCells gfMultiply fromsids) c.k width (1 * c.k + j) < 256 := by
  have hrow : ∀ l < c.k, toWord (c.encodeMatrix gfMultiply (1 * c.k + l)) = if l = 1 then 1 else 0 := by
    intro l hl
    rw [encodeMatrix_apply hmul (by omega) hl, generator, if_pos (by omega)]
    by_cases hl1 : l = 1
    · rw [if_pos hl1.symm, if_pos hl1]
      rfl
    · rw [if_neg (fun heq ↦ hl1 heq.symm), if_neg hl1]
      rfl
  exact eq_map_of_mapM hco fun j hj x hx ↦
    matrixMultiplyInts_unit hmul hk (List.mem_range.mp hj) hrow hx

/-- **On the data that is one in block 1**, the combination of the survivors is the coefficient of the parity
block times 2. -/
theorem Replaced.dot_unitBlock (h : Replaced c.k 1 (fun l ↦ fromsids.getD l 0) i)
    (hmul : ∀ a b, gfMultiply a b = a * b) (hk : 2 ≤ c.k) (hkn : c.k ≤ c.n) {width : ℕ} {co : List GF256}
    (hco : c.coefInts gfMultiply invert width fromsids 1 = some co) {wi : ℕ} (hwi : wi < c.w) :
    dot co ((List.range c.k).map fun l ↦ c.symbol (unitBlock c.w 1) (fromsids.getD l 0) wi) =
      GF256.ofNat (invert (toWord ∘ c.selectCells gfMultiply fromsids) c.k width (1 * c.k + i)) *
        GF256.ofNat 2 := by
  rw [(coefInts_one hmul hk hkn hco).1, dot, List.zipWith_map, List.zipWith_self, sum_map_range,
    Finset.sum_eq_single i]
  · rw [symbol_unitBlock hk hwi, h.parity, generator_one]
  · intro l _ hl
    obtain ⟨hlt, hne⟩ := h.data l hl
    rw [symbol_unitBlock hk hwi, generator, if_pos hlt, if_neg hne, mul_zero]
  · exact fun hmem ↦ absurd (Finset.mem_univ _) hmem

theorem Replaced.dot_ne_one {W : WordField c.k} (h : Replaced c.k 1 (fun l ↦ fromsids.getD l 0) i)
    (hmul : ∀ a b, gfMultiply a b = a * b) (hinv : W.InvertedBy invert) (hk : 2 ≤ c.k) (hk8 : c.k ≠ 8)
    (hkn : c.k ≤ c.n) (hlt : ∀ l : Fin c.k, fromsids.getD l 0 < c.n) {co : List GF256}
    (hco : c.coefInts gfMultiply invert c.k fromsids 1 = some co) {wi : ℕ} (hwi : wi < c.w) :
    dot co ((List.range c.k).map fun l ↦ c.symbol (unitBlock c.w 1) (fromsids.getD l 0) wi) ≠
      c.symbol (unitBlock c.w 1) 1 wi := by
  obtain ⟨hword, hone⟩ := h.mul_two hmul hinv hk hk8 hlt
  have hbyte := (coefInts_one hmul hk hkn hco).2 i (List.mem_range.mpr i.isLt)
  rw [h.dot_unitBlock hmul hk hkn hco hwi, symbol_unitBlock hk hwi, generator, if_pos (by omega), if_pos rfl]
  exact (word_inv_two hk8 hword hone).resolve_left (not_le.mpr hbyte)

end Coefficients

/-! ## Decoding inverts encoding -/

section Decodes

variable {gfMultiply : GF256 → GF256 → GF256} {invert : (ℕ → ℕ) → ℕ → ℕ → ℕ → ℕ} {c : RSCode}

/-- Encoding and decoding succeed, encoding has a value for every sub-packet, and decoding rebuilds the lost
ones wherever the leaves hold what survives of a stripe that was encoded. -/
def Loss.Decodes (L : Loss c) (encode decode : Option ECDAG) : Prop :=
  ∃ enc dec, encode = some enc ∧ decode = some dec ∧
    ∀ data : ℕ → GF256, (∀ id < c.n * c.w, ∃ v, Evaluates enc.shape data id v) ∧
      ∀ stripe env : ℕ → GF256, (∀ id < c.n * c.w, Evaluates enc.shape data id (stripe id)) →
        L.Agrees stripe env → ∀ r ∈ L.lost, ∀ wi < c.w,
          Evaluates dec.shape env (r * c.w + wi) (stripe (r * c.w + wi))

/-- Encoding has the values of the stripe. -/
def Encodes (c : RSCode) (encode : Option ECDAG) : Prop :=
  ∃ enc, encode = some enc ∧ ∀ data : ℕ → GF256, ∀ r < c.n, ∀ wi < c.w,
    Evaluates enc.shape data (r * c.w + wi) (c.symbol data r wi)

theorem Loss.decodes_iff (L : Loss c) {encode decode : Option ECDAG} (hencode : Encodes c encode) :
    L.Decodes encode decode ↔ ∃ dec, decode = some dec ∧ L.Rebuilds dec := by
  obtain ⟨enc, rfl, hsymbol⟩ := hencode
  constructor
  · rintro ⟨enc', dec, henc, hdec, hdecodes⟩
    obtain rfl := Option.some.inj henc
    refine ⟨dec, hdec, fun data stripe env hstripe ↦ (hdecodes data).2 stripe env fun id hid ↦ ?_⟩
    have hw : 0 < c.w := Nat.pos_of_ne_zero fun hw ↦ by simp [hw] at hid
    have hr : id / c.w < c.n := Nat.div_lt_of_lt_mul (by rwa [mul_comm])
    have hval := hsymbol data _ hr _ (Nat.mod_lt id hw)
    rw [← hstripe _ hr _ (Nat.mod_lt id hw), mul_comm, Nat.div_add_mod] at hval
    exact hval
  · rintro ⟨dec, hdec, hrebuilds⟩
    refine ⟨enc, dec, rfl, hdec, fun data ↦ ⟨fun id hid ↦ ?_, fun stripe env hstripe ↦ ?_⟩⟩
    · have hw : 0 < c.w := Nat.pos_of_ne_zero fun hw ↦ by simp [hw] at hid
      have hval := hsymbol data _ (Nat.div_lt_of_lt_mul (by rwa [mul_comm])) _ (Nat.mod_lt id hw)
      rw [mul_comm, Nat.div_add_mod] at hval
      exact ⟨_, hval⟩
    · refine hrebuilds data stripe env fun r hr wi hwi ↦ ?_
      exact (hstripe _ (subPacket_lt hr hwi)).unique (hsymbol data r hr wi hwi)

theorem Loss.combine_of_agrees (L : Loss c) (co : ℕ → List GF256) {data stripe env : ℕ → GF256}
    (hstripe : IsStripe c data stripe) (hagrees : L.Agrees stripe env) (r : ℕ) {wi : ℕ} (hwi : wi < c.w) :
    L.combine co env r wi =
      dot (co r) ((List.range c.k).map fun j ↦ c.symbol data (L.survivors.getD j 0) wi) := by
  refine congrArg (dot (co r)) (List.map_congr_left fun j hj ↦ ?_)
  have hmem := L.survivor_mem (List.mem_range.mp hj)
  exact (hagrees _ hmem wi hwi).trans (hstripe _ (L.survivors_lt _ hmem) wi hwi)

/-- Graphs that combine the survivors rebuild what the combinations are. -/
theorem Loss.Combines.rebuilds {L : Loss c} {co : ℕ → List GF256} {dec : ECDAG} (h : L.Combines co dec)
    (hdot : ∀ data : ℕ → GF256, ∀ r ∈ L.lost, ∀ wi < c.w,
      dot (co r) ((List.range c.k).map fun j ↦ c.symbol data (L.survivors.getD j 0) wi) = c.symbol data r wi) :
    L.Rebuilds dec := by
  intro data stripe env hstripe hagrees r hr wi hwi
  have hval := h env r hr wi hwi
  rwa [L.combine_of_agrees co hstripe hagrees r hwi, hdot data r hr wi hwi,
    ← hstripe r (L.lost_lt r hr) wi hwi] at hval

theorem Loss.Combines.not_rebuilds {L : Loss c} {co : ℕ → List GF256} {dec : ECDAG} (h : L.Combines co dec)
    {data : ℕ → GF256} {r wi : ℕ} (hr : r ∈ L.lost) (hwi : wi < c.w)
    (hdot : dot (co r) ((List.range c.k).map fun j ↦ c.symbol data (L.survivors.getD j 0) wi) ≠
      c.symbol data r wi) : ¬L.Rebuilds dec := by
  intro hrebuilds
  obtain ⟨stripe, hstripe⟩ := exists_isStripe c data
  have hagrees := L.agrees_self stripe
  have hval := (h stripe r hr wi hwi).unique (hrebuilds data stripe stripe hstripe hagrees r hr wi hwi)
  refine hdot ?_
  rw [← L.combine_of_agrees co hstripe hagrees r hwi, hval, hstripe r (L.lost_lt r hr) wi hwi]

/-- A set of lost blocks, and survivors whose first `k` rows can be inverted. -/
structure Loss.Admissible (gfMultiply : GF256 → GF256 → GF256) (L : Loss c) : Prop where
  ne_nil : L.lost ≠ []
  nodup : L.lost.Nodup
  isUnit : IsUnit (selectMatrix (c.encodeMatrix gfMultiply) fun i : Fin c.k ↦ L.survivors.getD i 0)

/-- Decoding combines the survivors with the coefficients, when there are such. -/
structure Loss.CombinedBy (gfMultiply : GF256 → GF256 → GF256) (invert : (ℕ → ℕ) → ℕ → ℕ → ℕ → ℕ)
    (L : Loss c) (decode : Option ECDAG) : Prop where
  combines : ∀ co : ℕ → List GF256,
    (∀ r ∈ L.lost, c.coefInts gfMultiply invert c.k L.survivors r = some (co r)) →
    ∃ dec, decode = some dec ∧ L.Combines co dec
  isSome : ∀ dec, decode = some dec → ∀ r ∈ L.lost, (c.coefInts gfMultiply invert c.k L.survivors r).isSome

section CombinedBy

variable {L : Loss c} {decode : Option ECDAG} (h : L.CombinedBy gfMultiply invert decode)
variable (hmul : ∀ a b, gfMultiply a b = a * b)
include h

/-- Where the coefficients of a lost block are wrong on some data, it does not rebuild. -/
theorem Loss.CombinedBy.not_rebuilds_of_dot {data : ℕ → GF256} {r wi : ℕ} (hr : r ∈ L.lost) (hwi : wi < c.w)
    (hdot : ∀ co, c.coefInts gfMultiply invert c.k L.survivors r = some co →
      dot co ((List.range c.k).map fun l ↦ c.symbol data (L.survivors.getD l 0) wi) ≠ c.symbol data r wi) :
    ¬∃ dec, decode = some dec ∧ L.Rebuilds dec := by
  rintro ⟨dec, hdec, hrebuilds⟩
  have hsome := h.isSome dec hdec
  obtain ⟨dec', hdec', hcombines⟩ :=
    h.combines (fun r ↦ (c.coefInts gfMultiply invert c.k L.survivors r).getD []) fun r hr ↦ by
      obtain ⟨co, hco⟩ := Option.isSome_iff_exists.mp (hsome r hr)
      rw [hco]
      rfl
  obtain rfl := Option.some.inj (hdec.symm.trans hdec')
  obtain ⟨co, hco⟩ := Option.isSome_iff_exists.mp (hsome r hr)
  have hne : dot ((c.coefInts gfMultiply invert c.k L.survivors r).getD [])
      ((List.range c.k).map fun l ↦ c.symbol data (L.survivors.getD l 0) wi) ≠ c.symbol data r wi := by
    rw [hco]
    exact hdot co hco
  exact hcombines.not_rebuilds hr hwi hne hrebuilds

include hmul

theorem Loss.CombinedBy.rebuilds (hinv : InvertsBytes invert c.k c.k (c.selectCells gfMultiply L.survivors)) :
    ∃ dec, decode = some dec ∧ L.Rebuilds dec := by
  obtain ⟨dec, hdec, hcombines⟩ := h.combines _ fun r _ ↦ coefInts_eq_some hinv r
  refine ⟨dec, hdec, hcombines.rebuilds fun data r hr wi _ ↦ ?_⟩
  exact dot_coefInts hmul hinv (fun j ↦ L.survivors_lt _ (L.survivor_mem j.isLt)) (L.lost_lt r hr) data wi

/-- Over words of another width than bytes, it does not rebuild block 1 from the other data blocks and the
second parity block. -/
theorem Loss.CombinedBy.not_rebuilds {W : WordField c.k} (hinv : W.InvertedBy invert) (hk : 2 ≤ c.k)
    (hk8 : c.k ≠ 8) (hkn : c.k ≤ c.n) (hw : 0 < c.w) {i : Fin c.k}
    (hreplaced : Replaced c.k 1 (fun l ↦ L.survivors.getD l 0) i) (hlost : 1 ∈ L.lost) :
    ¬∃ dec, decode = some dec ∧ L.Rebuilds dec :=
  h.not_rebuilds_of_dot hlost hw fun _ hco ↦
    hreplaced.dot_ne_one hmul hinv hk hk8 hkn (fun l ↦ L.survivors_lt _ (L.survivor_mem l.isLt)) hco hw

end CombinedBy

theorem Loss.Admissible.isUnit_byteMatrix {L : Loss c} (h : L.Admissible gfMultiply) :
    IsUnit (byteMatrix c.k (c.selectCells gfMultiply L.survivors)) := by
  have hselect := @selectMatrix_selectCells gfMultiply c L.survivors
  have hunit := h.isUnit
  rw [← hselect] at hunit
  exact hunit

theorem RSBINDX.combinedBy (L : Loss c) (hk : 2 ≤ c.k) (hw : c.w = 1) :
    L.CombinedBy gfMultiply invert (RSBINDX.decode gfMultiply invert c L.survivors L.lost) where
  combines _ hco := RSBINDX.decode_combines L hk hw hco
  isSome dec hdec := by
    rw [RSBINDX.decode, if_neg (not_lt.mpr L.enough)] at hdec
    generalize ({} : ECDAG) = dag at hdec
    generalize L.lost = lost at hdec ⊢
    induction lost generalizing dag with
    | nil => exact fun r hr ↦ absurd hr List.not_mem_nil
    | cons r rs ih =>
      rw [List.foldlM_cons] at hdec
      obtain ⟨dag', hdag', hdec⟩ := Option.bind_eq_some_iff.mp hdec
      obtain ⟨co, hco, -⟩ := Option.map_eq_some_iff.mp hdag'
      exact List.forall_mem_cons.mpr ⟨hco ▸ rfl, ih dag' hdec⟩

theorem RSAS.combinedBy (L : Loss c) (hk : 2 ≤ c.k) (hw : c.w = c.k) (hbound : c.n * c.w ≤ bindStart)
    (hne : L.lost ≠ []) (hnodup : L.lost.Nodup) :
    L.CombinedBy gfMultiply invert
      (RSAS.decode gfMultiply invert c (subPackets c.w L.survivors) (subPackets c.w L.lost)) where
  combines _ hco := RSAS.decode_combines L hk hw hbound hne hnodup hco
  isSome dec hdec := by
    have hw1 : 1 ≤ c.w := by omega
    simp only [RSAS.decode, blockIds_subPackets hw1, if_neg (not_lt.mpr L.enough), Option.bind_eq_bind] at hdec
    obtain ⟨coefs, hcoefs, -⟩ := Option.bind_eq_some_iff.mp hdec
    exact (eq_map_of_mapM (g := fun r ↦ (c.coefInts gfMultiply invert c.k L.survivors r).getD []) hcoefs
      fun r _ v hv ↦ ⟨by rw [hv]; rfl, by rw [hv]; rfl⟩).2

/-- Block 1 is lost, and rebuilt from the other data blocks and parity block `k + q`. -/
def replacedLoss (c : RSCode) (q : ℕ) (hk : 2 ≤ c.k) (hq : c.k + q < c.n) : Loss c where
  survivors := (List.range c.k).map fun i ↦ if i = 1 then c.k + q else i
  lost := [1]
  enough := by rw [List.length_map, List.length_range]
  survivors_lt s hs := by
    obtain ⟨i, hi, rfl⟩ := List.mem_map.mp hs
    have := List.mem_range.mp hi
    split <;> omega
  lost_lt r hr := by
    rw [List.mem_singleton.mp hr]
    omega
  disjoint r hr hmem := by
    obtain ⟨i, -, hi⟩ := List.mem_map.mp hmem
    rw [List.mem_singleton.mp hr] at hi
    split at hi <;> omega

section ReplacedLoss

variable {q : ℕ} (hk : 2 ≤ c.k) (hq : c.k + q < c.n)

theorem replaced_replacedLoss :
    Replaced c.k q (fun l ↦ (replacedLoss c q hk hq).survivors.getD l 0) ⟨1, hk⟩ := by
  have hget : ∀ l : Fin c.k,
      (replacedLoss c q hk hq).survivors.getD l 0 = if (l : ℕ) = 1 then c.k + q else l := by
    intro l
    rw [replacedLoss, List.getD_eq_getElem _ _ (by rw [List.length_map, List.length_range]; exact l.isLt)]
    simp
  refine ⟨?_, fun l hl ↦ ?_, fun l l' hll ↦ ?_⟩
  · rw [hget, if_pos rfl]
  · have hl1 : (l : ℕ) ≠ 1 := fun heq ↦ hl (Fin.ext heq)
    rw [hget, if_neg hl1]
    exact ⟨l.isLt, hl1⟩
  · rw [hget, hget] at hll
    refine Fin.ext ?_
    split at hll <;> split at hll <;> omega

theorem admissible_replacedLoss (hmul : ∀ a b, gfMultiply a b = a * b) (hne : GF256.ofNat (q + 1) ≠ 0) :
    (replacedLoss c q hk hq).Admissible gfMultiply where
  ne_nil := List.cons_ne_nil 1 []
  nodup := List.nodup_singleton 1
  isUnit := (replaced_replacedLoss hk hq).isUnit hmul hk
    (fun l ↦ (replacedLoss c q hk hq).survivors_lt _ ((replacedLoss c q hk hq).survivor_mem l.isLt)) hne

end ReplacedLoss

/-- With a single parity block the selected rows hold zeros and ones only. -/
theorem selectCells_bits (hmul : ∀ a b, gfMultiply a b = a * b) (hm : c.n = c.k + 1) {fromsids : List ℕ}
    (hlt : ∀ l : Fin c.k, fromsids.getD l 0 < c.n) {p : ℕ} (hp : p < c.k * c.k) :
    c.selectCells gfMultiply fromsids p = 0 ∨ c.selectCells gfMultiply fromsids p = 1 := by
  have hk : 0 < c.k := Nat.pos_of_ne_zero fun hk ↦ by simp [hk] at hp
  have hdiv : p / c.k < c.k := Nat.div_lt_of_lt_mul hp
  have hp' : p = p / c.k * c.k + p % c.k := by rw [mul_comm, Nat.div_add_mod]
  have hrow := hlt ⟨p / c.k, hdiv⟩
  rw [hp', selectCells_apply hmul hlt ⟨p / c.k, hdiv⟩ ⟨p % c.k, Nat.mod_lt p hk⟩, generator]
  dsimp only at hrow ⊢
  split
  · split
    · exact .inr rfl
    · exact .inl rfl
  · right
    rw [show fromsids.getD (p / c.k) 0 - c.k = 0 by omega]
    exact one_pow _

/-! `RSBINDX_N_MAX` and `RSAS_N_MAX` are 32. -/

theorem RSBINDX.encodes (hmul : ∀ a b, gfMultiply a b = a * b) (hk : 2 ≤ c.k) (hkn : c.k < c.n)
    (hn : c.n ≤ 32) (hw : c.w = 1) : Encodes c (RSBINDX.encode gfMultiply c) := by
  obtain ⟨enc, henc, hsymbol⟩ := encodeBlocks_evaluates hmul hk hkn hw (hn.trans_lt (by decide))
  refine ⟨enc, henc, fun data r hr wi hwi ↦ ?_⟩
  obtain rfl : wi = 0 := by omega
  have hid : r * c.w + 0 = r := by rw [hw, mul_one, add_zero]
  rw [hid]
  exact hsymbol data r hr

section Widths

variable {W : WordField c.k}

/-- **`RSBINDX` decodes every loss** with eight data blocks or one parity block, and in no other case. -/
theorem RSBINDX.decodes_iff (hmul : ∀ a b, gfMultiply a b = a * b) (hbytes : c.k = 8 → W.MulBytes)
    (hinv : W.InvertedBy invert) (hk : 2 ≤ c.k) (hkn : c.k < c.n) (hn : c.n ≤ 32) (hw : c.w = 1) :
    (∀ L : Loss c, L.Admissible gfMultiply →
      L.Decodes (RSBINDX.encode gfMultiply c) (RSBINDX.decode gfMultiply invert c L.survivors L.lost)) ↔
      c.k = 8 ∨ c.n = c.k + 1 := by
  have hencode := encodes hmul hk hkn hn hw
  constructor
  · intro hdecodes
    by_contra hcond
    rw [not_or] at hcond
    have hq : c.k + 1 < c.n := by omega
    refine (combinedBy (replacedLoss c 1 hk hq) hk hw).not_rebuilds hmul hinv hk hcond.1 hkn.le (by omega)
      (replaced_replacedLoss hk hq) (List.mem_singleton_self 1) ?_
    rw [← Loss.decodes_iff _ hencode]
    exact hdecodes _ (admissible_replacedLoss hk hq hmul (by decide))
  · intro hcond L hL
    rw [Loss.decodes_iff _ hencode]
    refine (combinedBy L hk hw).rebuilds hmul ?_
    rcases hcond with hk8 | hm
    · exact hinv.invertsBytes hk8 (hbytes hk8) hL.isUnit_byteMatrix
    · refine hinv.invertsBytes_of_bits (by omega) (fun p hp ↦ ?_) hL.isUnit_byteMatrix
      exact selectCells_bits hmul hm (fun l ↦ L.survivors_lt _ (L.survivor_mem l.isLt)) hp

/-- **`RSAS` decodes every loss** with eight data blocks and two parity blocks or more, and in no other case:
with a single parity block it does not encode. -/
theorem RSAS.decodes_iff (hmul : ∀ a b, gfMultiply a b = a * b) (hbytes : c.k = 8 → W.MulBytes)
    (hinv : W.InvertedBy invert) (hk : 2 ≤ c.k) (hkn : c.k < c.n) (hn : c.n ≤ 32) (hw : c.w = c.k) :
    (∀ L : Loss c, L.Admissible gfMultiply →
      L.Decodes (RSAS.encode gfMultiply c)
        (RSAS.decode gfMultiply invert c (subPackets c.w L.survivors) (subPackets c.w L.lost))) ↔
      c.k = 8 ∧ c.k + 2 ≤ c.n := by
  have hbound : c.n * c.w ≤ bindStart := by
    have hle : c.n * c.w ≤ 32 * 32 := Nat.mul_le_mul hn (by omega)
    exact hle.trans (by decide)
  by_cases hm : c.k + 2 ≤ c.n
  · have hencode : Encodes c (RSAS.encode gfMultiply c) := encode_evaluates hmul hk hw hm hbound
    constructor
    · intro hdecodes
      refine ⟨?_, hm⟩
      by_contra hk8
      have hq : c.k + 1 < c.n := by omega
      have hL := admissible_replacedLoss hk hq hmul (by decide)
      refine (combinedBy (replacedLoss c 1 hk hq) hk hw hbound hL.ne_nil hL.nodup).not_rebuilds hmul hinv hk hk8
        hkn.le (by omega) (replaced_replacedLoss hk hq) (List.mem_singleton_self 1) ?_
      rw [← Loss.decodes_iff _ hencode]
      exact hdecodes _ hL
    · rintro ⟨hk8, -⟩ L hL
      rw [Loss.decodes_iff _ hencode]
      exact (combinedBy L hk hw hbound hL.ne_nil hL.nodup).rebuilds hmul
        (hinv.invertsBytes hk8 (hbytes hk8) hL.isUnit_byteMatrix)
  · have hone : c.n = c.k + 1 := by omega
    refine iff_of_false (fun hdecodes ↦ ?_) fun hcond ↦ hm hcond.2
    have hq : c.k + 0 < c.n := by omega
    obtain ⟨enc, -, henc, -⟩ := hdecodes _ (admissible_replacedLoss hk hq hmul (by decide))
    rw [encode_eq_none hk hw hone] at henc
    exact Option.some_ne_none enc henc.symm

/-- **The codes that hand over the number of data blocks as the width** decode every loss exactly when that
is the width of bytes or does not matter. -/
theorem everyLossDecodes_iff (hmul : ∀ a b, gfMultiply a b = a * b) (hbytes : c.k = 8 → W.MulBytes)
    (hinv : W.InvertedBy invert) (hk : 2 ≤ c.k) (hkn : c.k < c.n) (hn : c.n ≤ 32) :
    (c.w = 1 → ((∀ L : Loss c, L.Admissible gfMultiply →
      L.Decodes (RSBINDX.encode gfMultiply c) (RSBINDX.decode gfMultiply invert c L.survivors L.lost)) ↔
      c.k = 8 ∨ c.n = c.k + 1)) ∧
    (c.w = c.k → ((∀ L : Loss c, L.Admissible gfMultiply → L.Decodes (RSAS.encode gfMultiply c)
      (RSAS.decode gfMultiply invert c (subPackets c.w L.survivors) (subPackets c.w L.lost))) ↔
      c.k = 8 ∧ c.k + 2 ≤ c.n)) :=
  ⟨RSBINDX.decodes_iff hmul hbytes hinv hk hkn hn, RSAS.decodes_iff hmul hbytes hinv hk hkn hn⟩

end Widths

/-! ### Two codes -/

def tenEight (w : ℕ) : RSCode := ⟨10, 8, w, 0⟩

/-- The first and the last block are lost. -/
def tenEightLoss (w : ℕ) : Loss (tenEight w) where
  survivors := [1, 2, 3, 4, 5, 6, 7, 8]
  lost := [0, 9]
  enough := by show 8 ≤ 8; exact le_rfl
  survivors_lt := by show ∀ s ∈ [1, 2, 3, 4, 5, 6, 7, 8], s < 10; decide
  lost_lt := by show ∀ r ∈ [0, 9], r < 10; decide
  disjoint := by decide

theorem admissible_tenEightLoss (w : ℕ) : (tenEightLoss w).Admissible (· * ·) where
  ne_nil := List.cons_ne_nil 0 [9]
  nodup := by show [0, 9].Nodup; decide
  isUnit := (tenEightLoss w).isUnit (fun _ _ ↦ rfl) (by show [1, 2, 3, 4, 5, 6, 7, 8].Nodup; decide)
    (by show 10 ≤ 128; decide) (.inr (by show 10 - 8 ≤ 2; decide))

/-- The inverse of a matrix of bytes, as words. -/
noncomputable def inverseWords (mat : ℕ → ℕ) (k _w p : ℕ) : ℕ := toWord (inverseCells (GF256.ofNat ∘ mat) k p)

theorem invertedBy_inverseWords : bytes.InvertedBy inverseWords := by
  intro k cells _ hunit
  refine ⟨fun p _ ↦ toWord_lt _, ?_⟩
  have hmatrix : bytes.matrix k (inverseWords cells k 8) =
      selectMatrix (k := k) (inverseCells (GF256.ofNat ∘ cells) k) (·) := by
    refine Matrix.ext fun i j ↦ ?_
    exact ofNat_toWord _
  rw [hmatrix]
  exact inverts_inverseCells k (GF256.ofNat ∘ cells) hunit

theorem mulBytes_bytes : bytes.MulBytes := by
  intro a b
  show GF256.ofNat (toWord (a * b)) = GF256.ofNat (toWord a) * GF256.ofNat (toWord b)
  rw [ofNat_toWord, ofNat_toWord, ofNat_toWord]

theorem everyLossDecodes_tenEight :
    (tenEightLoss 1).Decodes (RSBINDX.encode (· * ·) (tenEight 1))
      (RSBINDX.decode (· * ·) inverseWords (tenEight 1) [1, 2, 3, 4, 5, 6, 7, 8] [0, 9]) ∧
    (tenEightLoss 8).Decodes (RSAS.encode (· * ·) (tenEight 8))
      (RSAS.decode (· * ·) inverseWords (tenEight 8) (subPackets 8 [1, 2, 3, 4, 5, 6, 7, 8])
        (subPackets 8 [0, 9])) :=
  ⟨((everyLossDecodes_iff (c := tenEight 1) (W := bytes) (fun _ _ ↦ rfl) (fun _ ↦ mulBytes_bytes)
      invertedBy_inverseWords (by decide) (by decide) (by decide)).1 rfl).mpr (.inl rfl) _
      (admissible_tenEightLoss 1),
    ((everyLossDecodes_iff (c := tenEight 8) (W := bytes) (fun _ _ ↦ rfl) (fun _ ↦ mulBytes_bytes)
      invertedBy_inverseWords (by decide) (by decide) (by decide)).2 rfl).mpr ⟨rfl, by decide⟩ _
      (admissible_tenEightLoss 8)⟩

def fourTwo : RSCode := ⟨4, 2, 1, 0⟩

/-- The byte for each of the four words of two bits. -/
def fourWord (a : ℕ) : GF256 :=
  if a = 0 then 0 else if a = 1 then 1 else if a = 2 then GF256.ofNat 0xd6 else GF256.ofNat 0xd7

/-- The field of these words, in the field of bytes. -/
def fourWords : WordField 2 where
  F := GF256
  ofWord := fourWord
  zero := rfl
  one := rfl
  xor a b ha hb := by
    have hxor : ∀ a < 4, ∀ b < 4, fourWord (a ^^^ b) = fourWord a + fourWord b := by decide
    exact hxor a ha b hb
  double a ha := by
    have hdouble : ∀ a < 2, fourWord (2 * a) = fourWord 2 * fourWord a := by decide +kernel
    exact hdouble a (by omega)
  inj a b ha hb := by
    have hinj : ∀ a < 4, ∀ b < 4, fourWord a = fourWord b → a = b := by decide
    exact hinj a ha b hb

/-- The inverse of the rows of blocks 0 and 3 over words of two bits. -/
def inverseFourTwo (p : ℕ) : ℕ := [1, 0, 3, 3].getD p 0

/-- Block 1 is lost, and blocks 0 and 3 survive. The rows can be inverted, and are inverted over words of two
bits, but block 1 is not rebuilt. -/
theorem not_decodes_fourTwo :
    fourWords.matrix 2 inverseFourTwo *
        fourWords.matrix 2 (toWord ∘ fourTwo.selectCells (· * ·) [0, 3]) = 1 ∧
      (replacedLoss fourTwo 1 (by decide) (by decide)).Admissible (· * ·) ∧
      ¬(replacedLoss fourTwo 1 (by decide) (by decide)).Decodes (RSBINDX.encode (· * ·) fourTwo)
        (RSBINDX.decode (· * ·) (fun _ _ _ ↦ inverseFourTwo) fourTwo [0, 3] [1]) := by
  have hmul : ∀ a b : GF256, a * b = a * b := fun _ _ ↦ rfl
  have hk : 2 ≤ fourTwo.k := by decide
  have hq : fourTwo.k + 1 < fourTwo.n := by decide
  refine ⟨?_, admissible_replacedLoss hk hq hmul (by decide), fun hdecodes ↦ ?_⟩
  · have hcells : ∀ i < 2, ∀ j < 2,
        fourWord (inverseFourTwo (i * 2 + 0)) * fourWord (toWord (fourTwo.selectCells (· * ·) [0, 3] (0 * 2 + j))) +
          fourWord (inverseFourTwo (i * 2 + 1)) *
            fourWord (toWord (fourTwo.selectCells (· * ·) [0, 3] (1 * 2 + j))) =
        if i = j then 1 else 0 := by decide +kernel
    refine Matrix.ext fun i j ↦ ?_
    rw [Matrix.mul_apply, Fin.sum_univ_two, Matrix.one_apply]
    simp only [Fin.ext_iff]
    exact hcells i i.isLt j j.isLt
  · rw [Loss.decodes_iff _ (RSBINDX.encodes hmul hk (by decide) (by decide) rfl)] at hdecodes
    have hcombined : (replacedLoss fourTwo 1 hk hq).CombinedBy (· * ·) (fun _ _ _ ↦ inverseFourTwo) _ :=
      RSBINDX.combinedBy _ hk rfl
    have hwrong : ∀ co, fourTwo.coefInts (· * ·) (fun _ _ _ ↦ inverseFourTwo) 2 [0, 3] 1 = some co →
        dot co ((List.range 2).map fun l ↦ fourTwo.symbol (unitBlock fourTwo.w 1) ([0, 3].getD l 0) 0) ≠
          fourTwo.symbol (unitBlock fourTwo.w 1) 1 0 := by
      intro co hco
      have hdot := (replaced_replacedLoss hk hq).dot_unitBlock hmul hk (by decide) hco Nat.one_pos
      have hsymbol : fourTwo.symbol (unitBlock fourTwo.w 1) 1 0 = generator 2 1 1 :=
        symbol_unitBlock hk Nat.one_pos 1
      have hne : GF256.ofNat 3 * GF256.ofNat 2 ≠ generator 2 1 1 := by decide
      exact fun heq ↦ hne (hdot.symm.trans (heq.trans hsymbol))
    exact hcombined.not_rebuilds_of_dot (List.mem_singleton_self 1) Nat.one_pos hwrong hdecodes

end Decodes

end UniDedup.Storage
