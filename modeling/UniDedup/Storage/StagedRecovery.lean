import UniDedup.Storage.StagedLosses

/-!
# The losses that are recovered in stages

`RSRPCONV` recovers every loss of two blocks or more, `RSSMARTLZ` does when the helpers fill two racks or
more, and `RSASP` does when, besides, there are eight data blocks. No code recovers every loss otherwise:
`BindX` of one lost block binds nothing, what is in no whole rack is left out or read past the end, one rack
has nothing to add up, and over words of another width the coefficients are wrong.

## The proof

For losses of two blocks or more the graphs are grown stage by stage (`Growing`), which shows that every lost
sub-packet gets its value and that each helper is read. In the other direction it is enough that something is
missing: a lost sub-packet that is not joined is not in the graph (`Misses`), and then no header computes it.
-/

namespace UniDedup.Storage

open ECDAG Fold WordField

section Recovery

variable {gfMultiply : GF256 → GF256 → GF256} {invert : (ℕ → ℕ) → ℕ → ℕ → ℕ → ℕ}
variable {c : RSCode} {L : Loss c} {l : ℕ} {data : List ℕ}

/-! ## Two losses -/

/-- The first parity blocks are lost, and the data blocks survive. -/
def parityLoss (c : RSCode) (l : ℕ) (hkn : c.k < c.n) (hl : l ≤ c.n - c.k) : Loss c where
  survivors := List.range c.k
  lost := (List.range l).map (c.k + ·)
  enough := (List.length_range).ge
  survivors_lt s hs := (List.mem_range.mp hs).trans hkn
  lost_lt r hr := by
    obtain ⟨i, hi, rfl⟩ := List.mem_map.mp hr
    have := List.mem_range.mp hi
    omega
  disjoint r hr hmem := by
    obtain ⟨i, -, rfl⟩ := List.mem_map.mp hr
    exact absurd (List.mem_range.mp hmem) (by omega)

/-- Block 1 and all parity blocks but the second are lost, as far as there are `l` of them. -/
def secondLoss (c : RSCode) (l : ℕ) (hk : 2 ≤ c.k) (hl : l ≤ c.n - c.k) (htwo : 2 ≤ l) : Loss c where
  survivors := (List.range c.k).map fun i ↦ if i = 1 then c.k + 1 else i
  lost := (List.range l).map fun i ↦ if i = 0 then 1 else if i = 1 then c.k else c.k + i
  enough := by rw [List.length_map, List.length_range]
  survivors_lt s hs := by
    obtain ⟨i, hi, rfl⟩ := List.mem_map.mp hs
    have := List.mem_range.mp hi
    split <;> omega
  lost_lt r hr := by
    obtain ⟨i, hi, rfl⟩ := List.mem_map.mp hr
    have := List.mem_range.mp hi
    split
    · omega
    · split <;> omega
  disjoint r hr hmem := by
    obtain ⟨i, hi, rfl⟩ := List.mem_map.mp hr
    obtain ⟨j, hj, heq⟩ := List.mem_map.mp hmem
    have := List.mem_range.mp hi
    have := List.mem_range.mp hj
    split at heq <;> split at heq <;> try split at heq
    all_goals omega

section Losses

variable (hkn : c.k < c.n) (hl : l ≤ c.n - c.k)

theorem nodup_parityLoss : (parityLoss c l hkn hl).lost.Nodup :=
  List.nodup_range.map (add_right_injective c.k)

theorem nodup_secondLoss (hk : 2 ≤ c.k) (htwo : 2 ≤ l) :
    (secondLoss c l hk hl htwo).lost.Nodup ∧ (secondLoss c l hk hl htwo).survivors.Nodup := by
  constructor
  · refine List.nodup_range.map_on fun i _ j _ hij ↦ ?_
    split at hij <;> split at hij <;> (try split at hij) <;> (try split at hij) <;> omega
  · refine List.nodup_range.map_on fun i hi j hj hij ↦ ?_
    have := List.mem_range.mp hi
    have := List.mem_range.mp hj
    split at hij <;> split at hij <;> omega

theorem isUnit_of_lt (hmul : ∀ a b, gfMultiply a b = a * b) (hkn : c.k ≤ c.n) (hlen : data.length = c.k)
    (hnodup : data.Nodup) (hlt : ∀ s ∈ data, s < c.k) :
    IsUnit (selectMatrix (c.encodeMatrix gfMultiply) fun i : Fin c.k ↦ data.getD i 0) := by
  have hmem : ∀ i : Fin c.k, data.getD i 0 ∈ data := by
    intro i
    rw [List.getD_eq_getElem _ _ (i.isLt.trans_eq hlen.symm)]
    exact List.getElem_mem _
  let place : Fin c.k → Fin c.k := fun i ↦ ⟨data.getD i 0, hlt _ (hmem i)⟩
  have hinj : Function.Injective place := by
    intro i j hij
    have hij := congrArg Fin.val hij
    simp only [place] at hij
    rw [List.getD_eq_getElem _ _ (i.isLt.trans_eq hlen.symm), List.getD_eq_getElem _ _ (j.isLt.trans_eq hlen.symm)] at hij
    exact Fin.ext (hnodup.getElem_inj_iff.mp hij)
  let σ := Equiv.ofBijective place (Finite.injective_iff_bijective.mp hinj)
  have hrows : generatorRows (fun i : Fin c.k ↦ data.getD i 0) =
      (1 : Matrix (Fin c.k) (Fin c.k) GF256).submatrix σ (Equiv.refl _) := by
    refine Matrix.ext fun i j ↦ ?_
    rw [generatorRows, Matrix.of_apply, Matrix.submatrix_apply, Matrix.one_apply, generator,
      if_pos (hlt _ (hmem i))]
    exact if_congr (Fin.ext_iff (a := place i)).symm rfl rfl
  rw [RSCode.encodeMatrix, selectMatrix_generateMatrix hmul c.matrix fun i ↦ (hlt _ (hmem i)).trans_le hkn, hrows,
    Matrix.isUnit_submatrix_equiv]
  exact isUnit_one

theorem given_parityLoss (hmul : ∀ a b, gfMultiply a b = a * b) {helpers : Option (List ℕ)}
    (hhelpers : ∀ data, helpers = some data → data.length = c.k ∧ data.Nodup ∧ data ⊆ List.range c.k) :
    (parityLoss c l hkn hl).Given gfMultiply helpers l where
  survivors := List.nodup_range
  lost := nodup_parityLoss hkn hl
  length := by rw [parityLoss, List.length_map, List.length_range]
  isUnit data hdata := by
    obtain ⟨hlen, hnodup, hsub⟩ := hhelpers data hdata
    exact isUnit_of_lt hmul hkn.le hlen hnodup fun s hs ↦ List.mem_range.mp (hsub hs)

theorem mem_parityLoss (hpos : 1 ≤ l) : c.k ∈ (parityLoss c l hkn hl).lost :=
  List.mem_map.mpr ⟨0, List.mem_range.mpr hpos, rfl⟩

/-- Helpers that are all survivors of the second loss have its second parity block in the place of block 1. -/
theorem replaced_secondLoss (hk : 2 ≤ c.k) (htwo : 2 ≤ l) (hlen : data.length = c.k) (hnodup : data.Nodup)
    (hsub : data ⊆ (secondLoss c l hk hl htwo).survivors) :
    ∃ i : Fin c.k, Replaced c.k 1 (fun j ↦ data.getD j 0) i := by
  have hperm : data.Perm (secondLoss c l hk hl htwo).survivors := by
    refine (hnodup.subperm hsub).perm_of_length_le ?_
    rw [hlen, secondLoss, List.length_map, List.length_range]
  have hparity : c.k + 1 ∈ data := by
    rw [hperm.mem_iff]
    exact List.mem_map.mpr ⟨1, List.mem_range.mpr hk, if_pos rfl⟩
  obtain ⟨i, hi, hget⟩ := List.mem_iff_getElem.mp hparity
  have hlt : ∀ j : Fin c.k, (j : ℕ) < data.length := fun j ↦ j.isLt.trans_eq hlen.symm
  refine ⟨⟨i, hlen ▸ hi⟩, ?_, fun j hj ↦ ?_, fun j j' hjj ↦ ?_⟩
  · rw [List.getD_eq_getElem _ _ hi, hget]
  · have hmem : data.getD j 0 ∈ data := by
      rw [List.getD_eq_getElem _ _ (hlt j)]
      exact List.getElem_mem _
    obtain ⟨p, hp, heq⟩ := List.mem_map.mp (hsub hmem)
    have hp := List.mem_range.mp hp
    by_cases hp1 : p = 1
    · rw [if_pos hp1, ← hget, List.getD_eq_getElem _ _ (hlt j)] at heq
      exact absurd (Fin.ext (hnodup.getElem_inj_iff.mp heq).symm) hj
    · rw [if_neg hp1] at heq
      rw [← heq]
      exact ⟨hp, hp1⟩
  · rw [List.getD_eq_getElem _ _ (hlt j), List.getD_eq_getElem _ _ (hlt j')] at hjj
    exact Fin.ext (hnodup.getElem_inj_iff.mp hjj)

end Losses

/-! ## The stages of a decoding -/

theorem RSRPCONV.decode_stages {convbindY : ℕ} {dec : ECDAG} (hw1 : 1 ≤ c.w)
    (h : RSRPCONV.decode gfMultiply invert c convbindY (subPackets c.w L.survivors) (subPackets c.w L.lost) =
      some dec) :
    ∃ coefs s dag, L.lost.mapM (c.coefInts gfMultiply invert 8 L.survivors) = some coefs ∧
      chainStage c L.survivors L.lost coefs ({}, bindStart + c.n * c.w) 0 = some s ∧
      convStage c L.survivors L.lost coefs (convbindY + 0) s.1 1 = some dag ∧
      convStage c L.survivors L.lost coefs (convbindY + 1) dag 2 = some dec := by
  simp only [RSRPCONV.decode, blockIds_subPackets hw1] at h
  split at h
  · exact absurd h.symm (Option.some_ne_none _)
  obtain ⟨coefs, hcoefs, h⟩ := Option.bind_eq_some_iff.mp h
  rw [show List.range rpNum = [0] from rfl, show List.range convNum = [0, 1] from rfl, List.foldlM_cons] at h
  obtain ⟨s', hs', h⟩ := Option.bind_eq_some_iff.mp h
  obtain ⟨s, hs, hnil⟩ := Option.bind_eq_some_iff.mp hs'
  obtain rfl := Option.some.inj hnil
  rw [List.foldlM_cons] at h
  obtain ⟨dag, hdag, h⟩ := Option.bind_eq_some_iff.mp h
  rw [List.foldlM_cons] at h
  obtain ⟨dag', hdag', h⟩ := Option.bind_eq_some_iff.mp h
  obtain rfl := Option.some.inj h
  exact ⟨coefs, s, dag, hcoefs, hs, hdag, hdag'⟩

theorem RSSMARTLZ.decode_stages {dec : ECDAG} (hw1 : 1 ≤ c.w)
    (h : RSSMARTLZ.decode gfMultiply invert c (subPackets c.w L.survivors) (subPackets c.w L.lost) = some dec) :
    ∃ data coefs s s₁ s₂, selectHelpers c.n c.k (c.n - c.k) L.survivors = some data ∧
      L.lost.mapM (c.coefInts gfMultiply invert 8 data) = some coefs ∧
      chainStage c data L.lost coefs ({}, bindStart + c.n * c.w) 0 = some s ∧
      rackStage c (c.n - c.k) (c.k / (c.n - c.k)) data L.lost coefs (1 % (c.n - c.k)) s 1 = some s₁ ∧
      rackStage c (c.n - c.k) (c.k / (c.n - c.k)) data L.lost coefs (2 % (c.n - c.k)) s₁ 2 = some s₂ ∧
      dec = s₂.1 := by
  simp only [RSSMARTLZ.decode, blockIds_subPackets hw1] at h
  split at h
  · exact absurd h.symm (Option.some_ne_none _)
  obtain ⟨data, hdata, h⟩ := Option.bind_eq_some_iff.mp h
  obtain ⟨coefs, hcoefs, h⟩ := Option.bind_eq_some_iff.mp h
  rw [show List.range rpNum = [0] from rfl, show List.range convNum = [0, 1] from rfl, List.foldlM_cons] at h
  obtain ⟨s', hs', h⟩ := Option.bind_eq_some_iff.mp h
  obtain ⟨s, hs, hnil⟩ := Option.bind_eq_some_iff.mp hs'
  obtain rfl := Option.some.inj hnil
  obtain ⟨s₂, hs₂, h⟩ := Option.bind_eq_some_iff.mp h
  rw [List.foldlM_cons] at hs₂
  obtain ⟨s₁, hs₁, hs₂⟩ := Option.bind_eq_some_iff.mp hs₂
  rw [List.foldlM_cons] at hs₂
  obtain ⟨s₂', hs₂', hs₂⟩ := Option.bind_eq_some_iff.mp hs₂
  obtain rfl := Option.some.inj hs₂
  exact ⟨data, coefs, s, s₁, s₂', hdata, hcoefs, hs, hs₁, hs₂', (Option.some.inj h).symm⟩

theorem RSASP.decode_stages {dec : ECDAG} (hw1 : 1 ≤ c.w)
    (h : RSASP.decode gfMultiply invert c (subPackets c.w L.survivors) (subPackets c.w L.lost) = some dec) :
    ∃ data coefs s, selectHelpers c.n c.k (c.n - c.k) L.survivors = some data ∧
      L.lost.mapM (c.coefInts gfMultiply invert c.k data) = some coefs ∧
      (List.range c.w).foldlM (fun s wi ↦ rackStage c (c.n - c.k)
        (c.k / (c.n - c.k) + if c.k % (c.n - c.k) = 0 then 0 else 1) data L.lost coefs wi s wi)
        ({}, bindStart + c.n * c.w) = some s ∧ dec = s.1 := by
  simp only [RSASP.decode, blockIds_subPackets hw1] at h
  split at h
  · exact absurd h.symm (Option.some_ne_none _)
  obtain ⟨data, hdata, h⟩ := Option.bind_eq_some_iff.mp h
  obtain ⟨coefs, hcoefs, h⟩ := Option.bind_eq_some_iff.mp h
  obtain ⟨s, hs, h⟩ := Option.bind_eq_some_iff.mp h
  exact ⟨data, coefs, s, hdata, hcoefs, hs, (Option.some.inj h).symm⟩

/-! `BindX` of one lost block. -/

theorem RSRPCONV.decode_single {convbindY : ℕ} (hw1 : 1 ≤ c.w) (hone : L.lost.length = 1) :
    RSRPCONV.decode gfMultiply invert c convbindY (subPackets c.w L.survivors) (subPackets c.w L.lost) = none := by
  refine Option.eq_none_iff_forall_ne_some.mpr fun dec hdec ↦ ?_
  obtain ⟨coefs, s, dag, -, -, hdag, -⟩ := decode_stages hw1 hdec
  exact Option.some_ne_none dag (hdag.symm.trans (convStage_single hone ..))

theorem RSSMARTLZ.decode_single (hw1 : 1 ≤ c.w) (hone : L.lost.length = 1) (hv : 0 < c.k / (c.n - c.k)) :
    RSSMARTLZ.decode gfMultiply invert c (subPackets c.w L.survivors) (subPackets c.w L.lost) = none := by
  refine Option.eq_none_iff_forall_ne_some.mpr fun dec hdec ↦ ?_
  obtain ⟨data, coefs, s, s₁, s₂, -, -, -, hs₁, -⟩ := decode_stages hw1 hdec
  rw [rackStage_eq_none hv fun s ↦ by rw [hone]; exact innerRack_single s 0] at hs₁
  exact Option.some_ne_none s₁ hs₁.symm

theorem RSASP.decode_first (hw1 : 1 ≤ c.w)
    (hnone : ∀ data coefs s, rackStage c (c.n - c.k)
      (c.k / (c.n - c.k) + if c.k % (c.n - c.k) = 0 then 0 else 1) data L.lost coefs 0 s 0 = none) :
    RSASP.decode gfMultiply invert c (subPackets c.w L.survivors) (subPackets c.w L.lost) = none := by
  refine Option.eq_none_iff_forall_ne_some.mpr fun dec hdec ↦ ?_
  obtain ⟨data, coefs, s, -, -, hs, -⟩ := decode_stages hw1 hdec
  have hnil := foldlM_eq_none (f := fun s wi ↦ rackStage c (c.n - c.k)
    (c.k / (c.n - c.k) + if c.k % (c.n - c.k) = 0 then 0 else 1) data L.lost coefs wi s wi)
    (List.mem_range.mpr hw1) (hnone data coefs) ({}, bindStart + c.n * c.w)
  exact Option.some_ne_none s (hs.symm.trans hnil)

theorem RSASP.decode_single (hw1 : 1 ≤ c.w) (hone : L.lost.length = 1) (hv : 0 < c.k / (c.n - c.k)) :
    RSASP.decode gfMultiply invert c (subPackets c.w L.survivors) (subPackets c.w L.lost) = none :=
  decode_first hw1 fun _ _ s ↦ rackStage_eq_none (hv.trans_le (Nat.le_add_right ..))
    (fun s ↦ by rw [hone]; exact innerRack_single s 0) s

theorem RSASP.decode_short (hw1 : 1 ≤ c.w) (hkn : c.k < c.n) (hndvd : ¬c.n - c.k ∣ c.k) :
    RSASP.decode gfMultiply invert c (subPackets c.w L.survivors) (subPackets c.w L.lost) = none := by
  have hmod : c.k % (c.n - c.k) ≠ 0 := fun hmod ↦ hndvd (Nat.dvd_of_mod_eq_zero hmod)
  have hdiv := Nat.div_add_mod' c.k (c.n - c.k)
  have hmodlt := Nat.mod_lt c.k (show 0 < c.n - c.k by omega)
  refine decode_first hw1 fun _ _ s ↦ ?_
  rw [if_neg hmod]
  exact rackStage_eq_none (Nat.lt_succ_self _) (innerRack_short (by omega)) s

theorem exists_coefInts {width : ℕ} {lost : List ℕ} {coefs : List (List GF256)}
    (h : lost.mapM (c.coefInts gfMultiply invert width data) = some coefs) :
    ∃ co : ℕ → List GF256, ∀ r ∈ lost, c.coefInts gfMultiply invert width data r = some (co r) := by
  refine ⟨fun r ↦ (c.coefInts gfMultiply invert width data r).getD [], ?_⟩
  refine (eq_map_of_mapM (g := fun r ↦ (c.coefInts gfMultiply invert width data r).getD []) h ?_).2
  intro r _ v hv
  have hget : (c.coefInts gfMultiply invert width data r).getD [] = v := by rw [hv, Option.getD_some]
  exact ⟨hget.symm, by rw [hv, ← hget]⟩

/-! ## When every loss is recovered -/

/-- The helpers of a code are all survivors of the loss, and `k` of them. -/
theorem Loss.helpers (L : Loss c) (hkn : c.k < c.n) (hnodup : L.survivors.Nodup) :
    ∃ data, selectHelpers c.n c.k (c.n - c.k) L.survivors = some data ∧ data.length = c.k ∧ data.Nodup ∧
      data ⊆ L.survivors :=
  selectHelpers_spec hnodup L.enough L.survivors_lt (by omega)

theorem Loss.ne_read (L : Loss c) (hsub : data ⊆ L.survivors) (hlen : c.k ≤ data.length) {r wi wi' : ℕ}
    (hr : r ∈ L.lost) (hwi : wi < c.w) (hwi' : wi' < c.w) :
    ∀ j < c.k, r * c.w + wi ≠ data.getD j 0 * c.w + wi' := by
  intro j hj heq
  have hmem : data.getD j 0 ∈ data := by
    rw [List.getD_eq_getElem _ _ (hj.trans_le hlen)]
    exact List.getElem_mem _
  refine L.disjoint r hr ?_
  rw [((cell_inj hwi hwi').mp heq).1]
  exact hsub hmem

theorem misses_empty {n w x : ℕ} (hx : x < n * w) (hbound : n * w ≤ bindStart) :
    Misses {} x ∧ x < bindStart + n * w :=
  ⟨⟨AList.notMem_empty x, hx.trans_le hbound⟩, by omega⟩

/-- On the data that is one in the next helper, the first helpers add up to zero. -/
theorem Loss.combineFirst_unitBlock (L : Loss c) (hnodup : L.survivors.Nodup) (hlt : ∀ s ∈ L.survivors, s < c.k)
    {u : ℕ} (hu : u < c.k) {stripe : ℕ → GF256}
    (hstripe : IsStripe c (unitBlock c.w (L.survivors.getD u 0)) stripe) (co : ℕ → List GF256) (r : ℕ) {wi : ℕ}
    (hwi : wi < c.w) : L.combineFirst u co stripe r wi = 0 := by
  refine List.sum_eq_zero fun x hx ↦ ?_
  obtain ⟨j, hj, rfl⟩ := List.mem_map.mp hx
  have hju := List.mem_range.mp hj
  have hmem := L.survivor_mem (hju.trans hu)
  have hne : L.survivors.getD j 0 ≠ L.survivors.getD u 0 := by
    rw [List.getD_eq_getElem _ _ ((hju.trans hu).trans_le L.enough),
      List.getD_eq_getElem _ _ (hu.trans_le L.enough)]
    exact fun heq ↦ hju.ne (hnodup.getElem_inj_iff.mp heq)
  rw [hstripe _ (L.survivors_lt _ hmem) wi hwi, symbol_unitBlock (hlt _ (L.survivor_mem hu)) hwi, generator,
    if_pos (hlt _ hmem), if_neg hne, mul_zero]

theorem symbol_unitBlock_parity {b wi : ℕ} (hb : b < c.k) (hwi : wi < c.w) :
    c.symbol (unitBlock c.w b) c.k wi = 1 := by
  rw [symbol_unitBlock hb hwi, generator, if_neg (lt_irrefl _), Nat.sub_self]
  exact one_pow b

theorem encodes_conv (hmul : ∀ a b, gfMultiply a b = a * b) (hk : 2 ≤ c.k) (hkn : c.k < c.n) :
    Encodes c (some (encodeStripe gfMultiply c)) :=
  ⟨_, rfl, fun data _ hr _ hwi ↦ encodeStripe_evaluates hmul hk hkn data hr hwi⟩

section Codes

variable (hmul : ∀ a b, gfMultiply a b = a * b) {W₈ : WordField 8} (hinv₈ : W₈.InvertedBy invert)
variable (hbytes₈ : W₈.MulBytes) (hkn : c.k < c.n) (hl1 : 1 ≤ l) (hl : l ≤ c.n - c.k)
include hmul hinv₈ hbytes₈ hkn hl1 hl

/-- **`RSRPCONV` recovers every loss** of two blocks or more, from two data blocks or more. -/
theorem RSRPCONV.recovers_iff (hn : c.n ≤ 128) (hw : c.w = rpNum + convNum) (convbindY : ℕ) :
    (∀ L : Loss c, L.Given gfMultiply (some L.survivors) l →
      L.Recovers (some L.survivors) (RSRPCONV.encode gfMultiply c) (RSRPCONV.decode gfMultiply invert c convbindY
        (subPackets c.w L.survivors) (subPackets c.w L.lost))) ↔ 2 ≤ c.k ∧ 2 ≤ l := by
  have hw3 : c.w = 3 := hw
  have hw1 : 1 ≤ c.w := by omega
  have hbound : c.n * c.w ≤ bindStart := by
    rw [hw3]
    exact (Nat.mul_le_mul_right 3 hn).trans (by decide)
  constructor
  · intro hrecovers
    let L := parityLoss c l hkn hl
    have hL : L.Given gfMultiply (some L.survivors) l :=
      given_parityLoss hkn hl hmul fun data hdata ↦ by
        rw [← Option.some.inj hdata]
        exact ⟨List.length_range, List.nodup_range, List.Subset.refl _⟩
    have hmem : c.k ∈ L.lost := mem_parityLoss hkn hl hl1
    by_contra hcond
    rcases Nat.lt_or_ge c.k 2 with hk | hk
    · -- a chain over fewer than two helpers joins nothing
      refine Loss.not_recovers_of_notMem hmem (show 0 < c.w by omega) (fun dec hdec ↦ ?_) (hrecovers L hL)
      obtain ⟨coefs, s, dag, -, hs, hdag, hdec⟩ := decode_stages hw1 hdec
      have hread : ∀ wi' < c.w, ∀ j < c.k, c.k * c.w + 0 ≠ L.survivors.getD j 0 * c.w + wi' :=
        fun wi' hwi' ↦ L.ne_read (List.Subset.refl _) L.enough hmem (by omega) hwi'
      have hother : ∀ wi' < c.w, 0 < wi' → ∀ r ∈ L.lost, c.k * c.w + 0 ≠ r * c.w + wi' :=
        fun wi' hwi' hpos r _ heq ↦ hpos.ne ((cell_inj (by omega) hwi').mp heq).2
      have hstart : Misses s.1 (c.k * c.w + 0) := by
        rw [← Option.some.inj ((chainStage_idle (by omega) _).symm.trans hs)]
        exact (misses_empty (subPacket_lt hkn (by omega)) hbound).1
      have hmiss := convStage_misses (hread 1 (by omega)) (hother 1 (by omega) (by decide)) hstart hdag
      exact (convStage_misses (hread 2 (by omega)) (hother 2 (by omega) (by decide)) hmiss hdec).notMem
    · -- `BindX` of one lost block
      have hone : L.lost.length = 1 := hL.length.trans (by omega)
      exact Loss.not_recovers_of_eq_none (decode_single hw1 hone) (hrecovers L hL)
  · rintro ⟨hk, htwo⟩ L hL
    have hunit : IsUnit (byteMatrix c.k (c.selectCells gfMultiply L.survivors)) := by
      have hunit := hL.isUnit L.survivors rfl
      rwa [← selectMatrix_selectCells] at hunit
    have hinv := hinv₈.invertsBytes rfl hbytes₈ hunit
    refine (decode_computes L hk hkn hbound hL.lost (hL.length ▸ htwo) hw convbindY
      fun r _ ↦ coefInts_eq_some hinv r).recovers (encodes_conv hmul hk hkn) L.enough (List.Subset.refl _)
      (fun r _ ↦ length_coefInts (coefInts_eq_some hinv r)) (fun _ _ _ _ _ ↦ rfl) fun d r hr wi _ ↦ ?_
    exact dot_coefInts hmul hinv (fun j ↦ L.survivors_lt _ (L.survivor_mem j.isLt)) (L.lost_lt r hr) d wi

/-- **`RSSMARTLZ` recovers every loss** of two blocks or more, when the helpers fill two racks or more. -/
theorem RSSMARTLZ.recovers_iff (hn : c.n ≤ 128) (hw : c.w = rpNum + convNum) :
    (∀ L : Loss c, L.Given gfMultiply (selectHelpers c.n c.k (c.n - c.k) L.survivors) l →
      L.Recovers (selectHelpers c.n c.k (c.n - c.k) L.survivors) (RSSMARTLZ.encode gfMultiply c)
        (RSSMARTLZ.decode gfMultiply invert c (subPackets c.w L.survivors) (subPackets c.w L.lost))) ↔
      2 ≤ l ∧ c.n - c.k ∣ c.k ∧ 2 * (c.n - c.k) ≤ c.k := by
  have hw3 : c.w = 3 := hw
  have hw1 : 1 ≤ c.w := by omega
  have hbound : c.n * c.w ≤ bindStart := by
    rw [hw3]
    exact (Nat.mul_le_mul_right 3 hn).trans (by decide)
  have hmul2 : 2 * (c.n - c.k) ≤ c.k ↔ 2 ≤ c.k / (c.n - c.k) := (Nat.le_div_iff_mul_le (by omega)).symm
  constructor
  · intro hrecovers
    let L := parityLoss c l hkn hl
    obtain ⟨data, hdata, hlen, hnodup, hsub⟩ := L.helpers hkn List.nodup_range
    have hL : L.Given gfMultiply (selectHelpers c.n c.k (c.n - c.k) L.survivors) l :=
      given_parityLoss hkn hl hmul fun data' hdata' ↦ by
        obtain rfl := Option.some.inj (hdata.symm.trans hdata')
        exact ⟨hlen, hnodup, hsub⟩
    have hmem : c.k ∈ L.lost := mem_parityLoss hkn hl hl1
    by_contra hcond
    rcases Nat.lt_or_ge (c.k / (c.n - c.k)) 2 with hv | hv
    · -- there is nothing to add up
      refine Loss.not_recovers_of_notMem hmem (show 1 < c.w by omega) (fun dec hdec ↦ ?_) (hrecovers L hL)
      obtain ⟨data', coefs, s, s₁, s₂, hdata', -, hs, hs₁, hs₂, rfl⟩ := decode_stages hw1 hdec
      obtain rfl := Option.some.inj (hdata.symm.trans hdata')
      have hread : ∀ wi' < c.w, ∀ j < c.k, c.k * c.w + 1 ≠ data.getD j 0 * c.w + wi' :=
        fun wi' hwi' ↦ L.ne_read hsub hlen.ge hmem (by omega) hwi'
      have hother : ∀ r ∈ L.lost, c.k * c.w + 1 ≠ r * c.w + 0 :=
        fun r _ heq ↦ Nat.one_ne_zero ((cell_inj (by omega) (by omega)).mp heq).2
      have hmiss := chainStage_misses (hread 0 (by omega)) hother
        (misses_empty (subPacket_lt hkn (by omega)) hbound) hs
      have hmiss₁ := rackStage_misses (hread 1 (by omega)) (by omega) hmiss hs₁
      exact (rackStage_misses (hread 2 (by omega)) (by omega) hmiss₁ hs₂).1.notMem
    rcases Nat.lt_or_ge l 2 with hl2 | hl2
    · have hone : L.lost.length = 1 := hL.length.trans (by omega)
      exact Loss.not_recovers_of_eq_none (decode_single hw1 hone (Nat.zero_lt_of_lt hv)) (hrecovers L hL)
    · -- a data block is in no whole rack
      have hndvd : ¬c.n - c.k ∣ c.k := fun hdvd ↦ hcond ⟨hl2, hdvd, hmul2.mpr hv⟩
      obtain ⟨⟨enc, dec, henc, hdec, -⟩, -⟩ := hrecovers L hL
      obtain ⟨data', coefs, s, s₁, s₂, hdata', hcoefs, -⟩ := decode_stages hw1 hdec
      obtain rfl := Option.some.inj (hdata.symm.trans hdata')
      obtain ⟨co, hco⟩ := exists_coefInts hcoefs
      have hk : 2 ≤ c.k := hv.trans (Nat.div_le_self ..)
      have hu : c.k / (c.n - c.k) * (c.n - c.k) < c.k :=
        lt_of_le_of_ne (Nat.div_mul_le_self ..) fun heq ↦ hndvd ⟨_, heq.symm.trans (mul_comm ..)⟩
      have hcomputes := decode_computes (L.withHelpers data hlen hsub) hk hkn hbound hL.lost
        (hL.length ▸ hl2) hw (by omega) hv hdata rfl hco
      have hlt : ∀ s ∈ data, s < c.k := fun s hs ↦ List.mem_range.mp (hsub hs)
      have hnext : data.getD (c.k / (c.n - c.k) * (c.n - c.k)) 0 ∈ data :=
        (L.withHelpers data hlen hsub).survivor_mem hu
      have hw1' : 1 < c.w := by omega
      have hwrong : ∀ stripe, IsStripe c (unitBlock c.w (data.getD (c.k / (c.n - c.k) * (c.n - c.k)) 0)) stripe →
          (L.withHelpers data hlen hsub).combineFirst
            (if 1 < rpNum then c.k else c.k / (c.n - c.k) * (c.n - c.k)) co stripe c.k 1 ≠
          c.symbol (unitBlock c.w (data.getD (c.k / (c.n - c.k) * (c.n - c.k)) 0)) c.k 1 := by
        intro stripe hstripe
        rw [if_neg (by decide), (L.withHelpers data hlen hsub).combineFirst_unitBlock hnodup hlt hu hstripe co _ hw1',
          symbol_unitBlock_parity (hlt _ hnext) hw1']
        exact zero_ne_one
      exact hcomputes.not_recovers (M := L) (encodes_conv hmul hk hkn) rfl hmem hw1' hwrong (hrecovers L hL)
  · rintro ⟨hl2, hdvd, hrack⟩ L hL
    have hv := hmul2.mp hrack
    have hk : 2 ≤ c.k := hv.trans (Nat.div_le_self ..)
    obtain ⟨data, hdata, hlen, hnodup, hsub⟩ := L.helpers hkn hL.survivors
    let L' := L.withHelpers data hlen hsub
    have hunit : IsUnit (byteMatrix c.k (c.selectCells gfMultiply data)) := by
      have hunit := hL.isUnit data hdata
      rwa [← selectMatrix_selectCells] at hunit
    have hinv := hinv₈.invertsBytes rfl hbytes₈ hunit
    have hcomputes := decode_computes L' hk hkn hbound hL.lost (hL.length ▸ hl2) hw (by omega) hv hdata rfl
      fun r _ ↦ coefInts_eq_some hinv r
    have hco := fun r (_ : r ∈ L'.lost) ↦ length_coefInts (coefInts_eq_some hinv r)
    rw [hdata]
    refine Loss.Recovers.of_withHelpers (hcomputes.recovers (encodes_conv hmul hk hkn) hlen.ge (List.Subset.refl _)
      hco (fun env r hr wi _ ↦ ?_) fun d r hr wi _ ↦ ?_)
    · rw [Nat.div_mul_cancel hdvd, ite_self]
      exact L'.combineFirst_of_length (hco r hr)
    · exact dot_coefInts hmul hinv (fun j ↦ L'.survivors_lt _ (L'.survivor_mem j.isLt)) (L'.lost_lt r hr) d wi

end Codes

/-- **`RSASP` recovers every loss** of two blocks or more, when the helpers fill two racks or more and there
are eight data blocks. -/
theorem RSASP.recovers_iff (hmul : ∀ a b, gfMultiply a b = a * b) {W : WordField c.k}
    (hinv : W.InvertedBy invert) (hbytes : c.k = 8 → W.MulBytes) (hkn : c.k < c.n) (hl1 : 1 ≤ l)
    (hl : l ≤ c.n - c.k) (hn : c.n ≤ 32) (hw : c.w = c.n - c.k) :
    (∀ L : Loss c, L.Given gfMultiply (selectHelpers c.n c.k (c.n - c.k) L.survivors) l →
      L.Recovers (selectHelpers c.n c.k (c.n - c.k) L.survivors) (RSASP.encode gfMultiply c) (RSASP.decode gfMultiply invert c
        (subPackets c.w L.survivors) (subPackets c.w L.lost))) ↔
      2 ≤ l ∧ c.n - c.k ∣ c.k ∧ 2 * (c.n - c.k) ≤ c.k ∧ c.k = 8 := by
  have hw1 : 1 ≤ c.w := by omega
  have hbound : c.n * c.w ≤ bindStart := by
    have hle : c.n * c.w ≤ 32 * 32 := Nat.mul_le_mul hn (by omega)
    exact hle.trans (by decide)
  have hmul2 : 2 * (c.n - c.k) ≤ c.k ↔ 2 ≤ c.k / (c.n - c.k) := (Nat.le_div_iff_mul_le (by omega)).symm
  constructor
  · intro hrecovers
    let L := parityLoss c l hkn hl
    obtain ⟨data, hdata, hlen, hnodup, hsub⟩ := L.helpers hkn List.nodup_range
    have hL : L.Given gfMultiply (selectHelpers c.n c.k (c.n - c.k) L.survivors) l :=
      given_parityLoss hkn hl hmul fun data' hdata' ↦ by
        obtain rfl := Option.some.inj (hdata.symm.trans hdata')
        exact ⟨hlen, hnodup, hsub⟩
    have hmem : c.k ∈ L.lost := mem_parityLoss hkn hl hl1
    have hdvd : c.n - c.k ∣ c.k := by
      by_contra hndvd
      exact Loss.not_recovers_of_eq_none (decode_short hw1 hkn hndvd) (hrecovers L hL)
    have hmod : c.k % (c.n - c.k) = 0 := Nat.mod_eq_zero_of_dvd hdvd
    have hv : 2 ≤ c.k / (c.n - c.k) := by
      -- there is nothing to add up
      by_contra hv
      refine Loss.not_recovers_of_notMem hmem hw1 (fun dec hdec ↦ ?_) (hrecovers L hL)
      obtain ⟨data', coefs', s', hdata', -, hs', rfl⟩ := decode_stages hw1 hdec
      obtain rfl := Option.some.inj (hdata.symm.trans hdata')
      simp only [hmod, if_true, add_zero] at hs'
      have hmiss : Misses s'.1 (c.k * c.w + 0) ∧ c.k * c.w + 0 < s'.2 :=
        foldlM_invariant (I := fun s : ECDAG × ℕ ↦ Misses s.1 (c.k * c.w + 0) ∧ c.k * c.w + 0 < s.2)
          (fun wi hwi s s' h hrun ↦ rackStage_misses
            (L.ne_read hsub hlen.ge hmem hw1 (List.mem_range.mp hwi)) (by omega) h hrun)
          (misses_empty (subPacket_lt hkn hw1) hbound) hs'
      exact hmiss.1.notMem
    have hl2 : 2 ≤ l := by
      by_contra hl2
      have hone : L.lost.length = 1 := hL.length.trans (by omega)
      exact Loss.not_recovers_of_eq_none (decode_single hw1 hone (Nat.zero_lt_of_lt hv)) (hrecovers L hL)
    refine ⟨hl2, hdvd, hmul2.mpr hv, ?_⟩
    by_contra hk8
    -- the coefficients for block 1 are wrong
    have hk : 2 ≤ c.k := hv.trans (Nat.div_le_self ..)
    obtain ⟨hlost₂, hsurvivors₂⟩ := nodup_secondLoss hl hk hl2
    obtain ⟨data₂, hdata₂, hlen₂, hnodup₂, hsub₂⟩ := (secondLoss c l hk hl hl2).helpers hkn hsurvivors₂
    obtain ⟨i, hreplaced⟩ := replaced_secondLoss hl hk hl2 hlen₂ hnodup₂ hsub₂
    let L₂ := (secondLoss c l hk hl hl2).withHelpers data₂ hlen₂ hsub₂
    have hlt : ∀ j : Fin c.k, data₂.getD j 0 < c.n := fun j ↦ L₂.survivors_lt _ (L₂.survivor_mem j.isLt)
    have hlength : L₂.lost.length = l := by
      show (secondLoss c l hk hl hl2).lost.length = l
      rw [secondLoss, List.length_map, List.length_range]
    have hgiven : (secondLoss c l hk hl hl2).Given gfMultiply
        (selectHelpers c.n c.k (c.n - c.k) (secondLoss c l hk hl hl2).survivors) l := by
      refine ⟨hsurvivors₂, hlost₂, hlength, fun data' hdata' ↦ ?_⟩
      rw [← Option.some.inj (hdata₂.symm.trans hdata')]
      exact hreplaced.isUnit hmul hk hlt (by decide)
    have hrecovered := hrecovers _ hgiven
    obtain ⟨⟨enc₂, dec₂, -, hdec₂, -⟩, -⟩ := hrecovered
    obtain ⟨data', coefs₂, s₂, hdata', hcoefs₂, -⟩ := decode_stages hw1 hdec₂
    obtain rfl := Option.some.inj (hdata₂.symm.trans hdata')
    obtain ⟨co, hco⟩ := exists_coefInts hcoefs₂
    have hone : 1 ∈ L₂.lost := List.mem_map.mpr ⟨0, List.mem_range.mpr (by omega), rfl⟩
    have hcomputes := decode_computes L₂ hkn hbound hlost₂ (hlength ▸ hl2) hw
      (by omega) hdvd hv hdata₂ rfl hco
    have hwrong : ∀ stripe, IsStripe c (unitBlock c.w 1) stripe →
        L₂.combine co stripe 1 0 ≠ c.symbol (unitBlock c.w 1) 1 0 := by
      intro stripe hstripe
      rw [L₂.combine_of_agrees co hstripe (L₂.agrees_self stripe) 1 hw1]
      exact hreplaced.dot_ne_one hmul hinv hk hk8 hkn.le hlt (hco 1 hone) hw1
    exact hcomputes.not_recovers (M := secondLoss c l hk hl hl2) (encodes_conv hmul hk hkn) rfl hone hw1 hwrong
      (hrecovers _ hgiven)
  · rintro ⟨hl2, hdvd, hrack, hk8⟩ L hL
    have hv := hmul2.mp hrack
    obtain ⟨data, hdata, hlen, hnodup, hsub⟩ := L.helpers hkn hL.survivors
    let L' := L.withHelpers data hlen hsub
    have hunit : IsUnit (byteMatrix c.k (c.selectCells gfMultiply data)) := by
      have hunit := hL.isUnit data hdata
      rwa [← selectMatrix_selectCells] at hunit
    have hinv := hinv.invertsBytes hk8 (hbytes hk8) hunit
    have hcomputes := decode_computes L' hkn hbound hL.lost (hL.length ▸ hl2) hw (by omega) hdvd hv hdata rfl
      fun r _ ↦ coefInts_eq_some hinv r
    rw [hdata]
    refine Loss.Recovers.of_withHelpers (hcomputes.recovers (encodes_conv hmul (by omega) hkn) hlen.ge
      (List.Subset.refl _) (fun r _ ↦ length_coefInts (coefInts_eq_some hinv r)) (fun _ _ _ _ _ ↦ rfl)
      fun d r hr wi _ ↦ ?_)
    exact dot_coefInts hmul hinv (fun j ↦ L'.survivors_lt _ (L'.survivor_mem j.isLt)) (L'.lost_lt r hr) d wi

/-- **The codes that repair in stages** recover every loss of `l` blocks exactly when there are two at least,
and enough for the stages. -/
theorem everyLossRecovers_iff (hmul : ∀ a b, gfMultiply a b = a * b) {W₈ : WordField 8} {W : WordField c.k}
    (hinv₈ : W₈.InvertedBy invert) (hbytes₈ : W₈.MulBytes) (hinv : W.InvertedBy invert)
    (hbytes : c.k = 8 → W.MulBytes) (hkn : c.k < c.n) (hl1 : 1 ≤ l) (hl : l ≤ c.n - c.k) (convbindY : ℕ) :
    (c.n ≤ 128 → c.w = rpNum + convNum →
      ((∀ L : Loss c, L.Given gfMultiply (some L.survivors) l →
        L.Recovers (some L.survivors) (RSRPCONV.encode gfMultiply c) (RSRPCONV.decode gfMultiply invert c convbindY
          (subPackets c.w L.survivors) (subPackets c.w L.lost))) ↔ 2 ≤ c.k ∧ 2 ≤ l) ∧
      ((∀ L : Loss c, L.Given gfMultiply (selectHelpers c.n c.k (c.n - c.k) L.survivors) l →
        L.Recovers (selectHelpers c.n c.k (c.n - c.k) L.survivors) (RSSMARTLZ.encode gfMultiply c)
          (RSSMARTLZ.decode gfMultiply invert c (subPackets c.w L.survivors) (subPackets c.w L.lost))) ↔
        2 ≤ l ∧ c.n - c.k ∣ c.k ∧ 2 * (c.n - c.k) ≤ c.k)) ∧
    (c.n ≤ 32 → c.w = c.n - c.k →
      ((∀ L : Loss c, L.Given gfMultiply (selectHelpers c.n c.k (c.n - c.k) L.survivors) l →
        L.Recovers (selectHelpers c.n c.k (c.n - c.k) L.survivors) (RSASP.encode gfMultiply c)
          (RSASP.decode gfMultiply invert c (subPackets c.w L.survivors) (subPackets c.w L.lost))) ↔
        2 ≤ l ∧ c.n - c.k ∣ c.k ∧ 2 * (c.n - c.k) ≤ c.k ∧ c.k = 8)) := by
  refine ⟨fun hn hw ↦ ⟨?_, ?_⟩, fun hn hw ↦ ?_⟩
  · exact RSRPCONV.recovers_iff hmul hinv₈ hbytes₈ hkn hl1 hl hn hw convbindY
  · exact RSSMARTLZ.recovers_iff hmul hinv₈ hbytes₈ hkn hl1 hl hn hw
  · exact RSASP.recovers_iff hmul hinv hbytes hkn hl1 hl hn hw

end Recovery

/-! ### Two codes -/

theorem given_tenEightLoss (w : ℕ) {helpers : Option (List ℕ)}
    (hhelpers : ∀ data, helpers = some data → data.length = 8 ∧ data.Nodup ∧ data ⊆ (tenEightLoss w).survivors) :
    (tenEightLoss w).Given (· * ·) helpers 2 where
  survivors := by show [1, 2, 3, 4, 5, 6, 7, 8].Nodup; decide
  lost := by show [0, 9].Nodup; decide
  length := rfl
  isUnit data hdata := by
    obtain ⟨hlen, hnodup, hsub⟩ := hhelpers data hdata
    exact ((tenEightLoss w).withHelpers data hlen hsub).isUnit (fun _ _ ↦ rfl) hnodup
      (by show 10 ≤ 128; decide) (.inr (by show 10 - 8 ≤ 2; decide))

theorem everyLossRecovers_tenEight :
    (tenEightLoss 3).Recovers (some [1, 2, 3, 4, 5, 6, 7, 8]) (RSRPCONV.encode (· * ·) (tenEight 3))
      (RSRPCONV.decode (· * ·) inverseWords (tenEight 3) 0 (subPackets 3 [1, 2, 3, 4, 5, 6, 7, 8])
        (subPackets 3 [0, 9])) ∧
    (tenEightLoss 3).Recovers (selectHelpers 10 8 2 [1, 2, 3, 4, 5, 6, 7, 8]) (RSSMARTLZ.encode (· * ·) (tenEight 3))
      (RSSMARTLZ.decode (· * ·) inverseWords (tenEight 3) (subPackets 3 [1, 2, 3, 4, 5, 6, 7, 8])
        (subPackets 3 [0, 9])) ∧
    (tenEightLoss 2).Recovers (selectHelpers 10 8 2 [1, 2, 3, 4, 5, 6, 7, 8]) (RSASP.encode (· * ·) (tenEight 2))
      (RSASP.decode (· * ·) inverseWords (tenEight 2) (subPackets 2 [1, 2, 3, 4, 5, 6, 7, 8])
        (subPackets 2 [0, 9])) := by
  have hnodup : [1, 2, 3, 4, 5, 6, 7, 8].Nodup := by decide
  have hhelpers : ∀ w data, selectHelpers 10 8 2 (tenEightLoss w).survivors = some data →
      data.length = 8 ∧ data.Nodup ∧ data ⊆ (tenEightLoss w).survivors := by
    intro w data hdata
    obtain ⟨data', hdata', hspec⟩ := (tenEightLoss w).helpers (by show 8 < 10; decide) hnodup
    exact Option.some.inj (hdata'.symm.trans hdata) ▸ hspec
  have hthree := (everyLossRecovers_iff (c := tenEight 3) (W := bytes) (l := 2) (fun _ _ ↦ rfl)
    invertedBy_inverseWords mulBytes_bytes invertedBy_inverseWords (fun _ ↦ mulBytes_bytes) (by decide) (by decide)
    (by decide) 0).1 (by decide) rfl
  have htwo := (everyLossRecovers_iff (c := tenEight 2) (W := bytes) (l := 2) (fun _ _ ↦ rfl)
    invertedBy_inverseWords mulBytes_bytes invertedBy_inverseWords (fun _ ↦ mulBytes_bytes) (by decide) (by decide)
    (by decide) 0).2 (by decide) rfl
  refine ⟨?_, ?_, ?_⟩
  · exact hthree.1.mpr (by decide) (tenEightLoss 3) (given_tenEightLoss 3 fun data hdata ↦ by
      rw [← Option.some.inj hdata]
      exact ⟨rfl, hnodup, List.Subset.refl _⟩)
  · exact hthree.2.mpr (by decide) (tenEightLoss 3) (given_tenEightLoss 3 (hhelpers 3))
  · exact htwo.mpr (by decide) (tenEightLoss 2) (given_tenEightLoss 2 (hhelpers 2))

def threeTwo (w : ℕ) : RSCode := ⟨3, 2, w, 0⟩

def threeTwoLoss (w : ℕ) : Loss (threeTwo w) where
  survivors := [0, 2]
  lost := [1]
  enough := by show 2 ≤ 2; exact le_rfl
  survivors_lt := by show ∀ s ∈ [0, 2], s < 3; decide
  lost_lt := by show ∀ r ∈ [1], r < 3; decide
  disjoint := by decide

/-- One lost block is not recovered, whatever the inverse is. -/
theorem not_recovers_threeTwo :
    (∀ w, (threeTwoLoss w).Given (· * ·) (some [0, 2]) 1) ∧ selectHelpers 3 2 1 [0, 2] = some [0, 2] ∧
      ¬(threeTwoLoss 3).Recovers (some [0, 2]) (RSRPCONV.encode (· * ·) (threeTwo 3))
        (RSRPCONV.decode (· * ·) inverseWords (threeTwo 3) 0 (subPackets 3 [0, 2]) (subPackets 3 [1])) ∧
      ¬(threeTwoLoss 3).Recovers (selectHelpers 3 2 1 [0, 2]) (RSSMARTLZ.encode (· * ·) (threeTwo 3))
        (RSSMARTLZ.decode (· * ·) inverseWords (threeTwo 3) (subPackets 3 [0, 2]) (subPackets 3 [1])) ∧
      ¬(threeTwoLoss 1).Recovers (selectHelpers 3 2 1 [0, 2]) (RSASP.encode (· * ·) (threeTwo 1))
        (RSASP.decode (· * ·) inverseWords (threeTwo 1) (subPackets 1 [0, 2]) (subPackets 1 [1])) := by
  refine ⟨fun w ↦ ⟨?_, List.nodup_singleton 1, rfl, fun data hdata ↦ ?_⟩, by decide, ?_, ?_, ?_⟩
  · show [0, 2].Nodup
    decide
  · rw [← Option.some.inj hdata]
    exact (threeTwoLoss w).isUnit (fun _ _ ↦ rfl) (by show [0, 2].Nodup; decide) (by show 3 ≤ 128; decide)
      (.inl (by show 2 ≤ 3; decide))
  · exact Loss.not_recovers_of_eq_none (RSRPCONV.decode_single (L := threeTwoLoss 3) (by decide) rfl)
  · exact Loss.not_recovers_of_eq_none (RSSMARTLZ.decode_single (L := threeTwoLoss 3) (by decide) rfl (by decide))
  · exact Loss.not_recovers_of_eq_none (RSASP.decode_single (L := threeTwoLoss 1) (by decide) rfl (by decide))

end UniDedup.Storage
