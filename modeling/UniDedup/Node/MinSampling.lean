import Mathlib.Data.List.FinRange
import Mathlib.Tactic.Ring
import UniDedup.Lib.Smallest
import UniDedup.Node.InFlight

/-!
# Min-sampling selects the smallest fingerprints

Both variants of min-sampling keep the smallest fingerprints of a segment in a sorted list of bounded
length while they run over its chunks. The keys are taken from the fingerprints kept, or, in the optimized
variant, from those eight chunks before them.

Of equal fingerprints the earliest are kept. That matters for the optimized variant only; the keys of the
plain one do not depend on the order of the chunks.
-/

namespace UniDedup.Node

/-! ## The number of features -/

/-- One feature where there is no ratio, or no more chunks than the ratio; else the number of chunks over
the ratio, rounded to the nearest number, the lower of two. -/
def IsSampleNum (ratio c k : ℕ) : Prop :=
  if ratio = 0 ∨ c ≤ ratio then k = 1 else 2 * c ≤ (2 * k + 1) * ratio ∧ 2 * k * ratio < 2 * c + ratio

theorem featureNum_isSampleNum (ratio c : ℕ) : IsSampleNum ratio c (featureNum ratio c) := by
  rw [IsSampleNum, featureNum]
  by_cases hone : ratio = 0 ∨ c ≤ ratio
  · rw [if_pos hone, if_neg]
    omega
  · have hmany : ratio ≠ 0 ∧ ratio < c := by omega
    rw [if_neg hone, if_pos hmany]
    have hc := Nat.div_add_mod c ratio
    have hmod := Nat.mod_lt c (Nat.pos_of_ne_zero hmany.1)
    split_ifs with hround
    · have hk : (2 * (c / ratio + 1) + 1) * ratio = 2 * (ratio * (c / ratio)) + 3 * ratio := by ring
      have hk' : 2 * (c / ratio + 1) * ratio = 2 * (ratio * (c / ratio)) + 2 * ratio := by ring
      omega
    · have hk : (2 * (c / ratio) + 1) * ratio = 2 * (ratio * (c / ratio)) + ratio := by ring
      have hk' : 2 * (c / ratio) * ratio = 2 * (ratio * (c / ratio)) := by ring
      omega

theorem featureNum_le {ratio c : ℕ} (h : 0 < c) : featureNum ratio c ≤ c := by
  rw [featureNum]
  split_ifs with hmany hround
  · have hc := Nat.div_add_mod c ratio
    have hmod := Nat.mod_lt c (Nat.pos_of_ne_zero hmany.1)
    have htwo : 2 * (c / ratio) ≤ ratio * (c / ratio) := Nat.mul_le_mul_right _ (by omega)
    omega
  · exact Nat.div_le_self c ratio
  · exact h

/-! ## The loop -/

theorem insertCandidate_eq (x : Fingerprint × Fingerprint) (l : List (Fingerprint × Fingerprint)) :
    insertCandidate x l = insertBehind Fingerprint.cmp Prod.fst x l := by
  induction l with
  | nil => rfl
  | cons y l ih => rw [insertCandidate, insertBehind, ih]

theorem selectCandidate_eq (num : ℕ) :
    selectCandidate num = keepSmallest Fingerprint.cmp Prod.fst num := by
  funext kept x
  rw [selectCandidate, keepSmallest, insertCandidate_eq]

theorem length_dataFps (chunks : List Chunk) : (dataFps chunks).length = chunkNum chunks := by
  rw [chunkNum_eq, dataChunks, dataFps, List.length_map]

theorem before_lt {n : ℕ} (i : Fin n) : i.val - min 8 i.val < n :=
  Nat.lt_of_le_of_lt (Nat.sub_le _ _) i.isLt

/-- The fingerprint that stands `min 8 i` chunks before the one at position `i`. -/
def before (fps : List Fingerprint) (i : Fin fps.length) : Fingerprint :=
  fps.get ⟨i.val - min 8 i.val, before_lt i⟩

theorem optimizedMinCandidates_eq (fps : List Fingerprint) :
    optimizedMinCandidates fps = (List.finRange fps.length).map fun i ↦ (fps.get i, before fps i) := by
  refine List.ext_getElem (by simp [optimizedMinCandidates]) fun i hi hi' ↦ ?_
  have hlt : i < fps.length := by simpa [optimizedMinCandidates] using hi
  have hmin : i - min 8 i = i - 8 := by omega
  simp only [optimizedMinCandidates, List.getElem_map, List.getElem_zipIdx, List.getElem_finRange, before,
    List.get_eq_getElem, Fin.val_cast, Nat.zero_add]
  rw [List.getElem?_eq_getElem (Nat.lt_of_le_of_lt (Nat.sub_le i 8) hlt), Option.getD_some]
  simp only [hmin]

section

variable {cfg : Config} {chunks : List Chunk}

/-- What the loop keeps of the fingerprints. -/
def smallestFps (cfg : Config) (chunks : List Chunk) : List Fingerprint :=
  (dataFps chunks).foldl
    (keepSmallest Fingerprint.cmp id (featureNum cfg.samplingRatio (chunkNum chunks))) []

/-- The positions of what the loop keeps. -/
def smallestPositions (cfg : Config) (chunks : List Chunk) : List (Fin (dataFps chunks).length) :=
  (List.finRange (dataFps chunks).length).foldl (keepSmallest Fingerprint.cmp (dataFps chunks).get
    (featureNum cfg.samplingRatio (chunkNum chunks))) []

theorem areSmallest_smallestFps : ∃ rest, AreSmallest Fingerprint.cmp id (fun _ _ ↦ True)
    (featureNum cfg.samplingRatio (chunkNum chunks)) (dataFps chunks) (smallestFps cfg chunks) rest :=
  areSmallest_foldl (List.pairwise_of_forall fun _ _ ↦ trivial)

theorem areSmallest_smallestPositions : ∃ rest, AreSmallest Fingerprint.cmp (dataFps chunks).get (· < ·)
    (featureNum cfg.samplingRatio (chunkNum chunks)) (List.finRange (dataFps chunks).length)
    (smallestPositions cfg chunks) rest :=
  areSmallest_foldl (List.pairwise_lt_finRange _)

theorem length_of_areSmallest {α : Type*} {key : α → Fingerprint} {first : α → α → Prop}
    {l kept rest : List α} (hc : 0 < chunkNum chunks) (hlen : l.length = chunkNum chunks)
    (h : AreSmallest Fingerprint.cmp key first (featureNum cfg.samplingRatio (chunkNum chunks)) l kept rest) :
    kept.length = featureNum cfg.samplingRatio (chunkNum chunks) := by
  rw [h.length, hlen]
  exact Nat.min_eq_left (featureNum_le hc)

theorem samplingMin_eq {candidates : List Fingerprint → List (Fingerprint × Fingerprint)}
    (hc : 0 < chunkNum chunks) {selected : List (Fingerprint × Fingerprint)} (hne : selected ≠ [])
    (h : (candidates (dataFps chunks)).foldl (keepSmallest Fingerprint.cmp Prod.fst
      (featureNum cfg.samplingRatio (chunkNum chunks))) [] = selected) :
    samplingMin cfg candidates chunks (chunkNum chunks) = keysOf cfg (selected.map Prod.snd) := by
  rw [samplingMin, if_neg hc.ne']
  rw [selectCandidate_eq, h, if_neg hne]

theorem samplingMin_minCandidates (hc : 0 < chunkNum chunks) :
    samplingMin cfg minCandidates chunks (chunkNum chunks) = keysOf cfg (smallestFps cfg chunks) := by
  obtain ⟨rest, hsmallest⟩ := @areSmallest_smallestFps cfg chunks
  have hlen := length_of_areSmallest hc (length_dataFps chunks) hsmallest
  have hne : smallestFps cfg chunks ≠ [] := by
    rw [← List.length_pos_iff, hlen]
    exact featureNum_pos _ _
  have hmap := foldl_keepSmallest_map Fingerprint.cmp Prod.fst
    (featureNum cfg.samplingRatio (chunkNum chunks)) (fun fp : Fingerprint ↦ (fp, fp)) (dataFps chunks) []
  have hselected : (minCandidates (dataFps chunks)).foldl (keepSmallest Fingerprint.cmp Prod.fst
      (featureNum cfg.samplingRatio (chunkNum chunks))) [] =
        (smallestFps cfg chunks).map fun fp ↦ (fp, fp) := hmap.symm
  rw [samplingMin_eq hc (by simpa using hne) hselected, List.map_map]
  exact congrArg (keysOf cfg) (List.map_id _)

theorem samplingMin_optimizedMinCandidates (hc : 0 < chunkNum chunks) :
    samplingMin cfg optimizedMinCandidates chunks (chunkNum chunks) =
      keysOf cfg ((smallestPositions cfg chunks).map (before (dataFps chunks))) := by
  obtain ⟨rest, hsmallest⟩ := @areSmallest_smallestPositions cfg chunks
  have hlen := length_of_areSmallest hc (List.length_finRange.trans (length_dataFps chunks)) hsmallest
  have hne : smallestPositions cfg chunks ≠ [] := by
    rw [← List.length_pos_iff, hlen]
    exact featureNum_pos _ _
  have hmap := foldl_keepSmallest_map Fingerprint.cmp Prod.fst
    (featureNum cfg.samplingRatio (chunkNum chunks))
    (fun i ↦ ((dataFps chunks).get i, before (dataFps chunks) i)) (List.finRange (dataFps chunks).length) []
  rw [← optimizedMinCandidates_eq] at hmap
  have hselected : (optimizedMinCandidates (dataFps chunks)).foldl (keepSmallest Fingerprint.cmp Prod.fst
      (featureNum cfg.samplingRatio (chunkNum chunks))) [] =
        (smallestPositions cfg chunks).map fun i ↦ ((dataFps chunks).get i, before (dataFps chunks) i) :=
    hmap.symm
  rw [samplingMin_eq hc (by simpa using hne) hselected, List.map_map]
  rfl

theorem smallestFps_perm {chunks' : List Chunk} (h : chunks'.Perm chunks) :
    smallestFps cfg chunks' = smallestFps cfg chunks := by
  have hnum : chunkNum chunks' = chunkNum chunks := h.countP_eq _
  have hfps : (dataFps chunks').Perm (dataFps chunks) := (h.filter _).map _
  rw [smallestFps, smallestFps, hnum]
  exact foldl_keepSmallest_perm (fun _ _ ↦ Fingerprint.eq_of_cmp_eq) hfps

end

/-- What min-sampling is to select from a segment: the keys of the `k` smallest fingerprints, in whatever
order the chunks come; in the optimized variant the keys of the fingerprints before the `k` smallest. -/
def SamplesSmallest (cfg : Config) (chunks : List Chunk) : Prop :=
  ∃ k, IsSampleNum cfg.samplingRatio (chunkNum chunks) k ∧
    (cfg.samplingMethod = .min → ∃ keys fps rest,
      sampling cfg chunks (chunkNum chunks) = .ok keys ∧ keys.Nodup ∧ fps.length = k ∧
      AreSmallest Fingerprint.cmp id (fun _ _ ↦ True) k (dataFps chunks) fps rest ∧
      (∀ key, key ∈ keys ↔ ∃ fp ∈ fps, keyOf cfg fp = key) ∧
      ∀ chunks', chunks'.Perm chunks → sampling cfg chunks' (chunkNum chunks') = .ok keys) ∧
    (cfg.samplingMethod = .optimizedMin → ∃ keys positions rest,
      sampling cfg chunks (chunkNum chunks) = .ok keys ∧ keys.Nodup ∧ positions.length = k ∧
      AreSmallest Fingerprint.cmp (dataFps chunks).get (· < ·) k (List.finRange (dataFps chunks).length)
        positions rest ∧
      ∀ key, key ∈ keys ↔ ∃ i ∈ positions, keyOf cfg (before (dataFps chunks) i) = key)

/-- **Min-sampling selects the smallest fingerprints** of a segment with chunks. -/
theorem sampling_smallest (cfg : Config) (chunks : List Chunk) (hc : 0 < chunkNum chunks) :
    SamplesSmallest cfg chunks := by
  refine ⟨_, featureNum_isSampleNum _ _, fun hmin ↦ ?_, fun hopt ↦ ?_⟩
  · obtain ⟨rest, hsmallest⟩ := @areSmallest_smallestFps cfg chunks
    have hsampling : ∀ chunks', sampling cfg chunks' (chunkNum chunks') =
        .ok (samplingMin cfg minCandidates chunks' (chunkNum chunks')) := fun _ ↦ by rw [sampling, hmin]
    refine ⟨_, _, rest, ?_, keysOf_nodup _ _, length_of_areSmallest hc (length_dataFps chunks) hsmallest,
      hsmallest, fun key ↦ mem_keysOf, fun chunks' hperm ↦ ?_⟩
    · rw [hsampling, samplingMin_minCandidates hc]
    · have hnum : chunkNum chunks' = chunkNum chunks := hperm.countP_eq _
      rw [hsampling, samplingMin_minCandidates (hnum ▸ hc), smallestFps_perm hperm]
  · obtain ⟨rest, hsmallest⟩ := @areSmallest_smallestPositions cfg chunks
    have hlen := length_of_areSmallest hc (List.length_finRange.trans (length_dataFps chunks)) hsmallest
    refine ⟨keysOf cfg ((smallestPositions cfg chunks).map (before (dataFps chunks))), _, rest, ?_,
      keysOf_nodup _ _, hlen, hsmallest, fun key ↦ ?_⟩
    · rw [sampling, hopt]
      exact congrArg Except.ok (samplingMin_optimizedMinCandidates hc)
    · simp only [mem_keysOf, List.mem_map, exists_exists_and_eq_and]

/-- Eleven chunks and a ratio of five, so two fingerprints are kept: the 0, and of the two 1 the earlier one. The optimized
variant takes what stands eight chunks before the 0, and the first chunk for the 1. -/
theorem sampling_smallest_ties :
    let chunks : List Chunk := ([7, 3, 1, 9, 5, 4, 6, 8, 2, 0, 1] : List UInt8).map fun b ↦
      { Chunk.new .normal [] with fp := Fingerprint.fill b }
    let minCfg := { Config.start with samplingMethod := .min, samplingRatio := 5 }
    let optCfg := { Config.start with samplingMethod := .optimizedMin, samplingRatio := 5 }
    sampling minCfg chunks 11 = .ok (keysOf minCfg [Fingerprint.fill 0, Fingerprint.fill 1]) ∧
      sampling optCfg chunks 11 = .ok (keysOf optCfg [Fingerprint.fill 3, Fingerprint.fill 7]) ∧
      SamplesSmallest minCfg chunks ∧ SamplesSmallest optCfg chunks := by
  intro chunks minCfg optCfg
  exact ⟨by decide +kernel, by decide +kernel, sampling_smallest minCfg chunks (by decide),
    sampling_smallest optCfg chunks (by decide)⟩

end UniDedup.Node
