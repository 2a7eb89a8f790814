import UniDedup.Node.Record

/-!
# Features of the sampled chunks

The sampling methods take features from chunks, but two things get in the way: where nothing is
selected a fixed key stands in, and uniform sampling counts file markers, whose fingerprint is zero.
`SamplesData` excludes both; then every feature is the key of one of the chunks.
-/

namespace UniDedup.Node

open Outcome

/-- Something is sampled, and nothing but chunks. -/
def SamplesData (cfg : Config) (cs : List Chunk) : Prop :=
  match cfg.samplingMethod with
  | .min => dataFps cs ≠ []
  | .optimizedMin => dataFps cs ≠ []
  | .random => randomFps cfg cs ≠ []
  | .uniform => cs ≠ [] ∧ ∀ c ∈ uniformChunks cfg cs, c.isFileMarker = false

instance (cfg : Config) (cs : List Chunk) : Decidable (SamplesData cfg cs) := by
  unfold SamplesData
  split <;> infer_instance

/-! ## The contents decide -/

theorem dataFps_eq (cs : List Chunk) : dataFps cs = (body cs).map Prod.fst := by
  simp [dataFps, body, dataChunks, Function.comp_def]

theorem content_uniformChunks (cfg : Config) (cs : List Chunk) :
    (uniformChunks cfg cs).map Chunk.content =
      (((cs.map Chunk.content).zipIdx.filter fun p ↦ p.2 % cfg.samplingRatio = 0).map Prod.fst) := by
  rw [uniformChunks, List.zipIdx_map, List.filter_map, List.map_map, List.map_map]
  rfl

theorem samplesData_congr {cfg : Config} {cs cs' : List Chunk}
    (h : cs'.map Chunk.content = cs.map Chunk.content) (hs : SamplesData cfg cs) :
    SamplesData cfg cs' := by
  have hfps : dataFps cs' = dataFps cs := by rw [dataFps_eq, dataFps_eq, body_congr h]
  have hnil : cs' = [] ↔ cs = [] := by
    rw [← List.map_eq_nil_iff (f := Chunk.content), h, List.map_eq_nil_iff]
  unfold SamplesData at hs ⊢
  split at hs
  · exact hfps ▸ hs
  · exact hfps ▸ hs
  · rw [randomFps, hfps]
    exact hs
  · refine ⟨fun hn ↦ hs.1 (hnil.mp hn), fun c' hc' ↦ ?_⟩
    have hmem : c'.content ∈ (uniformChunks cfg cs).map Chunk.content := by
      rw [content_uniformChunks, ← h, ← content_uniformChunks]
      exact List.mem_map_of_mem hc'
    obtain ⟨c, hc, heq⟩ := List.mem_map.mp hmem
    have hkind : c.kind = c'.kind := congrArg Prod.fst heq
    have := hs.2 c hc
    rwa [Chunk.isFileMarker, hkind] at this

/-! ## The selection of the smallest -/

theorem mem_insertCandidate {x y : Fingerprint × Fingerprint} : ∀ {l : List (Fingerprint × Fingerprint)},
    y ∈ insertCandidate x l → y = x ∨ y ∈ l
  | [], h => .inl (List.mem_singleton.mp h)
  | z :: l, h => by
    unfold insertCandidate at h
    split_ifs at h
    · exact List.mem_cons.mp h
    · rcases List.mem_cons.mp h with rfl | h
      · exact .inr List.mem_cons_self
      · exact (mem_insertCandidate h).imp_right (List.mem_cons_of_mem _)

theorem length_insertCandidate (x : Fingerprint × Fingerprint) :
    ∀ l : List (Fingerprint × Fingerprint), (insertCandidate x l).length = l.length + 1
  | [] => rfl
  | y :: l => by
    unfold insertCandidate
    split_ifs
    · rfl
    · simp [length_insertCandidate x l]

theorem mem_selectCandidate {num : ℕ} {candidates : List (Fingerprint × Fingerprint)}
    {x y : Fingerprint × Fingerprint} (h : y ∈ selectCandidate num candidates x) :
    y = x ∨ y ∈ candidates := by
  unfold selectCandidate at h
  dsimp only at h
  split_ifs at h
  · exact mem_insertCandidate (List.dropLast_subset _ h)
  · exact mem_insertCandidate h
  · exact .inr h

theorem selectCandidate_ne_nil {num : ℕ} (hnum : 0 < num)
    {candidates : List (Fingerprint × Fingerprint)} (x : Fingerprint × Fingerprint) :
    selectCandidate num candidates x ≠ [] := by
  have hlen := length_insertCandidate x candidates
  unfold selectCandidate
  dsimp only
  split_ifs with hsel hfull
  · rw [ne_eq, ← List.length_eq_zero_iff, List.length_dropLast]
    omega
  · rw [ne_eq, ← List.length_eq_zero_iff]
    omega
  · -- A full selection is not empty.
    rintro rfl
    simp [hnum] at hsel

theorem mem_foldl_selectCandidate {num : ℕ} {y : Fingerprint × Fingerprint} :
    ∀ {l candidates : List (Fingerprint × Fingerprint)},
    y ∈ l.foldl (selectCandidate num) candidates → y ∈ candidates ∨ y ∈ l
  | [], _, h => .inl h
  | x :: l, candidates, h => by
    rcases mem_foldl_selectCandidate (l := l) h with h | h
    · rcases mem_selectCandidate h with rfl | h
      · exact .inr List.mem_cons_self
      · exact .inl h
    · exact .inr (List.mem_cons_of_mem _ h)

theorem foldl_selectCandidate_ne_nil {num : ℕ} (hnum : 0 < num) :
    ∀ {l candidates : List (Fingerprint × Fingerprint)}, l ≠ [] →
    l.foldl (selectCandidate num) candidates ≠ []
  | [x], _, _ => selectCandidate_ne_nil hnum x
  | x :: y :: l, candidates, _ => foldl_selectCandidate_ne_nil hnum (l := y :: l) (by simp)

theorem samplingMin_own {cfg : Config} {candidates : List Fingerprint → List (Fingerprint × Fingerprint)}
    {cs : List Chunk} (n : ℕ) (hown : ∀ x ∈ candidates (dataFps cs), x.2 ∈ dataFps cs)
    (hne : candidates (dataFps cs) ≠ []) :
    ∀ k ∈ samplingMin cfg candidates cs n, ∃ fp ∈ dataFps cs, keyOf cfg fp = k := by
  unfold samplingMin
  dsimp only
  rw [if_neg (foldl_selectCandidate_ne_nil (featureNum_pos _ _) hne)]
  intro k hk
  obtain ⟨fp, hfp, rfl⟩ := mem_keysOf.mp hk
  obtain ⟨x, hx, rfl⟩ := List.mem_map.mp hfp
  rcases mem_foldl_selectCandidate hx with hx | hx
  · cases hx
  · exact ⟨x.2, hown x hx, rfl⟩

theorem sampling_nodup {cfg : Config} {cs : List Chunk} {n : ℕ} {features : List Key}
    (hs : sampling cfg cs n = .ok features) : features.Nodup := by
  have hmin : ∀ candidates, (samplingMin cfg candidates cs n).Nodup := by
    intro candidates
    unfold samplingMin
    extract_lets num selected
    split_ifs
    · exact List.nodup_singleton _
    · exact keysOf_nodup _ _
  unfold sampling at hs
  split at hs
  · cases hs
    exact hmin _
  · cases hs
    exact hmin _
  · simp only [bind_eq_ok] at hs
    obtain ⟨_, -, hs⟩ := hs
    cases hs
    split_ifs
    · exact List.nodup_singleton _
    · exact keysOf_nodup _ _
  · simp only [bind_eq_ok] at hs
    obtain ⟨_, -, hs⟩ := hs
    split_ifs at hs
    · obtain ⟨_, -, hs⟩ := bind_eq_ok.mp hs
      cases hs
      exact List.nodup_singleton _
    · cases hs
      exact keysOf_nodup _ _

/-- **Every feature is the key of a chunk.** -/
theorem sampling_own {cfg : Config} {cs : List Chunk} {n : ℕ} {features : List Key}
    (h : SamplesData cfg cs) (hs : sampling cfg cs n = .ok features) :
    ∀ k ∈ features, ∃ fp ∈ dataFps cs, keyOf cfg fp = k := by
  unfold SamplesData at h
  unfold sampling at hs
  cases hm : cfg.samplingMethod with
  | min =>
    rw [hm] at h hs
    cases hs
    refine samplingMin_own n (fun x hx ↦ ?_) (by simpa [minCandidates] using h)
    obtain ⟨fp, hfp, rfl⟩ := List.mem_map.mp hx
    exact hfp
  | optimizedMin =>
    rw [hm] at h hs
    cases hs
    refine samplingMin_own n (fun x hx ↦ ?_) (by simpa [optimizedMinCandidates] using h)
    obtain ⟨⟨fp, i⟩, hfp, rfl⟩ := List.mem_map.mp hx
    dsimp only
    cases hget : (dataFps cs)[i - 8]? with
    | none => exact List.fst_mem_of_mem_zipIdx hfp
    | some fp' => exact List.mem_of_getElem? hget
  | random =>
    rw [hm] at h hs
    simp only [bind_eq_ok] at hs
    obtain ⟨_, -, hs⟩ := hs
    rw [if_neg h] at hs
    cases hs
    intro k hk
    obtain ⟨fp, hfp, rfl⟩ := mem_keysOf.mp hk
    exact ⟨fp, (List.mem_filter.mp hfp).1, rfl⟩
  | uniform =>
    rw [hm] at h hs
    simp only [bind_eq_ok] at hs
    obtain ⟨_, -, hs⟩ := hs
    have hne : (uniformChunks cfg cs).map Chunk.fp ≠ [] := by
      obtain ⟨c, cs', rfl⟩ := List.exists_cons_of_ne_nil h.1
      simp [uniformChunks]
    rw [if_neg hne] at hs
    cases hs
    intro k hk
    obtain ⟨fp, hfp, rfl⟩ := mem_keysOf.mp hk
    obtain ⟨c, hc, rfl⟩ := List.mem_map.mp hfp
    refine ⟨c.fp, ?_, rfl⟩
    have hmem : c ∈ cs := by
      obtain ⟨⟨c', i⟩, hp, rfl⟩ := List.mem_map.mp hc
      exact List.fst_mem_of_mem_zipIdx (List.mem_filter.mp hp).1
    exact List.mem_map.mpr ⟨c, List.mem_filter.mpr ⟨hmem, by simp [h.2 c hc]⟩, rfl⟩

end UniDedup.Node
