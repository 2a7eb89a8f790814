import UniDedup.Node.FilterLoop

/-!
# Writing the recipe of a segment

The filter thread writes the pointers of a segment between two flags while it follows the file markers
of the stream; `Bracketed` says where these may stand. The contents of a stream, the kinds,
fingerprints and data of its chunks, are what no phase changes.
-/

namespace UniDedup.Node

open Outcome

/-! ## The contents of a stream -/

def Chunk.content (c : Chunk) : Kind × Fingerprint × Bytes := (c.kind, c.fp, c.data)

/-- The fingerprints and the data of the chunks of a stream. -/
def body (cs : List Chunk) : List (Fingerprint × Bytes) := (dataChunks cs).map fun c ↦ (c.fp, c.data)

@[simp] theorem body_append (cs ds : List Chunk) : body (cs ++ ds) = body cs ++ body ds := by
  simp [body]

theorem body_eq_filterMap (cs : List Chunk) :
    body cs = ((cs.map Chunk.content).filter fun p ↦
      !(p.1 == .fileStart || p.1 == .fileEnd)).map Prod.snd := by
  simp only [body, dataChunks, List.filter_map, List.map_map]
  rfl

theorem body_congr {cs cs' : List Chunk} (h : cs'.map Chunk.content = cs.map Chunk.content) :
    body cs' = body cs := by
  rw [body_eq_filterMap, body_eq_filterMap, h]

theorem kinds_congr {cs cs' : List Chunk} (h : cs'.map Chunk.content = cs.map Chunk.content) :
    cs'.map Chunk.kind = cs.map Chunk.kind := by
  have := congrArg (List.map Prod.fst) h
  simpa [Chunk.content, Function.comp_def] using this

theorem chunkNum_congr {cs cs' : List Chunk} (h : cs'.map Chunk.content = cs.map Chunk.content) :
    chunkNum cs' = chunkNum cs := by
  have := congrArg List.length (body_congr h)
  simpa [body, chunkNum_eq] using this

theorem map_content_eq {R : Chunk → Chunk → Prop} (hR : ∀ c c', R c c' → c'.content = c.content)
    {cs cs' : List Chunk} (h : List.Forall₂ R cs cs') :
    cs'.map Chunk.content = cs.map Chunk.content := by
  induction h with
  | nil => rfl
  | cons hc _ ih => rw [List.map_cons, List.map_cons, hR _ _ hc, ih]

theorem Chunk.LookedUp.content {c c' : Chunk} (h : c.LookedUp c') : c'.content = c.content := by
  rw [h]
  rfl

theorem Chunk.Marks.content {cfg : Config} {c c' : Chunk} (h : c.Marks cfg c') :
    c'.content = c.content := by
  rw [h.eq]
  rfl

theorem Chunk.Filtered.content {c c' : Chunk} (h : c.Filtered c') : c'.content = c.content := by
  rw [h]
  rfl

/-! ## File markers -/

/-- The kinds of the rest of a stream of files, where `inFile` says that a file has been started. -/
def Bracketed : Bool → List Kind → Prop
  | inFile, [] => inFile = false
  | false, k :: ks => k = .fileStart ∧ Bracketed true ks
  | true, k :: ks => k = .fileEnd ∧ Bracketed false ks ∨ k = .normal ∧ Bracketed true ks

theorem bracketed_stream (sha1 : Bytes → Fingerprint) (files : List File) :
    Bracketed false ((stream sha1 files).map Chunk.kind) := by
  have hdata : ∀ (ds : List Bytes) (ks : List Kind), Bracketed false ks →
      Bracketed true ((ds.map (Chunk.hashed sha1)).map Chunk.kind ++ .fileEnd :: ks) := by
    intro ds ks hks
    induction ds with
    | nil => exact .inl ⟨rfl, hks⟩
    | cons d ds ih => exact .inr ⟨rfl, ih⟩
  induction files with
  | nil => rfl
  | cons f files ih =>
    have hf := hdata f.chunks _ ih
    simp only [stream, List.flatMap_cons, File.stream, List.cons_append, List.append_assoc,
      List.map_cons, List.map_append, List.nil_append]
    exact ⟨rfl, hf⟩

/-! ## Records -/

def Chunk.pointer (c : Chunk) : ChunkPointer := ⟨c.fp, c.id, c.size⟩

def segmentRecords (cs : List Chunk) : List ChunkPointer :=
  .flag segmentStartId (chunkNum cs) :: ((dataChunks cs).map Chunk.pointer ++ [.flag segmentEndId 0])

/-- The records of a recipe that are no flags. -/
def BackupVersion.pointers (b : BackupVersion) : List ChunkPointer :=
  b.recipe.filter fun cp ↦ cp.id ≠ segmentStartId ∧ cp.id ≠ segmentEndId

theorem filter_segmentRecords {cs : List Chunk} (h : ∀ c ∈ dataChunks cs, 0 ≤ c.id) :
    (segmentRecords cs).filter (fun cp ↦ cp.id ≠ segmentStartId ∧ cp.id ≠ segmentEndId) =
      (dataChunks cs).map Chunk.pointer := by
  have hall : ((dataChunks cs).map Chunk.pointer).filter
      (fun cp ↦ cp.id ≠ segmentStartId ∧ cp.id ≠ segmentEndId) = (dataChunks cs).map Chunk.pointer := by
    rw [List.filter_eq_self]
    intro cp hcp
    obtain ⟨c, hc, rfl⟩ := List.mem_map.mp hcp
    have hpos := h c hc
    refine decide_eq_true (p := _ ∧ _) ⟨?_, ?_⟩
    · change c.id ≠ -4
      omega
    · change c.id ≠ -8
      omega
  rw [segmentRecords, List.filter_cons_of_neg (by simp [ChunkPointer.flag]), List.filter_append, hall,
    List.filter_cons_of_neg (by simp [ChunkPointer.flag])]
  simp

namespace Core

/-- Writing the recipe of a segment touches nothing else. -/
structure Records (core core' : Core) : Prop where
  frame : core' = { core with
    bv := core'.bv, accessRecord := core'.accessRecord, fileRecipe := core'.fileRecipe }
  bvNum : core'.bv.bvNum = core.bv.bvNum

theorem Records.refl (core : Core) : core.Records core := ⟨rfl, rfl⟩

theorem Records.trans {core core' core'' : Core} (h : core.Records core') (h' : core'.Records core'') :
    core.Records core'' where
  frame := by
    have h₁ := h.frame
    have h₂ := h'.frame
    rw [h₁] at h₂
    exact h₂
  bvNum := h'.bvNum.trans h.bvNum

theorem records_setBv {core : Core} {b : BackupVersion} (h : b.bvNum = core.bv.bvNum) :
    core.Records { core with bv := b } := ⟨rfl, h⟩

/-- What the loop over the chunks of a segment leaves behind. -/
structure Recording (cs : List Chunk) (ks : List Kind) (core core' : Core) : Prop where
  records : core.Records core'
  recipe : core'.bv.recipe = core.bv.recipe
  segmentbuf : core'.bv.segmentbuf = core.bv.segmentbuf ++ (dataChunks cs).map Chunk.pointer
  bracketed : Bracketed core'.fileRecipe.isSome ks

theorem post_writeRecipe {core : Core} {c : Chunk} {ks : List Kind}
    (hb : Bracketed core.fileRecipe.isSome (c.kind :: ks)) (hid : c.isFileMarker = false → 0 ≤ c.id) :
    Post (core.writeRecipe c) (Recording [c] ks core) fun _ ↦ False := by
  unfold writeRecipe
  cases hr : core.fileRecipe with
  | none =>
    rw [hr] at hb
    obtain ⟨hk, hks⟩ := hb
    refine (post_check fun h ↦ h hk).bind fun _ _ ↦ ⟨⟨rfl, rfl⟩, rfl, ?_, hks⟩
    simp [dataChunks, Chunk.isFileMarker, hk]
  | some r =>
    rw [hr] at hb
    rcases hb with ⟨hk, hks⟩ | ⟨hk, hks⟩
    · have hdata : dataChunks [c] = [] := by simp [dataChunks, Chunk.isFileMarker, hk]
      simp only [hk, ne_eq, not_true_eq_false, if_false]
      exact ⟨⟨rfl, rfl⟩, rfl, by simp [hdata, BackupVersion.appendFileRecipeMeta], hks⟩
    · have hm : c.isFileMarker = false := by simp [Chunk.isFileMarker, hk]
      have hdata : dataChunks [c] = [c] := by simp [dataChunks, hm]
      simp only [hk, ne_eq, reduceCtorEq, not_false_eq_true, if_true]
      refine (post_check fun h ↦ h (hid hm)).bind fun _ _ ↦ ⟨⟨rfl, rfl⟩, rfl, ?_, hks⟩
      rw [hdata]
      rfl

theorem post_writeRecipes {ks : List Kind} : ∀ {cs : List Chunk} {core : Core},
    Bracketed core.fileRecipe.isSome (cs.map Chunk.kind ++ ks) → (∀ c ∈ dataChunks cs, 0 ≤ c.id) →
    Post (cs.foldlM writeRecipe core) (Recording cs ks core) fun _ ↦ False
  | [], core, hb, _ => ⟨.refl core, rfl, by simp [dataChunks], hb⟩
  | c :: cs, core, hb, hid => by
    rw [List.foldlM_cons]
    refine (post_writeRecipe hb fun hm ↦ hid c ?_).bind fun core₁ h₁ ↦ ?_
    · simp [dataChunks_cons_data hm]
    refine (post_writeRecipes h₁.bracketed fun c' hc' ↦ hid c' ?_).mono (fun core₂ h₂ ↦ ?_) fun _ h ↦ h
    · rw [mem_dataChunks] at hc' ⊢
      exact ⟨List.mem_cons_of_mem _ hc'.1, hc'.2⟩
    · refine ⟨h₁.records.trans h₂.records, h₂.recipe.trans h₁.recipe, ?_, h₂.bracketed⟩
      rw [h₂.segmentbuf, h₁.segmentbuf, List.append_assoc, ← List.map_append, ← dataChunks_append]
      rfl

/-- What writing the recipe of a segment leaves behind. -/
structure Recorded (core : Core) (cs : List Chunk) (ks : List Kind) (r : ℤ × Core) : Prop where
  records : core.Records r.2
  recipe : r.2.bv.recipe = core.bv.recipe ++ segmentRecords cs
  bracketed : Bracketed r.2.fileRecipe.isSome ks
  id : r.1 = makeSegmentId core.bv.bvNum (recordSize * core.bv.recipe.length : ℕ) (chunkNum cs)

/-- **The recipe of a segment** is written without an assertion failing. -/
theorem post_writeSegmentRecipe {core : Core} {cs : List Chunk} {ks : List Kind}
    (hb : Bracketed core.fileRecipe.isSome (cs.map Chunk.kind ++ ks))
    (hid : ∀ c ∈ dataChunks cs, 0 ≤ c.id) :
    Post (core.writeSegmentRecipe cs) (Recorded core cs ks) fun _ ↦ False := by
  unfold writeSegmentRecipe
  refine Post.bind (post_writeRecipes hb hid) fun core₁ h₁ ↦ ?_
  have hstart : core.Records { core with bv := (core.bv.appendSegmentStart (chunkNum cs)).2 } :=
    records_setBv rfl
  refine ⟨(hstart.trans h₁.records).trans (records_setBv rfl), ?_, h₁.bracketed, ?_⟩
  · simp [BackupVersion.appendSegmentEnd, h₁.recipe, h₁.segmentbuf, segmentRecords]
  · dsimp only

/-- **The rule for the index of segments.** With logical locality the features of the segment are
entered in the key-value store. -/
theorem post_updateSegmentIndex {cfg : Config} {core : Core} {t : Tables} {cs : List Chunk} {sid : ℤ}
    {Q : Core → Prop} {E : FilterAbort → Prop}
    (hok : ∀ kv, (cfg.locality = .physical → kv = core.kv) →
      (cfg.locality = .logical → ∃ features, sampling cfg cs (chunkNum cs) = .ok features ∧
        kv = core.kv.updateAll cfg (features ++ storedFeatures cfg t).dedup sid) →
      Q { core with kv := kv })
    (herr : ∀ e, E (.sampling e)) : Post (core.updateSegmentIndex cfg t cs sid) Q E := by
  unfold updateSegmentIndex
  split_ifs with hlog
  · cases hs : sampling cfg cs (chunkNum cs) with
    | error e => exact herr e
    | ok features => exact hok _ (fun hphys ↦ by simp [hlog] at hphys) fun _ ↦ ⟨features, hs, rfl⟩
  · exact hok core.kv (fun _ ↦ rfl) fun h ↦ absurd h hlog

end Core

end UniDedup.Node
