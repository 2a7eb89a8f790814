import UniDedup.Node.Features
import UniDedup.Node.KeyValue
import UniDedup.Node.Layout
import UniDedup.Node.Safety

/-!
# The index of segments

With logical locality the key-value store has the ids of segments. As long as segments are sampled from
their own chunks and the fields of their ids do not overflow, every id in the store is that of a
segment of some version, under the key of one of the chunks of the segment. A deletion looks for the
ids of the segments of its version under the keys of their chunks, so none is left behind.
-/

namespace UniDedup.Node

open Outcome Transition

/-! ## Filtering leaves the store alone -/

section KeyValueStore

variable {cfg : Config} {core : Core} {t : Core.Tables} {c : Chunk}

theorem post_storeChunk_kv (hlog : cfg.locality = .logical) (c : Chunk) :
    Post (core.storeChunk cfg t c) (fun r ↦ r.1.kv = core.kv) fun _ ↦ True := by
  refine Core.post_storeChunk (I := fun core' ↦ core'.kv = core.kv)
    (fun _ h _ ↦ h) (fun core' con h _ _ ↦ ?_) (fun core' con h _ ↦ ?_) rfl
  · exact Core.post_submitContainer (fun kv hkv _ ↦ (hkv hlog).trans h) fun _ ↦ trivial
  · unfold Core.addChunk
    refine (post_check fun _ ↦ trivial).bind fun _ _ ↦ ?_
    split
    · exact h
    · exact (post_check fun _ ↦ trivial).bind fun _ _ ↦ h

theorem post_filterChunk_kv (hlog : cfg.locality = .logical) :
    Post (core.filterChunk cfg t c) (fun r ↦ r.1.kv = core.kv) fun _ ↦ True := by
  cases hm : c.isFileMarker with
  | true =>
    unfold Core.filterChunk
    rw [if_pos hm]
    exact rfl
  | false =>
    exact Core.post_filterChunk (P := fun r ↦ r.1.kv = core.kv) hm (fun _ ↦ trivial)
      (fun _ _ _ ↦ trivial) (fun b c₁ _ _ ↦ post_storeChunk_kv hlog c₁) (fun _ _ _ _ ↦ rfl)
      fun r hr ↦ ⟨fun _ ↦ trivial, hr⟩

/-- **With logical locality, the chunks of a segment change nothing in the store.** -/
theorem post_filterChunks_kv (hlog : cfg.locality = .logical) (cs : List Chunk) :
    Post (core.filterChunks cfg cs) (fun r ↦ r.1.kv = core.kv) fun _ ↦ True := by
  refine Core.post_filterChunks (I := fun _ _ _ core' _ ↦ core'.kv = core.kv) ?_ rfl
  intro done c todo out core' t h
  exact (post_filterChunk_kv hlog).mono (fun r hr ↦ hr.trans h) fun _ h ↦ h

theorem post_finalFlush_kv (hlog : cfg.locality = .logical) :
    Post (core.finalFlush cfg) (fun core' ↦ core'.kv = core.kv ∧ core'.bv = core.bv ∧
      core'.versions = core.versions) fun _ ↦ True := by
  exact Core.post_finalFlush ⟨rfl, rfl, rfl⟩ fun _ _ _ ↦
    Core.post_submitContainer (fun kv hkv _ ↦ ⟨hkv hlog, rfl, rfl⟩) fun _ ↦ trivial

end KeyValueStore

/-! ## The invariant -/

/-- Every id in the store is that of a segment, under the key of one of its chunks. -/
structure LogicalIndex (cfg : Config) (kv : KVStore) (versions : List BackupVersion) : Prop where
  tidy : kv.Tidy
  owned : ∀ key id, kv.Has key id → ∃ b ∈ versions, ∃ sr ∈ b.segments, sr.id = id ∧
    ∃ p ∈ sr.kvpairs, keyOf cfg p.1 = key
  addressable : ∀ b ∈ versions, Addressable b
  nodup : (versions.map BackupVersion.bvNum).Nodup
  bound : ∀ b ∈ versions, b.bvNum < versions.length

namespace LogicalIndex

variable {cfg : Config} {kv kv' : KVStore} {b b' : BackupVersion} {versions : List BackupVersion}

theorem create (h : LogicalIndex cfg kv versions) :
    LogicalIndex cfg kv (.create versions.length :: versions) where
  tidy := h.tidy
  owned key id hh := by
    obtain ⟨b, hb, hrest⟩ := h.owned key id hh
    exact ⟨b, List.mem_cons_of_mem _ hb, hrest⟩
  addressable b hb := by
    rcases List.mem_cons.mp hb with rfl | hb
    · exact ⟨⟨[], rfl, fun _ h ↦ by simp at h⟩, fun h ↦ absurd rfl h, Nat.zero_le _⟩
    · exact h.addressable b hb
  nodup := by
    rw [List.map_cons, List.nodup_cons]
    refine ⟨fun hmem ↦ ?_, h.nodup⟩
    obtain ⟨b, hb, heq⟩ := List.mem_map.mp hmem
    exact absurd heq (h.bound b hb).ne
  bound b hb := by
    rw [List.length_cons]
    rcases List.mem_cons.mp hb with rfl | hb
    · exact Nat.lt_succ_self _
    · exact (h.bound b hb).trans (Nat.lt_succ_self _)

/-- The version being written is replaced by one with the same recipe. -/
theorem congr (h : LogicalIndex cfg kv (b :: versions)) (hrecipe : b'.recipe = b.recipe)
    (hnum : b'.bvNum = b.bvNum) : LogicalIndex cfg kv (b' :: versions) := by
  have hsegments : b'.segments = b.segments := by
    rw [BackupVersion.segments, hrecipe, hnum]
    rfl
  exact
    { tidy := h.tidy
      owned := fun key id hh ↦ by
        obtain ⟨b₁, hb₁, hrest⟩ := h.owned key id hh
        rcases List.mem_cons.mp hb₁ with rfl | hb₁
        · exact ⟨b', List.mem_cons_self, by rw [hsegments]; exact hrest⟩
        · exact ⟨b₁, List.mem_cons_of_mem _ hb₁, hrest⟩
      addressable := fun b₁ hb₁ ↦ by
        rcases List.mem_cons.mp hb₁ with rfl | hb₁
        · obtain ⟨⟨pss, hl⟩, hlt, hoff⟩ := h.addressable b List.mem_cons_self
          exact ⟨⟨pss, by rw [hrecipe]; exact hl.recipe, hl.pointers⟩,
            fun hne ↦ by rw [hnum]; exact hlt (hrecipe ▸ hne), by rw [hrecipe]; exact hoff⟩
        · exact h.addressable b₁ (List.mem_cons_of_mem _ hb₁)
      nodup := by
        rw [List.map_cons, hnum]
        exact h.nodup
      bound := fun b₁ hb₁ ↦ by
        rcases List.mem_cons.mp hb₁ with rfl | hb₁
        · rw [hnum]
          exact h.bound b List.mem_cons_self
        · exact h.bound b₁ (List.mem_cons_of_mem _ hb₁) }

/-- **A segment is entered** under keys of its chunks. -/
theorem enter (h : LogicalIndex cfg kv (b :: versions)) (hb : b.bvNum < 2 ^ 16)
    {ps : List ChunkPointer} (hps : ∀ cp ∈ ps, 0 ≤ cp.id)
    (hlen : recordSize * (b.recipe.length + (ps.length + 2)) ≤ 2 ^ 32)
    (hrecipe : b'.recipe = b.recipe ++ segmentBlock ps) (hnum : b'.bvNum = b.bvNum)
    {features : List Key} (hf : features.Nodup)
    (hown : ∀ k ∈ features, ∃ cp ∈ ps, keyOf cfg cp.fp = k) :
    LogicalIndex cfg (kv.updateAll cfg features (segmentAt b.bvNum b.recipe.length ps).id)
      (b' :: versions) := by
  obtain ⟨⟨pss, hl⟩, -, -⟩ := h.addressable b List.mem_cons_self
  have hsegments := hl.segments_append hps hrecipe hnum
  have haddr : Addressable b' :=
    ⟨⟨_, hl.append hps hrecipe⟩, fun _ ↦ by rw [hnum]; exact hb, by
      rw [hrecipe, List.length_append, length_segmentBlock]
      exact hlen⟩
  have hnew : segmentAt b.bvNum b.recipe.length ps ∈ b'.segments := by simp [hsegments]
  have hnot : ∀ b₁ ∈ versions, b₁.bvNum ≠ b.bvNum := by
    intro b₁ hb₁ heq
    have := h.nodup
    rw [List.map_cons, List.nodup_cons] at this
    exact this.1 (heq ▸ List.mem_map_of_mem hb₁)
  exact
    { tidy := by
        refine h.tidy.updateAll hf fun key _ hh ↦ ?_
        obtain ⟨b₁, hb₁, sr, hsr, hid, -⟩ := h.owned key _ hh
        rcases List.mem_cons.mp hb₁ with rfl | hb₁
        · exact hl.fresh hb hlen hsr hid
        · -- The id of a segment of another version differs.
          have haddr₁ := h.addressable b₁ (List.mem_cons_of_mem _ hb₁)
          exact hnot b₁ hb₁ ((haddr₁.eq_of_id haddr hsr hnew hid).1.trans hnum)
      owned := fun key id hh ↦ by
        rcases hh.of_updateAll with ⟨hkey, hid⟩ | hh
        · obtain ⟨cp, hcp, hk⟩ := hown key hkey
          refine ⟨b', List.mem_cons_self, _, hnew, hid.symm, (cp.fp, cp.id), ?_, hk⟩
          simp only [segmentAt, List.mem_reverse, List.mem_map]
          exact ⟨cp, hcp, rfl⟩
        · obtain ⟨b₁, hb₁, sr, hsr, hrest⟩ := h.owned key id hh
          rcases List.mem_cons.mp hb₁ with rfl | hb₁
          · exact ⟨b', List.mem_cons_self, sr, by simp [hsegments, hsr], hrest⟩
          · exact ⟨b₁, List.mem_cons_of_mem _ hb₁, sr, hsr, hrest⟩
      addressable := fun b₁ hb₁ ↦ by
        rcases List.mem_cons.mp hb₁ with rfl | hb₁
        · exact haddr
        · exact h.addressable b₁ (List.mem_cons_of_mem _ hb₁)
      nodup := by
        rw [List.map_cons, hnum]
        exact h.nodup
      bound := fun b₁ hb₁ ↦ by
        rcases List.mem_cons.mp hb₁ with rfl | hb₁
        · rw [hnum]
          exact h.bound b List.mem_cons_self
        · exact h.bound b₁ (List.mem_cons_of_mem _ hb₁) }

theorem delete (h : LogicalIndex cfg kv versions) {entries : List (Fingerprint × ℤ)}
    (hd : deleteEntries cfg kv entries = .ok kv') : LogicalIndex cfg kv' versions := by
  obtain ⟨htidy, hhas, -⟩ := deleteEntries_spec hd h.tidy
  exact { h with tidy := htidy, owned := fun key id hh ↦ h.owned key id (hhas key id hh) }

/-- **The segments of a version are taken out.** -/
theorem not_has (h : LogicalIndex cfg kv versions) (hb : b ∈ versions)
    {entries : List (Fingerprint × ℤ)} (he : segmentEntries b = .ok entries)
    (hd : deleteEntries cfg kv entries = .ok kv') {sr : SegmentRecipe} (hsr : sr ∈ b.segments)
    (key : Key) : ¬kv'.Has key sr.id := by
  intro hh
  obtain ⟨-, hhas, hgone⟩ := deleteEntries_spec hd h.tidy
  obtain ⟨b₁, hb₁, sr₁, hsr₁, hid, p, hp, rfl⟩ := h.owned key sr.id (hhas key sr.id hh)
  -- The key is that of a chunk of the segment itself.
  have haddr := h.addressable b hb
  obtain ⟨hnum, hsame⟩ := (h.addressable b₁ hb₁).eq_of_id haddr hsr₁ hsr hid
  have hb₁ : b₁ = b := List.inj_on_of_nodup_map h.nodup hb₁ hb hnum
  obtain rfl : sr₁ = sr := hsame hb₁
  obtain ⟨pss, hl⟩ := haddr.laid
  simp only [segmentEntries, bind_eq_ok, hl.read, Except.mapError] at he
  obtain ⟨srs, hsrs, he⟩ := he
  cases hsrs
  cases he
  refine hgone (p.1, sr₁.id) (List.mem_flatMap.mpr ⟨sr₁, ?_, ?_⟩) hh
  · rw [← hl.segments]
    exact hsr
  · exact List.mem_map.mpr ⟨p.1, by simpa using ⟨p.2, hp⟩, rfl⟩

/-! ### The turns -/

section Turns

variable {sha1 : Bytes → Fingerprint} {cl : Client} {core core' : Core} {segs : List (List Chunk)}
  {s s' rest cs out : List Chunk} {t : Core.Tables} {core₁ : Core}

theorem features_own (hloop : FilterLoop sha1 (Sent cl) core cs out core₁ t)
    (hs : SamplesData cfg out) {features : List Key}
    (hf : sampling cfg out (chunkNum out) = .ok features) :
    ∀ k ∈ (features ++ Core.storedFeatures cfg t).dedup,
      ∃ cp ∈ (dataChunks out).map Chunk.pointer, keyOf cfg cp.fp = k := by
  intro k hk
  rw [List.mem_dedup, List.mem_append] at hk
  rcases hk with hk | hk
  · obtain ⟨fp, hfp, hkey⟩ := sampling_own hs hf k hk
    obtain ⟨c, hc, rfl⟩ := List.mem_map.mp hfp
    exact ⟨c.pointer, List.mem_map_of_mem hc, hkey⟩
  · have hstored : k ∈ keysOf cfg (t.unique.map Prod.fst ++ t.rewritten.map Prod.fst) := by
      unfold Core.storedFeatures at hk
      split_ifs at hk
      · exact hk
      · cases hk
    obtain ⟨fp, hfp, hkey⟩ := mem_keysOf.mp hstored
    rw [← List.map_append] at hfp
    obtain ⟨p, hp, rfl⟩ := List.mem_map.mp hfp
    -- The tables have chunks of the segment only.
    obtain ⟨c, hc, hfp⟩ := hloop.own p hp
    obtain ⟨hmem, hm⟩ := mem_dataChunks.mp hc
    obtain ⟨c', hc', hfiltered⟩ := hloop.out.exists_of_mem_left hmem
    refine ⟨c'.pointer, List.mem_map_of_mem (mem_dataChunks.mpr ⟨hc', ?_⟩), ?_⟩
    · rw [hfiltered.1.isFileMarker]
      exact hm
    · change keyOf cfg c'.fp = k
      rw [hfiltered.1.fp, hfp]
      exact hkey

/-- **A segment is filtered.** -/
theorem filter (hlog : cfg.locality = .logical) (hs : Safe sha1 cl ⟨core, s :: segs, rest⟩)
    (h : LogicalIndex cfg core.kv (core.bv :: core.versions)) (hm : Marked cfg s s')
    (hsamples : SamplesData cfg s') (hb : core.bv.bvNum < 2 ^ 16)
    (hlen : recordSize * (core.bv.recipe.length + (chunkNum s' + 2)) ≤ 2 ^ 32) :
    Post (core.filterSegment cfg s')
      (fun core' ↦ LogicalIndex cfg core'.kv (core'.bv :: core'.versions)) fun _ ↦ True := by
  unfold Core.filterSegment
  refine ((hs.consult hm).mono (fun _ h ↦ h) fun _ h ↦ h.elim).bind fun cs ⟨hcs, hc⟩ ↦ ?_
  refine (((hs.filterChunks hm hcs hc).and (post_filterChunks_kv hlog cs)).mono (fun _ h ↦ h)
    fun _ h ↦ h.2).bind ?_
  rintro ⟨core₁, t, out⟩ ⟨hloop, hkv₁⟩
  have hloop : FilterLoop sha1 (Sent cl) core cs out core₁ t := hloop
  have hkv₁ : core₁.kv = core.kv := hkv₁
  refine ((hs.updateBuffer hm hcs hloop).mono (fun _ h ↦ h) fun _ h ↦ h.elim).bind fun b _ ↦ ?_
  refine ((hs.record hm hcs hloop b).mono (fun _ h ↦ h) fun _ h ↦ h.elim).bind
    fun ⟨sid, core₂⟩ hrec ↦ ?_
  refine Core.post_updateSegmentIndex (fun kv _ hkv ↦ ?_) fun _ ↦ trivial
  obtain ⟨features, hfeatures, rfl⟩ := hkv hlog
  have hframe := hrec.records.frame
  dsimp only at hframe
  have hkv₂ : core₂.kv = core.kv := by rw [hframe, ← hkv₁]
  have hversions : core₂.versions = core.versions := by rw [hframe, hloop.frame]
  have hbv : core₁.bv = core.bv := by rw [hloop.frame]
  have hnum : core₂.bv.bvNum = core₁.bv.bvNum := hrec.records.bvNum
  have hrecipe : core₂.bv.recipe = core₁.bv.recipe ++ segmentRecords out := hrec.recipe
  have hid : sid = makeSegmentId core₁.bv.bvNum (recordSize * core₁.bv.recipe.length : ℕ)
    (chunkNum out) := hrec.id
  rw [hbv] at hnum hrecipe hid
  rw [segmentRecords_eq] at hrecipe
  have hcontent : out.map Chunk.content = s'.map Chunk.content :=
    (Safe.content_out hm hcs hloop).trans (map_content_eq (fun _ _ hc ↦ hc.content) hm).symm
  have hsid : sid = (segmentAt core.bv.bvNum core.bv.recipe.length
      ((dataChunks out).map Chunk.pointer)).id := by
    rw [hid, segmentAt, chunkNum_eq, List.length_map]
  simp only [hkv₂, hversions]
  rw [hsid]
  refine h.enter hb (fun cp hcp ↦ ?_) ?_ hrecipe hnum (List.nodup_dedup _)
    (features_own hloop (samplesData_congr hcontent hsamples) hfeatures)
  · obtain ⟨c, hc, rfl⟩ := List.mem_map.mp hcp
    exact (Safe.held_out hloop hc).nonneg
  · rw [List.length_map, ← chunkNum_eq, chunkNum_congr hcontent]
    exact hlen

theorem flush (hlog : cfg.locality = .logical)
    (h : LogicalIndex cfg core.kv (core.bv :: core.versions)) :
    Post (core.finalFlush cfg)
      (fun core' ↦ LogicalIndex cfg core'.kv (core'.bv :: core'.versions)) fun _ ↦ True := by
  refine (post_finalFlush_kv hlog).mono (fun core' ⟨hkv, hbv, hversions⟩ ↦ ?_) fun _ h ↦ h
  rw [hkv, hbv, hversions]
  exact h

theorem lookup (h : LogicalIndex cfg core.kv (core.bv :: core.versions)) :
    Post (core.lookup cfg s)
      (fun r ↦ LogicalIndex cfg r.1.kv (r.1.bv :: r.1.versions)) fun _ ↦ True := by
  exact Core.post_lookup fun _ _ ↦ h

end Turns

end LogicalIndex

end UniDedup.Node
