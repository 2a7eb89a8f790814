import UniDedup.Node.InFlight

/-!
# What the lookup finds

Wherever the lookup finds a chunk, the container it reports has the chunk: in the container being
filled and in the metadata of containers by construction, in the recipes of segments because their
pointers were right when they were written, and in the index buffer by the invariant of the chunks in
flight. The lookup of a segment therefore extends that invariant to its chunks.

`H` stands for what the containers hold. Nothing is assumed of the key-value store: a wrong entry can
only make the lookup prefetch a unit of no use.
-/

namespace UniDedup.Node

open Outcome

variable {cfg : Config} {H : ℤ → Fingerprint → Prop}

def CacheOk (H : ℤ → Fingerprint → Prop) (cache : Lru.Cache CacheUnit) : Prop :=
  ∀ u ∈ cache.elems, ∀ p ∈ u.pairs, H p.2 p.1

/-- The containers and the recipes the lookup reads are right. -/
structure EnvOk (H : ℤ → Fingerprint → Prop) (env : LookupEnv) : Prop where
  containers : ∀ con ∈ env.storage.containers, ∀ fp ∈ con.fps, H con.id fp
  buffer : ∀ con ∈ env.containerBuffer, ∀ fp ∈ con.fps, H con.id fp
  recipes : ∀ b ∈ env.versions, ∀ cp ∈ b.recipe, 0 ≤ cp.id → H cp.id cp.fp

/-! ## Prefetching -/

theorem readSegment_pairs {bvNum : ℤ} {recipe : List ChunkPointer} {pos pos' : ℕ}
    {sr : SegmentRecipe} (h : readSegment bvNum recipe pos = .ok (some (sr, pos'))) :
    ∀ p ∈ sr.kvpairs, ∃ cp ∈ recipe, p = (cp.fp, cp.id) ∧ 0 ≤ cp.id := by
  unfold readSegment at h
  split at h
  · cases h
  · rename_i flag rest hdrop
    by_cases hflag : flag.id ≠ segmentStartId
    · rw [if_pos hflag] at h
      cases h
    rw [if_neg hflag] at h
    simp only [bind_eq_ok, check_eq_ok] at h
    obtain ⟨_, ⟨-, hpos⟩, _, -, h⟩ := h
    cases h
    intro p hp
    simp only [List.mem_reverse, List.mem_map] at hp
    obtain ⟨cp, hcp, rfl⟩ := hp
    refine ⟨cp, ?_, rfl, ?_⟩
    · have hmem : cp ∈ recipe.drop pos := by
        rw [hdrop]
        exact List.mem_cons_of_mem _ (List.mem_of_mem_take hcp)
      exact List.mem_of_mem_drop hmem
    · have := hpos cp hcp
      unfold temporaryId at this
      omega

theorem readSegments_pairs {bvNum : ℤ} {recipe : List ChunkPointer} : ∀ {n pos : ℕ}
    {srs : List SegmentRecipe}, readSegments bvNum recipe n pos = .ok srs →
    ∀ sr ∈ srs, ∀ p ∈ sr.kvpairs, ∃ cp ∈ recipe, p = (cp.fp, cp.id) ∧ 0 ≤ cp.id := by
  intro n
  induction n with
  | zero =>
    intro pos srs h
    cases h
    simp
  | succ n ih =>
    intro pos srs h
    rw [readSegments, bind_eq_ok] at h
    obtain ⟨_ | ⟨sr₀, pos'⟩, hr, h⟩ := h
    · cases h
      simp
    · simp only [bind_eq_ok] at h
      obtain ⟨srs', hrec, h⟩ := h
      cases h
      intro sr hsr
      rcases List.mem_cons.mp hsr with rfl | hsr
      · exact readSegment_pairs hr
      · exact ih hrec sr hsr

theorem prefetchSegments_pairs {versions : List BackupVersion} {id : ℤ} {n : ℕ}
    {srs : List SegmentRecipe} (h : prefetchSegments versions id n = .ok srs) :
    ∀ sr ∈ srs, ∀ p ∈ sr.kvpairs, ∃ b ∈ versions, ∃ cp ∈ b.recipe, p = (cp.fp, cp.id) ∧ 0 ≤ cp.id := by
  unfold prefetchSegments at h
  simp only [bind_eq_ok, getOr_eq_ok] at h
  obtain ⟨_, -, bv, hbv, _, -, srs', hsrs, _, -, h⟩ := h
  cases h
  intro sr hsr p hp
  obtain ⟨cp, hcp⟩ := readSegments_pairs hsrs sr hsr p hp
  exact ⟨bv, List.mem_of_find?_eq_some hbv, cp, hcp⟩

theorem CacheOk.lookup {cache : Lru.Cache CacheUnit} (h : CacheOk H cache) (p : CacheUnit → Bool) :
    CacheOk H (cache.lookup p).2 := Lru.Cache.forall_lookup h

theorem CacheOk.insertSegment {cache : Lru.Cache CacheUnit} (h : CacheOk H cache) {sr : SegmentRecipe}
    (hsr : ∀ p ∈ sr.kvpairs, H p.2 p.1) : CacheOk H (insertSegment cache sr) := by
  have hl := h.lookup fun u ↦ u.id = sr.id
  unfold Node.insertSegment
  split
  · rename_i heq
    rwa [heq] at hl
  · rename_i heq
    rw [heq] at hl
    exact Lru.Cache.forall_insert hl hsr

theorem CacheOk.insertSegments {srs : List SegmentRecipe} (hsrs : ∀ sr ∈ srs, ∀ p ∈ sr.kvpairs, H p.2 p.1)
    {cache : Lru.Cache CacheUnit} (h : CacheOk H cache) :
    CacheOk H (srs.foldl Node.insertSegment cache) := by
  induction srs generalizing cache with
  | nil => exact h
  | cons sr srs ih =>
    exact ih (fun sr' hsr' ↦ hsrs sr' (List.mem_cons_of_mem _ hsr'))
      (h.insertSegment (hsrs sr List.mem_cons_self))

theorem post_fingerprintCachePrefetch {env : LookupEnv} (henv : EnvOk H env)
    {cache : Lru.Cache CacheUnit} (h : CacheOk H cache) (id : ℤ) :
    Post (fingerprintCachePrefetch cfg env cache id) (CacheOk H) fun _ ↦ True := by
  unfold fingerprintCachePrefetch
  split
  · refine (post_getOr fun _ ↦ trivial).bind fun con hcon ↦ ?_
    refine Lru.Cache.forall_insert h fun p hp ↦ ?_
    obtain ⟨fp, hfp, rfl⟩ := List.mem_map.mp hp
    exact henv.containers con (ContainerStore.mem_of_retrieveMeta hcon).1 fp hfp
  · have hl := h.lookup fun u ↦ u.id = id
    split
    · rename_i heq
      rw [heq] at hl
      exact hl
    · rename_i heq
      rw [heq] at hl
      refine Post.bind (P := fun srs ↦ ∀ sr ∈ srs, ∀ p ∈ sr.kvpairs, H p.2 p.1) ?_ fun srs hsrs ↦ ?_
      · refine Post.mapError (post_of_forall (fun srs hsrs sr hsr p hp ↦ ?_) fun _ _ ↦ trivial)
        obtain ⟨b, hb, cp, hcp, rfl, hpos⟩ := prefetchSegments_pairs hsrs sr hsr p hp
        exact henv.recipes b hb cp hcp hpos
      · exact hl.insertSegments fun sr hsr ↦ hsrs sr (List.mem_reverse.mp hsr)

theorem post_selectSimilar {env : LookupEnv} (henv : EnvOk H env) : ∀ (n : ℕ)
    (similar : List SimilarSegment) {cache : Lru.Cache CacheUnit}, CacheOk H cache →
    Post (selectSimilar cfg env n similar cache) (CacheOk H) fun _ ↦ True
  | 0, _, _, h => h
  | n + 1, similar, cache, h => by
    rw [selectSimilar]
    split
    · exact h
    · exact (post_fingerprintCachePrefetch henv h _).bind fun _ h' ↦ post_selectSimilar henv n _ h'

theorem post_prefetchSimilar {env : LookupEnv} (henv : EnvOk H env) {cache : Lru.Cache CacheUnit}
    (h : CacheOk H cache) (chunks : List Chunk) :
    Post (prefetchSimilar cfg env cache chunks) (CacheOk H) fun _ ↦ True := by
  unfold prefetchSimilar
  split_ifs
  · refine Post.bind (P := fun _ ↦ True)
      (post_of_forall (fun _ _ ↦ trivial) fun _ _ ↦ trivial) fun features _ ↦ ?_
    unfold topSegmentSelect
    refine Post.bind (P := fun _ ↦ True)
      (post_of_forall (fun _ _ ↦ trivial) fun _ _ ↦ trivial) fun similar _ ↦ ?_
    exact post_selectSimilar henv _ _ h
  · exact h

/-! ## Looking up a chunk -/

/-- The result of a search that may find the chunk. -/
def Found (H : ℤ → Fingerprint → Prop) (c c' : Chunk) : Prop :=
  c' = c ∨ c.duplicate = false ∧ ∃ id, H id c.fp ∧ c' = c.markDuplicate id

theorem CacheUnit.mem_of_lookup {u : CacheUnit} {fp : Fingerprint} {id : ℤ}
    (h : u.lookup fp = some id) : (fp, id) ∈ u.pairs := by
  obtain ⟨p, hp, rfl⟩ := Option.map_eq_some_iff.mp h
  have hfp : p.1 = fp := by simpa using List.find?_some hp
  rw [← hfp]
  exact List.mem_of_find?_eq_some hp

theorem post_fingerprintCacheLookup {cache : Lru.Cache CacheUnit} (h : CacheOk H cache)
    (fp : Fingerprint) :
    Post (fingerprintCacheLookup cfg cache fp) (fun r ↦ CacheOk H r.2 ∧ ∀ id ∈ r.1, H id fp)
      fun _ ↦ True := by
  have hl := h.lookup fun u ↦ (u.lookup fp).isSome
  unfold fingerprintCacheLookup
  split
  · rename_i heq
    rw [heq] at hl
    exact ⟨hl, fun _ h ↦ by simp at h⟩
  · rename_i u cache' heq
    have hu : u ∈ cache.elems := (Lru.Cache.mem_of_lookup (by rw [heq])).1
    rw [heq] at hl
    refine (post_check fun _ ↦ trivial).bind fun _ _ ↦ ⟨hl, fun id hid ↦ ?_⟩
    exact h u hu (fp, id) (CacheUnit.mem_of_lookup hid)

theorem post_searchCache {cache : Lru.Cache CacheUnit} (h : CacheOk H cache) (c : Chunk) :
    Post (searchCache cfg cache c) (fun r ↦ Found H c r.1 ∧ CacheOk H r.2) fun _ ↦ True := by
  unfold searchCache
  split_ifs with hd
  · exact ⟨.inl rfl, h⟩
  · refine (post_fingerprintCacheLookup h c.fp).bind ?_
    rintro ⟨id, cache'⟩ ⟨hc, hid⟩
    refine ⟨?_, hc⟩
    cases id with
    | none => exact .inl rfl
    | some id => exact .inr ⟨by simpa using hd, id, hid id rfl, rfl⟩

theorem post_searchKVStore {env : LookupEnv} (henv : EnvOk H env) {cache : Lru.Cache CacheUnit}
    (h : CacheOk H cache) (useKV : Bool) (c : Chunk) :
    Post (searchKVStore cfg env useKV cache c) (fun r ↦ Found H c r.1 ∧ CacheOk H r.2)
      fun _ ↦ True := by
  unfold searchKVStore
  split_ifs
  · exact ⟨.inl rfl, h⟩
  · split
    · exact ⟨.inl rfl, h⟩
    · exact (post_fingerprintCachePrefetch henv h _).bind fun _ h' ↦ post_searchCache h' c

/-- A chunk as it comes from the hash phase. -/
def Fresh (sha1 : Bytes → Fingerprint) (c : Chunk) : Prop := c = Chunk.hashed sha1 c.data

/-- The fingerprints in the container being filled. -/
def InBuffer (buf : Option Container) (fp : Fingerprint) : Prop := ∃ con ∈ buf, fp ∈ con.fps

theorem Found.trans {c c₁ c₂ : Chunk} (h : Found H c c₁) (h' : Found H c₁ c₂) : Found H c c₂ := by
  rcases h with rfl | ⟨hd, id, hid, rfl⟩
  · exact h'
  · rcases h' with rfl | ⟨hd', -⟩
    · exact .inr ⟨hd, id, hid, rfl⟩
    · cases hd'

/-- What the searches make of a chunk that is not a duplicate yet. The later ones are made when the
earlier ones have found nothing. -/
inductive Searched (H : ℤ → Fingerprint → Prop) (env : LookupEnv) (b : IndexBuffer) (c : Chunk) : Chunk → Prop
  | storageBuffer {con : Container} (hcon : con ∈ env.containerBuffer) (hfp : c.fp ∈ con.fps) :
    Searched H env b c { c.markDuplicate con.id with rewriteDenied := true }
  | indexBuffer {id : ℤ} (hid : id ∈ b.queues c.fp) : Searched H env b c (c.markDuplicate id)
  | cache {id : ℤ} (hq : b.queues c.fp = []) (hheld : H id c.fp) : Searched H env b c (c.markDuplicate id)
  | nowhere (hq : b.queues c.fp = []) (hno : ¬InBuffer env.containerBuffer c.fp) : Searched H env b c c

theorem Searched.isFileMarker {env : LookupEnv} {b : IndexBuffer} {c c' : Chunk}
    (h : Searched H env b c c') : c'.isFileMarker = c.isFileMarker := by
  cases h <;> rfl

theorem searchBuffers_cases (env : LookupEnv) (b : IndexBuffer) {c : Chunk} (hdup : c.duplicate = false) :
    (∃ con ∈ env.containerBuffer, c.fp ∈ con.fps ∧ searchIndexBuffer b (searchStorageBuffer env c) =
      { c.markDuplicate con.id with rewriteDenied := true }) ∨
    (∃ id ∈ b.queues c.fp, searchIndexBuffer b (searchStorageBuffer env c) = c.markDuplicate id) ∨
    ¬InBuffer env.containerBuffer c.fp ∧ b.queues c.fp = [] ∧
      searchIndexBuffer b (searchStorageBuffer env c) = c := by
  have hsb : searchStorageBuffer env c = c ∧ ¬InBuffer env.containerBuffer c.fp ∨
      ∃ con ∈ env.containerBuffer, c.fp ∈ con.fps ∧ searchStorageBuffer env c =
        { c.markDuplicate con.id with rewriteDenied := true } := by
    unfold searchStorageBuffer InBuffer
    cases hbuf : env.containerBuffer with
    | none => exact .inl ⟨rfl, by simp⟩
    | some con =>
      by_cases hfp : con.contains c.fp
      · exact .inr ⟨con, rfl, Container.contains_iff.mp hfp, by simp [hfp]⟩
      · refine .inl ⟨by simp [hfp], ?_⟩
        simpa using hfp
  rcases hsb with ⟨heq, hno⟩ | ⟨con, hcon, hfp, heq⟩
  · rw [heq]
    unfold searchIndexBuffer
    cases hq : b.queues c.fp with
    | nil => exact .inr (.inr ⟨hno, rfl, rfl⟩)
    | cons be q => exact .inr (.inl ⟨be, List.mem_cons_self, by simp [hdup]⟩)
  · refine .inl ⟨con, hcon, hfp, ?_⟩
    rw [heq]
    unfold searchIndexBuffer
    split
    · rfl
    · simp [Chunk.markDuplicate]

/-- **Looking up a chunk**: what the searches find is entered in the index buffer. -/
theorem post_lookupChunk_searched {env : LookupEnv} (henv : EnvOk H env) {useKV : Bool} {st : IndexState}
    (hcache : CacheOk H st.cache) {c : Chunk} (hm : c.isFileMarker = false) (hdup : c.duplicate = false) :
    Post (lookupChunk cfg env useKV st c)
      (fun r ↦ Searched H env st.buffer c r.2 ∧ r.1.buffer = st.buffer.push r.2 ∧ CacheOk H r.1.cache)
      fun _ ↦ True := by
  unfold lookupChunk
  rw [if_neg (by simp [hm])]
  have hbuffers := searchBuffers_cases env st.buffer hdup
  generalize searchIndexBuffer st.buffer (searchStorageBuffer env c) = c₂ at hbuffers ⊢
  refine (post_searchCache hcache c₂).bind ?_
  rintro ⟨c₃, cache₃⟩ ⟨hfound₃, hcache₃⟩
  refine (post_searchKVStore henv hcache₃ useKV c₃).bind ?_
  rintro ⟨c₄, cache₄⟩ ⟨hfound₄, hcache₄⟩
  refine ⟨?_, rfl, hcache₄⟩
  have hfound : Found H c₂ c₄ := hfound₃.trans hfound₄
  change Searched H env st.buffer c c₄
  -- What one of the buffers has found is a duplicate, which the caches leave alone.
  rcases hbuffers with ⟨con, hcon, hfp, rfl⟩ | ⟨id, hid, rfl⟩ | ⟨hno, hq, rfl⟩
  · obtain rfl := hfound.resolve_right fun h ↦ by cases h.1
    exact .storageBuffer hcon hfp
  · obtain rfl := hfound.resolve_right fun h ↦ by cases h.1
    exact .indexBuffer hid
  · rcases hfound with rfl | ⟨-, id, hheld, rfl⟩
    · exact .nowhere hq hno
    · exact .cache hq hheld

theorem entries_singleton {c : Chunk} (hm : c.isFileMarker = false) : entries [c] = [c.entry] := by
  simp [entries, dataChunks, hm]

/-- **Looking up a chunk** keeps the invariant of the chunks in flight. -/
theorem post_lookupChunk {sha1 : Bytes → Fingerprint} {env : LookupEnv}
    (hH : ∀ id fp, H id fp → id ≠ temporaryId) (henv : EnvOk H env) {useKV : Bool}
    {st : IndexState} {F : List Entry}
    (hF : InFlight H (InBuffer env.containerBuffer) st.buffer.queues F) (hcache : CacheOk H st.cache)
    {c : Chunk} (hc : c.isFileMarker = false → Fresh sha1 c) :
    Post (lookupChunk cfg env useKV st c)
      (fun r ↦ InFlight H (InBuffer env.containerBuffer) r.1.buffer.queues (F ++ entries [r.2]) ∧
        CacheOk H r.1.cache) fun _ ↦ True := by
  cases hm : c.isFileMarker with
  | true =>
    unfold lookupChunk
    rw [if_pos hm]
    refine ⟨?_, hcache⟩
    simpa [entries, dataChunks, hm] using hF
  | false =>
    have hfresh : c = Chunk.hashed sha1 c.data := hc hm
    have hdup : c.duplicate = false := by
      rw [hfresh]
      rfl
    have hid : c.id = temporaryId := by
      rw [hfresh]
      rfl
    refine (post_lookupChunk_searched henv hcache hm hdup).mono ?_ fun _ h ↦ h
    rintro ⟨st', c'⟩ ⟨hsearched, hbuffer, hcache'⟩
    refine ⟨?_, hcache'⟩
    dsimp only at hsearched hbuffer ⊢
    rw [hbuffer, entries_singleton (hsearched.isFileMarker.trans hm)]
    have hpush := hF.push (e := c'.entry)
    cases hsearched with
    | @storageBuffer con hcon hfp =>
      have hheld := henv.buffer con hcon c.fp hfp
      exact hpush (.inr hheld) (fun h ↦ by cases h) fun _ _ ↦ hH _ _ hheld
    | indexBuffer hid =>
      refine hpush (hF.elems c.fp _ hid) (fun h ↦ by cases h) fun _ hq ↦ ?_
      rw [show st.buffer.queues c.fp = [] from hq] at hid
      cases hid
    | cache _ hheld => exact hpush (.inr hheld) (fun h ↦ by cases h) fun _ _ ↦ hH _ _ hheld
    | nowhere hq hno =>
      refine hpush (.inl hid) (fun _ ↦ ⟨hq, hno⟩) fun h ↦ ?_
      rw [show c.duplicate = true from h] at hdup
      cases hdup

/-- **Looking up a segment.** -/
theorem post_indexLookup {sha1 : Bytes → Fingerprint} {env : LookupEnv}
    (hH : ∀ id fp, H id fp → id ≠ temporaryId) (henv : EnvOk H env) {st : IndexState} {F : List Entry}
    (hF : InFlight H (InBuffer env.containerBuffer) st.buffer.queues F) (hcache : CacheOk H st.cache)
    {cs : List Chunk} (hcs : ∀ c ∈ dataChunks cs, Fresh sha1 c) :
    Post (indexLookup cfg env st cs)
      (fun r ↦ InFlight H (InBuffer env.containerBuffer) r.1.buffer.queues (F ++ entries r.2) ∧
        CacheOk H r.1.cache) fun _ ↦ True := by
  unfold indexLookup
  refine (post_prefetchSimilar henv hcache cs).bind fun cache hcache' ↦ ?_
  refine (post_lookupChunks (E := fun _ ↦ True) (I := fun _ todo out st ↦
    (∀ c ∈ dataChunks todo, Fresh sha1 c) ∧
    InFlight H (InBuffer env.containerBuffer) st.buffer.queues (F ++ entries out) ∧
    CacheOk H st.cache) ?_ ⟨hcs, by simpa [entries, dataChunks] using hF, hcache'⟩).mono
      (fun _ h ↦ h.2) fun _ _ ↦ trivial
  rintro done c todo out st ⟨hfresh, hF, hcache⟩
  refine (post_lookupChunk hH henv hF hcache fun hm ↦ hfresh c ?_).mono ?_ fun _ _ ↦ trivial
  · simp [dataChunks, hm]
  · rintro r ⟨hF', hcache'⟩
    refine ⟨fun c' hc' ↦ hfresh c' ?_, by simpa using hF', hcache'⟩
    rw [mem_dataChunks] at hc' ⊢
    exact ⟨List.mem_cons_of_mem _ hc'.1, hc'.2⟩

end UniDedup.Node
