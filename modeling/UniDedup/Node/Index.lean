import Mathlib.Data.List.Forall2
import Mathlib.Data.List.Sort
import UniDedup.Lib.Lru
import UniDedup.Node.Container
import UniDedup.Node.Recipe
import UniDedup.Node.Sampling

/-!
# The fingerprint index

A chunk is looked up in four places, in this order: the container being filled, the index buffer of
the chunks that were looked up but not yet stored, the cache of prefetched units, and the key-value
store that maps features to units, which are then prefetched. A unit is the metadata of a container
(physical locality) or the recipe of a segment (logical locality).

The dedup thread looks up whole segments and pushes an element for every chunk to the index buffer;
the filter thread pops these elements when it has stored the chunks, and tells the elements that
follow under the same fingerprint where the chunk now is.
-/

namespace UniDedup.Node

open Outcome

/-! ## The key-value store -/

/-- The key-value store: the ids of a key, the latest first, filled up with `temporaryId`. -/
abbrev KVStore := Key → Option (List ℤ)

namespace KVStore

def empty : KVStore := fun _ ↦ none

/-- `kvstore_htable_update`. -/
def update (cfg : Config) (kv : KVStore) (key : Key) (id : ℤ) : KVStore :=
  let value := (kv key).getD (List.replicate cfg.valueLength temporaryId)
  Function.update kv key (some (id :: value.take (cfg.valueLength - 1)))

/-- `index_update`: enter `id` under all features. -/
def updateAll (cfg : Config) (kv : KVStore) (features : List Key) (id : ℤ) : KVStore :=
  features.foldl (fun kv key ↦ update cfg kv key id) kv

/-- The id is taken out of a value; `none` where the assertion of `kvstore_htable_delete` on the id
behind it fails. -/
def removeId (cfg : Config) (value : List ℤ) (id : ℤ) : Option (List ℤ) :=
  match value.findIdx? (· = id) with
  | none => some value
  | some i =>
    if i = cfg.valueLength - 1 ∨ value[i + 1]? = some temporaryId then some (value.set i temporaryId)
    else none

/-- `kvstore_htable_delete`; `none` where its assertion fails. -/
def delete (cfg : Config) (kv : KVStore) (key : Key) (id : ℤ) : Option KVStore :=
  match kv key with
  | none => some kv
  | some value =>
    (removeId cfg value id).map fun value' ↦
      Function.update kv key (if value'.head? = some temporaryId then none else some value')

end KVStore

/-! ## The index buffer -/

/-- `index_buffer`: for each fingerprint the container ids of its elements, the oldest first. A
fingerprint without elements has no queue. -/
structure IndexBuffer where
  /-- `buffered_fingerprints`. -/
  queues : Fingerprint → List ℤ
  chunkNum : ℕ

namespace IndexBuffer

def empty : IndexBuffer := ⟨fun _ ↦ [], 0⟩

def push (b : IndexBuffer) (c : Chunk) : IndexBuffer :=
  ⟨Function.update b.queues c.fp (b.queues c.fp ++ [c.id]), b.chunkNum + 1⟩

/-- The turn of `index_update_buffer` for a chunk: drop the element of the chunk and pass the id on to
those behind it. -/
def pop (b : IndexBuffer) (c : Chunk) : IndexBuffer :=
  ⟨Function.update b.queues c.fp ((b.queues c.fp).tail.map fun _ ↦ c.id), b.chunkNum - 1⟩

end IndexBuffer

/-! ## The fingerprint cache -/

/-- A prefetched unit with the container id it gives for each of its fingerprints. -/
structure CacheUnit where
  /-- The id of the container or of the segment. -/
  id : ℤ
  /-- The container id of each fingerprint. -/
  pairs : List (Fingerprint × ℤ)
deriving DecidableEq

namespace CacheUnit

/-- The metadata of a container: its fingerprints are in the container itself. -/
def ofContainer (con : Container) : CacheUnit := ⟨con.id, con.fps.map fun fp ↦ (fp, (con.id : ℤ))⟩

def ofSegment (sr : SegmentRecipe) : CacheUnit := ⟨sr.id, sr.kvpairs⟩

/-- The container id of a fingerprint in the unit. -/
def lookup (u : CacheUnit) (fp : Fingerprint) : Option ℤ :=
  (u.pairs.find? fun p ↦ p.1 = fp).map Prod.snd

end CacheUnit

/-- The assertions and exits of the lookup. -/
inductive LookupAbort
  /-- `retrieve_container_meta_by_id` does not find the container. -/
  | containerMissing
  | recipe (e : RecipeAbort)
  /-- `assert(cp->id > TEMPORARY_ID)` of `fingerprint_cache_lookup`. -/
  | pointerId
  /-- `assert(!g_hash_table_contains(s->features, feature))` of `top_segment_select`. -/
  | similarFeature
  /-- An assertion of the sampling method. -/
  | sampling (e : SamplingAbort)
deriving DecidableEq

/-- What the lookup reads and does not change. -/
structure LookupEnv where
  storage : ContainerStore
  /-- `storage_buffer.container_buffer`. -/
  containerBuffer : Option Container
  /-- The backup versions, the one being written included. -/
  versions : List BackupVersion
  kv : KVStore

/-- What the lookup changes beside the chunks. -/
structure IndexState where
  buffer : IndexBuffer
  /-- `lru_queue` of the fingerprint cache. -/
  cache : Lru.Cache CacheUnit

/-- `fingerprint_cache_lookup`; `none` stands for `TEMPORARY_ID`. -/
def fingerprintCacheLookup (cfg : Config) (cache : Lru.Cache CacheUnit) (fp : Fingerprint) :
    Except LookupAbort (Option ℤ × Lru.Cache CacheUnit) :=
  match cache.lookup fun u ↦ (u.lookup fp).isSome with
  | (none, cache) => .ok (none, cache)
  | (some u, cache) => do
    let id := u.lookup fp
    check (cfg.locality = .physical ∨ ∀ i ∈ id, temporaryId < i) .pointerId
    return (id, cache)

/-- Insert a prefetched segment unless it is cached. -/
def insertSegment (cache : Lru.Cache CacheUnit) (sr : SegmentRecipe) : Lru.Cache CacheUnit :=
  match cache.lookup fun u ↦ u.id = sr.id with
  | (some _, cache) => cache
  | (none, cache) => cache.insert (.ofSegment sr)

/-- `fingerprint_cache_prefetch`. The prefetched segments are inserted from the last to the first. -/
def fingerprintCachePrefetch (cfg : Config) (env : LookupEnv) (cache : Lru.Cache CacheUnit) (id : ℤ) :
    Except LookupAbort (Lru.Cache CacheUnit) :=
  match cfg.locality with
  | .physical => do
    let cm ← getOr (env.storage.retrieveMeta id) .containerMissing
    return cache.insert (.ofContainer cm)
  | .logical =>
    match cache.lookup fun u ↦ u.id = id with
    | (some _, cache) => .ok cache
    | (none, cache) => do
      let segments ← (prefetchSegments env.versions id cfg.segmentPrefetch).mapError .recipe
      return segments.reverse.foldl insertSegment cache

/-! ## Looking up a chunk -/

/-- Mark a chunk as a duplicate in container `id`. -/
def Chunk.markDuplicate (c : Chunk) (id : ℤ) : Chunk := { c with id := id, duplicate := true }

/-- The search in the container being filled. -/
def searchStorageBuffer (env : LookupEnv) (c : Chunk) : Chunk :=
  match env.containerBuffer with
  | some con =>
    if con.contains c.fp then { c.markDuplicate con.id with rewriteDenied := true } else c
  | none => c

def searchIndexBuffer (b : IndexBuffer) (c : Chunk) : Chunk :=
  match b.queues c.fp with
  | [] => c
  | be :: _ => if c.duplicate then c else c.markDuplicate be

/-- The search in the fingerprint cache. -/
def searchCache (cfg : Config) (cache : Lru.Cache CacheUnit) (c : Chunk) :
    Except LookupAbort (Chunk × Lru.Cache CacheUnit) :=
  if c.duplicate then .ok (c, cache)
  else do
    let (id, cache) ← fingerprintCacheLookup cfg cache c.fp
    return (id.elim c c.markDuplicate, cache)

/-- The search in the key-value store, where `useKV` says that it is searched: the unit the key refers
to is prefetched and searched. With a partial key it may not have the fingerprint. -/
def searchKVStore (cfg : Config) (env : LookupEnv) (useKV : Bool) (cache : Lru.Cache CacheUnit)
    (c : Chunk) : Except LookupAbort (Chunk × Lru.Cache CacheUnit) :=
  if c.duplicate || !useKV then .ok (c, cache)
  else
    match env.kv (keyOf cfg c.fp) with
    | none => .ok (c, cache)
    | some ids => do
      let cache ← fingerprintCachePrefetch cfg env cache (ids.headD temporaryId)
      searchCache cfg cache c

/-- The turn of `index_lookup_base` and of `index_lookup_similarity_detection` for a chunk; they
differ in whether the key-value store is searched. -/
def lookupChunk (cfg : Config) (env : LookupEnv) (useKV : Bool) (st : IndexState) (c : Chunk) :
    Except LookupAbort (IndexState × Chunk) :=
  if c.isFileMarker then .ok (st, c)
  else do
    let c := searchIndexBuffer st.buffer (searchStorageBuffer env c)
    let (c, cache) ← searchCache cfg st.cache c
    let (c, cache) ← searchKVStore cfg env useKV cache c
    return (⟨st.buffer.push c, cache⟩, c)

/-- The loop over the chunks of a segment. -/
def lookupChunks (cfg : Config) (env : LookupEnv) (useKV : Bool) (st : IndexState)
    (chunks : List Chunk) : Except LookupAbort (IndexState × List Chunk) :=
  chunks.foldlM (fun acc c ↦ do
    let (st, c) ← lookupChunk cfg env useKV acc.1 c
    return (st, acc.2 ++ [c])) (st, [])

/-! ## Similar segments -/

/-- A candidate of `top_segment_select`: a segment with the features it shares. -/
abbrev SimilarSegment := ℤ × List Key

def addSimilar (key : Key) (similar : List SimilarSegment) (id : ℤ) :
    Except LookupAbort (List SimilarSegment) :=
  match similar.find? fun s ↦ s.1 = id with
  | none => .ok (similar ++ [(id, [key])])
  | some s => do
    check (key ∉ s.2) .similarFeature
    return similar.map fun t ↦ if t.1 = id then (t.1, t.2 ++ [key]) else t

/-- The segments that share a feature, with the features they share. -/
def similarSegments (kv : KVStore) (features : List Key) :
    Except LookupAbort (List SimilarSegment) :=
  features.foldlM (fun similar key ↦
    (((kv key).getD []).takeWhile (· ≠ temporaryId)).foldlM (addSimilar key) similar) []

/-- `g_segment_cmp_feature_num`: more features first, then the larger id. -/
def moreSimilar (a b : SimilarSegment) : Prop :=
  b.2.length < a.2.length ∨ (a.2.length = b.2.length ∧ b.1 ≤ a.1)

instance : DecidableRel moreSimilar := fun _ _ ↦ inferInstanceAs (Decidable (_ ∨ _))

/-- The rounds of `top_segment_select`: prefetch the most similar segment and trim the others. -/
def selectSimilar (cfg : Config) (env : LookupEnv) :
    ℕ → List SimilarSegment → Lru.Cache CacheUnit → Except LookupAbort (Lru.Cache CacheUnit)
  | 0, _, cache => .ok cache
  | n + 1, similar, cache =>
    match similar.insertionSort moreSimilar with
    | [] => .ok cache
    | top :: rest => do
      let cache ← fingerprintCachePrefetch cfg env cache top.1
      selectSimilar cfg env n (rest.map fun s ↦ (s.1, s.2.filter (· ∉ top.2))) cache

def topSegmentSelect (cfg : Config) (env : LookupEnv) (cache : Lru.Cache CacheUnit)
    (features : List Key) : Except LookupAbort (Lru.Cache CacheUnit) := do
  let similar ← similarSegments env.kv features
  selectSimilar cfg env (min cfg.selectionNum similar.length) similar cache

/-! ## Looking up a segment -/

/-- Does `index_lookup` take the similarity-based path? -/
def Config.similarityBased (cfg : Config) : Bool :=
  cfg.locality = .logical && cfg.selectionMethod ≠ .base

/-- Is the key-value store searched for single chunks? -/
def Config.searchesKVStore (cfg : Config) : Bool :=
  !cfg.similarityBased || cfg.category = .exact || cfg.selectionMethod = .mix

def IndexBuffer.isFull (cfg : Config) (b : IndexBuffer) : Bool :=
  0 < cfg.waitThreshold && cfg.waitThreshold ≤ b.chunkNum

/-- The similar segments are prefetched before the chunks are looked up. -/
def prefetchSimilar (cfg : Config) (env : LookupEnv) (cache : Lru.Cache CacheUnit)
    (chunks : List Chunk) : Except LookupAbort (Lru.Cache CacheUnit) :=
  if cfg.similarityBased then do
    let features ← (sampling cfg chunks (chunkNum chunks)).mapError .sampling
    topSegmentSelect cfg env cache features
  else .ok cache

/-- `index_lookup` when the index buffer is not full. -/
def indexLookup (cfg : Config) (env : LookupEnv) (st : IndexState) (chunks : List Chunk) :
    Except LookupAbort (IndexState × List Chunk) := do
  let cache ← prefetchSimilar cfg env st.cache chunks
  lookupChunks cfg env cfg.searchesKVStore { st with cache := cache } chunks

/-! ### What the lookup changes in a chunk -/

/-- `c'` is `c` with the results of its lookup. -/
def Chunk.LookedUp (c c' : Chunk) : Prop :=
  c' = { c with id := c'.id, duplicate := c'.duplicate, rewriteDenied := c'.rewriteDenied }

theorem Chunk.LookedUp.refl (c : Chunk) : c.LookedUp c := rfl

theorem Chunk.LookedUp.trans {c c' c'' : Chunk} (h : c.LookedUp c') (h' : c'.LookedUp c'') :
    c.LookedUp c'' := by
  unfold Chunk.LookedUp at h h' ⊢
  rw [h] at h'
  exact h'

theorem searchStorageBuffer_lookedUp (env : LookupEnv) (c : Chunk) :
    c.LookedUp (searchStorageBuffer env c) := by
  unfold searchStorageBuffer
  split
  · split_ifs <;> rfl
  · rfl

theorem searchIndexBuffer_lookedUp (b : IndexBuffer) (c : Chunk) :
    c.LookedUp (searchIndexBuffer b c) := by
  unfold searchIndexBuffer
  split
  · rfl
  · split_ifs <;> rfl

theorem searchCache_lookedUp {cfg : Config} {cache cache' : Lru.Cache CacheUnit} {c c' : Chunk}
    (h : searchCache cfg cache c = .ok (c', cache')) : c.LookedUp c' := by
  unfold searchCache at h
  split_ifs at h
  · cases h
    rfl
  · simp only [bind_eq_ok] at h
    obtain ⟨⟨id, cache₁⟩, -, h⟩ := h
    cases h
    cases id <;> rfl

theorem searchKVStore_lookedUp {cfg : Config} {env : LookupEnv} {useKV : Bool}
    {cache cache' : Lru.Cache CacheUnit} {c c' : Chunk}
    (h : searchKVStore cfg env useKV cache c = .ok (c', cache')) : c.LookedUp c' := by
  unfold searchKVStore at h
  split_ifs at h
  · cases h
    rfl
  · split at h
    · cases h
      rfl
    · simp only [bind_eq_ok] at h
      obtain ⟨_, -, h⟩ := h
      exact searchCache_lookedUp h

theorem lookupChunk_lookedUp {cfg : Config} {env : LookupEnv} {useKV : Bool} {st st' : IndexState}
    {c c' : Chunk} (h : lookupChunk cfg env useKV st c = .ok (st', c')) : c.LookedUp c' := by
  unfold lookupChunk at h
  split_ifs at h
  · cases h
    rfl
  · simp only [bind_eq_ok] at h
    obtain ⟨⟨c₁, cache₁⟩, h₁, ⟨c₂, cache₂⟩, h₂, h⟩ := h
    cases h
    exact (((searchStorageBuffer_lookedUp env c).trans (searchIndexBuffer_lookedUp _ _)).trans
      (searchCache_lookedUp h₁)).trans (searchKVStore_lookedUp h₂)

/-- The loop rule for the chunks of a segment: the invariant speaks of the chunks treated, of those to
come, of the chunks returned and of the index. -/
theorem post_lookupChunks {cfg : Config} {env : LookupEnv} {useKV : Bool}
    {I : List Chunk → List Chunk → List Chunk → IndexState → Prop} {E : LookupAbort → Prop}
    (hstep : ∀ done c todo out st, I done (c :: todo) out st →
      Post (lookupChunk cfg env useKV st c) (fun r ↦ I (done ++ [c]) todo (out ++ [r.2]) r.1) E)
    {st : IndexState} {cs : List Chunk} (h : I [] cs [] st) :
    Post (lookupChunks cfg env useKV st cs) (fun r ↦ I cs [] r.2 r.1) E := by
  have hloop : ∀ done c todo (acc : IndexState × List Chunk), I done (c :: todo) acc.2 acc.1 →
      Post (do
        let (st, c) ← lookupChunk cfg env useKV acc.1 c
        return (st, acc.2 ++ [c])) (fun acc ↦ I (done ++ [c]) todo acc.2 acc.1) E :=
    fun done c todo acc hacc ↦ (hstep done c todo acc.2 acc.1 hacc).bind fun _ hr ↦ hr
  exact Post.foldlM (I := fun done todo acc ↦ I done todo acc.2 acc.1) hloop cs [] (st, []) h

/-- **The lookup changes nothing but the container id and two flags of each chunk.** -/
theorem indexLookup_lookedUp {cfg : Config} {env : LookupEnv} {st st' : IndexState}
    {cs cs' : List Chunk} (h : indexLookup cfg env st cs = .ok (st', cs')) :
    List.Forall₂ Chunk.LookedUp cs cs' := by
  unfold indexLookup at h
  simp only [bind_eq_ok] at h
  obtain ⟨cache, -, h⟩ := h
  have hloop : Post (lookupChunks cfg env cfg.searchesKVStore { st with cache := cache } cs)
      (fun r ↦ List.Forall₂ Chunk.LookedUp cs r.2) fun _ ↦ True := by
    refine post_lookupChunks (I := fun done _ out _ ↦ List.Forall₂ Chunk.LookedUp done out)
      (fun done c todo out st hout ↦ ?_) .nil
    exact post_of_forall
      (fun r hr ↦ List.rel_append hout (.cons (lookupChunk_lookedUp hr) .nil)) fun _ _ ↦ trivial
  exact hloop.ok h

/-! ## Handing the elements back -/

/-- The assertions of the filter phase. -/
inductive FilterAbort
  /-- `assert(CHECK_CHUNK(c, CHUNK_SEGMENT_START))`. -/
  | segmentHead
  | nullChunk
  /-- `assert(bq)` of `index_check_buffer`, or the missing queue in `index_update_buffer`. -/
  | bufferQueue
  /-- `assert(c->id != TEMPORARY_ID)` behind `restore_aware_contains`. -/
  | inCacheTemporary
  /-- `assert(ruc)`. -/
  | recentlyUnique
  /-- There is no container to be filled. -/
  | nullContainer
  /-- `assert(!container_overflow(c, ck->size))` of `add_chunk_to_container`. -/
  | containerOverflow
  /-- The assertion where the container already has the chunk. -/
  | alreadyStored
  /-- `assert(c->id != TEMPORARY_ID)` of the filter thread and of `index_update_buffer`. -/
  | temporaryId
  /-- `assert(CHECK_CHUNK(c,CHUNK_FILE_START))`. -/
  | fileStart
  /-- `assert(cp.id>=0)`. -/
  | pointerId
  /-- An assertion of the sampling method. -/
  | sampling (e : SamplingAbort)
deriving DecidableEq

/-- Does `index_check_buffer` consult the index buffer for the chunk? -/
def Chunk.needsCheck (c : Chunk) : Bool :=
  (c.duplicate && c.id = temporaryId) || c.outOfOrder || c.sparse

/-- The turn of `index_check_buffer` for a chunk. -/
def checkChunk (b : IndexBuffer) (c : Chunk) : Except FilterAbort Chunk :=
  if c.isFileMarker || !c.needsCheck then .ok c
  else
    match b.queues c.fp with
    | [] => .error .bufferQueue
    | be :: _ =>
      if c.id < be then
        .ok { c with id := be, rewriteDenied := c.rewriteDenied || c.id ≠ temporaryId }
      else .ok c

def indexCheckBuffer (b : IndexBuffer) (chunks : List Chunk) : Except FilterAbort (List Chunk) :=
  chunks.mapM (checkChunk b)

/-- The turn of `index_update_buffer` for a chunk. -/
def updateChunk (b : IndexBuffer) (c : Chunk) : Except FilterAbort IndexBuffer :=
  if c.isFileMarker then .ok b
  else do
    check (c.id ≠ temporaryId) .temporaryId
    check (b.queues c.fp ≠ []) .bufferQueue
    return b.pop c

def indexUpdateBuffer (b : IndexBuffer) (chunks : List Chunk) : Except FilterAbort IndexBuffer :=
  chunks.foldlM updateChunk b

end UniDedup.Node
