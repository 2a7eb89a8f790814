import UniDedup.Node.Index

/-!
# The filter phase

The filter thread reassembles segments and stores their chunks: unique chunks and the duplicates to be
rewritten go to the container being filled, and every chunk of the segment gets a pointer in the
recipe. All of this happens under the index lock, so a segment is one step of the model; `Core` is the
state of a running job that the lock protects.

The tables of a segment remember the container ids of the chunks it stored, so that a later occurrence
in the same segment finds them.
-/

namespace UniDedup.Node

open Outcome

/-- The monitor of `restore_aware.c`, which simulates the restore cache. -/
structure RestoreAware where
  totalSize : ℕ
  /-- `ccf`, the number of containers read. -/
  ccf : ℕ
  cfl : Float
  /-- The container ids in the simulated cache. -/
  cache : Lru.Cache ℤ

namespace RestoreAware

/-- `init_restore_aware`. -/
def init (cfg : Config) : RestoreAware := ⟨0, 0, 0, .new cfg.restoreCacheSize⟩

/-- `restore_aware_update`. -/
def update (m : RestoreAware) (id : ℤ) (chunklen : ℕ) : RestoreAware :=
  let totalSize := m.totalSize + chunklen + containerMetaEntry
  let found := m.cache.lookup (· = id)
  let ccf := if found.1.isSome then m.ccf else m.ccf + 1
  let ocf := (totalSize + containerSize - 1) / containerSize
  { totalSize := totalSize
    ccf := ccf
    cfl := ocf.toFloat / ccf.toFloat
    cache := if found.1.isSome then found.2 else found.2.insert id }

/-- `restore_aware_contains`. -/
def contains (m : RestoreAware) (id : ℤ) : Bool := (m.cache.lookupWithoutUpdate (· = id)).isSome

/-- `restore_aware_get_cfl`. -/
def getCfl (m : RestoreAware) : Float := if 1 < m.cfl then 1 else m.cfl

end RestoreAware

/-- The state of a running backup that the dedup and the filter thread share. -/
structure Core where
  storage : ContainerStore
  /-- `storage_buffer.container_buffer`. -/
  containerBuffer : Option Container
  /-- `storage_buffer.chunks`, kept for sampling with physical locality. -/
  bufferChunks : List Chunk
  /-- The index buffer and the fingerprint cache. -/
  index : IndexState
  kv : KVStore
  versions : List BackupVersion
  /-- `jcr.bv`. -/
  bv : BackupVersion
  accessRecord : ℤ
  /-- `r`, the recipe of the file being written. -/
  fileRecipe : Option FileRecipeMeta
  /-- `container_utilization_monitor`. -/
  monitor : List (ℤ × ℕ)
  /-- The monitor of `restore_aware.c`. -/
  restoreAware : RestoreAware
  enableRewrite : Bool
  /-- The `.sparse` files of the finished versions, the latest first. -/
  sparse : List (List (ℤ × ℕ))
  /-- The manifest, which is rewritten at the end of the backup. -/
  manifest : Option (List (ℤ × ℕ))

namespace Core

def lookupEnv (core : Core) : LookupEnv :=
  ⟨core.storage, core.containerBuffer, core.bv :: core.versions, core.kv⟩

/-- The turn of the dedup thread for a segment. -/
def lookup (cfg : Config) (core : Core) (chunks : List Chunk) :
    Except LookupAbort (Core × List Chunk) := do
  let (index, chunks) ← indexLookup cfg core.lookupEnv core.index chunks
  return ({ core with index := index }, chunks)

/-! ## Storing a chunk -/

/-- With physical locality, `sampling` and `index_update` for the container being filled. -/
def updateContainerIndex (cfg : Config) (core : Core) (con : Container) : Except FilterAbort Core :=
  if cfg.locality = .physical then do
    let features ← (sampling cfg core.bufferChunks core.bufferChunks.length).mapError .sampling
    return { core with kv := core.kv.updateAll cfg features con.id }
  else .ok core

/-- `create_container` for the container to be filled. -/
def createContainer (core : Core) : Core :=
  let storage := core.storage.create
  { core with storage := storage.2, containerBuffer := some storage.1, bufferChunks := [] }

/-- The container being filled is entered in the index and handed to the append thread. -/
def submitContainer (cfg : Config) (core : Core) (con : Container) : Except FilterAbort Core := do
  let core ← core.updateContainerIndex cfg con
  let storage := core.storage.writeContainerAsync con
  return { core with storage := storage, containerBuffer := none, bufferChunks := [] }

/-- Replace the container being filled where it has no room for a chunk of the given size. -/
def replaceContainer (cfg : Config) (core : Core) (size : ℕ) : Except FilterAbort Core :=
  match core.containerBuffer with
  | some con =>
    if con.overflow size then do
      let core ← core.submitContainer cfg con
      return core.createContainer
    else .ok core
  | none => .ok core

/-- Make sure that there is a container with room for a chunk of the given size. -/
def openContainer (cfg : Config) (core : Core) (size : ℕ) : Except FilterAbort Core :=
  (if core.containerBuffer.isNone then core.createContainer else core).replaceContainer cfg size

/-- The tables `recently_unique_chunks` and `recently_rewritten_chunks` of a segment. -/
structure Tables where
  /-- The unique chunks stored, with their containers. -/
  unique : List (Fingerprint × ℤ)
  /-- The rewritten chunks stored, with their containers. -/
  rewritten : List (Fingerprint × ℤ)

def Tables.find (table : List (Fingerprint × ℤ)) (fp : Fingerprint) : Option ℤ :=
  (table.find? fun p ↦ p.1 = fp).map Prod.snd

/-- `add_chunk_to_container` for the container being filled, and the records of the chunk added. -/
def addChunk (cfg : Config) (core : Core) (t : Tables) (c : Chunk) (con : Container) :
    Except FilterAbort (Core × Tables × Chunk) := do
  check (con.overflow c.size = false) .containerOverflow
  let c' := { c with id := (con.id : ℤ) }
  match con.addChunk c.fp c.data with
  | some con' =>
    let t :=
      if c.duplicate then { t with rewritten := (c.fp, c'.id) :: t.rewritten }
      else { t with unique := (c.fp, c'.id) :: t.unique }
    let stub := { Chunk.new .normal [] with fp := c.fp }
    return ({ core with
      containerBuffer := some con', bufferChunks := core.bufferChunks ++ [stub] }, t, c')
  | none =>
    check (cfg.category ≠ .exact ∨ cfg.rewriteAlgorithm ≠ .no) .alreadyStored
    return (core, t, c')

def storeChunk (cfg : Config) (core : Core) (t : Tables) (c : Chunk) :
    Except FilterAbort (Core × Tables × Chunk) := do
  let core ← core.openContainer cfg c.size
  let con ← getOr core.containerBuffer .nullContainer
  core.addChunk cfg t c con

/-! ### The rule for storing a chunk -/

section StoreRule

variable {cfg : Config} {I : Core → Prop} {E : FilterAbort → Prop}

theorem post_replaceContainer
    (hcreate : ∀ core, I core → core.containerBuffer = none → I core.createContainer)
    {size : ℕ} (hsubmit : ∀ core con, I core → core.containerBuffer = some con →
      con.overflow size = true → Post (core.submitContainer cfg con) I E)
    {core : Core} (h : I core) (hsome : core.containerBuffer.isSome = true) :
    Post (core.replaceContainer cfg size)
      (fun core' ↦ I core' ∧ core'.containerBuffer.isSome = true) E := by
  unfold replaceContainer
  split
  · rename_i con hcon
    split_ifs with hover
    · have hnone : Post (core.submitContainer cfg con) (fun core' ↦ core'.containerBuffer = none)
          fun _ ↦ True := by
        unfold submitContainer
        exact post_of_forall (fun core' h ↦ by
          obtain ⟨_, -, h⟩ := bind_eq_ok.mp h
          cases h
          rfl) fun _ _ ↦ trivial
      refine ((hsubmit core con h hcon hover).and hnone).mono (fun _ h ↦ h) (fun _ h ↦ h.1) |>.bind ?_
      rintro core' ⟨hI, hbuf⟩
      exact ⟨hcreate core' hI hbuf, rfl⟩
    · exact ⟨h, hsome⟩
  · exact ⟨h, hsome⟩

/-- **The rule for storing a chunk.** An invariant that is kept when a container is created and when
one is submitted holds when the chunk is added. -/
theorem post_storeChunk {Q : Core × Tables × Chunk → Prop} {t : Tables} {c : Chunk}
    (hcreate : ∀ core, I core → core.containerBuffer = none → I core.createContainer)
    (hsubmit : ∀ core con, I core → core.containerBuffer = some con →
      con.overflow c.size = true → Post (core.submitContainer cfg con) I E)
    (hadd : ∀ core con, I core → core.containerBuffer = some con →
      Post (core.addChunk cfg t c con) Q E)
    {core : Core} (h : I core) : Post (core.storeChunk cfg t c) Q E := by
  have hopen : Post (core.openContainer cfg c.size)
      (fun core' ↦ I core' ∧ core'.containerBuffer.isSome = true) E := by
    unfold openContainer
    split_ifs with hnone
    · exact post_replaceContainer hcreate hsubmit (hcreate core h (by simpa using hnone)) rfl
    · exact post_replaceContainer hcreate hsubmit h (by simpa [Option.isSome_iff_ne_none] using hnone)
  refine hopen.bind ?_
  rintro core' ⟨hI, hsome⟩
  refine Post.bind (post_getOr fun hnone ↦ ?_) fun con hcon ↦ hadd core' con hI hcon
  simp [hnone] at hsome

end StoreRule

/-! ## Filtering a chunk -/

def cacheAware (cfg : Config) (core : Core) (c : Chunk) : Except FilterAbort Chunk :=
  if cfg.enableCacheAware && core.restoreAware.contains c.id then do
    check (c.id ≠ Node.temporaryId) .inCacheTemporary
    return { c with inCache := true }
  else .ok c

/-- The switch for rewriting out-of-order chunks. -/
def cflSwitch (cfg : Config) (core : Core) : Bool :=
  if cfg.enableCflSwitch then
    let cfl := core.restoreAware.getCfl
    if core.enableRewrite && cfg.cflRequire < cfl then false
    else if !core.enableRewrite && cfl < cfg.cflRequire then true
    else core.enableRewrite
  else core.enableRewrite

/-- The container id of a duplicate of a chunk that was unique in the segment. -/
def resolveUnique (t : Tables) (c : Chunk) : Except FilterAbort Chunk :=
  if c.duplicate && c.id = Node.temporaryId then do
    let id ← getOr (Tables.find t.unique c.fp) .recentlyUnique
    return { c with id := id }
  else .ok c

/-- The container id of a chunk that was rewritten in the segment. -/
def resolveRewritten (t : Tables) (c : Chunk) : Chunk :=
  match Tables.find t.rewritten c.fp with
  | some id => { c with id := id, rewriteDenied := true }
  | none => c

/-- Is the chunk written to a container? -/
def mustStore (enableRewrite : Bool) (c : Chunk) : Bool :=
  !c.duplicate ||
    (!c.rewriteDenied && (c.sparse || (enableRewrite && c.outOfOrder && !c.inCache)))

def storeIfNeeded (cfg : Config) (core : Core) (t : Tables) (c : Chunk) :
    Except FilterAbort (Core × Tables × Chunk) :=
  if mustStore core.enableRewrite c then core.storeChunk cfg t c else .ok (core, t, c)

/-- `har_monitor_update`. -/
def monitorUpdate (monitor : List (ℤ × ℕ)) (id : ℤ) (size : ℕ) : List (ℤ × ℕ) :=
  if id ∈ monitor.map Prod.fst then
    monitor.map fun r ↦ if r.1 = id then (r.1, r.2 + size) else r
  else monitor ++ [(id, size)]

/-- The records of the container of a chunk. -/
def collect (core : Core) (c : Chunk) : Core :=
  { core with
    monitor := monitorUpdate core.monitor c.id c.size
    restoreAware := core.restoreAware.update c.id c.size }

/-- The turn of the filter thread for a chunk. -/
def filterChunk (cfg : Config) (core : Core) (t : Tables) (c : Chunk) :
    Except FilterAbort (Core × Tables × Chunk) :=
  if c.isFileMarker then .ok (core, t, c)
  else do
    let c ← core.cacheAware cfg c
    let core := { core with enableRewrite := core.cflSwitch cfg }
    let c ← resolveUnique t c
    let (core, t, c) ← core.storeIfNeeded cfg t (resolveRewritten t c)
    check (c.id ≠ Node.temporaryId) .temporaryId
    return (core.collect c, t, c)

/-- The loop of the filter thread over the chunks of a segment. -/
def filterChunks (cfg : Config) (core : Core) (chunks : List Chunk) :
    Except FilterAbort (Core × Tables × List Chunk) :=
  chunks.foldlM (fun acc c ↦ do
    let (core, t, c) ← acc.1.filterChunk cfg acc.2.1 c
    return (core, t, acc.2.2 ++ [c])) (core, ⟨[], []⟩, [])

/-! ## Writing the recipe -/

/-- The turn of the recipe loop for a chunk. -/
def writeRecipe (core : Core) (c : Chunk) : Except FilterAbort Core :=
  match core.fileRecipe with
  | none => do
    check (c.kind = .fileStart) .fileStart
    return { core with fileRecipe := some ⟨c.data, 0, 0⟩ }
  | some r =>
    if c.kind ≠ .fileEnd then do
      check (0 ≤ c.id) .pointerId
      let (bv, accessRecord) := core.bv.appendChunkPointer core.accessRecord ⟨c.fp, c.id, c.size⟩
      let r := { r with chunknum := r.chunknum + 1, filesize := r.filesize + c.size }
      return { core with bv := bv, accessRecord := accessRecord, fileRecipe := some r }
    else .ok { core with bv := core.bv.appendFileRecipeMeta r, fileRecipe := none }

/-- The recipe of a segment between its two flags, with the segment id. -/
def writeSegmentRecipe (core : Core) (chunks : List Chunk) : Except FilterAbort (ℤ × Core) := do
  let (sid, bv) := core.bv.appendSegmentStart (chunkNum chunks)
  let core ← chunks.foldlM writeRecipe { core with bv := bv }
  return (sid, { core with bv := core.bv.appendSegmentEnd })

/-- The features that exact deduplication adds: those of the chunks the segment stored. -/
def storedFeatures (cfg : Config) (t : Tables) : List Key :=
  if cfg.category = .exact then keysOf cfg (t.unique.map Prod.fst ++ t.rewritten.map Prod.fst)
  else []

/-- With logical locality, `sampling` and `index_update` for a segment. -/
def updateSegmentIndex (cfg : Config) (core : Core) (t : Tables) (chunks : List Chunk) (sid : ℤ) :
    Except FilterAbort Core :=
  if cfg.locality = .logical then do
    let features ← (sampling cfg chunks (chunkNum chunks)).mapError .sampling
    return { core with kv := core.kv.updateAll cfg (features ++ storedFeatures cfg t).dedup sid }
  else .ok core

/-- The turn of the filter thread for a segment. -/
def filterSegment (cfg : Config) (core : Core) (chunks : List Chunk) : Except FilterAbort Core := do
  let chunks ← indexCheckBuffer core.index.buffer chunks
  let (core, t, chunks) ← core.filterChunks cfg chunks
  let buffer ← indexUpdateBuffer core.index.buffer chunks
  let core := { core with index := { core.index with buffer := buffer } }
  let (sid, core) ← core.writeSegmentRecipe chunks
  core.updateSegmentIndex cfg t chunks sid

/-- The end of the filter thread: the container being filled is submitted. -/
def finalFlush (cfg : Config) (core : Core) : Except FilterAbort Core :=
  match core.containerBuffer with
  | none => .ok core
  | some con =>
    if con.isEmpty then .ok core else core.submitContainer cfg con

theorem containerBuffer_finalFlush {cfg : Config} {core core' : Core}
    (h : core.finalFlush cfg = .ok core') :
    ∀ con ∈ core'.containerBuffer, con.isEmpty = true := by
  unfold finalFlush at h
  split at h
  · rename_i hbuf
    cases h
    simp [hbuf]
  · rename_i con hbuf
    split_ifs at h with hempty
    · cases h
      simpa [hbuf] using hempty
    · simp only [submitContainer, bind_eq_ok] at h
      obtain ⟨_, -, h⟩ := h
      cases h
      intro con hcon
      cases hcon

def append (core : Core) : Option Core :=
  core.storage.append.map fun storage ↦ { core with storage := storage }

end Core

end UniDedup.Node
