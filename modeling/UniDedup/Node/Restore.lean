import UniDedup.Node.Container
import UniDedup.Node.OptimalCache

/-!
# The restore threads

A restore thread pops file markers and chunk pointers from `restore_recipe_queue` and pushes the markers
and the data of the chunks to `restore_chunk_queue`. There are three of them. One caches containers and
looks for the fingerprint in any of them, one uses the optimal cache, and the third collects chunks in an
area and assembles all chunks of a container at once.

The simulation level is `SIMULATION_NO`. What only counts, and the fields of a restored chunk besides its
data, are left out.
-/

namespace UniDedup.Node

/-- A chunk in one of the queues of a restore: a file marker, or what is known of a chunk of data. -/
inductive RestoreChunk (α : Type)
  /-- `CHUNK_FILE_START`, with the file name. -/
  | fileStart (filename : Bytes)
  | chunk (a : α)
  /-- `CHUNK_FILE_END`. -/
  | fileEnd
deriving DecidableEq

namespace RestoreChunk

variable {α β : Type}

def map (f : α → β) : RestoreChunk α → RestoreChunk β
  | fileStart filename => fileStart filename
  | chunk a => chunk (f a)
  | fileEnd => fileEnd

/-- What is known of the data, unless it is a marker. -/
def content : RestoreChunk α → Option α
  | chunk a => some a
  | _ => none

end RestoreChunk

/-- The chunk pointers of a stream of recipes. -/
def streamPointers (stream : List (RestoreChunk ChunkPointer)) : List ChunkPointer :=
  stream.filterMap RestoreChunk.content

/-- The loop of a restore thread that gets the data of one chunk after the other; `none` where an assertion
fails. -/
def restoreLoop {σ : Type} (fetch : σ → ChunkPointer → Option (Bytes × σ)) :
    σ → List (RestoreChunk ChunkPointer) → Option (List (RestoreChunk Bytes))
  | _, [] => some []
  | s, .fileStart filename :: stream => (restoreLoop fetch s stream).map (.fileStart filename :: ·)
  | s, .fileEnd :: stream => (restoreLoop fetch s stream).map (.fileEnd :: ·)
  | s, .chunk cp :: stream => do
    let (d, s) ← fetch s cp
    (restoreLoop fetch s stream).map (.chunk d :: ·)

/-! ## Without a cache -/

/-- The data under the fingerprint of a pointer in its container. -/
def fetchPointer (st : ContainerStore) (cp : ChunkPointer) : Option Bytes := do
  let con ← st.retrieve cp.id
  con.getChunk cp.fp

/-- The restore that reads the container of each pointer. -/
def naiveRestore (st : ContainerStore) (stream : List (RestoreChunk ChunkPointer)) :
    Option (List (RestoreChunk Bytes)) :=
  restoreLoop (fun _ cp ↦ (fetchPointer st cp).map (·, ())) () stream

/-! ## The cache of containers -/

/-- What `lru_restore_thread` does for a chunk. -/
def lruFetch (st : ContainerStore) (cache : Lru.Cache Container) (cp : ChunkPointer) :
    Option (Bytes × Lru.Cache Container) := do
  let (con, cache) := cache.lookup (·.contains cp.fp)
  let (con, cache) ← (match con with
    | some con => some (con, cache)
    | none => (st.retrieve cp.id).map fun con ↦ (con, cache.insert con))
  let d ← con.getChunk cp.fp
  return (d, cache)

def lruRestoreThread (st : ContainerStore) (size : ℕ) (stream : List (RestoreChunk ChunkPointer)) :
    Option (List (RestoreChunk Bytes)) :=
  restoreLoop (lruFetch st) (Lru.Cache.new size) stream

/-! ## The optimal cache -/

/-- What `optimal_restore_thread` does for a chunk. -/
def optimalFetch (st : ContainerStore) (w : ℕ) (search : OptimalCache → ℤ → ℕ) (cache : OptimalCache)
    (cp : ChunkPointer) : Option (Bytes × OptimalCache) := do
  let (hit, cache) ← cache.hits w cp.id
  let cache ← (if hit then some cache else do
    let _ ← st.retrieve cp.id
    (cache.insert search cp.id).map Prod.snd)
  let (id, cache) := cache.lookup (fun id fp ↦ (st.retrieve id).any (·.contains fp)) cp.fp
  let con ← id.bind st.retrieve
  let d ← con.getChunk cp.fp
  return (d, cache)

/-- `optimal_restore_thread` for a version with these access records. -/
def optimalRestoreThread (st : ContainerStore) (w size : ℕ) (search : OptimalCache → ℤ → ℕ)
    (records : List ℤ) (stream : List (RestoreChunk ChunkPointer)) : Option (List (RestoreChunk Bytes)) := do
  let cache ← OptimalCache.init w size records
  restoreLoop (optimalFetch st w search) cache stream

/-! ## The assembly area -/

/-- A chunk in the assembly area: its pointer, and its data if it is `CHUNK_READY`. -/
abbrev AreaChunk := RestoreChunk (ChunkPointer × Option Bytes)

structure AssemblyArea where
  area : List AreaChunk
  /-- `size`: the size of the chunks in the area. -/
  size : ℤ
  areaSize : ℤ

namespace AssemblyArea

/-- `init_assembly_area` for a cache of `size` containers. -/
def init (size : ℕ) : AssemblyArea := ⟨[], 0, (size - 1) * containerSize⟩

/-- `assembly_area_push`: is the area full now? -/
def push (a : AssemblyArea) : RestoreChunk ChunkPointer → Bool × AssemblyArea
  | .fileStart filename => (false, { a with area := a.area ++ [.fileStart filename] })
  | .fileEnd => (false, { a with area := a.area ++ [.fileEnd] })
  | .chunk cp =>
    (a.areaSize ≤ a.size + cp.size,
      { a with area := a.area ++ [.chunk (cp, none)], size := a.size + cp.size })

/-- The markers at the front of the area go to the queue. -/
def popMarkers : List AreaChunk → List (RestoreChunk Bytes) × List AreaChunk
  | .fileStart filename :: area =>
    let (q, area) := popMarkers area
    (.fileStart filename :: q, area)
  | .fileEnd :: area =>
    let (q, area) := popMarkers area
    (.fileEnd :: q, area)
  | area => ([], area)

/-- A chunk of the container gets its data; `none` where an assertion fails. -/
def assembleChunk (con : Container) (id : ℤ) : AreaChunk → Option AreaChunk
  | .chunk (cp, data) =>
    if cp.id = id then do
      let buf ← con.getChunk cp.fp
      if cp.size = buf.length then some (.chunk (cp, some buf)) else none
    else some (.chunk (cp, data))
  | c => some c

/-- What is assembled at the front of the area is issued. -/
def issue : List AreaChunk → ℤ → List (RestoreChunk Bytes) × List AreaChunk × ℤ
  | .fileStart filename :: area, size =>
    let (q, area, size) := issue area size
    (.fileStart filename :: q, area, size)
  | .fileEnd :: area, size =>
    let (q, area, size) := issue area size
    (.fileEnd :: q, area, size)
  | .chunk (cp, some d) :: area, size =>
    let (q, area, size) := issue area (size - cp.size)
    (.chunk d :: q, area, size)
  | area, size => ([], area, size)

/-- `assemble_area`; `none` where an assertion fails, and `some none` where it returns `NULL`. -/
def assembleArea (st : ContainerStore) (a : AssemblyArea) :
    Option (Option (List (RestoreChunk Bytes) × AssemblyArea)) :=
  if a.area.isEmpty then some none
  else
    let (q, area) := popMarkers a.area
    match area with
    | .chunk (cp, _) :: _ => do
      let con ← st.retrieve cp.id
      let area ← area.mapM (assembleChunk con cp.id)
      let (ready, area, size) := issue area a.size
      return some (q ++ ready, { a with area := area, size := size })
    | area => some (some (q, { a with area := area }))

/-- The loop of `assembly_restore_thread` over the recipe queue. -/
def restore (st : ContainerStore) (a : AssemblyArea) :
    List (RestoreChunk ChunkPointer) → Option (List (RestoreChunk Bytes) × AssemblyArea)
  | [] => some ([], a)
  | c :: stream =>
    if (a.push c).1 then do
      let (q, a) ← (← (a.push c).2.assembleArea st)
      let (out, a) ← restore st a stream
      return (q ++ out, a)
    else restore st (a.push c).2 stream

/-- The loop of `assembly_restore_thread` after the end of the recipe queue. -/
def drain (st : ContainerStore) : ℕ → AssemblyArea → Option (List (RestoreChunk Bytes))
  | 0, _ => none
  | fuel + 1, a => do
    match ← a.assembleArea st with
    | none => return []
    | some (q, a) =>
      let out ← drain st fuel a
      return q ++ out

end AssemblyArea

def assemblyRestoreThread (fuel : ℕ) (st : ContainerStore) (size : ℕ)
    (stream : List (RestoreChunk ChunkPointer)) : Option (List (RestoreChunk Bytes)) := do
  let (out, a) ← AssemblyArea.restore st (.init size) stream
  let rest ← a.drain st fuel
  return out ++ rest

end UniDedup.Node
