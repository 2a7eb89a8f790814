import UniDedup.Lib.Outcome
import UniDedup.Node.Chunk

/-!
# Recipes

The recipe of a backup version is a file of chunk pointers of 32 bytes each, in which two flag records
bracket the pointers of every segment; a segment is identified by the version, the byte offset of its
first flag and its number of chunks. Beside it a version keeps the list of its files and the access
records, the sequence of container ids the pointers walk through.

The file is modelled at the granularity of its records. A read at an offset that is no record boundary
interprets bytes across records; there the assertion on the first flag stops the program, and so does
the model.
-/

namespace UniDedup.Node

open Outcome

/-- `struct chunkPointer`, also used for the flag records. -/
structure ChunkPointer where
  fp : Fingerprint
  /-- The container id, or a negative flag. -/
  id : ℤ
  /-- The size of the chunk, or of the segment. -/
  size : ℕ
deriving DecidableEq

/-- The size of a record of the recipe file. -/
def recordSize : ℕ := 32

/-- The id that marks the start of a segment: `0 - CHUNK_SEGMENT_START`. -/
def segmentStartId : ℤ := -4

/-- The id that marks the end of a segment: `0 - CHUNK_SEGMENT_END`. -/
def segmentEndId : ℤ := -8

def ChunkPointer.flag (id : ℤ) (size : ℕ) : ChunkPointer := ⟨Fingerprint.fill 0, id, size⟩

/-- `struct fileRecipeMeta`. -/
structure FileRecipeMeta where
  filename : Bytes
  chunknum : ℕ
  filesize : ℕ
deriving DecidableEq

/-- `struct backupVersion` with the contents of its three files. -/
structure BackupVersion where
  bvNum : ℕ
  /-- The `deleted` field of the `.meta` file. -/
  deleted : Bool
  /-- The file list of the `.meta` file. -/
  files : List FileRecipeMeta
  /-- The `.recipe` file. -/
  recipe : List ChunkPointer
  /-- The `.records` file. -/
  records : List ℤ
  numberOfChunks : ℕ
  /-- `segmentbuf`, the records of the segment being written. -/
  segmentbuf : List ChunkPointer
deriving DecidableEq

/-! ## Segment ids -/

/-- `make_segment_id` in 64-bit arithmetic. -/
def makeSegmentId (bid off size : ℤ) : ℤ :=
  Int.bmod (bid * 2 ^ 48 + off * 2 ^ 16 + size) (2 ^ 64)

def idToOff (id : ℤ) : ℤ := id / 2 ^ 16 % 2 ^ 32

def idToBnum (id : ℤ) : ℤ := id / 2 ^ 48

/-! ## Writing -/

namespace BackupVersion

/-- `create_backup_version`. -/
def create (bvNum : ℕ) : BackupVersion := ⟨bvNum, false, [], [], [], 0, []⟩

/-- `append_segment_flag` with `CHUNK_SEGMENT_START`. -/
def appendSegmentStart (b : BackupVersion) (segmentSize : ℕ) : ℤ × BackupVersion :=
  (makeSegmentId b.bvNum (recordSize * b.recipe.length : ℕ) segmentSize,
    { b with segmentbuf := [.flag segmentStartId segmentSize] })

/-- `append_segment_flag` with `CHUNK_SEGMENT_END`: the buffered segment goes to the file. -/
def appendSegmentEnd (b : BackupVersion) : BackupVersion :=
  { b with recipe := b.recipe ++ b.segmentbuf ++ [.flag segmentEndId 0], segmentbuf := [] }

/-- `append_n_chunk_pointers` for one pointer, with the static `access_record`. -/
def appendChunkPointer (b : BackupVersion) (accessRecord : ℤ) (cp : ChunkPointer) :
    BackupVersion × ℤ :=
  let records :=
    if accessRecord ≠ temporaryId ∧ accessRecord ≠ cp.id then b.records ++ [accessRecord]
    else b.records
  ({ b with
      records := records, segmentbuf := b.segmentbuf ++ [cp]
      numberOfChunks := b.numberOfChunks + 1 }, cp.id)

def appendFileRecipeMeta (b : BackupVersion) (r : FileRecipeMeta) : BackupVersion :=
  { b with files := b.files ++ [r] }

/-- `update_backup_version`: the pending access record and the end indication are written. -/
def update (b : BackupVersion) (accessRecord : ℤ) : BackupVersion :=
  { b with
    records := b.records ++ (if accessRecord ≠ temporaryId then [accessRecord] else []) ++
      [temporaryId] }

end BackupVersion

/-! ## Reading segments -/

/-- `struct segmentRecipe`: the pointers of a segment, the last one of a fingerprint first. -/
structure SegmentRecipe where
  id : ℤ
  /-- The container id of each fingerprint. -/
  kvpairs : List (Fingerprint × ℤ)
deriving DecidableEq

/-- The assertions and exits of the functions that read recipes. -/
inductive RecipeAbort
  /-- `assert(id != TEMPORARY_ID)` of `prefetch_segments`. -/
  | temporarySegment
  /-- `open_backup_version` does not find the version. -/
  | noVersion
  /-- `assert(j != 0)`: there is no segment at the offset. -/
  | noSegment
  /-- `assert(cp->id > TEMPORARY_ID)`. -/
  | pointerId
  /-- `assert(flag.id == 0 - CHUNK_SEGMENT_END)`. -/
  | segmentEnd
deriving DecidableEq

/-- The body of `read_next_segment`, shared with the loop of `prefetch_segments`: the segment that
starts at record `pos` and the position behind it, or `none` where no segment starts. -/
def readSegment (bvNum : ℤ) (recipe : List ChunkPointer) (pos : ℕ) :
    Except RecipeAbort (Option (SegmentRecipe × ℕ)) :=
  match recipe.drop pos with
  | [] => .ok none
  | flag :: rest =>
    if flag.id ≠ segmentStartId then .ok none
    else do
      check (flag.size ≤ rest.length ∧ ∀ cp ∈ rest.take flag.size, temporaryId < cp.id) .pointerId
      check ((rest[flag.size]?).map ChunkPointer.id = some segmentEndId) .segmentEnd
      let kvpairs := ((rest.take flag.size).map fun cp ↦ (cp.fp, cp.id)).reverse
      return some (⟨makeSegmentId bvNum (recordSize * pos : ℕ) flag.size, kvpairs⟩,
        pos + flag.size + 2)

/-- Up to `n` consecutive segments from record `pos` on: the loop of `prefetch_segments`, and that of a
caller of `read_next_segment`. Every segment takes two records or more, so the length of the recipe is
bound enough to read all of them. -/
def readSegments (bvNum : ℤ) (recipe : List ChunkPointer) :
    ℕ → ℕ → Except RecipeAbort (List SegmentRecipe)
  | 0, _ => .ok []
  | n + 1, pos => do
    match ← readSegment bvNum recipe pos with
    | none => return []
    | some (sr, pos') => return sr :: (← readSegments bvNum recipe n pos')

/-- `prefetch_segments`: up to `prefetchNum` segments from the one with the given id on. The version
being written is read like the finished ones. -/
def prefetchSegments (versions : List BackupVersion) (id : ℤ) (prefetchNum : ℕ) :
    Except RecipeAbort (List SegmentRecipe) := do
  check (id ≠ temporaryId) .temporarySegment
  let bv ← getOr (versions.find? fun b ↦ (b.bvNum : ℤ) = idToBnum id) .noVersion
  let off := (idToOff id).toNat
  check (prefetchNum = 0 ∨ off % recordSize = 0) .noSegment
  let segments ← readSegments (idToBnum id) bv.recipe prefetchNum (off / recordSize)
  check (prefetchNum = 0 ∨ segments ≠ []) .noSegment
  return segments

/-- `lookup_fingerprint_in_segment_recipe` with the pointer found. -/
def SegmentRecipe.lookup (sr : SegmentRecipe) (fp : Fingerprint) : Option ℤ :=
  (sr.kvpairs.find? fun p ↦ p.1 = fp).map Prod.snd

end UniDedup.Node
