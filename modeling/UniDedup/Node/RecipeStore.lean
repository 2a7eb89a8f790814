import Mathlib.Data.List.DropRight
import UniDedup.Lib.Stdio
import UniDedup.Lib.Word
import UniDedup.Node.Recipe

/-!
# The files of the recipe store

What the recipe store does with bytes. A backup version is three files: `.meta` is a header, rewritten in
place at the end of the backup, followed by the list of files; `.recipe` is the sequence of segments;
`.records` the sequence of container ids. Each is written through a buffer of its own, and read back
through counters that are static variables of the process.

The integers have the widths of the source. Where a signed counter overflows, a copy leaves its buffer
or a variable is used that no read filled, the program has no defined behaviour; the functions stop
there with a `StoreFault`, as they do where the program exits or an assertion fails.
-/

namespace UniDedup.Node

open Outcome Stdio

/-- Where the functions of the recipe store stop. -/
inductive StoreFault
  /-- The trimming loop of `create_backup_version` runs past the start of the path. -/
  | path
  | overflow
  /-- A file entry is larger than the buffer of the `.meta` file. -/
  | metabuf
  /-- There is no buffer of the `.records` file. -/
  | recordbuf
  /-- A record does not fit into the buffer of the segment, or its bytes were not all written. -/
  | segmentbuf
  /-- `open_backup_version` does not find the version. -/
  | noVersion
  /-- `assert(b->bv_num == number)`. -/
  | versionNumber
  /-- A variable is used that a short read left alone. -/
  | shortRead
  /-- `assert(read_file_num <= b->number_of_files)`. -/
  | fileNumber
  /-- `assert(read_chunk_num <= b->number_of_chunks)`. -/
  | chunkNumber
  /-- `assert(CHECK_CHUNK(c, CHUNK_FILE_START))` of the filter thread. -/
  | fileStart
  /-- `assert(cp.id >= 0)` of the filter thread. -/
  | pointerId
  /-- `assert(flag.id == 0 - CHUNK_SEGMENT_END)` of `read_next_segment`. -/
  | segmentEnd
  /-- `init_restore_jcr` refuses a deleted version. -/
  | deleted
deriving DecidableEq

/-- Adding to a signed variable of `w` bits. -/
@[irreducible] def addInt (w : ℕ) (x y : ℤ) : Except StoreFault ℤ := do
  check (-2 ^ (w - 1) ≤ x + y ∧ x + y < 2 ^ (w - 1)) .overflow
  return x + y

/-! ## The structures -/

/-- `struct fileRecipeMeta`. -/
structure FileMeta where
  filename : Bytes
  chunknum : ℤ
  filesize : ℤ
deriving DecidableEq

/-- `struct chunkPointer`. -/
structure Pointer where
  fp : Fingerprint
  /-- The container id, or a negative flag. -/
  id : ℤ
  /-- The size of the chunk, or of the segment. -/
  size : ℤ
deriving DecidableEq

/-- A record that marks a segment boundary. -/
def Pointer.flag (id : ℤ) (size : ℤ) : Pointer := ⟨Fingerprint.fill 0, id, size⟩

def FileMeta.encode (r : FileMeta) : Bytes :=
  Word.le 4 r.filename.length ++ r.filename ++ Word.le 8 r.chunknum ++ Word.le 8 r.filesize

def Pointer.encode (cp : Pointer) : Bytes := cp.fp.toList ++ Word.le 8 cp.id ++ Word.le 4 cp.size

def Pointer.isFlag (cp : Pointer) : Bool := cp.id = segmentStartId || cp.id = segmentEndId

/-- The three files of a version. -/
structure VersionFiles where
  metadata : Bytes
  recipe : Bytes
  records : Bytes
deriving DecidableEq

/-- `metabufsize` and `recordbufsize`. -/
def metabufsize : ℕ := 64 * 1024

/-- `struct backupVersion`. -/
structure OpenVersion where
  path : Bytes
  bvNum : ℤ
  deleted : ℤ
  numberOfFiles : ℤ
  numberOfChunks : ℤ
  metadataFp : Handle
  recipeFp : Handle
  recordFp : Handle
  /-- The filled part of the buffer, or `none` for `NULL`. -/
  metabuf : Option Bytes
  recordbuf : Option Bytes
  segmentbuf : Bytes
  segmentlen : ℤ
deriving DecidableEq

namespace OpenVersion

/-- `free_backup_version` closes the files. -/
def close (b : OpenVersion) : VersionFiles :=
  ⟨b.metadataFp.contents, b.recipeFp.contents, b.recordFp.contents⟩

/-! ## Writing -/

/-- The variables of the header of the `.meta` file. -/
def header (b : OpenVersion) : List Bytes :=
  [Word.le 4 b.bvNum, Word.le 4 b.deleted, Word.le 8 b.numberOfFiles, Word.le 8 b.numberOfChunks,
    Word.le 4 b.path.length, b.path]

/-- The header is written at the start of the file. -/
def writeHeader (b : OpenVersion) : OpenVersion :=
  { b with metadataFp := b.header.foldl Handle.write (b.metadataFp.seek 0) }

/-- The buffer of the file list goes to the file. -/
def flushMeta (b : OpenVersion) : OpenVersion :=
  { b with metadataFp := b.metadataFp.write (b.metabuf.getD []), metabuf := b.metabuf.map fun _ ↦ [] }

/-- The buffer of the access records goes to the file. -/
def flushRecords (b : OpenVersion) : OpenVersion :=
  { b with
    recordFp := b.recordFp.write (b.recordbuf.getD []), recordbuf := b.recordbuf.map fun _ ↦ [] }

end OpenVersion

def slash : UInt8 := 0x2f

/-- The loop of `create_backup_version` that cuts the path behind its last separator. -/
def trimPath (path : Bytes) : Except StoreFault Bytes := do
  check (path.length < 2 ^ 31) .overflow
  check (slash ∈ path) .path
  return path.rdropWhile (· ≠ slash)

/-- `create_backup_version` for the next version number. -/
def createBackupVersion (number : ℤ) (path : Bytes) : Except StoreFault OpenVersion := do
  let path ← trimPath path
  let b : OpenVersion :=
    { path := path, bvNum := number, deleted := 0, numberOfFiles := 0, numberOfChunks := 0
      metadataFp := .create, recipeFp := .create, recordFp := .create
      metabuf := some [], recordbuf := some [], segmentbuf := [], segmentlen := 0 }
  return b.writeHeader

namespace OpenVersion

/-- The buffer of the file list is flushed if `size` more bytes do not fit. -/
def makeRoom (b : OpenVersion) (size : ℕ) : OpenVersion :=
  if size > metabufsize - (b.metabuf.getD []).length then b.flushMeta else b

def appendFileRecipeMeta (b : OpenVersion) (r : FileMeta) : Except StoreFault OpenVersion := do
  let b := b.makeRoom (4 + r.filename.length + 8 + 8)
  let buf ← getOr b.metabuf .metabuf
  check (buf.length + r.encode.length ≤ metabufsize) .metabuf
  let numberOfFiles ← addInt 64 b.numberOfFiles 1
  return { b with metabuf := some (buf ++ r.encode), numberOfFiles := numberOfFiles }

/-- A record is copied to the buffer of the segment. -/
def putPointer (b : OpenVersion) (cp : Pointer) : Except StoreFault OpenVersion := do
  check (b.segmentbuf.length + recordSize ≤ b.segmentlen) .segmentbuf
  return { b with segmentbuf := b.segmentbuf ++ cp.encode }

/-- `segmentlen`, an `int`: two flags and many chunk pointers. -/
@[irreducible] def segmentLength (segmentSize : ℕ) : ℤ :=
  Int.bmod (recordSize * 2 + segmentSize * recordSize : ℕ) (2 ^ 32)

/-- The buffer for a segment, with the position at the end of the recipe. -/
def openSegment (b : OpenVersion) (segmentSize : ℕ) : OpenVersion :=
  { b with
    recipeFp := b.recipeFp.seekEnd, segmentbuf := [], segmentlen := segmentLength segmentSize }

/-- `append_segment_flag` with `CHUNK_SEGMENT_START`. -/
def appendSegmentStart (b : OpenVersion) (segmentSize : ℕ) : Except StoreFault (ℤ × OpenVersion) := do
  let b := b.openSegment segmentSize
  let b ← b.putPointer (.flag segmentStartId segmentSize)
  return (makeSegmentId b.bvNum b.recipeFp.pos segmentSize, b)

/-- The buffer of the segment goes to the file. -/
def flushSegment (b : OpenVersion) : OpenVersion :=
  { b with recipeFp := b.recipeFp.seekEnd.write b.segmentbuf, segmentbuf := [], segmentlen := 0 }

/-- `append_segment_flag` with `CHUNK_SEGMENT_END`: the whole buffer is written. -/
def appendSegmentEnd (b : OpenVersion) : Except StoreFault OpenVersion := do
  let b ← b.putPointer (.flag segmentEndId 0)
  check ((b.segmentbuf.length : ℤ) = b.segmentlen) .segmentbuf
  return b.flushSegment

/-- The buffer of the access records is flushed if another one does not fit. -/
def makeRecordRoom (b : OpenVersion) : OpenVersion :=
  if (b.recordbuf.getD []).length + 8 > metabufsize then b.flushRecords else b

/-- The access record is copied to its buffer when the container changes. -/
def noteAccess (b : OpenVersion) (accessRecord id : ℤ) : Except StoreFault OpenVersion :=
  if accessRecord ≠ temporaryId ∧ accessRecord ≠ id then do
    let b := b.makeRecordRoom
    let buf ← getOr b.recordbuf .recordbuf
    return { b with recordbuf := some (buf ++ Word.le 8 accessRecord) }
  else .ok b

/-- A turn of the loop of `append_n_chunk_pointers`, with the static `access_record`. -/
def appendChunkPointer (b : OpenVersion) (accessRecord : ℤ) (cp : Pointer) :
    Except StoreFault (OpenVersion × ℤ) := do
  let b ← b.noteAccess accessRecord cp.id
  check (cp.id ≠ temporaryId) .pointerId
  let b ← b.putPointer cp
  let numberOfChunks ← addInt 64 b.numberOfChunks 1
  return ({ b with numberOfChunks := numberOfChunks }, cp.id)

/-- What is left in the buffer of the file list goes to the file. -/
def drainMeta (b : OpenVersion) : OpenVersion := if b.metabuf.getD [] ≠ [] then b.flushMeta else b

/-- What is left in the buffer of the access records goes to the file. -/
def drainRecords (b : OpenVersion) : OpenVersion :=
  if b.recordbuf.getD [] ≠ [] then b.flushRecords else b

/-- The last access record and the indication of the end. -/
def writeEnd (b : OpenVersion) (accessRecord : ℤ) : OpenVersion :=
  let recordFp :=
    if accessRecord ≠ temporaryId then b.recordFp.write (Word.le 8 accessRecord) else b.recordFp
  { b with recordFp := recordFp.write (Word.le 8 temporaryId) }

/-- `update_backup_version`. -/
def update (b : OpenVersion) (accessRecord : ℤ) : OpenVersion :=
  b.drainMeta.writeHeader.drainRecords.writeEnd accessRecord

end OpenVersion

/-! ## The recipe loop of the filter thread -/

/-- What the loop works on: the version, the static `access_record` and the file being recorded. -/
structure RecipeWriter where
  bv : OpenVersion
  accessRecord : ℤ
  fileRecipe : Option FileMeta
deriving DecidableEq

namespace RecipeWriter

def writeRecipe (w : RecipeWriter) (c : Chunk) : Except StoreFault RecipeWriter :=
  match w.fileRecipe with
  | none => do
    check (c.kind = .fileStart) .fileStart
    return { w with fileRecipe := some ⟨cString c.data, 0, 0⟩ }
  | some r =>
    if c.kind ≠ .fileEnd then do
      check (0 ≤ c.id) .pointerId
      let (bv, accessRecord) ← w.bv.appendChunkPointer w.accessRecord ⟨c.fp, c.id, c.size⟩
      let chunknum ← addInt 64 r.chunknum 1
      let filesize ← addInt 64 r.filesize c.size
      return ⟨bv, accessRecord, some { r with chunknum := chunknum, filesize := filesize }⟩
    else do
      let bv ← w.bv.appendFileRecipeMeta r
      return { w with bv := bv, fileRecipe := none }

def writeSegmentRecipe (w : RecipeWriter) (cs : List Chunk) : Except StoreFault RecipeWriter := do
  let (_, bv) ← w.bv.appendSegmentStart (chunkNum cs)
  let w ← cs.foldlM writeRecipe { w with bv := bv }
  let bv ← w.bv.appendSegmentEnd
  return { w with bv := bv }

end RecipeWriter

/-- The recipe store during a backup: the version is created, the segments are recorded in order and the
version is updated and closed. -/
def writeVersion (number : ℤ) (path : Bytes) (segs : List (List Chunk)) :
    Except StoreFault VersionFiles := do
  let b ← createBackupVersion number path
  let w ← segs.foldlM RecipeWriter.writeSegmentRecipe ⟨b, temporaryId, none⟩
  return (w.bv.update w.accessRecord).close

/-! ## Reading -/

/-- `fread` of `n` bytes. -/
def readBytes (fp : Handle) (n : ℕ) : Except StoreFault (Bytes × Handle) := getOr (fp.read n) .shortRead

/-- `fread` of a signed variable of `n` bytes. -/
def readInt (fp : Handle) (n : ℕ) : Except StoreFault (ℤ × Handle) := do
  let (bs, fp) ← readBytes fp n
  return (Word.signed bs, fp)

/-- A length, and a string of this length. -/
def readString (fp : Handle) : Except StoreFault (Bytes × Handle) := do
  let (len, fp) ← readInt fp 4
  check (0 ≤ len ∧ len + 1 < 2 ^ 31) .overflow
  let (bs, fp) ← readBytes fp len.toNat
  return (cString bs, fp)

def readPointer (fp : Handle) : Except StoreFault (Pointer × Handle) := do
  let (bs, fp) ← readBytes fp fpLength
  let digest ← getOr (if h : bs.length = fpLength then some ⟨bs, h⟩ else none) .shortRead
  let (id, fp) ← readInt fp 8
  let (size, fp) ← readInt fp 4
  return (⟨digest, id, size⟩, fp)

/-- `open_backup_version` for the files of a version that exists. -/
def VersionFiles.open (files : VersionFiles) (number : ℤ) : Except StoreFault OpenVersion := do
  let (bvNum, fp) ← readInt (.openRead files.metadata) 4
  check (bvNum = number) .versionNumber
  let (deleted, fp) ← readInt fp 4
  let (numberOfFiles, fp) ← readInt fp 8
  let (numberOfChunks, fp) ← readInt fp 8
  let (path, fp) ← readString fp
  return {
    path := path, bvNum := bvNum, deleted := deleted, numberOfFiles := numberOfFiles
    numberOfChunks := numberOfChunks, metadataFp := fp, recipeFp := .openRead files.recipe
    recordFp := .openRead files.records, metabuf := none, recordbuf := none, segmentbuf := []
    segmentlen := 0 }

/-- A version being read, with the static counters of the functions that read it. -/
structure RecipeReader where
  bv : OpenVersion
  readFileNum : ℤ
  readChunkNum : ℤ
deriving DecidableEq

namespace RecipeReader

def readNextFileRecipeMeta (r : RecipeReader) : Except StoreFault (FileMeta × RecipeReader) := do
  check (r.readFileNum ≤ r.bv.numberOfFiles) .fileNumber
  let (filename, fp) ← readString r.bv.metadataFp
  let (chunknum, fp) ← readInt fp 8
  let (filesize, fp) ← readInt fp 8
  let readFileNum ← addInt 32 r.readFileNum 1
  return (⟨filename, chunknum, filesize⟩,
    { r with bv := { r.bv with metadataFp := fp }, readFileNum := readFileNum })

/-- The entries of `n` files. -/
def readFileRecipeMetas (r : RecipeReader) : ℕ → Except StoreFault (List FileMeta × RecipeReader)
  | 0 => .ok ([], r)
  | n + 1 => do
    let (m, r) ← r.readNextFileRecipeMeta
    let (ms, r) ← readFileRecipeMetas r n
    return (m :: ms, r)

end RecipeReader

/-- The loop of `read_next_n_chunk_pointers`: `num` pointers, without the records of segment boundaries.
The first argument bounds the records that are left. -/
def readPointers : ℕ → ℕ → Handle → Except StoreFault (List Pointer × Handle)
  | _, 0, fp => .ok ([], fp)
  | 0, _ + 1, _ => .error .shortRead
  | left + 1, num + 1, fp => do
    let (cp, fp) ← readPointer fp
    if cp.isFlag then readPointers left (num + 1) fp
    else do
      let (cps, fp) ← readPointers left num fp
      return (cp :: cps, fp)

namespace RecipeReader

/-- `read_next_n_chunk_pointers`; at the end of the stream the list is empty. -/
def readNextNChunkPointers (r : RecipeReader) (n : ℤ) :
    Except StoreFault (List Pointer × RecipeReader) :=
  if r.readChunkNum = r.bv.numberOfChunks then .ok ([], r)
  else do
    let left := r.bv.numberOfChunks - r.readChunkNum
    let num := if left > n then n else left
    let (cps, fp) ← readPointers (r.bv.recipeFp.rest.length / recordSize) num.toNat r.bv.recipeFp
    let readChunkNum ← addInt 32 r.readChunkNum num
    check (readChunkNum ≤ r.bv.numberOfChunks) .chunkNumber
    return (cps, { r with bv := { r.bv with recipeFp := fp }, readChunkNum := readChunkNum })

/-- Reading batches of `n` pointers up to the end of the stream gives these pointers. -/
inductive ReadsAll (n : ℤ) : RecipeReader → List Pointer → Prop
  | done {r r' : RecipeReader} (h : r.readNextNChunkPointers n = .ok ([], r')) : ReadsAll n r []
  | batch {r r' : RecipeReader} {cps rest : List Pointer} (hne : cps ≠ [])
    (h : r.readNextNChunkPointers n = .ok (cps, r')) (hrest : ReadsAll n r' rest) :
    ReadsAll n r (cps ++ rest)

end RecipeReader

end UniDedup.Node
