import UniDedup.Basic

/-!
# Chunks and the configuration of a node

A backup is a stream of chunks with markers between them: the start and the end of each file come
from the reader, the start and the end of each segment are added by the dedup phase. The state flags
of a chunk record what the later phases decided about it; its container id is `temporaryId` until a
container is known.

The configuration is the part of `struct destor` that decides how chunks are deduplicated, rewritten
and stored. `initIndex` is the normalisation `init_index` applies to it at the start of each job.
-/

namespace UniDedup.Node

/-! ## Chunks -/

def temporaryId : ℤ := -1

/-- The signal flags of a chunk; a chunk without one carries data. -/
inductive Kind
  | normal
  /-- `CHUNK_FILE_START`, with the file name as its data. -/
  | fileStart
  /-- `CHUNK_FILE_END`. -/
  | fileEnd
  /-- `CHUNK_SEGMENT_START`. -/
  | segmentStart
  /-- `CHUNK_SEGMENT_END`. -/
  | segmentEnd
deriving Repr, DecidableEq

/-- `struct chunk`, with one field for each of the flags. -/
structure Chunk where
  kind : Kind
  /-- `CHUNK_DUPLICATE`. -/
  duplicate : Bool
  /-- `CHUNK_SPARSE`. -/
  sparse : Bool
  /-- `CHUNK_OUT_OF_ORDER`. -/
  outOfOrder : Bool
  /-- `CHUNK_IN_CACHE`. -/
  inCache : Bool
  /-- `CHUNK_REWRITE_DENIED`. -/
  rewriteDenied : Bool
  id : ℤ
  fp : Fingerprint
  data : Bytes
deriving DecidableEq

namespace Chunk

/-- `new_chunk`: no flag, no container, a zero fingerprint. -/
def new (kind : Kind) (data : Bytes) : Chunk where
  kind := kind
  duplicate := false
  sparse := false
  outOfOrder := false
  inCache := false
  rewriteDenied := false
  id := temporaryId
  fp := Fingerprint.fill 0
  data := data

def size (c : Chunk) : ℕ := c.data.length

/-- A file marker: `CHUNK_FILE_START` or `CHUNK_FILE_END`. -/
def isFileMarker (c : Chunk) : Bool := c.kind == .fileStart || c.kind == .fileEnd

def isMarker (c : Chunk) : Bool :=
  c.isFileMarker || c.kind == .segmentStart || c.kind == .segmentEnd

/-- What the hash phase makes of a chunk of data. -/
def hashed (sha1 : Bytes → Fingerprint) (data : Bytes) : Chunk :=
  { Chunk.new .normal data with fp := sha1 data }

end Chunk

/-- The number of chunks of a list that are not file markers: `chunk_num` of a segment. -/
def chunkNum (cs : List Chunk) : ℕ := cs.countP fun c ↦ !c.isFileMarker

/-- A file as it is read: its name and the contents of its chunks. -/
structure File where
  name : Bytes
  /-- The contents the chunking phase cut the file into. -/
  chunks : List Bytes
deriving Repr, DecidableEq

/-- The chunks the dedup phase reads for a file. -/
def File.stream (sha1 : Bytes → Fingerprint) (f : File) : List Chunk :=
  Chunk.new .fileStart f.name :: f.chunks.map (Chunk.hashed sha1) ++ [Chunk.new .fileEnd []]

/-- The chunks the dedup phase reads for a backup. -/
def stream (sha1 : Bytes → Fingerprint) (files : List File) : List Chunk :=
  files.flatMap (File.stream sha1)

/-! ## The configuration -/

/-- `index_category[0]`. -/
inductive Category
  | exact
  | nearExact
deriving Repr, DecidableEq

/-- `index_category[1]`. -/
inductive Locality
  | physical
  | logical
deriving Repr, DecidableEq

/-- `index_specific`. -/
inductive Specific
  | no
  | ddfs
  | extremeBinning
  | silo
  | sparse
  | sampled
  | blockLocalityCaching
deriving Repr, DecidableEq

/-- `index_sampling_method[0]`. -/
inductive SamplingMethod
  | random
  | min
  | uniform
  | optimizedMin
deriving Repr, DecidableEq

/-- `index_segment_algorithm[0]`. -/
inductive SegmentAlgorithm
  | fixed
  | contentDefined
  | fileDefined
deriving Repr, DecidableEq

/-- `index_segment_selection_method[0]`. -/
inductive SelectionMethod
  | base
  | top
  | mix
deriving Repr, DecidableEq

/-- `rewrite_algorithm[0]`. -/
inductive RewriteAlgorithm
  | no
  | cfl
  | contextBased
  | capping
deriving Repr, DecidableEq

/-- The options of `struct destor` that the backup pipeline reads. -/
structure Config where
  category : Category
  locality : Locality
  specific : Specific
  /-- `index_cache_size`, in prefetching units. -/
  cacheSize : ℕ
  /-- `index_key_size`, in bytes. -/
  keySize : ℕ
  /-- `index_value_length`. -/
  valueLength : ℕ
  samplingMethod : SamplingMethod
  /-- `index_sampling_method[1]`. -/
  samplingRatio : ℕ
  segmentAlgorithm : SegmentAlgorithm
  /-- `index_segment_algorithm[1]`. -/
  segmentSize : ℕ
  segmentMin : ℕ
  segmentMax : ℕ
  selectionMethod : SelectionMethod
  /-- `index_segment_selection_method[1]`. -/
  selectionNum : ℕ
  segmentPrefetch : ℕ
  rewriteAlgorithm : RewriteAlgorithm
  /-- `rewrite_algorithm[1]`, the size of the rewrite buffer in chunks. -/
  rewriteBufferSize : ℕ
  enableCflSwitch : Bool
  cflRequire : Float
  cflUsageThreshold : Float
  cbrLimit : Float
  cbrMinimalUtility : Float
  cappingLevel : ℕ
  enableHar : Bool
  harUtilizationThreshold : Float
  harRewriteLimit : Float
  enableCacheAware : Bool
  /-- `restore_cache[1]`, in containers. -/
  restoreCacheSize : ℕ

namespace Config

/-- The values `destor_start` sets before the configuration file is read. -/
def start : Config where
  category := .nearExact
  locality := .physical
  specific := .no
  cacheSize := 4096
  keySize := 20
  valueLength := 1
  samplingMethod := .uniform
  samplingRatio := 1
  segmentAlgorithm := .fixed
  segmentSize := 1024
  segmentMin := 128
  segmentMax := 10240
  selectionMethod := .top
  selectionNum := 1
  segmentPrefetch := 0
  rewriteAlgorithm := .no
  rewriteBufferSize := 1024
  enableCflSwitch := false
  cflRequire := 0
  cflUsageThreshold := 0
  cbrLimit := 0
  cbrMinimalUtility := 0
  cappingLevel := 0
  enableHar := false
  harUtilizationThreshold := 0.5
  harRewriteLimit := 0.05
  enableCacheAware := false
  restoreCacheSize := 1024

/-- The options a specific index fixes, or `none` for an index that is not supported. -/
def applySpecific (cfg : Config) : Option Config :=
  match cfg.specific with
  | .no => some cfg
  | .ddfs =>
    some { cfg with keySize := fpLength, category := .exact, locality := .physical }
  | .blockLocalityCaching =>
    some { cfg with
      keySize := fpLength, category := .exact, locality := .logical,
      samplingMethod := .uniform, samplingRatio := 1,
      segmentPrefetch := if 1 < cfg.segmentPrefetch then cfg.segmentPrefetch else 16 }
  | .sampled =>
    some { cfg with
      keySize := fpLength, category := .nearExact, locality := .physical,
      samplingMethod := .uniform,
      samplingRatio := if 1 < cfg.samplingRatio then cfg.samplingRatio else 128 }
  | .sparse =>
    some { cfg with
      keySize := fpLength, category := .nearExact, locality := .logical,
      segmentAlgorithm := .contentDefined, selectionMethod := .top, samplingMethod := .random,
      samplingRatio := if 1 < cfg.samplingRatio then cfg.samplingRatio else 128,
      segmentPrefetch := 1 }
  | .silo =>
    some { cfg with
      keySize := fpLength, category := .nearExact, locality := .logical,
      segmentAlgorithm := .fixed, selectionMethod := .top, selectionNum := 1,
      samplingMethod := .min, samplingRatio := 0,
      segmentPrefetch := if 1 < cfg.segmentPrefetch then cfg.segmentPrefetch else 16 }
  | .extremeBinning => none

/-- `init_index` on the options: `none` where it exits or an assertion fails. -/
def initIndex (raw : Config) : Option Config := do
  let cfg ← raw.applySpecific
  let cfg := if cfg.category = .exact then { cfg with keySize := fpLength } else cfg
  let cfg :=
    if cfg.locality = .physical then
      if cfg.category = .exact then
        { cfg with segmentAlgorithm := .fixed, samplingMethod := .uniform, samplingRatio := 1 }
      else { cfg with segmentAlgorithm := .fixed }
    else cfg
  if 0 < cfg.keySize ∧ cfg.keySize ≤ fpLength then some cfg else none

/-- `index_lock.wait_threshold`; `0` stands for no threshold. -/
def waitThreshold (cfg : Config) : ℕ :=
  match cfg.segmentAlgorithm with
  | .contentDefined => cfg.rewriteBufferSize + cfg.segmentMax - 1
  | .fixed => cfg.rewriteBufferSize + cfg.segmentSize - 1
  | .fileDefined => 0

end Config

/-- The 32-bit integer at byte 16 of a fingerprint, as the machine reads it. -/
def fingerprintHead (fp : Fingerprint) : ℤ :=
  Int.bmod ((fp.toList.drop 16).foldr (fun x acc ↦ (x.toNat : ℤ) + 256 * acc) 0) (2 ^ 32)

end UniDedup.Node
