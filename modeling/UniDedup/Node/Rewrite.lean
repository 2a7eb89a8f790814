import Mathlib.Data.List.Sort
import UniDedup.Lib.Outcome
import UniDedup.Node.Container

/-!
# The rewrite phase

The rewrite thread looks for duplicates whose containers are used too little to be worth reading at a
restore, and marks them for rewriting. The algorithms buffer the stream: selective deduplication by
chunk fragmentation level (`cfl`) flushes the buffer where the container changes, context-based
rewriting (`cbr`) decides the oldest chunk each time the buffer is full, capping (`cap`) decides a
whole buffer at once. History-aware rewriting marks the chunks of containers that the last backup left
sparse; it is combined with any of them.

Each algorithm is a step function that takes the next chunk and returns the chunks it passes on. The
utilities are computed in floating point, as in the source; no result depends on their values.
-/

namespace UniDedup.Node

open Outcome

/-- The assertions of the rewrite phase. -/
inductive RewriteAbort
  /-- `assert(CHECK_CHUNK(c, CHUNK_DUPLICATE))`. -/
  | notDuplicate
  /-- `assert(iter)`: the container of a buffered chunk has no record. -/
  | noRecord
  /-- `assert(record->cid == c->id)`. -/
  | otherRecord
  /-- `assert(rewrite_buffer.num == destor.rewrite_algorithm[1])`. -/
  | bufferNum
  /-- The buffer has no chunk to decide. -/
  | noDecision
deriving DecidableEq

/-- `har_check`: the chunk is in one of the inherited sparse containers. -/
def harCheck (inherited : List ℤ) (c : Chunk) : Chunk :=
  if !c.isFileMarker && c.duplicate && c.id ∈ inherited then { c with sparse := true } else c

/-! ## The rewrite buffer -/

/-- `struct containerRecord`. -/
structure ContainerRecord where
  cid : ℤ
  /-- The size of the buffered chunks of the container. -/
  size : ℕ
  outOfOrder : Bool
deriving DecidableEq

structure RewriteBuffer where
  /-- `chunk_queue`. -/
  queue : List Chunk
  /-- `container_record_seq`, by ascending ids. -/
  records : List ContainerRecord
  /-- The number of chunks that are no markers. -/
  num : ℕ
  size : ℕ
deriving DecidableEq

namespace RewriteBuffer

/-- `init_rewrite_buffer`. -/
def empty : RewriteBuffer := ⟨[], [], 0, 0⟩

def record (buf : RewriteBuffer) (id : ℤ) : Option ContainerRecord :=
  buf.records.find? fun r ↦ r.cid = id

/-- Count a chunk in the record of its container. -/
def addRecord (records : List ContainerRecord) (id : ℤ) (size : ℕ) : List ContainerRecord :=
  if id ∈ records.map ContainerRecord.cid then
    records.map fun r ↦ if r.cid = id then { r with size := r.size + size } else r
  else records.orderedInsert (fun a b ↦ a.cid ≤ b.cid) ⟨id, size, true⟩

/-- Take a chunk out of the record of its container, and a record of size zero out of the list. -/
def removeRecord (records : List ContainerRecord) (id : ℤ) (size : ℕ) : List ContainerRecord :=
  (records.map fun r ↦ if r.cid = id then { r with size := r.size - size } else r).filter
    fun r ↦ ¬(r.cid = id ∧ r.size = 0)

/-- `rewrite_buffer_push`, which also says whether the buffer is full. -/
def push (cfg : Config) (buf : RewriteBuffer) (c : Chunk) :
    Except RewriteAbort (RewriteBuffer × Bool) :=
  if c.isMarker then .ok ({ buf with queue := buf.queue ++ [c] }, false)
  else do
    check (c.id = temporaryId ∨ c.duplicate) .notDuplicate
    let records := if c.id ≠ temporaryId then addRecord buf.records c.id c.size else buf.records
    let num := buf.num + 1
    check (num ≤ cfg.rewriteBufferSize) .bufferNum
    return (⟨buf.queue ++ [c], records, num, buf.size + c.size⟩, cfg.rewriteBufferSize ≤ num)

/-- `rewrite_buffer_pop`; `none` for the empty buffer. -/
def pop (cfg : Config) (inherited : List ℤ) (buf : RewriteBuffer) :
    Except RewriteAbort (Option (Chunk × RewriteBuffer)) :=
  match buf.queue with
  | [] => .ok none
  | c :: queue =>
    if c.isMarker then .ok (some (c, { buf with queue := queue }))
    else if c.duplicate && c.id ≠ temporaryId then do
      check (c.id ∈ buf.records.map ContainerRecord.cid) .noRecord
      let c' := if cfg.enableHar then harCheck inherited c else c
      return some (c', ⟨queue, removeRecord buf.records c.id c.size, buf.num - 1, buf.size - c.size⟩)
    else .ok (some (c, ⟨queue, buf.records, buf.num - 1, buf.size - c.size⟩))

/-- Pop all chunks, up to `n`, applying `mark` to each. -/
def popAll (cfg : Config) (inherited : List ℤ) (mark : Chunk → Except RewriteAbort Chunk) :
    ℕ → RewriteBuffer → Except RewriteAbort (List Chunk × RewriteBuffer)
  | 0, buf => .ok ([], buf)
  | n + 1, buf => do
    match ← buf.pop cfg inherited with
    | none => return ([], buf)
    | some (c, buf) =>
      let c ← mark c
      let (rest, buf) ← popAll cfg inherited mark n buf
      return (c :: rest, buf)

/-- Pop the markers at the head of the buffer, up to `n`. -/
def popMarkers (cfg : Config) (inherited : List ℤ) :
    ℕ → RewriteBuffer → Except RewriteAbort (List Chunk × RewriteBuffer)
  | 0, buf => .ok ([], buf)
  | n + 1, buf =>
    if buf.queue.head?.any Chunk.isMarker then do
      match ← buf.pop cfg inherited with
      | none => return ([], buf)
      | some (c, buf) =>
        let (rest, buf) ← popMarkers cfg inherited n buf
        return (c :: rest, buf)
    else .ok ([], buf)

end RewriteBuffer

/-! ## The utility of rewriting -/

structure UtilityBuckets where
  chunkNum : ℕ
  /-- The utility below which a chunk is not rewritten. -/
  currentUtilityThreshold : Float
  /-- The bucket of the minimal utility. -/
  minIndex : ℕ
  /-- The number of chunks in each of the 10000 buckets. -/
  buckets : ℕ → ℕ

namespace UtilityBuckets

/-- `init_utility_buckets`. -/
def init (cfg : Config) : UtilityBuckets where
  chunkNum := 0
  currentUtilityThreshold := cfg.cbrMinimalUtility
  minIndex := if cfg.cbrMinimalUtility == 1 then 9999 else (cfg.cbrMinimalUtility * 10000).toUInt64.toNat
  buckets := fun _ ↦ 0

/-- The search for the bucket at which `bestNum` chunks are reached, from the top down; the result is
the index of the bucket plus one. -/
def thresholdIndex (buckets : ℕ → ℕ) (minIndex bestNum : ℕ) : ℕ → ℕ → ℕ
  | 0, _ => minIndex
  | k + 1, count =>
    let count := count + buckets (minIndex + k)
    if bestNum ≤ count then minIndex + k + 1 else thresholdIndex buckets minIndex bestNum k count

/-- `utility_buckets_update`. -/
def update (cfg : Config) (u : UtilityBuckets) (utility : Float) : UtilityBuckets :=
  let chunkNum := u.chunkNum + 1
  let index := if utility ≥ 1 then 9999 else (utility * 10000).toUInt64.toNat
  let buckets := Function.update u.buckets index (u.buckets index + 1)
  let threshold :=
    if 100 ≤ chunkNum then
      let bestNum := (chunkNum.toFloat * cfg.cbrLimit).toUInt64.toNat
      (thresholdIndex buckets u.minIndex bestNum (10000 - u.minIndex) 0).toFloat / 10000
    else u.currentUtilityThreshold
  ⟨chunkNum, threshold, u.minIndex, buckets⟩

end UtilityBuckets

/-- `get_rewrite_utility` for a chunk and the record of its container. -/
def rewriteUtility (r : ContainerRecord) (c : Chunk) : Float :=
  let coverage := (r.size + c.size).toFloat / (containerSize - containerMetaSize).toFloat
  if coverage ≥ 1 then 0 else 1 - coverage

/-! ## The algorithms -/

/-- The state of the rewrite thread. -/
structure RewriteState where
  buffer : RewriteBuffer
  /-- `last_id` of `cfl_rewrite`. -/
  lastId : ℤ
  /-- `buffer_full` of `cfl_rewrite`. -/
  bufferFull : Bool
  /-- The utility buckets of `cbr_rewrite`. -/
  buckets : UtilityBuckets

/-- The state of the rewrite thread at its start. -/
def RewriteState.init (cfg : Config) : RewriteState := ⟨.empty, temporaryId, false, .init cfg⟩

/-- What `cfl_rewrite` does to a chunk it passes on. -/
def cflMark (outOfOrder : Bool) (c : Chunk) : Except RewriteAbort Chunk :=
  if c.isMarker then .ok c
  else if outOfOrder && c.id ≠ temporaryId then do
    check c.duplicate .notDuplicate
    return { c with outOfOrder := true }
  else .ok c

/-- `cfl_rewrite` judges the buffer and passes it on. -/
def cflFlush (cfg : Config) (inherited : List ℤ) (buf : RewriteBuffer) :
    Except RewriteAbort (List Chunk × RewriteBuffer) :=
  let outOfOrder := decide
    (buf.size.toFloat < cfg.cflUsageThreshold * (containerSize - containerMetaSize).toFloat)
  buf.popAll cfg inherited (cflMark outOfOrder) buf.queue.length

/-- Does a chunk end the run of chunks that `cfl_rewrite` judges together? -/
def RewriteState.cflBoundary (st : RewriteState) (c : Chunk) : Bool :=
  (st.lastId ≠ temporaryId && st.lastId ≠ c.id) || st.bufferFull

/-- The part of `cfl_rewrite` before the chunk is pushed. -/
def cflJudge (cfg : Config) (inherited : List ℤ) (st : RewriteState) (c : Chunk) :
    Except RewriteAbort (List Chunk × RewriteBuffer) :=
  if st.cflBoundary c then cflFlush cfg inherited st.buffer else .ok ([], st.buffer)

/-- The turn of `cfl_rewrite` for a chunk. -/
def cflRewrite (cfg : Config) (inherited : List ℤ) (st : RewriteState) (c : Chunk) :
    Except RewriteAbort (RewriteState × List Chunk) := do
  let (out, buffer) ← cflJudge cfg inherited st c
  let bufferFull := st.bufferFull && !st.cflBoundary c
  let (buffer, full) ← buffer.push cfg c
  return ({ st with buffer := buffer, lastId := c.id, bufferFull := bufferFull || full }, out)

/-- `cbr_rewrite` decides a chunk, given the record of its container: is it out of order, the new flag
of the record, and the utility. -/
def cbrDecide (cfg : Config) (u : UtilityBuckets) (r : ContainerRecord) (c : Chunk) :
    Bool × Bool × Float :=
  if r.outOfOrder then
    let utility := rewriteUtility r c
    if utility < cfg.cbrMinimalUtility || utility < u.currentUtilityThreshold then
      (false, false, utility)
    else (true, true, utility)
  else (false, false, 0)

/-- The decision chunk with its mark, the records and the utility. -/
def cbrMark (cfg : Config) (st : RewriteState) (c : Chunk) :
    Except RewriteAbort (Chunk × List ContainerRecord × Float) :=
  if c.id = temporaryId then .ok (c, st.buffer.records, 0)
  else do
    check c.duplicate .notDuplicate
    let r ← getOr (st.buffer.record c.id) .noRecord
    let (outOfOrder, recordFlag, utility) := cbrDecide cfg st.buckets r c
    let records := st.buffer.records.map fun r' ↦
      if r'.cid = c.id then { r' with outOfOrder := recordFlag } else r'
    return ({ c with outOfOrder := c.outOfOrder || outOfOrder }, records, utility)

/-- The turn of `cbr_rewrite` for the decision chunk at the head of the buffer. -/
def cbrHead (cfg : Config) (inherited : List ℤ) (st : RewriteState) :
    Except RewriteAbort (RewriteState × Chunk) :=
  match st.buffer.queue with
  | [] => .error .noDecision
  | c :: queue => do
    let (c, records, utility) ← cbrMark cfg st c
    let buffer := { st.buffer with queue := c :: queue, records := records }
    let popped ← getOr (← buffer.pop cfg inherited) .noDecision
    return ({ st with buffer := popped.2, buckets := st.buckets.update cfg utility }, popped.1)

/-- The turn of `cbr_rewrite` for a chunk. -/
def cbrRewrite (cfg : Config) (inherited : List ℤ) (st : RewriteState) (c : Chunk) :
    Except RewriteAbort (RewriteState × List Chunk) := do
  let (buffer, full) ← st.buffer.push cfg c
  if !full then return ({ st with buffer := buffer }, [])
  let (out, buffer) ← buffer.popMarkers cfg inherited buffer.queue.length
  let (st, d) ← cbrHead cfg inherited { st with buffer := buffer }
  return (st, out ++ [d])

/-- `cap_segment_get_top`: the containers with the largest records. -/
def capTop (cfg : Config) (buf : RewriteBuffer) : List ℤ :=
  ((buf.records.insertionSort fun a b ↦ b.size ≤ a.size).take cfg.cappingLevel).map
    ContainerRecord.cid

/-- What `cap_rewrite` does to a chunk it passes on; the final drain does not ask for the duplicate
flag. -/
def capMark (top : List ℤ) (final : Bool) (c : Chunk) : Except RewriteAbort Chunk :=
  if !c.isMarker && (final || c.duplicate) && c.id ∉ top then .ok { c with outOfOrder := true }
  else .ok c

/-- `cap_rewrite` passes the buffer on. -/
def capFlush (cfg : Config) (inherited : List ℤ) (final : Bool) (buf : RewriteBuffer) :
    Except RewriteAbort (List Chunk × RewriteBuffer) :=
  buf.popAll cfg inherited (capMark (capTop cfg buf) final) buf.queue.length

/-- The turn of `cap_rewrite` for a chunk. -/
def capRewrite (cfg : Config) (inherited : List ℤ) (st : RewriteState) (c : Chunk) :
    Except RewriteAbort (RewriteState × List Chunk) := do
  let (buffer, full) ← st.buffer.push cfg c
  if !full then return ({ st with buffer := buffer }, [])
  let (out, buffer) ← capFlush cfg inherited false buffer
  return ({ st with buffer := buffer }, out)

/-- The turn of `no_rewrite` for a chunk. The chunk is checked for history-aware rewriting only after
it was passed on; `late` says that the filter thread does not see the mark. -/
def noRewrite (cfg : Config) (inherited : List ℤ) (late : Bool) (c : Chunk) : Chunk :=
  if cfg.enableHar && c.duplicate && !late then harCheck inherited c else c

/-- The turn of the rewrite thread for a chunk: its new state and the chunks it passes on. -/
def rewriteChunk (cfg : Config) (inherited : List ℤ) (late : Bool) (st : RewriteState) (c : Chunk) :
    Except RewriteAbort (RewriteState × List Chunk) :=
  match cfg.rewriteAlgorithm with
  | .no => .ok (st, [noRewrite cfg inherited late c])
  | .cfl => cflRewrite cfg inherited st c
  | .contextBased => cbrRewrite cfg inherited st c
  | .capping => capRewrite cfg inherited st c

/-- The drain of the buffer at the end of the stream. -/
def drain (cfg : Config) (inherited : List ℤ) (buf : RewriteBuffer) :
    Except RewriteAbort (List Chunk × RewriteBuffer) :=
  match cfg.rewriteAlgorithm with
  | .no => .ok ([], buf)
  | .cfl => cflFlush cfg inherited buf
  | .contextBased => buf.popAll cfg inherited .ok buf.queue.length
  | .capping => capFlush cfg inherited true buf

/-- The end of the rewrite thread: what is left in the buffer is passed on. -/
def rewriteEnd (cfg : Config) (inherited : List ℤ) (st : RewriteState) :
    Except RewriteAbort (RewriteState × List Chunk) := do
  let (out, buffer) ← drain cfg inherited st.buffer
  return ({ st with buffer := buffer }, out)

end UniDedup.Node
