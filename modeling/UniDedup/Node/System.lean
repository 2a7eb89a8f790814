import Mathlib.Algebra.GroupWithZero.Nat
import UniDedup.Lib.Transition
import UniDedup.Node.Filter
import UniDedup.Node.Rewrite

/-!
# The node

A node runs one job after the other, each in a process of its own: backups, in which the dedup, the
rewrite, the filter and the append thread work concurrently, and deletions. The state between two jobs
is what is on disk; during a backup it is the shared `Core`, the two bounded queues and the local state
of each thread. Every label lets one thread take one turn, so a run of the system is an interleaving of
the threads. An assertion that fails ends the process and the run.

The client's side is part of the state as well: what it sent for each backup, and how many deletions
it has asked for.
-/

namespace UniDedup.Node

open Outcome

/-! ## The state on disk -/

/-- What the node keeps between two jobs. -/
structure Disk where
  count : ℕ
  /-- `container.pool`. -/
  pool : List Container
  /-- `index/htable`. -/
  kv : KVStore
  /-- The backup versions, the latest first. -/
  versions : List BackupVersion
  /-- The `.sparse` files of the versions, the latest first. -/
  sparse : List (List (ℤ × ℕ))
  /-- The manifest: the last backup that referred to each container. -/
  manifest : Option (List (ℤ × ℕ))

def Disk.empty : Disk := ⟨0, [], .empty, [], [], none⟩

/-- The container store between two jobs. -/
def Disk.storage (d : Disk) : ContainerStore := ⟨d.count, [], false, d.pool⟩

/-! ### The manifest -/

def updateManifest (manifest : Option (List (ℤ × ℕ))) (monitor : List (ℤ × ℕ)) (jobid : ℕ) :
    List (ℤ × ℕ) :=
  let ids := monitor.map Prod.fst
  let old := manifest.getD []
  old.map (fun r ↦ if r.1 ∈ ids then (r.1, jobid) else r) ++
    (ids.filter fun id ↦ id ∉ old.map Prod.fst).map fun id ↦ (id, jobid)

/-- `trunc_manifest`: the containers to be reclaimed, and the manifest without them. -/
def truncManifest (manifest : List (ℤ × ℕ)) (jobid : ℕ) : List ℤ × List (ℤ × ℕ) :=
  ((manifest.filter fun r ↦ r.2 ≤ jobid).map Prod.fst, manifest.filter fun r ↦ jobid < r.2)

/-! ### The sparse containers -/

/-- The rounds of `close_har` that trim the sequence of sparse containers, given the containers from
the largest on. -/
def trimSparse (cfg : Config) (totalSize : ℕ) : List (ℤ × ℕ) → ℕ → List (ℤ × ℕ)
  | [], _ => []
  | r :: seq, sparseSize =>
    if cfg.harRewriteLimit < 1 && cfg.harRewriteLimit < sparseSize.toFloat / totalSize.toFloat then
      trimSparse cfg totalSize seq (sparseSize - r.2)
    else r :: seq

/-- The sparse containers `close_har` records, by ascending sizes. -/
def sparseContainers (cfg : Config) (monitor : List (ℤ × ℕ)) : List (ℤ × ℕ) :=
  let isSparse := fun r : ℤ × ℕ ↦ decide
    (r.2.toFloat / (containerSize - containerMetaSize).toFloat < cfg.harUtilizationThreshold)
  let seq := (monitor.filter isSparse).insertionSort fun a b ↦ a.2 ≤ b.2
  (trimSparse cfg (monitor.map Prod.snd).sum seq.reverse (seq.map Prod.snd).sum).reverse

/-! ### Deletion -/

/-- The assertions and exits of `do_delete`. -/
inductive DeleteAbort
  | noManifest
  | noVersion
  /-- `retrieve_container_meta_by_id` does not find a container. -/
  | containerMissing
  | recipe (e : RecipeAbort)
  /-- The assertion of `kvstore_htable_delete`. -/
  | fifo
deriving DecidableEq

/-- `index_delete` for a list of entries. -/
def deleteEntries (cfg : Config) (kv : KVStore) (entries : List (Fingerprint × ℤ)) :
    Except DeleteAbort KVStore :=
  entries.foldlM (fun kv e ↦ getOr (kv.delete cfg (keyOf cfg e.1) e.2) .fifo) kv

/-- The entries of the reclaimed containers. -/
def containerEntries (d : Disk) (invalid : List ℤ) : Except DeleteAbort (List (Fingerprint × ℤ)) :=
  invalid.foldlM (fun es id ↦ do
    let cm ← getOr (d.storage.retrieveMeta id) .containerMissing
    return es ++ cm.fps.map fun fp ↦ (fp, id)) []

/-- The entries of the segments of a version. -/
def segmentEntries (bv : BackupVersion) : Except DeleteAbort (List (Fingerprint × ℤ)) := do
  let segments ← (readSegments bv.bvNum bv.recipe bv.recipe.length 0).mapError .recipe
  return segments.flatMap fun sr ↦ (sr.kvpairs.map Prod.fst).dedup.map fun fp ↦ (fp, sr.id)

/-- The entries that `do_delete` removes. -/
def reclaimedEntries (cfg : Config) (d : Disk) (invalid : List ℤ) (bv : BackupVersion) :
    Except DeleteAbort (List (Fingerprint × ℤ)) :=
  match cfg.locality with
  | .physical => containerEntries d invalid
  | .logical => segmentEntries bv

/-- `do_delete`. The version is opened for reading, so marking it as deleted changes no file. -/
def doDelete (cfg : Config) (d : Disk) (jobid : ℕ) : Except DeleteAbort Disk := do
  let manifest ← getOr d.manifest .noManifest
  let (invalid, manifest) := truncManifest manifest jobid
  let bv ← getOr (d.versions.find? fun b ↦ b.bvNum = jobid) .noVersion
  let entries ← reclaimedEntries cfg d invalid bv
  let kv ← deleteEntries cfg d.kv entries
  return { d with kv := kv, manifest := some manifest }

/-! ## A running backup -/

/-- The state of the dedup thread. -/
inductive DedupState
  | reading
  /-- A segment waits for its lookup; `last` says that the stream has ended. -/
  | looking (s : List Chunk) (last : Bool)
  /-- The chunks of a segment are passed on. -/
  | sending (cs : List Chunk) (last : Bool)
  | done

/-- The state of the filter thread. -/
inductive FilterState
  /-- The thread waits for the head of a segment. -/
  | waiting
  | collecting (cs : List Chunk)
  /-- A segment is complete and will be filtered. -/
  | ready (cs : List Chunk)
  | done

/-- A queue between two threads: its items, and whether it was terminated. -/
structure SyncQueue where
  items : List Chunk
  term : Bool

/-- A running backup. -/
structure Job where
  core : Core
  /-- `inherited_sparse_containers`. -/
  inherited : List ℤ
  /-- The chunks still to be read from `hash_queue`. -/
  input : List Chunk
  tmp : List Chunk
  dedup : DedupState
  dedupQueue : SyncQueue
  rewrite : RewriteState
  /-- The chunks the rewrite thread is about to pass on. -/
  pending : List Chunk
  /-- Has the rewrite thread seen the end of its input? -/
  rewriteEnded : Bool
  rewriteQueue : SyncQueue
  filter : FilterState

/-- Why a process ended early. -/
inductive Abort
  | lookup (e : LookupAbort)
  | rewrite (e : RewriteAbort)
  | filter (e : FilterAbort)
  | delete (e : DeleteAbort)
deriving DecidableEq

/-- The shared state at the start of a backup. -/
def Core.init (cfg : Config) (d : Disk) : Core where
  storage := d.storage
  containerBuffer := none
  bufferChunks := []
  index := ⟨.empty, .new cfg.cacheSize⟩
  kv := d.kv
  versions := d.versions
  bv := .create d.versions.length
  accessRecord := temporaryId
  fileRecipe := none
  monitor := []
  restoreAware := .init cfg
  enableRewrite := true
  sparse := d.sparse
  manifest := d.manifest

/-- What a finished backup leaves on disk. -/
def Core.close (cfg : Config) (core : Core) : Disk where
  count := core.storage.count
  pool := core.storage.pool
  kv := core.kv
  versions := core.bv.update core.accessRecord :: core.versions
  sparse := sparseContainers cfg core.monitor :: core.sparse
  manifest := some (updateManifest core.manifest core.monitor core.bv.bvNum)

def Job.init (cfg : Config) (d : Disk) (input : List Chunk) : Job where
  core := .init cfg d
  inherited := (d.sparse.headD []).map Prod.fst
  input := input
  tmp := []
  dedup := .reading
  dedupQueue := ⟨[], false⟩
  rewrite := .init cfg
  pending := []
  rewriteEnded := false
  rewriteQueue := ⟨[], false⟩
  filter := .waiting

/-- Is there room in a queue of capacity `size`? -/
def SyncQueue.hasRoom (size : ℕ) (q : SyncQueue) : Bool := size = 0 || q.items.length < size

def SyncQueue.push (q : SyncQueue) (c : Chunk) : SyncQueue := { q with items := q.items ++ [c] }

/-- A segment between its two markers, as `send_segment` passes it on. -/
def bracket (s : List Chunk) : List Chunk :=
  Chunk.new .segmentStart [] :: s ++ [Chunk.new .segmentEnd []]

namespace Job

/-- What the dedup thread does with a complete segment: a segment without chunks needs no lookup. -/
def nextSegment (s : List Chunk) (last : Bool) : DedupState :=
  if 0 < chunkNum s then .looking s last else .sending (bracket s) last

/-- A turn of `dedup_thread`. -/
def dedupStep (cfg : Config) (queueSize : ℕ) (j : Job) : Option (Except Abort Job) :=
  match j.dedup with
  | .reading =>
    match j.input with
    | [] => some (.ok { j with tmp := [], dedup := nextSegment j.tmp true })
    | c :: rest =>
      match segmenting cfg j.tmp c with
      | (none, tmp) => some (.ok { j with input := rest, tmp := tmp })
      | (some s, tmp) => some (.ok { j with input := rest, tmp := tmp, dedup := nextSegment s false })
  | .looking s last =>
    if j.core.index.buffer.isFull cfg then none
    else some (do
      let (core, s) ← (j.core.lookup cfg s).mapError .lookup
      return { j with core := core, dedup := .sending (bracket s) last })
  | .sending (c :: cs) last =>
    if j.dedupQueue.hasRoom queueSize then
      some (.ok { j with dedupQueue := j.dedupQueue.push c, dedup := .sending cs last })
    else none
  | .sending [] false => some (.ok { j with dedup := .reading })
  | .sending [] true =>
    some (.ok { j with dedupQueue := { j.dedupQueue with term := true }, dedup := .done })
  | .done => none

def rewriteStep (cfg : Config) (queueSize : ℕ) (late : Bool) (j : Job) : Option (Except Abort Job) :=
  match j.pending with
  | c :: rest =>
    if j.rewriteQueue.hasRoom queueSize then
      some (.ok { j with rewriteQueue := j.rewriteQueue.push c, pending := rest })
    else none
  | [] =>
    if j.rewriteEnded then
      if j.rewriteQueue.term then none
      else some (.ok { j with rewriteQueue := { j.rewriteQueue with term := true } })
    else
      match j.dedupQueue.items with
      | c :: rest => some (do
        let (rw, out) ← (rewriteChunk cfg j.inherited late j.rewrite c).mapError .rewrite
        return { j with
          dedupQueue := { j.dedupQueue with items := rest }, rewrite := rw, pending := out })
      | [] =>
        if j.dedupQueue.term then some (do
          let (rw, out) ← (rewriteEnd cfg j.inherited j.rewrite).mapError .rewrite
          return { j with rewrite := rw, pending := out, rewriteEnded := true })
        else none

/-- A turn of `filter_thread`. -/
def filterStep (cfg : Config) (j : Job) : Option (Except Abort Job) :=
  match j.filter with
  | .waiting =>
    match j.rewriteQueue.items with
    | c :: rest => some (do
      check (c.kind = .segmentStart) (.filter .segmentHead)
      return { j with rewriteQueue := { j.rewriteQueue with items := rest }, filter := .collecting [] })
    | [] =>
      if j.rewriteQueue.term then some (do
        let core ← (j.core.finalFlush cfg).mapError .filter
        return { j with core := core, filter := .done })
      else none
  | .collecting cs =>
    match j.rewriteQueue.items with
    | c :: rest =>
      let filter := if c.kind = .segmentEnd then .ready cs else .collecting (cs ++ [c])
      some (.ok { j with rewriteQueue := { j.rewriteQueue with items := rest }, filter := filter })
    | [] => if j.rewriteQueue.term then some (.error (.filter .nullChunk)) else none
  | .ready cs => some (do
    let core ← (j.core.filterSegment cfg cs).mapError .filter
    return { j with core := core, filter := .waiting })
  | .done => none

/-- A turn of `append_thread`. -/
def appendStep (j : Job) : Option Job := j.core.append.map fun core ↦ { j with core := core }

/-- The end of a backup: all threads have ended, and the files are written. -/
def finish (cfg : Config) (j : Job) : Option Disk :=
  match j.filter with
  | .done => if j.core.storage.queue = [] then some (j.core.close cfg) else none
  | _ => none

end Job

/-! ## The system -/

/-- The state of the node: between two jobs, during a backup, or ended early. -/
inductive NodeState
  | idle (d : Disk)
  | running (j : Job)
  | aborted (e : Abort)

/-- The client's side: what it asked the node for. -/
structure Client where
  sent : List (List File)
  deletions : ℕ
deriving DecidableEq

/-- The state of the system. -/
structure State where
  client : Client
  node : NodeState

/-- Who takes the next turn. -/
inductive Label
  | backup (files : List File)
  | dedup
  | rewrite (late : Bool)
  | filter
  | append
  | finish
  | delete (jobid : ℕ)
deriving DecidableEq

def NodeState.ofJob : Except Abort Job → NodeState
  | .ok j => .running j
  | .error e => .aborted e

/-- A turn of one of the threads of a running backup. -/
def jobStep (cfg : Config) (queueSize : ℕ) (j : Job) : Label → Option (Except Abort Job)
  | .dedup => j.dedupStep cfg queueSize
  | .rewrite late => j.rewriteStep cfg queueSize late
  | .filter => j.filterStep cfg
  | .append => j.appendStep.map .ok
  | _ => none

/-- A node with the configuration `cfg`, as `init_index` leaves it. -/
def node (cfg : Config) (sha1 : Bytes → Fingerprint) (queueSize : ℕ) :
    Transition.System State Label where
  init s := s = ⟨⟨[], 0⟩, .idle .empty⟩
  next s l :=
    match s.node with
    | .idle d =>
      match l with
      | .backup files =>
        some ⟨{ s.client with sent := files :: s.client.sent },
          .running (.init cfg d (stream sha1 files))⟩
      | .delete jobid =>
        match doDelete cfg d jobid with
        | .ok d => some ⟨{ s.client with deletions := s.client.deletions + 1 }, .idle d⟩
        | .error e => some ⟨s.client, .aborted (.delete e)⟩
      | _ => none
    | .running j =>
      match l with
      | .finish => (j.finish cfg).map fun d ↦ ⟨s.client, .idle d⟩
      | l => (jobStep cfg queueSize j l).map fun r ↦ ⟨s.client, .ofJob r⟩
    | .aborted _ => none

end UniDedup.Node
