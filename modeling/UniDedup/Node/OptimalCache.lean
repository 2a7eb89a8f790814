import UniDedup.Lib.Lru
import UniDedup.Node.Recipe

/-!
# The cache of the optimal restore

The optimal restore reads the access records of a version ahead, as many as its window holds, and keeps
for each container the queue of the sequence numbers of its records. When the cache is full, it sorts the
cached containers by their next access and evicts the last one, or one of those before it that have
no access any more.

A container in `lru_queue` and the access records of a container are represented by the container id. So a
pointer to access records that are not in the table is one to records that have been freed.
-/

namespace UniDedup.Node

/-- `optimal_cache`, with the static variables of `read_next_n_records` and `optimal_cache_hits`. -/
structure OptimalCache where
  /-- What is left of the `.records` file. -/
  file : List ℤ
  /-- The static `end`. -/
  ended : Bool
  /-- `current_sequence_number`. -/
  sequenceNumber : ℕ
  /-- `access_record_table`: the queues of sequence numbers. -/
  table : ℤ → Option (List ℕ)
  /-- `buffered_access_record_num`. -/
  bufferedNum : ℕ
  /-- `sorted_records_of_cached_containers`. -/
  sorted : List ℤ
  /-- `lru_queue`. -/
  lru : Lru.Cache ℤ
  /-- The static `last_id`. -/
  lastId : ℤ

namespace OptimalCache

/-! ## The window -/

/-- `read_next_n_records`; `none` where nothing is read, and the number of records is taken for one. -/
def readNextNRecords (n : ℕ) (st : OptimalCache) : Option (List ℤ × OptimalCache) :=
  if st.ended then some ([], st)
  else
    (st.file.take n).getLast?.map fun id ↦
      (st.file.take n, { st with file := st.file.drop n, ended := id = temporaryId })

/-- An access record gets the next sequence number. -/
def pushRecord (st : OptimalCache) (id : ℤ) : OptimalCache :=
  { st with
    table := Function.update st.table id (some ((st.table id).getD [] ++ [st.sequenceNumber]))
    sequenceNumber := st.sequenceNumber + 1 }

/-- `optimal_cache_window_fill`. -/
def windowFill (w : ℕ) (st : OptimalCache) : Option OptimalCache := do
  let (ids, st) ← st.readNextNRecords (w - st.bufferedNum)
  return ids.foldl pushRecord { st with bufferedNum := st.bufferedNum + ids.length }

/-- `init_optimal_cache` for a version with these records. -/
def init (w size : ℕ) (records : List ℤ) : Option OptimalCache :=
  windowFill w ⟨records, false, 0, fun _ ↦ none, 0, [], Lru.Cache.new size, temporaryId⟩

/-- `optimal_cache_window_slides`; `none` where its assertion fails. -/
def windowSlides (w : ℕ) (id : ℤ) (st : OptimalCache) : Option OptimalCache := do
  let st ← (if st.bufferedNum * 2 ≤ w then st.windowFill w else some st)
  let queue ← st.table id
  return { st with
    table := Function.update st.table id (some queue.tail), bufferedNum := st.bufferedNum - 1 }

/-- `optimal_cache_hits`. -/
def hits (w : ℕ) (id : ℤ) (st : OptimalCache) : Option (Bool × OptimalCache) := do
  let st ← (if st.lastId ≠ id then (st.windowSlides w id).map fun st ↦ { st with lastId := id }
    else some st)
  let (con, lru) := st.lru.lookup (· = id)
  return (con.isSome, { st with lru := lru })

/-- `optimal_cache_lookup`: the container that the chunk is taken from moves to the front. -/
def lookup (holds : ℤ → Fingerprint → Bool) (fp : Fingerprint) (st : OptimalCache) :
    Option ℤ × OptimalCache :=
  let (con, lru) := st.lru.lookup (holds · fp)
  (con, { st with lru := lru })

/-! ## The eviction -/

/-- The sequence number of the next access, if there is one among the buffered records. -/
def next (st : OptimalCache) (id : ℤ) : Option ℕ := (st.table id).bind List.head?

/-- Is the result of `g_access_records_cmp_by_first_seqno` positive? -/
def isAfter (st : OptimalCache) (a b : ℤ) : Bool :=
  match st.next a, st.next b with
  | none, _ => true
  | some _, none => false
  | some x, some y => y < x

/-- `g_sequence_insert_sorted` for a sorted sequence: before the first element behind the new one. -/
def insertSorted (st : OptimalCache) (id : ℤ) : List ℤ → List ℤ
  | [] => [id]
  | x :: l => if st.isAfter x id then id :: x :: l else x :: insertSorted st id l

/-- `g_sequence_sort`: the elements are inserted one by one. -/
def resort (st : OptimalCache) : List ℤ := st.sorted.foldl (fun l id ↦ st.insertSorted id l) []

/-- The containers that may be kicked: the last one, and up to ten before it without an access. -/
def kickable (st : OptimalCache) : List ℤ :=
  match st.resort.reverse with
  | [] => []
  | id :: rest => id :: (rest.take 10).takeWhile fun id ↦ (st.next id).isNone

/-- A container is evicted; `none` where records are used that have been freed, or where none of the cached
containers may be kicked. -/
def evict (st : OptimalCache) : Option (ℤ × OptimalCache) :=
  if st.sorted.all fun id ↦ (st.table id).isSome then do
    let victim ← st.lru.elems.reverse.find? (· ∈ st.kickable)
    let queue ← st.table victim
    return (victim, { st with
      table := if queue = [] then Function.update st.table victim none else st.table
      sorted := (st.resort.reverse.erase victim).reverse
      lru := st.lru.kicks (· ∈ st.kickable) })
  else none

/-- `optimal_cache_insert`; `none` where its assertion fails. As the sequence need not be sorted,
`g_sequence_insert_sorted` may put the records anywhere; `search` says where. -/
def insert (search : OptimalCache → ℤ → ℕ) (id : ℤ) (st : OptimalCache) :
    Option (Option ℤ × OptimalCache) := do
  let (victim, st) ← (if st.lru.isFull then st.evict.map fun r ↦ (some r.1, r.2) else some (none, st))
  let st := { st with lru := st.lru.insert id }
  let _ ← st.table id
  let i := search st id
  return (victim, { st with sorted := st.sorted.take i ++ id :: st.sorted.drop i })

/-- What `optimal_restore_thread` does with the cache for a chunk. -/
def turn (w : ℕ) (search : OptimalCache → ℤ → ℕ) (holds : ℤ → Fingerprint → Bool) (st : OptimalCache)
    (cp : ChunkPointer) : Option OptimalCache := do
  let (hit, st) ← st.hits w cp.id
  let st ← (if hit then some st else (st.insert search cp.id).map Prod.snd)
  return (st.lookup holds cp.fp).2

end OptimalCache

end UniDedup.Node
