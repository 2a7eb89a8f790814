import UniDedup.Lib.Transition
import UniDedup.Node.InFlight

/-!
# The elements of the index buffer

`buffered_fingerprints` maps a fingerprint to a queue of elements, and the key of an entry is not the
fingerprint but its address in the newest element of the queue. The dedup thread appends an element and
enters the queue again under the new address; the filter thread takes the oldest element out, passes the
container id of the chunk on to the others, and frees the element.

Here the elements are values at addresses, so that it can be said whether a key is read after its
element was freed. The queues are those of the chunks in flight, whatever the order in which the two
threads get `index_lock`, and behind the addresses lies the index buffer of the other modules.
-/

namespace UniDedup.Node

open Outcome

/-! ## The memory -/

/-- `struct indexElem`. -/
structure IndexElem where
  id : ℤ
  fp : Fingerprint
deriving DecidableEq

/-- An entry of `buffered_fingerprints`. -/
structure BufferEntry where
  /-- The address of the element whose fingerprint is the key. -/
  key : ℕ
  /-- The addresses in the queue, the oldest first. -/
  queue : List ℕ
deriving DecidableEq

/-- `index_buffer` with the elements it refers to. -/
structure BufferMemory where
  /-- The elements that were allocated and not freed. -/
  elems : ℕ → Option IndexElem
  /-- `buffered_fingerprints`. -/
  table : List BufferEntry
  chunkNum : ℤ

/-- What may go wrong in the index buffer. -/
inductive BufferAbort
  /-- An assertion or an exit of the searches behind the index buffer. -/
  | lookup (e : LookupAbort)
  /-- An assertion or a null pointer of `index_update_buffer`. -/
  | filter (e : FilterAbort)
  /-- A key of the table lies in an element that was freed. -/
  | danglingKey
  /-- An element of a queue is read, written or freed after it was freed. -/
  | danglingElem
  /-- The element at the head of an empty queue is read. -/
  | nullElem
deriving DecidableEq

namespace BufferMemory

def empty : BufferMemory := ⟨fun _ ↦ none, [], 0⟩

def keyFp (m : BufferMemory) (t : BufferEntry) : Option Fingerprint := (m.elems t.key).map IndexElem.fp

/-- `g_hash_table_lookup`. Whether the table compares the key with a given one depends on the hash
values, so that none of the keys may dangle. -/
def entry (m : BufferMemory) (fp : Fingerprint) : Except BufferAbort (Option BufferEntry) :=
  if m.table.any fun t ↦ m.keyFp t = none then .error .danglingKey
  else .ok (m.table.find? fun t ↦ m.keyFp t = some fp)

/-- The entries under the other fingerprints. -/
def others (m : BufferMemory) (fp : Fingerprint) : List BufferEntry :=
  m.table.filter fun t ↦ m.keyFp t ≠ some fp

/-- Insert a new element at address `a` into the queue that was found: the entry is replaced by one whose
key is in the new element. -/
def push (m : BufferMemory) (found : Option BufferEntry) (a : ℕ) (c : Chunk) : BufferMemory where
  elems := Function.update m.elems a (some ⟨c.id, c.fp⟩)
  table := ⟨a, (found.elim [] BufferEntry.queue) ++ [a]⟩ :: m.others c.fp
  chunkNum := m.chunkNum + 1

def peek (m : BufferMemory) (found : Option BufferEntry) (c : Chunk) : Except BufferAbort Chunk :=
  match found with
  | none => .ok c
  | some t =>
    if c.duplicate then .ok c
    else do
      let a ← getOr t.queue.head? .nullElem
      let be ← getOr (m.elems a) .danglingElem
      return c.markDuplicate be.id

def setId (id : ℤ) (elems : ℕ → Option IndexElem) (a : ℕ) : Except BufferAbort (ℕ → Option IndexElem) := do
  let ie ← getOr (elems a) .danglingElem
  return Function.update elems a (some { ie with id := id })

/-- Free the element that was popped; freeing a null pointer does nothing. -/
def free (elems : ℕ → Option IndexElem) (e : Option ℕ) : Except BufferAbort (ℕ → Option IndexElem) :=
  match e with
  | none => .ok elems
  | some a => do
    check (elems a ≠ none) .danglingElem
    return Function.update elems a none

def isFull (cfg : Config) (m : BufferMemory) : Bool :=
  0 < cfg.waitThreshold && cfg.waitThreshold ≤ m.chunkNum

end BufferMemory

/-! ## The two threads -/

/-- The turn of the lookup for a chunk, with the address that `malloc` gives for its element. -/
def lookupBuffered (cfg : Config) (env : LookupEnv) (useKV : Bool) (m : BufferMemory)
    (cache : Lru.Cache CacheUnit) (c : Chunk) (a : ℕ) :
    Except BufferAbort (BufferMemory × Lru.Cache CacheUnit × Chunk) :=
  if c.isFileMarker then .ok (m, cache, c)
  else do
    let tq ← m.entry c.fp
    let c ← m.peek tq (searchStorageBuffer env c)
    let (c, cache) ← (searchCache cfg cache c).mapError .lookup
    let (c, cache) ← (searchKVStore cfg env useKV cache c).mapError .lookup
    return (m.push tq a c, cache, c)

/-- `index_lookup` when the index buffer is not full: the chunks are returned with the addresses of their
elements. -/
def lookupSegment (cfg : Config) (env : LookupEnv) (m : BufferMemory) (cache : Lru.Cache CacheUnit)
    (cs : List (Chunk × ℕ)) :
    Except BufferAbort (BufferMemory × Lru.Cache CacheUnit × List (Chunk × ℕ)) := do
  let cache ← (prefetchSimilar cfg env cache (cs.map Prod.fst)).mapError .lookup
  cs.foldlM (fun acc p ↦ do
    let (m, cache, c) ← lookupBuffered cfg env cfg.searchesKVStore acc.1 acc.2.1 p.1 p.2
    return (m, cache, acc.2.2 ++ [(c, p.2)])) (m, cache, [])

/-- Pop the head of the queue of a chunk. A queue that is empty then leaves the table; another one stays
where it is under its key, and its elements get the container id. -/
def popQueue (m : BufferMemory) (c : Chunk) (bq : BufferEntry) : Except BufferAbort (BufferMemory × List ℕ) := do
  let rest := bq.queue.tail
  let elems ← rest.foldlM (BufferMemory.setId c.id) m.elems
  let elems ← BufferMemory.free elems bq.queue.head?
  let table := if rest = [] then m.others c.fp else ⟨bq.key, rest⟩ :: m.others c.fp
  return (⟨elems, table, m.chunkNum - 1⟩, bq.queue.head?.toList)

/-- The turn of `index_update_buffer` for a chunk, with the addresses of the elements it pops. -/
def updateBuffered (m : BufferMemory) (c : Chunk) : Except BufferAbort (BufferMemory × List ℕ) :=
  if c.isFileMarker then .ok (m, [])
  else do
    check (c.id ≠ temporaryId) (.filter .temporaryId)
    let found ← m.entry c.fp
    let bq ← getOr found (.filter .bufferQueue)
    popQueue m c bq

/-- `index_update_buffer`, with the addresses of the elements it pops. -/
def updateSegment (m : BufferMemory) (cs : List Chunk) : Except BufferAbort (BufferMemory × List ℕ) :=
  cs.foldlM (fun acc c ↦ do
    let (m, popped) ← updateBuffered acc.1 c
    return (m, acc.2 ++ popped)) (m, [])

/-! ## The invariant -/

/-- The addresses of the occurrences of a fingerprint. -/
def addressesOf (occ : List (Fingerprint × ℕ)) (fp : Fingerprint) : List ℕ :=
  (occ.filter fun p ↦ p.1 = fp).map Prod.snd

theorem mem_addressesOf {occ : List (Fingerprint × ℕ)} {fp : Fingerprint} {a : ℕ} :
    a ∈ addressesOf occ fp ↔ (fp, a) ∈ occ := by
  simp [addressesOf]

@[simp] theorem addressesOf_append (occ occ' : List (Fingerprint × ℕ)) (fp : Fingerprint) :
    addressesOf (occ ++ occ') fp = addressesOf occ fp ++ addressesOf occ' fp := by
  simp [addressesOf]

theorem addressesOf_cons_self (fp : Fingerprint) (a : ℕ) (occ : List (Fingerprint × ℕ)) :
    addressesOf ((fp, a) :: occ) fp = a :: addressesOf occ fp := by
  simp [addressesOf]

theorem addressesOf_cons_of_ne {fp fp' : Fingerprint} (h : fp ≠ fp') (a : ℕ)
    (occ : List (Fingerprint × ℕ)) : addressesOf ((fp, a) :: occ) fp' = addressesOf occ fp' := by
  simp [addressesOf, h]

/-- **The invariant of the index buffer.** `occ` has the fingerprint and the address of every occurrence in
flight, the oldest first. -/
structure BufferOk (m : BufferMemory) (occ : List (Fingerprint × ℕ)) : Prop where
  chunkNum : m.chunkNum = occ.length
  /-- Every occurrence has an element of its own. -/
  nodup : (occ.map Prod.snd).Nodup
  /-- The elements have the fingerprints of their occurrences. -/
  elems : ∀ p ∈ occ, (m.elems p.2).map IndexElem.fp = some p.1
  freed : ∀ a, m.elems a ≠ none → a ∈ occ.map Prod.snd
  /-- A queue has the occurrences of its fingerprint, and its key is in the last of them. -/
  queues : ∀ t ∈ m.table, ∃ fp, m.keyFp t = some fp ∧ t.queue = addressesOf occ fp ∧
    t.queue.getLast? = some t.key
  /-- The fingerprints in flight have queues. -/
  covered : ∀ p ∈ occ, ∃ t ∈ m.table, m.keyFp t = some p.1
  distinct : (m.table.map m.keyFp).Nodup

namespace BufferOk

variable {m : BufferMemory} {occ : List (Fingerprint × ℕ)}

theorem empty : BufferOk BufferMemory.empty [] where
  chunkNum := rfl
  nodup := List.nodup_nil
  elems _ h := absurd h List.not_mem_nil
  freed _ h := absurd rfl h
  queues _ h := absurd h List.not_mem_nil
  covered _ h := absurd h List.not_mem_nil
  distinct := List.nodup_nil

/-- **No key dangles, and the queue found is that of the fingerprint.** -/
theorem entry_eq (h : BufferOk m occ) (fp : Fingerprint) :
    ∃ found : Option BufferEntry, m.entry fp = .ok found ∧
      found.elim [] BufferEntry.queue = addressesOf occ fp ∧
      ∀ t ∈ found, t ∈ m.table ∧ m.keyFp t = some fp ∧ t.queue.getLast? = some t.key := by
  have hkeys : ¬(m.table.any fun t ↦ m.keyFp t = none) = true := by
    intro hany
    obtain ⟨t, ht, hnone⟩ := List.any_eq_true.mp hany
    obtain ⟨fp', hfp', -⟩ := h.queues t ht
    rw [decide_eq_true_eq, hfp'] at hnone
    cases hnone
  refine ⟨m.table.find? fun t ↦ m.keyFp t = some fp, if_neg hkeys, ?_⟩
  cases hfind : m.table.find? fun t ↦ m.keyFp t = some fp with
  | none =>
    refine ⟨?_, fun t ht ↦ by cases ht⟩
    -- An occurrence would have a queue.
    have hno : ∀ a, a ∉ addressesOf occ fp := by
      intro a ha
      obtain ⟨t, ht, hkey⟩ := h.covered (fp, a) (mem_addressesOf.mp ha)
      exact List.find?_eq_none.mp hfind t ht (by simpa using hkey)
    exact (List.eq_nil_iff_forall_not_mem.mpr hno).symm
  | some t =>
    have ht : t ∈ m.table := List.mem_of_find?_eq_some hfind
    have hkey : m.keyFp t = some fp := by simpa using List.find?_some hfind
    obtain ⟨fp', hfp', hqueue, hlast⟩ := h.queues t ht
    obtain rfl : fp = fp' := Option.some.inj (hkey.symm.trans hfp')
    refine ⟨hqueue, ?_⟩
    intro t' ht'
    obtain rfl := Option.mem_some_iff.mp ht'
    exact ⟨ht, hkey, hlast⟩

theorem mem_others (h : BufferOk m occ) {fp : Fingerprint} {t : BufferEntry} (ht : t ∈ m.others fp) :
    t ∈ m.table ∧ ∃ fp', fp' ≠ fp ∧ m.keyFp t = some fp' ∧ t.queue = addressesOf occ fp' ∧
      t.queue.getLast? = some t.key := by
  obtain ⟨hmem, hne⟩ := List.mem_filter.mp ht
  obtain ⟨fp', hfp', hqueue⟩ := h.queues t hmem
  refine ⟨hmem, fp', ?_, hfp', hqueue⟩
  rintro rfl
  exact (of_decide_eq_true hne) hfp'

/-- **A change at one fingerprint** keeps the invariant, where the keys of the other entries are not touched
and the entry of the fingerprint, which it has if it occurs, is replaced. -/
theorem change (h : BufferOk m occ) {m' : BufferMemory} {occ' : List (Fingerprint × ℕ)} (fp : Fingerprint)
    (hnum : m'.chunkNum = occ'.length) (hnodup : (occ'.map Prod.snd).Nodup)
    (helems : ∀ p ∈ occ', (m'.elems p.2).map IndexElem.fp = some p.1)
    (hfreed : ∀ a, m'.elems a ≠ none → a ∈ occ'.map Prod.snd)
    (hkeys : ∀ t ∈ m.others fp, m'.keyFp t = m.keyFp t)
    (hocc : ∀ fp', fp' ≠ fp → addressesOf occ' fp' = addressesOf occ fp')
    (htable : m'.table = m.others fp ∧ addressesOf occ' fp = [] ∨
      ∃ t, m'.table = t :: m.others fp ∧ m'.keyFp t = some fp ∧ t.queue = addressesOf occ' fp ∧
        t.queue.getLast? = some t.key) : BufferOk m' occ' := by
  have hothers : ∀ t ∈ m.others fp, ∃ fp', m'.keyFp t = some fp' ∧ t.queue = addressesOf occ' fp' ∧
      t.queue.getLast? = some t.key := by
    intro t ht
    obtain ⟨-, fp', hne, hfp', hqueue, hlast⟩ := h.mem_others ht
    exact ⟨fp', (hkeys t ht).trans hfp', hqueue.trans (hocc fp' hne).symm, hlast⟩
  -- The occurrences of other fingerprints are those of before.
  have hcovered : ∀ p ∈ occ', p.1 ≠ fp → ∃ t ∈ m.others fp, m'.keyFp t = some p.1 := by
    intro p hp hne
    have hold : (p.1, p.2) ∈ occ := by
      rw [← mem_addressesOf, ← hocc p.1 hne, mem_addressesOf]
      exact hp
    obtain ⟨t, ht, hkey⟩ := h.covered _ hold
    have hmem : t ∈ m.others fp := List.mem_filter.mpr ⟨ht, by simpa [hkey] using hne⟩
    exact ⟨t, hmem, (hkeys t hmem).trans hkey⟩
  have hdistinct : ((m.others fp).map m'.keyFp).Nodup := by
    rw [List.map_congr_left hkeys]
    exact h.distinct.sublist (List.filter_sublist.map _)
  rcases htable with ⟨htable, hnone⟩ | ⟨t, htable, hkey, hqueue, hlast⟩
  · refine ⟨hnum, hnodup, helems, hfreed, by rwa [htable], fun p hp ↦ ?_, by rwa [htable]⟩
    rw [htable]
    refine hcovered p hp ?_
    rintro rfl
    have hmem := mem_addressesOf.mpr hp
    rw [hnone] at hmem
    exact List.not_mem_nil hmem
  · refine ⟨hnum, hnodup, helems, hfreed, fun u hu ↦ ?_, fun p hp ↦ ?_, ?_⟩
    · rw [htable] at hu
      rcases List.mem_cons.mp hu with rfl | hu
      · exact ⟨fp, hkey, hqueue, hlast⟩
      · exact hothers u hu
    · rw [htable]
      by_cases hp1 : p.1 = fp
      · exact ⟨t, List.mem_cons_self, hkey.trans (congrArg some hp1.symm)⟩
      · obtain ⟨u, hu, hfp⟩ := hcovered p hp hp1
        exact ⟨u, List.mem_cons_of_mem _ hu, hfp⟩
    · rw [htable, List.map_cons, List.nodup_cons, hkey]
      refine ⟨?_, hdistinct⟩
      intro hmem
      obtain ⟨u, hu, heq⟩ := List.mem_map.mp hmem
      obtain ⟨-, fp', hne, hfp', -⟩ := h.mem_others hu
      rw [hkeys u hu, hfp'] at heq
      exact hne (Option.some.inj heq)

/-- The keys of the other entries are in elements of other fingerprints. -/
theorem keyFp_others (h : BufferOk m occ) {fp : Fingerprint} {m' : BufferMemory}
    (hsame : ∀ a fp', fp' ≠ fp → (fp', a) ∈ occ → m'.elems a = m.elems a) :
    ∀ t ∈ m.others fp, m'.keyFp t = m.keyFp t := by
  intro t ht
  obtain ⟨-, fp', hne, -, hqueue, hlast⟩ := h.mem_others ht
  have hmem : t.key ∈ addressesOf occ fp' := hqueue ▸ List.mem_of_getLast? hlast
  unfold BufferMemory.keyFp
  rw [hsame t.key fp' hne (mem_addressesOf.mp hmem)]

/-- **A chunk was looked up.** -/
theorem push (h : BufferOk m occ) {c : Chunk} {a : ℕ} (ha : m.elems a = none)
    {found : Option BufferEntry} (hfound : found.elim [] BufferEntry.queue = addressesOf occ c.fp) :
    BufferOk (m.push found a c) (occ ++ [(c.fp, a)]) := by
  have hne : ∀ p ∈ occ, p.2 ≠ a := by
    rintro p hp rfl
    have := h.elems p hp
    rw [ha] at this
    cases this
  have hself : (m.push found a c).elems a = some ⟨c.id, c.fp⟩ := Function.update_self ..
  have hother : ∀ b, b ≠ a → (m.push found a c).elems b = m.elems b :=
    fun b hb ↦ Function.update_of_ne hb ..
  refine h.change c.fp ?_ ?_ ?_ ?_ (h.keyFp_others fun b fp' _ hb ↦ hother b (hne _ hb)) ?_
    (.inr ⟨⟨a, addressesOf occ c.fp ++ [a]⟩, ?_, ?_, ?_, ?_⟩)
  · simp [BufferMemory.push, h.chunkNum]
  · rw [List.map_append, List.nodup_append]
    refine ⟨h.nodup, by simp, ?_⟩
    rintro _ hb b hb' rfl
    obtain ⟨p, hp, rfl⟩ := List.mem_map.mp hb
    exact hne p hp (by simpa using hb')
  · intro p hp
    rcases List.mem_append.mp hp with hp | hp
    · rw [hother _ (hne p hp)]
      exact h.elems p hp
    · rw [List.mem_singleton.mp hp, hself]
      rfl
  · intro b hb
    by_cases hba : b = a
    · simp [hba]
    · rw [hother b hba] at hb
      rw [List.map_append]
      exact List.mem_append_left _ (h.freed b hb)
  · intro fp' hfp'
    rw [addressesOf_append, addressesOf_cons_of_ne (Ne.symm hfp')]
    exact List.append_nil _
  · simp [BufferMemory.push, hfound]
  · simp [BufferMemory.keyFp, hself]
  · rw [addressesOf_append, addressesOf_cons_self]
    rfl
  · exact List.getLast?_concat

theorem foldlM_setId (id : ℤ) {rest : List ℕ} {elems : ℕ → Option IndexElem}
    (h : ∀ a ∈ rest, elems a ≠ none) : ∃ elems' : ℕ → Option IndexElem,
      rest.foldlM (BufferMemory.setId id) elems = .ok elems' ∧
        ∀ a, elems' a = if a ∈ rest then (elems a).map (fun e ↦ { e with id := id }) else elems a := by
  induction rest generalizing elems with
  | nil => exact ⟨elems, rfl, fun a ↦ (if_neg List.not_mem_nil).symm⟩
  | cons b rest ih =>
    obtain ⟨e, he⟩ := Option.ne_none_iff_exists'.mp (h b List.mem_cons_self)
    have hstep : BufferMemory.setId id elems b =
        .ok (Function.update elems b (some { e with id := id })) := by
      rw [BufferMemory.setId, he]
      rfl
    have hlive : ∀ a ∈ rest, Function.update elems b (some { e with id := id }) a ≠ none := by
      intro a ha
      by_cases hab : a = b
      · simp [hab]
      · rw [Function.update_of_ne hab]
        exact h a (List.mem_cons_of_mem _ ha)
    obtain ⟨elems', hrun, hval⟩ := ih hlive
    refine ⟨elems', by rw [List.foldlM_cons, hstep]; exact hrun, fun a ↦ ?_⟩
    rw [hval a]
    by_cases hab : a = b
    · subst hab
      simp [he]
    · simp [hab]

/-- **A chunk was stored**: its own element is popped, and those behind it get its container id. -/
theorem pop {c : Chunk} {a : ℕ} (h : BufferOk m ((c.fp, a) :: occ)) (hm : c.isFileMarker = false)
    (hid : c.id ≠ temporaryId) : ∃ m' : BufferMemory, updateBuffered m c = .ok (m', [a]) ∧ BufferOk m' occ ∧
      (∀ b ∈ addressesOf occ c.fp, m'.elems b = some ⟨c.id, c.fp⟩) ∧
      ∀ b ∉ addressesOf occ c.fp, b ≠ a → m'.elems b = m.elems b := by
  obtain ⟨found, hentry, hqueue, hfound⟩ := h.entry_eq c.fp
  rw [addressesOf_cons_self] at hqueue
  obtain ⟨bq, rfl⟩ : ∃ bq, found = some bq := by
    cases found with
    | none => cases hqueue
    | some bq => exact ⟨bq, rfl⟩
  obtain ⟨hbq, hkey, hlast⟩ := hfound bq rfl
  replace hqueue : bq.queue = a :: addressesOf occ c.fp := hqueue
  -- Every address is that of one occurrence.
  have hnodup := h.nodup
  rw [List.map_cons, List.nodup_cons] at hnodup
  have haddr : ∀ fp, a ∉ addressesOf occ fp := fun fp ha ↦
    hnodup.1 (List.mem_map.mpr ⟨(fp, a), mem_addressesOf.mp ha, rfl⟩)
  have helems : ∀ p ∈ occ, (m.elems p.2).map IndexElem.fp = some p.1 :=
    fun p hp ↦ h.elems p (List.mem_cons_of_mem _ hp)
  have hdisjoint : ∀ p ∈ occ, p.1 ≠ c.fp → p.2 ∉ addressesOf occ c.fp := by
    intro p hp hne hmem
    have := helems _ (mem_addressesOf.mp hmem)
    rw [helems p hp] at this
    exact hne (Option.some.inj this)
  have hlive : ∀ b ∈ addressesOf occ c.fp, m.elems b ≠ none := by
    intro b hb hnone
    have := helems _ (mem_addressesOf.mp hb)
    rw [hnone] at this
    cases this
  obtain ⟨elems', hset, hval⟩ := foldlM_setId c.id hlive
  have halive : elems' a ≠ none := by
    rw [hval a, if_neg (haddr c.fp)]
    intro hnone
    have := h.elems (c.fp, a) List.mem_cons_self
    rw [hnone] at this
    cases this
  -- The elements behind the popped one, and those of other fingerprints.
  have hrest : ∀ b ∈ addressesOf occ c.fp, Function.update elems' a none b = some ⟨c.id, c.fp⟩ := by
    intro b hb
    have hba : b ≠ a := by
      rintro rfl
      exact haddr c.fp hb
    rw [Function.update_of_ne hba, hval b, if_pos hb]
    obtain ⟨e, he, hfp⟩ := Option.map_eq_some_iff.mp (helems _ (mem_addressesOf.mp hb))
    rw [he]
    exact congrArg (fun fp ↦ some (IndexElem.mk c.id fp)) hfp
  have hframe : ∀ b ∉ addressesOf occ c.fp, b ≠ a → Function.update elems' a none b = m.elems b := by
    intro b hb hba
    rw [Function.update_of_ne hba, hval b, if_neg hb]
  have hrun : updateBuffered m c = .ok (⟨Function.update elems' a none,
      if addressesOf occ c.fp = [] then m.others c.fp
        else ⟨bq.key, addressesOf occ c.fp⟩ :: m.others c.fp, m.chunkNum - 1⟩, [a]) := by
    have hfree : BufferMemory.free elems' (some a) = .ok (Function.update elems' a none) :=
      bind_eq_ok.mpr ⟨⟨⟩, check_eq_ok.mpr halive, rfl⟩
    rw [updateBuffered, hm, if_neg Bool.false_ne_true]
    refine bind_eq_ok.mpr ⟨⟨⟩, check_eq_ok.mpr hid, bind_eq_ok.mpr ⟨_, hentry, bind_eq_ok.mpr ⟨bq, rfl, ?_⟩⟩⟩
    rw [popQueue, hqueue, List.tail_cons, List.head?_cons, hset]
    exact bind_eq_ok.mpr ⟨_, rfl, bind_eq_ok.mpr ⟨_, hfree, rfl⟩⟩
  refine ⟨_, hrun, ?_, hrest, hframe⟩
  refine h.change c.fp ?_ hnodup.2 ?_ ?_ (h.keyFp_others fun b fp' hne hb ↦ ?_) ?_ ?_
  · simp [h.chunkNum]
  · intro p hp
    by_cases hfp : p.1 = c.fp
    · have hmem : p.2 ∈ addressesOf occ c.fp := mem_addressesOf.mpr (hfp ▸ hp)
      rw [hfp]
      exact congrArg (Option.map IndexElem.fp) (hrest _ hmem)
    · refine Eq.trans (congrArg (Option.map IndexElem.fp) (hframe _ (hdisjoint p hp hfp) ?_)) (helems p hp)
      rintro rfl
      exact haddr p.1 (mem_addressesOf.mpr hp)
  · intro b hb
    have hba : b ≠ a := by
      rintro rfl
      exact hb (Function.update_self ..)
    by_cases hmem : b ∈ addressesOf occ c.fp
    · exact List.mem_map.mpr ⟨_, mem_addressesOf.mp hmem, rfl⟩
    · have := h.freed b (hframe b hmem hba ▸ hb)
      rw [List.map_cons, List.mem_cons] at this
      exact this.resolve_left hba
  · have hb' : (fp', b) ∈ occ := (List.mem_cons.mp hb).resolve_left fun heq ↦ hne (congrArg Prod.fst heq)
    exact hframe b (hdisjoint _ hb' hne) fun hba ↦ haddr fp' (mem_addressesOf.mpr (hba ▸ hb'))
  · intro fp' hne
    exact (addressesOf_cons_of_ne (Ne.symm hne) a occ).symm
  · by_cases hnil : addressesOf occ c.fp = []
    · exact .inl ⟨if_pos hnil, hnil⟩
    · -- The key is in the newest element, which is not the popped one.
      have hlast' : (addressesOf occ c.fp).getLast? = some bq.key := by
        rw [hqueue, List.getLast?_cons] at hlast
        obtain ⟨b, hb⟩ := Option.ne_none_iff_exists'.mp (mt List.getLast?_eq_none_iff.mp hnil)
        rw [hb] at hlast ⊢
        exact hlast
      refine .inr ⟨⟨bq.key, addressesOf occ c.fp⟩, if_neg hnil, ?_, rfl, hlast'⟩
      exact congrArg (Option.map IndexElem.fp) (hrest bq.key (List.mem_of_getLast? hlast'))

end BufferOk

/-! ## The index buffer behind the addresses -/

/-- The buffer as the other modules see it: the container ids in the queue of each fingerprint. -/
def BufferMemory.view (m : BufferMemory) : IndexBuffer where
  queues fp := ((m.table.find? fun t ↦ m.keyFp t = some fp).elim [] BufferEntry.queue).filterMap
    fun a ↦ (m.elems a).map IndexElem.id
  chunkNum := m.chunkNum.toNat

namespace BufferOk

variable {m : BufferMemory} {occ : List (Fingerprint × ℕ)}

theorem view_queues (h : BufferOk m occ) (fp : Fingerprint) :
    m.view.queues fp = (addressesOf occ fp).filterMap fun a ↦ (m.elems a).map IndexElem.id := by
  obtain ⟨found, hentry, hqueue, -⟩ := h.entry_eq fp
  unfold BufferMemory.entry at hentry
  split_ifs at hentry
  cases hentry
  rw [← hqueue]
  rfl

theorem view_chunkNum (h : BufferOk m occ) : m.view.chunkNum = occ.length := by
  rw [BufferMemory.view, h.chunkNum]
  exact Int.toNat_natCast _

theorem view_queues_congr {m' : BufferMemory} {occ' : List (Fingerprint × ℕ)} (h : BufferOk m occ)
    (h' : BufferOk m' occ') {fp : Fingerprint} (hocc : addressesOf occ' fp = addressesOf occ fp)
    (helems : ∀ a ∈ addressesOf occ fp, m'.elems a = m.elems a) :
    m'.view.queues fp = m.view.queues fp := by
  rw [h.view_queues, h'.view_queues, hocc]
  exact List.filterMap_congr fun a ha ↦ by rw [helems a ha]

/-- **The head of a queue is alive**, so that the search in the buffer is that in the queue of ids. -/
theorem peek_eq (h : BufferOk m occ) {c : Chunk} {found : Option BufferEntry}
    (hfound : found.elim [] BufferEntry.queue = addressesOf occ c.fp)
    (hlast : ∀ t ∈ found, t.queue.getLast? = some t.key) :
    m.peek found c = .ok (searchIndexBuffer m.view c) := by
  have hview := h.view_queues c.fp
  unfold searchIndexBuffer
  cases found with
  | none =>
    rw [← hfound] at hview
    rw [hview]
    rfl
  | some t =>
    have hqueue : t.queue = addressesOf occ c.fp := hfound
    obtain ⟨a, q, hq⟩ : ∃ a q, t.queue = a :: q := by
      cases hq : t.queue with
      | nil =>
        have := hlast t rfl
        rw [hq] at this
        cases this
      | cons a q => exact ⟨a, q, rfl⟩
    have ha : (c.fp, a) ∈ occ := mem_addressesOf.mp (hqueue ▸ hq ▸ List.mem_cons_self)
    obtain ⟨e, he, -⟩ := Option.map_eq_some_iff.mp (h.elems _ ha)
    replace he : m.elems a = some e := he
    rw [← hqueue, hq, List.filterMap_cons, he] at hview
    rw [hview]
    unfold BufferMemory.peek
    dsimp only
    rw [hq, List.head?_cons]
    split_ifs with hd
    · rfl
    · refine bind_eq_ok.mpr ⟨a, rfl, bind_eq_ok.mpr ⟨e, getOr_eq_ok.mpr he, rfl⟩⟩

theorem view_push (h : BufferOk m occ) {c : Chunk} {a : ℕ} (ha : m.elems a = none)
    {found : Option BufferEntry} (hfound : found.elim [] BufferEntry.queue = addressesOf occ c.fp) :
    (m.push found a c).view = m.view.push c := by
  have h' := h.push ha hfound
  have hother : ∀ fp, ∀ b ∈ addressesOf occ fp, (m.push found a c).elems b = m.elems b := by
    intro fp b hb
    refine Function.update_of_ne ?_ ..
    rintro rfl
    have := h.elems _ (mem_addressesOf.mp hb)
    rw [ha] at this
    cases this
  have hqueues : (m.push found a c).view.queues = (m.view.push c).queues := by
    funext fp
    by_cases hfp : fp = c.fp
    · subst hfp
      have hself : (m.push found a c).elems a = some ⟨c.id, c.fp⟩ := Function.update_self ..
      have hpush : (m.view.push c).queues c.fp = m.view.queues c.fp ++ [c.id] := Function.update_self ..
      rw [hpush, h'.view_queues, addressesOf_append, addressesOf_cons_self, List.filterMap_append,
        List.filterMap_congr fun b hb ↦ by rw [hother _ b hb], ← h.view_queues, List.filterMap_cons, hself]
      rfl
    · have hsame : (m.view.push c).queues fp = m.view.queues fp := Function.update_of_ne hfp ..
      rw [hsame]
      refine h.view_queues_congr h' ?_ (hother fp)
      rw [addressesOf_append, addressesOf_cons_of_ne (Ne.symm hfp)]
      exact List.append_nil _
  have hnum : (m.push found a c).view.chunkNum = (m.view.push c).chunkNum := by
    rw [h'.view_chunkNum, IndexBuffer.push, h.view_chunkNum]
    simp
  exact congrArg₂ IndexBuffer.mk hqueues hnum

theorem view_pop {c : Chunk} {a : ℕ} {m' : BufferMemory} (h : BufferOk m ((c.fp, a) :: occ))
    (h' : BufferOk m' occ) (hrest : ∀ b ∈ addressesOf occ c.fp, m'.elems b = some ⟨c.id, c.fp⟩)
    (hframe : ∀ b ∉ addressesOf occ c.fp, b ≠ a → m'.elems b = m.elems b) : m'.view = m.view.pop c := by
  have hqueues : m'.view.queues = (m.view.pop c).queues := by
    funext fp
    by_cases hfp : fp = c.fp
    · subst hfp
      obtain ⟨e, he, -⟩ := Option.map_eq_some_iff.mp (h.elems _ List.mem_cons_self)
      replace he : m.elems a = some e := he
      have hself : (m.view.pop c).queues c.fp = (m.view.queues c.fp).tail.map fun _ ↦ c.id :=
        Function.update_self ..
      rw [hself, h.view_queues, addressesOf_cons_self, List.filterMap_cons, he, h'.view_queues,
        List.filterMap_congr fun b hb ↦ by rw [hrest b hb]]
      -- Both have the id once for each element.
      have hlive : ∀ b ∈ addressesOf occ c.fp, ((m.elems b).map IndexElem.id).isSome := by
        intro b hb
        have := h.elems _ (List.mem_cons_of_mem _ (mem_addressesOf.mp hb))
        cases hb' : m.elems b with
        | none =>
          rw [hb'] at this
          cases this
        | some e => rfl
      generalize addressesOf occ c.fp = q at hlive
      induction q with
      | nil => rfl
      | cons b q ih =>
        obtain ⟨i, hi⟩ := Option.isSome_iff_exists.mp (hlive b List.mem_cons_self)
        have hrec := ih fun b' hb' ↦ hlive b' (List.mem_cons_of_mem _ hb')
        simp only [List.filterMap_cons, hi, Option.map_some, List.tail_cons, List.map_cons] at hrec ⊢
        rw [hrec]
    · have hsame : (m.view.pop c).queues fp = m.view.queues fp := Function.update_of_ne hfp ..
      rw [hsame]
      refine h.view_queues_congr h' (addressesOf_cons_of_ne (Ne.symm hfp) a occ).symm fun b hb ↦ ?_
      rw [addressesOf_cons_of_ne (Ne.symm hfp)] at hb
      have hb' := mem_addressesOf.mp hb
      refine hframe b (fun hmem ↦ ?_) ?_
      · have h₁ := h.elems _ (List.mem_cons_of_mem _ hb')
        have h₂ := h.elems _ (List.mem_cons_of_mem _ (mem_addressesOf.mp hmem))
        exact hfp (Option.some.inj (h₁.symm.trans h₂))
      · rintro rfl
        have hnodup := h.nodup
        rw [List.map_cons, List.nodup_cons] at hnodup
        exact hnodup.1 (List.mem_map.mpr ⟨_, hb', rfl⟩)
  have hnum : m'.view.chunkNum = (m.view.pop c).chunkNum := by
    rw [h'.view_chunkNum, IndexBuffer.pop, h.view_chunkNum]
    simp
  exact congrArg₂ IndexBuffer.mk hqueues hnum

end BufferOk

end UniDedup.Node
