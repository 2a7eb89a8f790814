import UniDedup.Lib.Outcome
import UniDedup.Lib.Stdio
import UniDedup.Lib.Word
import UniDedup.Node.Container
import Mathlib.Order.CompletePartialOrder
import Mathlib.Order.Interval.Set.Disjoint

/-!
# Containers on disk

The pool file starts with the container count in eight bytes; behind it the container of id `i` has the
`CONTAINER_SIZE` bytes from `i * CONTAINER_SIZE + 8` on. A container fills its block with the data of
the chunks from the front and with the serialised metadata in the last `CONTAINER_META_SIZE` bytes: a
head of 16 bytes in network order, then 28 bytes for each entry of the hash table, in the order of the
table and of the machine. `container_overflow` keeps the two regions apart, as long as
`add_chunk_to_container` is called under it.

A container on disk is described twice: by the bytes of its block, which later writes of other
containers do not touch, and by what the two retrieving functions make of them.

All of this is with the simulation level `SIMULATION_NO`.
-/

namespace UniDedup.Node

open Outcome Stdio

/-! ## The code -/

/-- The ways in which writing or retrieving a container stops. -/
inductive ContainerFault
  /-- `assert(!container_overflow(c, ck->size))`. -/
  | full
  /-- The metadata does not fit, `ser_end`. -/
  | serEnd
  /-- A position that is not a file offset. -/
  | offset
  | shortRead
  /-- The metadata is longer than its region, `unser_end`. -/
  | unserEnd
  /-- `assert(c->meta.id == id)`. -/
  | id
deriving DecidableEq

def addChunkToContainer (con : Container) (ck : Fingerprint × Bytes) :
    Except ContainerFault Container := do
  check (con.overflow ck.2.length = false) .full
  return (con.addChunk ck.1 ck.2).getD con

/-- `CONTAINER_HEAD`: the id, the number of chunks and the size of the data. -/
def containerHead : ℕ := 16

/-- The start of the metadata in the block of a container. -/
def metaStart : ℕ := containerSize - containerMetaSize

/-- The position of the container of the given id in the pool file. -/
def poolOffset (id : ℕ) : ℕ := id * containerSize + 8

def MetaEntry.bytes (e : MetaEntry) : Bytes := e.fp.toList ++ (Word.le 4 e.len ++ Word.le 4 e.off)

/-- The metadata as it is serialised; `es` are the entries in the order of the hash table. -/
def Container.metaBytes (con : Container) (es : List MetaEntry) : Bytes :=
  Word.be 8 con.id ++ (Word.be 4 con.entries.length ++ (Word.be 4 con.data.length ++
    es.flatMap MetaEntry.bytes))

/-- The buffer `c->data` after the metadata has been serialised into it. -/
def Container.block (con : Container) (es : List MetaEntry) : Except ContainerFault Bytes := do
  check ((con.metaBytes es).length ≤ containerMetaSize) .serEnd
  return pwrite (pwrite (List.replicate containerSize 0) 0 con.data) metaStart (con.metaBytes es)

/-- `container_count` and the pool file. -/
structure ContainerPool where
  count : ℕ
  /-- `container.pool`. -/
  file : Bytes

/-- `write_container`; an empty container is not written, and its id is given back. -/
def ContainerPool.writeContainer (pool : ContainerPool) (con : Container) (es : List MetaEntry) :
    Except ContainerFault ContainerPool := do
  if con.isEmpty then return { pool with count := pool.count - 1 }
  else
    let block ← con.block es
    check (poolOffset con.id + containerSize < 2 ^ 63) .offset
    return { pool with file := pwrite pool.file (poolOffset con.id) block }

/-- `struct containerMeta`. -/
structure ContainerMeta where
  id : ℤ
  chunkNum : ℤ
  dataSize : ℤ
  /-- Offset and length of the chunk with a fingerprint. -/
  map : Fingerprint → Option (ℤ × ℤ)

def unserBytes (n : ℕ) (bs : Bytes) : Except ContainerFault (Bytes × Bytes) := do
  check (n ≤ bs.length) .unserEnd
  return (bs.take n, bs.drop n)

/-- `unser_int64` and `unser_int32`. -/
def unserInt (w : ℕ) (bs : Bytes) : Except ContainerFault (ℤ × Bytes) := do
  let (b, bs) ← unserBytes w bs
  return (Word.signed b.reverse, bs)

def unserEntries : ℕ → Bytes → (Fingerprint → Option (ℤ × ℤ)) →
    Except ContainerFault (Fingerprint → Option (ℤ × ℤ))
  | 0, _, map => return map
  | n + 1, bs, map => do
    let (fp, bs) ← unserBytes fpLength bs
    let fp ← getOr (if h : fp.length = fpLength then some ⟨fp, h⟩ else none) .unserEnd
    let (len, bs) ← unserBytes 4 bs
    let (off, bs) ← unserBytes 4 bs
    unserEntries n bs (Function.update map fp (some (Word.signed off, Word.signed len)))

/-- The metadata in the bytes read, if it is that of the container asked for. -/
def unserMeta (id : ℕ) (bs : Bytes) : Except ContainerFault ContainerMeta := do
  let (id', bs) ← unserInt 8 bs
  let (chunkNum, bs) ← unserInt 4 bs
  let (dataSize, bs) ← unserInt 4 bs
  check (id' = id) .id
  let map ← unserEntries chunkNum.toNat bs fun _ ↦ none
  return ⟨id', chunkNum, dataSize, map⟩

/-- `retrieve_container_meta_by_id`, for a container that is not in the buffer. -/
def ContainerPool.retrieveContainerMetaById (pool : ContainerPool) (id : ℕ) :
    Except ContainerFault ContainerMeta := do
  check ((id + 1) * containerSize + 8 < 2 ^ 63) .offset
  let buf ← getOr (pread pool.file ((id + 1) * containerSize - containerMetaSize + 8) containerMetaSize)
    .shortRead
  unserMeta id buf

/-- `struct container` as it is retrieved. -/
structure RetrievedContainer where
  /-- `meta`. -/
  containerMeta : ContainerMeta
  data : Bytes

def ContainerPool.retrieveContainerById (pool : ContainerPool) (id : ℕ) :
    Except ContainerFault RetrievedContainer := do
  check (poolOffset id < 2 ^ 63) .offset
  let data ← getOr (pread pool.file (poolOffset id) containerSize) .shortRead
  let containerMeta ← unserMeta id (data.drop metaStart)
  return ⟨containerMeta, data⟩

/-- The data of `get_chunk_in_container`, or `none` where its assertion fails. -/
def RetrievedContainer.getChunkInContainer (c : RetrievedContainer) (fp : Fingerprint) :
    Option Bytes :=
  (c.containerMeta.map fp).map fun m ↦ (c.data.drop m.1.toNat).take m.2.toNat

/-! ## What a filled container is like -/

/-- The entries cover the range from `a` to `b`, one after the other. -/
def Tiles : ℕ → List MetaEntry → ℕ → Prop
  | a, [], b => a = b
  | a, e :: es, b => e.off = a ∧ Tiles (a + e.len) es b

theorem tiles_append {a b : ℕ} {es : List MetaEntry} {e : MetaEntry} (h : Tiles a es b)
    (he : e.off = b) : Tiles a (es ++ [e]) (b + e.len) := by
  induction es generalizing a with
  | nil =>
    obtain rfl : a = b := h
    exact ⟨he, rfl⟩
  | cons e' es ih => exact ⟨h.1, ih h.2⟩

/-- What `container_overflow` keeps: both regions of the block have room, and the entries cover the
data. -/
structure Container.Fitted (con : Container) : Prop where
  data : con.data.length ≤ containerSize - containerMetaSize
  entries : containerHead + containerMetaEntry * con.entries.length ≤ containerMetaSize
  tiles : Tiles 0 con.entries con.data.length

theorem fitted_create (id : ℕ) : (Container.create id).Fitted :=
  ⟨Nat.zero_le _, (by decide : containerHead + containerMetaEntry * 0 ≤ containerMetaSize), rfl⟩

theorem Container.Fitted.addChunk {con : Container} (h : con.Fitted) (ck : Fingerprint × Bytes) :
    Post (addChunkToContainer con ck) Container.Fitted fun _ ↦ True := by
  refine (post_check fun _ ↦ trivial).bind fun _ hfull ↦ ?_
  cases hadd : con.addChunk ck.1 ck.2 with
  | none => exact h
  | some con' =>
    obtain ⟨-, -, hentries, hdata⟩ := Container.addChunk_eq_some hadd
    simp only [Container.overflow, Bool.or_eq_false_iff, decide_eq_false_iff_not, not_lt] at hfull
    refine ⟨?_, ?_, ?_⟩
    · rw [Option.getD_some, hdata, List.length_append]
      exact hfull.1
    · rw [Option.getD_some, hentries, List.length_append, List.length_singleton, Nat.mul_comm,
        Nat.add_comm]
      exact hfull.2
    · rw [Option.getD_some, hentries, hdata, List.length_append]
      exact tiles_append h.tiles rfl

/-- **Every container filled under `container_overflow` is fitted.** -/
theorem fitted_of_foldlM {id : ℕ} {chunks : List (Fingerprint × Bytes)} {con : Container}
    (h : chunks.foldlM addChunkToContainer (Container.create id) = .ok con) : con.Fitted :=
  Post.ok (Post.foldlM_of_invariant (I := Container.Fitted) (fun _ ck _ hcon ↦ hcon.addChunk ck)
    (fitted_create id)) h

/-! ## Reading back what was serialised -/

theorem unserBytes_append {n : ℕ} {bs rest : Bytes} (h : bs.length = n) :
    unserBytes n (bs ++ rest) = .ok (bs, rest) := by
  subst h
  refine bind_eq_ok.mpr ⟨⟨⟩, check_eq_ok.mpr ?_, ?_⟩
  · rw [List.length_append]
    exact Nat.le_add_right _ _
  · rw [List.take_left, List.drop_left]
    rfl

theorem unserInt_be {w n : ℕ} {rest : Bytes} (h : n * 2 < 256 ^ w) :
    unserInt w (Word.be w n ++ rest) = .ok ((n : ℤ), rest) := by
  refine bind_eq_ok.mpr ⟨_, unserBytes_append (Word.length_be w n), ?_⟩
  dsimp only
  rw [Word.be, List.reverse_reverse, Word.signed_le_natCast h]
  rfl

/-- The entries, as the retrieving loop enters them into the new hash table. -/
def insertEntries (es : List MetaEntry) (map : Fingerprint → Option (ℤ × ℤ)) :
    Fingerprint → Option (ℤ × ℤ) :=
  es.foldl (fun map e ↦ Function.update map e.fp (some ((e.off : ℤ), (e.len : ℤ)))) map

theorem unserEntries_flatMap {es : List MetaEntry} (hes : ∀ e ∈ es, e.off < 2 ^ 31 ∧ e.len < 2 ^ 31)
    (rest : Bytes) (map : Fingerprint → Option (ℤ × ℤ)) :
    unserEntries es.length (es.flatMap MetaEntry.bytes ++ rest) map = .ok (insertEntries es map) := by
  induction es generalizing map with
  | nil => rfl
  | cons e es ih =>
    obtain ⟨hoff, hlen⟩ := hes e List.mem_cons_self
    have hread : (e :: es).flatMap MetaEntry.bytes ++ rest = e.fp.toList ++ (Word.le 4 e.len ++
        (Word.le 4 e.off ++ (es.flatMap MetaEntry.bytes ++ rest))) := by
      simp only [List.flatMap_cons, MetaEntry.bytes, List.append_assoc]
    have hfp : (if h : e.fp.toList.length = fpLength then some (⟨e.fp.toList, h⟩ : Fingerprint)
        else none) = some e.fp := dif_pos e.fp.toList_length
    rw [hread, List.length_cons]
    refine bind_eq_ok.mpr ⟨_, unserBytes_append e.fp.toList_length, ?_⟩
    refine bind_eq_ok.mpr ⟨e.fp, getOr_eq_ok.mpr hfp, ?_⟩
    refine bind_eq_ok.mpr ⟨_, unserBytes_append (Word.length_le 4 _), ?_⟩
    refine bind_eq_ok.mpr ⟨_, unserBytes_append (Word.length_le 4 _), ?_⟩
    dsimp only
    rw [Word.signed_le_natCast (by omega), Word.signed_le_natCast (by omega)]
    exact ih (fun e' he' ↦ hes e' (List.mem_cons_of_mem e he')) _

theorem insertEntries_of_notMem {es : List MetaEntry} {map : Fingerprint → Option (ℤ × ℤ)}
    {fp : Fingerprint} (h : fp ∉ es.map MetaEntry.fp) : insertEntries es map fp = map fp := by
  induction es generalizing map with
  | nil => rfl
  | cons e es ih =>
    rw [List.map_cons, List.mem_cons, not_or] at h
    exact (ih h.2).trans (Function.update_of_ne h.1 _ _)

theorem insertEntries_of_mem {es : List MetaEntry} {map : Fingerprint → Option (ℤ × ℤ)}
    (hnodup : (es.map MetaEntry.fp).Nodup) {e : MetaEntry} (he : e ∈ es) :
    insertEntries es map e.fp = some ((e.off : ℤ), (e.len : ℤ)) := by
  induction es generalizing map with
  | nil => cases he
  | cons e' es ih =>
    rw [List.map_cons, List.nodup_cons] at hnodup
    rcases List.mem_cons.mp he with rfl | he
    · exact (insertEntries_of_notMem hnodup.1).trans (Function.update_self ..)
    · exact ih hnodup.2 he

/-- The metadata says about the container what the container is. -/
structure ContainerMeta.Describes (m : ContainerMeta) (con : Container) : Prop where
  id : m.id = con.id
  chunkNum : m.chunkNum = con.entries.length
  dataSize : m.dataSize = con.data.length
  map : ∀ fp, m.map fp = (con.entry fp).map fun e ↦ ((e.off : ℤ), (e.len : ℤ))

theorem insertEntries_perm {con : Container} {es : List MetaEntry} (hes : es.Perm con.entries)
    (fp : Fingerprint) : insertEntries es (fun _ ↦ none) fp =
      (con.entry fp).map fun e ↦ ((e.off : ℤ), (e.len : ℤ)) := by
  have hnodup : (es.map MetaEntry.fp).Nodup := (hes.map MetaEntry.fp).nodup_iff.mpr con.nodup
  cases he : con.entry fp with
  | none =>
    refine insertEntries_of_notMem fun hfp ↦ ?_
    obtain ⟨e, hmem, rfl⟩ := List.mem_map.mp hfp
    exact absurd (List.find?_eq_none.mp he e (hes.mem_iff.mp hmem)) (by simp)
  | some e =>
    have hmem : e ∈ es := hes.mem_iff.mpr (List.mem_of_find?_eq_some he)
    obtain rfl : e.fp = fp := by simpa using List.find?_some he
    exact insertEntries_of_mem hnodup hmem

theorem Container.Fitted.entry_lt {con : Container} (h : con.Fitted) {e : MetaEntry}
    (he : e ∈ con.entries) : e.off < 2 ^ 31 ∧ e.len < 2 ^ 31 := by
  have hbound := con.bounded e he
  have hdata := h.data
  simp only [containerSize, containerMetaSize] at hdata
  omega

/-- **The metadata of a container is read back.** -/
theorem unserMeta_metaBytes {con : Container} {es : List MetaEntry} (h : con.Fitted)
    (hes : es.Perm con.entries) (hid : con.id < 2 ^ 63) (rest : Bytes) :
    ∃ m, unserMeta con.id (con.metaBytes es ++ rest) = .ok m ∧ m.Describes con := by
  have hnum := h.entries
  have hdata := h.data
  simp only [containerSize, containerMetaSize, containerHead, containerMetaEntry] at hnum hdata
  have hread : con.metaBytes es ++ rest = Word.be 8 con.id ++ (Word.be 4 con.entries.length ++
      (Word.be 4 con.data.length ++ (es.flatMap MetaEntry.bytes ++ rest))) := by
    simp only [Container.metaBytes, List.append_assoc]
  have hlt : ∀ e ∈ es, e.off < 2 ^ 31 ∧ e.len < 2 ^ 31 :=
    fun e he ↦ h.entry_lt (hes.mem_iff.mp he)
  have hmap := unserEntries_flatMap hlt rest fun _ ↦ none
  rw [hes.length_eq] at hmap
  refine ⟨⟨con.id, con.entries.length, con.data.length, insertEntries es fun _ ↦ none⟩, ?_,
    rfl, rfl, rfl, insertEntries_perm hes⟩
  rw [hread]
  refine bind_eq_ok.mpr ⟨_, unserInt_be (by omega), ?_⟩
  refine bind_eq_ok.mpr ⟨_, unserInt_be (by omega), ?_⟩
  refine bind_eq_ok.mpr ⟨_, unserInt_be (by omega), ?_⟩
  refine bind_eq_ok.mpr ⟨⟨⟩, check_eq_ok.mpr rfl, ?_⟩
  exact bind_eq_ok.mpr ⟨_, hmap, rfl⟩

/-! ## The block of a container -/

theorem MetaEntry.length_bytes (e : MetaEntry) : e.bytes.length = containerMetaEntry := by
  rw [MetaEntry.bytes, List.length_append, List.length_append, Word.length_le, Word.length_le,
    e.fp.toList_length]
  rfl

theorem Container.length_metaBytes {con : Container} {es : List MetaEntry}
    (hes : es.Perm con.entries) :
    (con.metaBytes es).length = containerHead + containerMetaEntry * con.entries.length := by
  have hlen : (es.flatMap MetaEntry.bytes).length = es.length * containerMetaEntry := by
    rw [List.length_flatMap, List.map_congr_left fun e _ ↦ e.length_bytes, List.map_const',
      List.sum_replicate_nat]
  simp only [Container.metaBytes, List.length_append, Word.length_be, hlen, hes.length_eq,
    containerHead]
  rw [Nat.mul_comm]
  omega

/-- What the block of a container holds. -/
structure Container.IsBlock (con : Container) (es : List MetaEntry) (block : Bytes) : Prop where
  length : block.length = containerSize
  meta_eq : ∃ rest, block.drop metaStart = con.metaBytes es ++ rest
  data_eq : block.take con.data.length = con.data

theorem Container.Fitted.exists_block {con : Container} {es : List MetaEntry} (h : con.Fitted)
    (hes : es.Perm con.entries) : ∃ block, con.block es = .ok block ∧ con.IsBlock es block := by
  have hmeta : (con.metaBytes es).length ≤ containerMetaSize := by
    rw [Container.length_metaBytes hes]
    exact h.entries
  have hdata : 0 + con.data.length ≤ metaStart := by
    rw [Nat.zero_add]
    exact h.data
  have hstart : metaStart + containerMetaSize = containerSize := by decide
  have hbuf : (pwrite (List.replicate containerSize 0) 0 con.data).length = containerSize := by
    rw [length_pwrite_of_le (by rw [List.length_replicate]; omega), List.length_replicate]
  refine ⟨_, bind_eq_ok.mpr ⟨⟨⟩, check_eq_ok.mpr hmeta, rfl⟩, ?_, ?_, ?_⟩
  · rw [length_pwrite_of_le (by rw [hbuf]; omega), hbuf]
  · obtain ⟨-, htake⟩ := pread_eq_some_iff.mp (pread_pwrite_self
      (pwrite (List.replicate containerSize 0) 0 con.data) metaStart (con.metaBytes es))
    have hsplit := List.take_append_drop (con.metaBytes es).length (List.drop metaStart
      (pwrite (pwrite (List.replicate containerSize 0) 0 con.data) metaStart (con.metaBytes es)))
    rw [htake] at hsplit
    exact ⟨_, hsplit.symm⟩
  · have hread : pread (pwrite (pwrite (List.replicate containerSize 0) 0 con.data) metaStart
        (con.metaBytes es)) 0 con.data.length = some con.data :=
      pread_pwrite_of_le (pread_pwrite_self _ 0 con.data) hdata
    exact (pread_eq_some_iff.mp hread).2

/-! ## Containers in the pool file -/

/-- The container has its block in the pool file. -/
structure OnDisk (file : Bytes) (con : Container) : Prop where
  fitted : con.Fitted
  range : poolOffset con.id + containerSize < 2 ^ 63
  block : ∃ es block, es.Perm con.entries ∧ con.IsBlock es block ∧
    pread file (poolOffset con.id) containerSize = some block

theorem OnDisk.pwrite {file : Bytes} {con : Container} (h : OnDisk file con) {off : ℕ} {bs : Bytes}
    (hoff : off + bs.length ≤ poolOffset con.id ∨ poolOffset con.id + containerSize ≤ off) :
    OnDisk (Stdio.pwrite file off bs) con := by
  obtain ⟨es, block, hes, hblock, hread⟩ := h.block
  refine ⟨h.fitted, h.range, es, block, hes, hblock, ?_⟩
  rcases hoff with hoff | hoff
  · exact pread_pwrite_of_ge hread hoff
  · exact pread_pwrite_of_le hread hoff

theorem poolOffset_separated {i j : ℕ} (h : i ≠ j) :
    poolOffset i + containerSize ≤ poolOffset j ∨ poolOffset j + containerSize ≤ poolOffset i := by
  unfold poolOffset containerSize
  omega

theorem range_of_writeContainer {pool pool' : ContainerPool} {con : Container} {es : List MetaEntry}
    (hne : con.isEmpty = false) (h : pool.writeContainer con es = .ok pool') :
    poolOffset con.id + containerSize < 2 ^ 63 := by
  rw [ContainerPool.writeContainer, if_neg (by simp [hne])] at h
  obtain ⟨block, -, h⟩ := bind_eq_ok.mp h
  obtain ⟨_, hrange, -⟩ := bind_eq_ok.mp h
  exact check_eq_ok.mp hrange

/-- **Writing a container puts it on disk and leaves the others where they are.** -/
theorem ContainerPool.writeContainer_spec {pool : ContainerPool} {con : Container}
    {es : List MetaEntry} (h : con.Fitted) (hne : con.isEmpty = false) (hes : es.Perm con.entries)
    (hrange : poolOffset con.id + containerSize < 2 ^ 63) :
    ∃ pool', pool.writeContainer con es = .ok pool' ∧ pool'.count = pool.count ∧
      OnDisk pool'.file con ∧ ∀ other, OnDisk pool.file other → other.id ≠ con.id →
        OnDisk pool'.file other := by
  obtain ⟨block, hblock, hspec⟩ := h.exists_block hes
  refine ⟨{ pool with file := Stdio.pwrite pool.file (poolOffset con.id) block }, ?_, rfl, ?_, ?_⟩
  · rw [writeContainer, if_neg (by simp [hne])]
    exact bind_eq_ok.mpr ⟨block, hblock, bind_eq_ok.mpr ⟨⟨⟩, check_eq_ok.mpr hrange, rfl⟩⟩
  · refine ⟨h, hrange, es, block, hes, hspec, ?_⟩
    rw [← hspec.length]
    exact pread_pwrite_self ..
  · intro other hother hid
    refine hother.pwrite ?_
    rw [hspec.length]
    exact poolOffset_separated hid.symm

/-- Both retrieving functions give the container back. -/
structure Recovers (pool : ContainerPool) (con : Container) : Prop where
  byMeta : ∃ m, pool.retrieveContainerMetaById con.id = .ok m ∧ m.Describes con
  byId : ∃ c, pool.retrieveContainerById con.id = .ok c ∧ c.containerMeta.Describes con ∧
    ∀ fp, c.getChunkInContainer fp = con.getChunk fp

theorem getChunkInContainer_of_describes {con : Container} {es : List MetaEntry} {block : Bytes}
    {m : ContainerMeta} (hblock : con.IsBlock es block) (hm : m.Describes con) (fp : Fingerprint) :
    RetrievedContainer.getChunkInContainer ⟨m, block⟩ fp = con.getChunk fp := by
  rw [RetrievedContainer.getChunkInContainer, hm.map, Container.getChunk]
  cases he : con.entry fp with
  | none => rfl
  | some e =>
    have hbound := con.bounded e (List.mem_of_find?_eq_some he)
    simp only [Option.map_some, Int.toNat_natCast]
    rw [← hblock.data_eq, List.drop_take, List.take_take]
    congr 2
    rw [← hblock.data_eq] at hbound
    rw [List.length_take] at hbound
    omega

/-- **A container on disk is retrieved.** -/
theorem OnDisk.recovers {pool : ContainerPool} {con : Container} (h : OnDisk pool.file con) :
    Recovers pool con := by
  obtain ⟨es, block, hes, hblock, hread⟩ := h.block
  obtain ⟨rest, hmeta⟩ := hblock.meta_eq
  have hrange := h.range
  have hid : con.id < 2 ^ 63 := by
    unfold poolOffset containerSize at hrange
    omega
  obtain ⟨m, hm, hdesc⟩ := unserMeta_metaBytes h.fitted hes hid rest
  rw [← hmeta] at hm
  constructor
  · have hpart := pread_part (o := metaStart) (m := containerMetaSize) hread (by decide)
    have hpos : poolOffset con.id + metaStart =
        (con.id + 1) * containerSize - containerMetaSize + 8 := by
      unfold poolOffset metaStart containerSize containerMetaSize
      omega
    have htake : (block.drop metaStart).take containerMetaSize = block.drop metaStart := by
      refine List.take_of_length_le ?_
      rw [List.length_drop, hblock.length]
      decide
    rw [hpos, htake] at hpart
    refine ⟨m, ?_, hdesc⟩
    refine bind_eq_ok.mpr ⟨⟨⟩, check_eq_ok.mpr ?_, bind_eq_ok.mpr ⟨_, getOr_eq_ok.mpr hpart, hm⟩⟩
    unfold poolOffset at hrange
    rw [Nat.add_mul, Nat.one_mul]
    omega
  · refine ⟨⟨m, block⟩, ?_, hdesc, getChunkInContainer_of_describes hblock hdesc⟩
    refine bind_eq_ok.mpr ⟨⟨⟩, check_eq_ok.mpr (by omega), ?_⟩
    exact bind_eq_ok.mpr ⟨_, getOr_eq_ok.mpr hread, bind_eq_ok.mpr ⟨m, hm, rfl⟩⟩

/-! ## The round trip -/

theorem id_addChunkToContainer {con con' : Container} {ck : Fingerprint × Bytes}
    (h : addChunkToContainer con ck = .ok con') : con'.id = con.id := by
  obtain ⟨-, -, h⟩ := bind_eq_ok.mp h
  obtain rfl := Except.ok.inj h
  cases hadd : con.addChunk ck.1 ck.2 with
  | none => rfl
  | some con' => exact (Container.addChunk_eq_some hadd).2.1

theorem id_of_foldlM {chunks : List (Fingerprint × Bytes)} {con con' : Container}
    (h : chunks.foldlM addChunkToContainer con = .ok con') : con'.id = con.id := by
  induction chunks generalizing con with
  | nil => exact congrArg Container.id (Except.ok.inj h).symm
  | cons ck chunks ih =>
    rw [List.foldlM_cons] at h
    obtain ⟨con'', hadd, h⟩ := bind_eq_ok.mp h
    exact (ih h).trans (id_addChunkToContainer hadd)

theorem isEmpty_addChunkToContainer {con con' : Container} {ck : Fingerprint × Bytes}
    (h : addChunkToContainer con ck = .ok con') : con'.isEmpty = false := by
  obtain ⟨-, -, h⟩ := bind_eq_ok.mp h
  obtain rfl := Except.ok.inj h
  cases hadd : con.addChunk ck.1 ck.2 with
  | none =>
    obtain ⟨e, he, -⟩ := List.mem_map.mp (Container.addChunk_eq_none.mp hadd)
    rw [Option.getD_none, Container.isEmpty, List.isEmpty_eq_false_iff]
    exact List.ne_nil_of_mem he
  | some con' =>
    obtain ⟨-, -, he, -⟩ := Container.addChunk_eq_some hadd
    rw [Option.getD_some, Container.isEmpty, he, List.isEmpty_eq_false_iff]
    exact List.append_ne_nil_of_right_ne_nil _ (List.cons_ne_nil _ _)

theorem isEmpty_of_foldlM {id : ℕ} {chunks : List (Fingerprint × Bytes)} {con : Container}
    (h : chunks.foldlM addChunkToContainer (Container.create id) = .ok con) (hne : chunks ≠ []) :
    con.isEmpty = false := by
  obtain ⟨init, last, rfl⟩ := (List.eq_nil_or_concat chunks).resolve_left hne
  rw [List.concat_eq_append, List.foldlM_append] at h
  obtain ⟨con', -, h⟩ := bind_eq_ok.mp h
  rw [List.foldlM_cons] at h
  obtain ⟨con'', hadd, h⟩ := bind_eq_ok.mp h
  obtain rfl := Except.ok.inj h
  exact isEmpty_addChunkToContainer hadd

/-- Writing the container to any pool file, with its entries in any order, and retrieving it. -/
def RoundTrips (con : Container) : Prop :=
  ∀ (pool : ContainerPool) (es : List MetaEntry), es.Perm con.entries →
    ∃ pool', pool.writeContainer con es = .ok pool' ∧ Recovers pool' con

/-- **The container round trip.** Both regions of the block have room, the entries cover the data one
after the other, the container is retrieved as it was written, and the containers of other ids have
other places in the pool file, behind the count. -/
theorem container_roundTrip {id : ℕ} {chunks : List (Fingerprint × Bytes)} {con : Container}
    (hfill : chunks.foldlM addChunkToContainer (Container.create id) = .ok con) (hne : chunks ≠ [])
    (hrange : poolOffset id + containerSize < 2 ^ 63) :
    (∀ es, es.Perm con.entries → (con.metaBytes es).length = 16 + 28 * con.entries.length) ∧
    16 + 28 * con.entries.length ≤ containerMetaSize ∧
    con.data.length ≤ containerSize - containerMetaSize ∧
    Tiles 0 con.entries con.data.length ∧ RoundTrips con ∧
    8 ≤ poolOffset id ∧ ∀ id', id' ≠ id →
      Disjoint (Set.Ico (poolOffset id) (poolOffset id + containerSize))
        (Set.Ico (poolOffset id') (poolOffset id' + containerSize)) := by
  have hfit := fitted_of_foldlM hfill
  obtain rfl : con.id = id := id_of_foldlM hfill
  refine ⟨fun es hes ↦ Container.length_metaBytes hes, hfit.entries, hfit.data, hfit.tiles, ?_,
    Nat.le_add_left 8 _, ?_⟩
  · intro pool es hes
    obtain ⟨pool', hwrite, -, hdisk, -⟩ :=
      pool.writeContainer_spec hfit (isEmpty_of_foldlM hfill hne) hes hrange
    exact ⟨pool', hwrite, hdisk.recovers⟩
  · intro id' hid'
    rw [Set.Ico_disjoint_Ico]
    have := poolOffset_separated hid'
    omega

/-- Three chunks in container 5, with its neighbours in the pool file. -/
theorem container_roundTrip_chunks :
    ∃ con, [(Fingerprint.fill 1, [1, 2]), (Fingerprint.fill 2, [3]), (Fingerprint.fill 3, [4, 5, 6])].foldlM
        addChunkToContainer (Container.create 5) = .ok con ∧
      con.data = [1, 2, 3, 4, 5, 6] ∧ RoundTrips con ∧
      Disjoint (Set.Ico (poolOffset 5) (poolOffset 5 + containerSize))
        (Set.Ico (poolOffset 6) (poolOffset 6 + containerSize)) := by
  have hok : ([(Fingerprint.fill 1, [1, 2]), (Fingerprint.fill 2, [3]), (Fingerprint.fill 3, [(4 : UInt8), 5, 6])].foldlM
      addChunkToContainer (Container.create 5)).toOption.any (fun con ↦ con.data = [1, 2, 3, 4, 5, 6]) = true := by
    decide
  cases hfill : [(Fingerprint.fill 1, [1, 2]), (Fingerprint.fill 2, [3]), (Fingerprint.fill 3, [(4 : UInt8), 5, 6])].foldlM
      addChunkToContainer (Container.create 5) with
  | ok con =>
    rw [hfill] at hok
    obtain ⟨-, -, -, -, hround, -, hdisjoint⟩ := container_roundTrip hfill (List.cons_ne_nil _ _) (by decide)
    exact ⟨con, rfl, of_decide_eq_true hok, hround, hdisjoint 6 (by decide)⟩
  | error e =>
    rw [hfill] at hok
    cases hok

/-- A container without chunks is not written, so there is nothing to retrieve; and the place of a
container of id `2 ^ 41` is not a file offset. -/
theorem not_roundTrips_empty : ¬RoundTrips (Container.create 0) ∧
    ∃ con, [(Fingerprint.fill 0, [0])].foldlM addChunkToContainer (Container.create (2 ^ 41)) = .ok con ∧
      ¬RoundTrips con := by
  constructor
  · intro h
    obtain ⟨pool', hwrite, hrec⟩ := h ⟨1, []⟩ [] List.Perm.nil
    obtain rfl : ⟨0, []⟩ = pool' := Except.ok.inj hwrite
    obtain ⟨m, hm, -⟩ := hrec.byMeta
    obtain ⟨-, -, hm⟩ := bind_eq_ok.mp hm
    obtain ⟨buf, hbuf, -⟩ := bind_eq_ok.mp hm
    obtain ⟨hlen, -⟩ := pread_eq_some_iff.mp (getOr_eq_ok.mp hbuf)
    exact absurd hlen (by decide)
  · cases hfill : [(Fingerprint.fill 0, [0])].foldlM addChunkToContainer
        (Container.create (2 ^ 41)) with
    | ok con =>
      refine ⟨con, rfl, fun h ↦ ?_⟩
      obtain ⟨pool', hwrite, -⟩ := h ⟨1, []⟩ con.entries (List.Perm.refl _)
      have hne := isEmpty_of_foldlM hfill (List.cons_ne_nil _ _)
      have hrange := range_of_writeContainer hne hwrite
      rw [id_of_foldlM hfill] at hrange
      exact absurd hrange (by decide)
    | error e =>
      have hok : ([(Fingerprint.fill 0, [(0 : UInt8)])].foldlM addChunkToContainer
        (Container.create (2 ^ 41))).isOk = true := by decide
      rw [hfill] at hok
      cases hok

end UniDedup.Node
