import UniDedup.Node.Chunk

/-!
# Containers and the container store

A container maps fingerprints to ranges of its data area. It is filled chunk by chunk in memory,
handed to the append thread when it is full, and from then on never changed. The structure carries
what the code maintains: a fingerprint has at most one entry, and every entry lies within the data
written so far.

The store keeps the containers submitted but not yet on disk in a queue; the append thread writes the
container at the head of the queue to the pool and takes it off the queue only afterwards, so a
container is always found in one of the two.
-/

namespace UniDedup.Node

def containerSize : ℕ := 4194304

def containerMetaSize : ℕ := 32768

/-- `CONTAINER_META_ENTRY`, the size of a `struct metaEntry`. -/
def containerMetaEntry : ℕ := 28

/-- `struct metaEntry`. -/
structure MetaEntry where
  off : ℕ
  len : ℕ
  fp : Fingerprint
deriving DecidableEq

/-- `struct container`: the entries of `meta.map` in the order they were added, and the part of the
data area in use. -/
structure Container where
  id : ℕ
  entries : List MetaEntry
  data : Bytes
  /-- A fingerprint has at most one entry. -/
  nodup : (entries.map MetaEntry.fp).Nodup
  bounded : ∀ e ∈ entries, e.off + e.len ≤ data.length
deriving DecidableEq

namespace Container

/-- The container `create_container` makes. -/
def create (id : ℕ) : Container := ⟨id, [], [], by simp, by simp⟩

/-- `container_empty`. -/
def isEmpty (con : Container) : Bool := con.entries.isEmpty

def fps (con : Container) : List Fingerprint := con.entries.map MetaEntry.fp

/-- `lookup_fingerprint_in_container`. -/
def contains (con : Container) (fp : Fingerprint) : Bool := decide (fp ∈ con.fps)

/-- `get_metaentry_in_container_meta`. -/
def entry (con : Container) (fp : Fingerprint) : Option MetaEntry :=
  con.entries.find? fun e ↦ e.fp = fp

/-- The content of `get_chunk_in_container`, or `none` where its assertion fails. -/
def getChunk (con : Container) (fp : Fingerprint) : Option Bytes :=
  (con.entry fp).map fun e ↦ (con.data.drop e.off).take e.len

/-- `container_overflow`: no room for the data, or no room for a further entry behind the head of
16 bytes. -/
def overflow (con : Container) (size : ℕ) : Bool :=
  containerSize - containerMetaSize < con.data.length + size ||
    containerMetaSize < (con.entries.length + 1) * containerMetaEntry + 16

/-- `add_chunk_to_container`: `none` where the container already has the chunk. -/
def addChunk (con : Container) (fp : Fingerprint) (data : Bytes) : Option Container :=
  if h : fp ∈ con.fps then none
  else some
    { id := con.id
      entries := con.entries ++ [⟨con.data.length, data.length, fp⟩]
      data := con.data ++ data
      nodup := by
        rw [List.map_append, List.map_singleton, List.nodup_append]
        refine ⟨con.nodup, List.nodup_singleton _, ?_⟩
        rintro a ha b hb rfl
        have hfp : a = fp := List.mem_singleton.mp hb
        exact h (hfp ▸ ha)
      bounded := by
        intro e he
        rw [List.length_append]
        rcases List.mem_append.mp he with he | he
        · exact (con.bounded e he).trans (Nat.le_add_right _ _)
        · rw [List.mem_singleton.mp he] }

/-! ## Looking up chunks -/

@[simp] theorem contains_iff {con : Container} {fp : Fingerprint} :
    con.contains fp = true ↔ fp ∈ con.fps := by simp [contains]

theorem getChunk_eq_some_iff {con : Container} {fp : Fingerprint} {d : Bytes} :
    con.getChunk fp = some d ↔
      ∃ e ∈ con.entries, e.fp = fp ∧ (con.data.drop e.off).take e.len = d := by
  unfold getChunk entry
  rw [Option.map_eq_some_iff]
  constructor
  · rintro ⟨e, he, rfl⟩
    exact ⟨e, List.mem_of_find?_eq_some he, by simpa using List.find?_some he, rfl⟩
  · rintro ⟨e, he, rfl, rfl⟩
    refine ⟨e, ?_, rfl⟩
    -- The entry found has the same fingerprint, hence is the same entry.
    cases hf : con.entries.find? fun e' ↦ e'.fp = e.fp with
    | none =>
      rw [List.find?_eq_none] at hf
      exact absurd (by simp) (hf e he)
    | some e' =>
      have hfp : e'.fp = e.fp := by simpa using List.find?_some hf
      rw [List.inj_on_of_nodup_map con.nodup (List.mem_of_find?_eq_some hf) he hfp]

theorem mem_fps_iff {con : Container} {fp : Fingerprint} :
    fp ∈ con.fps ↔ ∃ d, con.getChunk fp = some d := by
  unfold fps
  rw [List.mem_map]
  constructor
  · rintro ⟨e, he, rfl⟩
    exact ⟨_, getChunk_eq_some_iff.mpr ⟨e, he, rfl, rfl⟩⟩
  · rintro ⟨d, hd⟩
    obtain ⟨e, he, hfp, -⟩ := getChunk_eq_some_iff.mp hd
    exact ⟨e, he, hfp⟩

/-- A fingerprint that is in the container has exactly one entry there. -/
theorem countP_entries {con : Container} {fp : Fingerprint} (h : fp ∈ con.fps) :
    con.entries.countP (fun e ↦ e.fp = fp) = 1 := by
  have hcount : con.fps.count fp = 1 := List.count_eq_one_of_mem con.nodup h
  rw [fps, List.count, List.countP_map] at hcount
  rw [← hcount]
  exact List.countP_congr fun e _ ↦ by simp

theorem entry_len {con : Container} {fp : Fingerprint} {e : MetaEntry} {d : Bytes}
    (he : con.entry fp = some e) (hd : con.getChunk fp = some d) : e.len = d.length := by
  rw [getChunk, he, Option.map_some, Option.some.injEq] at hd
  have := con.bounded e (List.mem_of_find?_eq_some he)
  rw [← hd, List.length_take, List.length_drop]
  omega

section AddChunk

variable {con con' : Container} {fp : Fingerprint} {data : Bytes}

theorem addChunk_eq_none : con.addChunk fp data = none ↔ fp ∈ con.fps := by
  unfold addChunk
  split_ifs with h <;> simp [h]

theorem addChunk_eq_some (h : con.addChunk fp data = some con') :
    fp ∉ con.fps ∧ con'.id = con.id ∧
      con'.entries = con.entries ++ [⟨con.data.length, data.length, fp⟩] ∧
      con'.data = con.data ++ data := by
  unfold addChunk at h
  split_ifs at h with hfp
  cases h
  exact ⟨hfp, rfl, rfl, rfl⟩

theorem fps_addChunk (h : con.addChunk fp data = some con') : con'.fps = con.fps ++ [fp] := by
  obtain ⟨-, -, he, -⟩ := addChunk_eq_some h
  simp [fps, he]

theorem getChunk_addChunk_self (h : con.addChunk fp data = some con') :
    con'.getChunk fp = some data := by
  obtain ⟨-, -, he, hd⟩ := addChunk_eq_some h
  rw [getChunk_eq_some_iff]
  refine ⟨⟨con.data.length, data.length, fp⟩, ?_, rfl, ?_⟩
  · simp [he]
  · simp [hd]

theorem getChunk_addChunk (h : con.addChunk fp data = some con') {fp' : Fingerprint} {d : Bytes}
    (hget : con.getChunk fp' = some d) : con'.getChunk fp' = some d := by
  obtain ⟨-, -, he, hd⟩ := addChunk_eq_some h
  obtain ⟨e, hmem, hfp, hslice⟩ := getChunk_eq_some_iff.mp hget
  rw [getChunk_eq_some_iff]
  refine ⟨e, ?_, hfp, ?_⟩
  · simp [he, hmem]
  · have hb := con.bounded e hmem
    rw [hd, List.drop_append_of_le_length (by omega), List.take_append_of_le_length, hslice]
    rw [List.length_drop]
    omega

theorem getChunk_of_addChunk (h : con.addChunk fp data = some con') {fp' : Fingerprint} {d : Bytes}
    (hget : con'.getChunk fp' = some d) : fp' = fp ∧ d = data ∨ con.getChunk fp' = some d := by
  have hmem : fp' ∈ con'.fps := mem_fps_iff.mpr ⟨d, hget⟩
  rw [fps_addChunk h, List.mem_append, List.mem_singleton] at hmem
  rcases hmem with hmem | rfl
  · obtain ⟨d', hd'⟩ := mem_fps_iff.mp hmem
    rw [getChunk_addChunk h hd'] at hget
    cases hget
    exact .inr hd'
  · rw [getChunk_addChunk_self h] at hget
    cases hget
    exact .inl ⟨rfl, rfl⟩

end AddChunk

@[simp] theorem fps_create (id : ℕ) : (create id).fps = [] := rfl

@[simp] theorem getChunk_create (id : ℕ) (fp : Fingerprint) : (create id).getChunk fp = none := rfl

/-! ## Overflow -/

/-- A chunk that is too large for a container overflows every container. -/
theorem overflow_of_large {con : Container} {size : ℕ}
    (h : containerSize - containerMetaSize < size) : con.overflow size = true := by
  simp only [overflow, Bool.or_eq_true, decide_eq_true_eq]
  omega

theorem large_of_overflow {con : Container} {size : ℕ} (hne : con.isEmpty = true)
    (hdata : con.data = []) (h : con.overflow size = true) :
    containerSize - containerMetaSize < size := by
  simp only [isEmpty, List.isEmpty_iff] at hne
  simp only [overflow, hne, hdata, List.length_nil, Bool.or_eq_true, decide_eq_true_eq,
    containerMetaSize, containerMetaEntry, containerSize] at h ⊢
  omega

end Container

/-! ## The container store -/

/-- The container store of a running job: `container_count`, the queue of containers submitted to the
append thread, and `container.pool`. -/
structure ContainerStore where
  count : ℕ
  /-- The containers submitted, the oldest first. -/
  queue : List Container
  /-- Has the append thread written the head of the queue without having taken it off yet? -/
  written : Bool
  /-- The containers on disk, the latest first. -/
  pool : List Container
deriving DecidableEq

namespace ContainerStore

/-- `create_container`. -/
def create (st : ContainerStore) : Container × ContainerStore :=
  (Container.create st.count, { st with count := st.count + 1 })

/-- `write_container_async`: an empty container is not written, and its id is given back. -/
def writeContainerAsync (st : ContainerStore) (con : Container) : ContainerStore :=
  if con.isEmpty then { st with count := st.count - 1 }
  else { st with queue := st.queue ++ [con] }

/-- One turn of `append_thread`: write the container on top of the queue, or take it off once it is
written. -/
def append (st : ContainerStore) : Option ContainerStore :=
  match st.queue with
  | [] => none
  | con :: rest =>
    if st.written then some { st with queue := rest, written := false }
    else some { st with pool := con :: st.pool, written := true }

/-- `retrieve_container_by_id`: the container on disk, or `none` where the assertion on its id
fails. -/
def retrieve (st : ContainerStore) (id : ℤ) : Option Container :=
  st.pool.find? fun con ↦ (con.id : ℤ) = id

/-- `retrieve_container_meta_by_id`: the queue is searched first. -/
def retrieveMeta (st : ContainerStore) (id : ℤ) : Option Container :=
  (st.queue.find? fun con ↦ (con.id : ℤ) = id).or (st.retrieve id)

/-- The containers submitted so far, on disk or not. -/
def containers (st : ContainerStore) : List Container := st.queue ++ st.pool

theorem mem_of_retrieve {st : ContainerStore} {id : ℤ} {con : Container}
    (h : st.retrieve id = some con) : con ∈ st.pool ∧ (con.id : ℤ) = id :=
  ⟨List.mem_of_find?_eq_some h, by simpa using List.find?_some h⟩

theorem mem_of_retrieveMeta {st : ContainerStore} {id : ℤ} {con : Container}
    (h : st.retrieveMeta id = some con) : con ∈ st.containers ∧ (con.id : ℤ) = id := by
  unfold retrieveMeta at h
  rcases Option.or_eq_some_iff.mp h with h | ⟨-, h⟩
  · exact ⟨List.mem_append_left _ (List.mem_of_find?_eq_some h), by simpa using List.find?_some h⟩
  · exact ⟨List.mem_append_right _ (mem_of_retrieve h).1, (mem_of_retrieve h).2⟩

theorem append_cases {st st' : ContainerStore} (h : st.append = some st') :
    (∃ con rest, st.queue = con :: rest ∧ st.written = true ∧
      st' = { st with queue := rest, written := false }) ∨
    (∃ con rest, st.queue = con :: rest ∧ st.written = false ∧
      st' = { st with pool := con :: st.pool, written := true }) := by
  unfold append at h
  split at h
  · cases h
  · rename_i con rest hq
    split_ifs at h with hw
    · exact .inl ⟨con, rest, hq, hw, (Option.some.inj h).symm⟩
    · exact .inr ⟨con, rest, hq, by simpa using hw, (Option.some.inj h).symm⟩

end ContainerStore

end UniDedup.Node
