import UniDedup.Node.Container

/-!
# Chunks out of a container in memory

`get_chunk_in_container` makes a chunk of an entry of a container. The content, the size and the
container id are those of the chunk that was added. The fingerprint is copied from the address of the
parameter, which is a pointer to the fingerprint, so that the chunk gets the bytes of the pointer and
the bytes behind it.
-/

namespace UniDedup.Node

/-- The parameter `fp` of `get_chunk_in_container` where it lies in memory. -/
structure FpParameter where
  pointer : List.Vector UInt8 8
  behind : List.Vector UInt8 12

theorem FpParameter.length_bytes (p : FpParameter) :
    (p.pointer.toList ++ p.behind.toList).length = fpLength := by
  rw [List.length_append, p.pointer.toList_length, p.behind.toList_length]
  rfl

/-- The `sizeof(fingerprint)` bytes at the address of the parameter. -/
def FpParameter.bytes (p : FpParameter) : Fingerprint :=
  ⟨p.pointer.toList ++ p.behind.toList, p.length_bytes⟩

namespace Container

/-- `get_chunk_in_container` for a fingerprint whose pointer is the parameter `p`; `none` where its
assertion fails. -/
def getChunkInContainer (con : Container) (fp : Fingerprint) (p : FpParameter) : Option Chunk :=
  (con.entry fp).map fun me ↦
    { Chunk.new .normal ((con.data.drop me.off).take me.len) with id := con.id, fp := p.bytes }

/-- A sequence of calls of `add_chunk_to_container`; `none` where a chunk does not fit or is in the
container already. -/
def addChunks (con : Container) (chunks : List (Fingerprint × Bytes)) : Option Container :=
  chunks.foldlM (fun con ck ↦ if con.overflow ck.2.length then none else con.addChunk ck.1 ck.2) con

/-- The chunk is the one that was added to the container. -/
structure IsAdded (con : Container) (fp : Fingerprint) (data : Bytes) (ck : Chunk) : Prop where
  fp : ck.fp = fp
  size : ck.size = data.length
  data : ck.data = data
  id : ck.id = con.id

/-- **What was added is found.** -/
theorem getChunk_addChunks {chunks : List (Fingerprint × Bytes)} {con con' : Container}
    (h : con.addChunks chunks = some con') :
    con'.id = con.id ∧ (∀ fp d, con.getChunk fp = some d → con'.getChunk fp = some d) ∧
      ∀ ck ∈ chunks, con'.getChunk ck.1 = some ck.2 := by
  induction chunks generalizing con with
  | nil =>
    cases h
    exact ⟨rfl, fun _ _ h ↦ h, fun _ h ↦ absurd h List.not_mem_nil⟩
  | cons ck chunks ih =>
    rw [addChunks, List.foldlM_cons] at h
    obtain ⟨con₁, hadd, h⟩ := Option.bind_eq_some_iff.mp h
    split_ifs at hadd
    obtain ⟨hid, hkeep, hfound⟩ := ih h
    refine ⟨hid.trans (addChunk_eq_some hadd).2.1,
      fun fp d hd ↦ hkeep fp d (getChunk_addChunk hadd hd), ?_⟩
    exact List.forall_mem_cons.mpr ⟨hkeep _ _ (getChunk_addChunk_self hadd), hfound⟩

theorem getChunkInContainer_eq {con : Container} {fp : Fingerprint} {data : Bytes}
    (h : con.getChunk fp = some data) (p : FpParameter) :
    con.getChunkInContainer fp p =
      some { Chunk.new .normal data with id := con.id, fp := p.bytes } := by
  obtain ⟨me, hme, rfl⟩ := Option.map_eq_some_iff.mp h
  rw [getChunkInContainer, hme, Option.map_some]

/-- **Looking up an added chunk** gives the chunk that was added if and only if the bytes at the
address of the parameter happen to be its fingerprint. -/
theorem getChunkInContainer_isAdded_iff {id : ℕ} {chunks : List (Fingerprint × Bytes)}
    {con : Container} (h : (create id).addChunks chunks = some con) {fp : Fingerprint} {data : Bytes}
    (hadded : (fp, data) ∈ chunks) (p : FpParameter) :
    (∃ ck, con.getChunkInContainer fp p = some ck ∧ con.IsAdded fp data ck) ↔ p.bytes = fp := by
  obtain ⟨-, -, hfound⟩ := getChunk_addChunks h
  rw [getChunkInContainer_eq (hfound _ hadded) p]
  constructor
  · rintro ⟨ck, hck, hadded⟩
    cases hck
    exact hadded.fp
  · rintro rfl
    exact ⟨_, rfl, rfl, rfl, rfl, rfl⟩

/-- A container with one chunk. -/
theorem getChunkInContainer_isAdded_one :
    (∃ ck, getChunkInContainer ⟨0, [⟨0, 1, Fingerprint.fill 1⟩], [5], by decide, by decide⟩
        (Fingerprint.fill 1) ⟨.replicate 8 1, .replicate 12 1⟩ = some ck ∧
      IsAdded ⟨0, [⟨0, 1, Fingerprint.fill 1⟩], [5], by decide, by decide⟩ (Fingerprint.fill 1) [5] ck) ↔
      FpParameter.bytes ⟨.replicate 8 1, .replicate 12 1⟩ = Fingerprint.fill 1 :=
  @getChunkInContainer_isAdded_iff 0 [(Fingerprint.fill 1, [5])] _ rfl _ _ List.mem_cons_self _

/-- A chunk is added to a new container and looked up through a pointer. -/
theorem not_isAdded_pointer :
    (create 0).addChunks [(Fingerprint.fill 1, [5])] =
        some ⟨0, [⟨0, 1, Fingerprint.fill 1⟩], [5], by decide, by decide⟩ ∧
      ¬∃ ck, getChunkInContainer ⟨0, [⟨0, 1, Fingerprint.fill 1⟩], [5], by decide, by decide⟩
          (Fingerprint.fill 1) ⟨⟨[0xa0, 0x12, 0x75, 0x55, 0x55, 0x55, 0, 0], rfl⟩, .replicate 12 0⟩ =
            some ck ∧
        IsAdded ⟨0, [⟨0, 1, Fingerprint.fill 1⟩], [5], by decide, by decide⟩ (Fingerprint.fill 1) [5]
          ck := by
  refine ⟨rfl, ?_⟩
  rintro ⟨ck, hck, hadded⟩
  cases hck
  exact absurd hadded.fp (by decide)

end Container

end UniDedup.Node
