import UniDedup.Node.Record
import UniDedup.Node.RecipeStore
import UniDedup.Node.System

/-!
# Writing a version

The bytes the recipe store writes are those of the records the rest of the node works with: at every
point of a backup, each file together with its buffer is the concatenation of the records written so
far. The functions on bytes follow those on records step by step, and stop only where a file entry is
larger than its buffer, a segment is too long for its length, or a counter overflows.

## Two levels

`Represents` relates a version as the node model has it, with lists of records, to one with file handles and byte
buffers: file and buffer together hold the encoded records. Every function of the store has a lemma that it keeps
this relation, and fails only where a limit is hit; `Recording` adds where the loop over the chunks stands. What
`close` leaves is then the encoding of the records.
-/

namespace UniDedup.Node

open Outcome Stdio

theorem post_addInt {w : ℕ} {x y : ℤ} {E : StoreFault → Prop}
    (h : ¬(-2 ^ (w - 1) ≤ x + y ∧ x + y < 2 ^ (w - 1)) → E .overflow) :
    Post (addInt w x y) (fun z ↦ z = x + y ∧ z < 2 ^ (w - 1)) E := by
  unfold addInt
  exact (post_check h).bind fun _ hrange ↦ ⟨rfl, hrange.2⟩

theorem OpenVersion.segmentLength_lt (n : ℕ) : segmentLength n < 2 ^ 31 := by
  unfold segmentLength
  have := Int.bmod_lt (x := (recordSize * 2 + n * recordSize : ℕ)) (m := 2 ^ 32) (by decide)
  omega

theorem OpenVersion.segmentLength_eq {n : ℕ} (h : recordSize * (n + 2) < 2 ^ 31) :
    segmentLength n = recordSize * (n + 2 : ℕ) := by
  unfold segmentLength
  unfold recordSize at h ⊢
  rw [Int.bmod_eq_of_le_mul_two (by omega) (by omega)]
  omega

/-! ## Records as bytes -/

/-- The entry of a file as the source declares it. -/
def FileRecipeMeta.stored (r : FileRecipeMeta) : FileMeta := ⟨r.filename, r.chunknum, r.filesize⟩

def ChunkPointer.stored (cp : ChunkPointer) : Pointer := ⟨cp.fp, cp.id, cp.size⟩

def metaBytes (rs : List FileRecipeMeta) : Bytes := rs.flatMap fun r ↦ r.stored.encode

def recipeBytes (cps : List ChunkPointer) : Bytes := cps.flatMap fun cp ↦ cp.stored.encode

/-- The bytes of a list of container ids. -/
def recordBytes (ids : List ℤ) : Bytes := ids.flatMap (Word.le 8)

@[simp] theorem metaBytes_append (rs rs' : List FileRecipeMeta) :
    metaBytes (rs ++ rs') = metaBytes rs ++ metaBytes rs' := List.flatMap_append

@[simp] theorem recipeBytes_append (cps cps' : List ChunkPointer) :
    recipeBytes (cps ++ cps') = recipeBytes cps ++ recipeBytes cps' := List.flatMap_append

@[simp] theorem recordBytes_append (ids ids' : List ℤ) :
    recordBytes (ids ++ ids') = recordBytes ids ++ recordBytes ids' := List.flatMap_append

@[simp] theorem metaBytes_singleton (r : FileRecipeMeta) : metaBytes [r] = r.stored.encode := by
  simp [metaBytes]

@[simp] theorem recipeBytes_singleton (cp : ChunkPointer) : recipeBytes [cp] = cp.stored.encode := by
  simp [recipeBytes]

@[simp] theorem recordBytes_singleton (id : ℤ) : recordBytes [id] = Word.le 8 id := by
  simp [recordBytes]

theorem FileMeta.length_encode (r : FileMeta) : r.encode.length = r.filename.length + 20 := by
  simp only [encode, List.length_append, Word.length_le]
  omega

theorem Pointer.length_encode (cp : Pointer) : cp.encode.length = recordSize := by
  have hfp : cp.fp.toList.length = 20 := cp.fp.2
  simp only [encode, List.length_append, Word.length_le, hfp, recordSize]

theorem length_recipeBytes (cps : List ChunkPointer) :
    (recipeBytes cps).length = recordSize * cps.length := by
  induction cps with
  | nil => rfl
  | cons cp cps ih =>
    rw [recipeBytes, List.flatMap_cons, List.length_append, Pointer.length_encode, ← recipeBytes, ih,
      List.length_cons, Nat.mul_succ, Nat.add_comm]

/-! ## The version and its bytes -/

/-- A stream at the end of what it has written. -/
def Appending (fp : Handle) (bs : Bytes) : Prop := fp = ⟨true, bs, bs.length⟩

theorem Appending.write {fp : Handle} {bs : Bytes} (h : Appending fp bs) (cs : Bytes) :
    Appending (fp.write cs) (bs ++ cs) := by
  rw [h]
  simp [Appending, Handle.write]

/-- The bytes of the header of a version. -/
def headerBytes (b : OpenVersion) : Bytes := b.header.flatten

theorem length_headerBytes (b : OpenVersion) : (headerBytes b).length = 28 + b.path.length := by
  simp only [headerBytes, OpenVersion.header, List.flatten_cons, List.flatten_nil, List.length_append,
    Word.length_le, List.length_nil]
  omega

/-- The bytes of the files of a version. -/
def BackupVersion.encode (path : Bytes) (b : BackupVersion) : VersionFiles where
  metadata := Word.le 4 b.bvNum ++ Word.le 4 (if b.deleted then 1 else 0) ++ Word.le 8 b.files.length ++
    Word.le 8 b.numberOfChunks ++ (Word.le 4 path.length ++ path) ++ metaBytes b.files
  recipe := recipeBytes b.recipe
  records := recordBytes b.records

/-- The open version `v` holds, in its files and buffers, the records of `b`. -/
structure Represents (path : Bytes) (b : BackupVersion) (v : OpenVersion) : Prop where
  trimmed : v.path = path
  bvNum : v.bvNum = b.bvNum
  deleted : v.deleted = if b.deleted then 1 else 0
  numberOfFiles : v.numberOfFiles = b.files.length
  numberOfChunks : v.numberOfChunks = b.numberOfChunks
  /-- The file list is behind a header of the right length. -/
  metadata : ∃ hdr flushed buf, hdr.length = 28 + path.length ∧
    Appending v.metadataFp (hdr ++ flushed) ∧ v.metabuf = some buf ∧ buf.length ≤ metabufsize ∧
    flushed ++ buf = metaBytes b.files
  recipe : v.recipeFp.writable = true ∧ v.recipeFp.contents = recipeBytes b.recipe
  segmentbuf : v.segmentbuf = recipeBytes b.segmentbuf
  records : ∃ flushed buf, Appending v.recordFp flushed ∧ v.recordbuf = some buf ∧
    flushed ++ buf = recordBytes b.records
  /-- Every entry went through the buffer. -/
  names : ∀ r ∈ b.files, r.filename.length + 20 ≤ metabufsize
  counts : b.files.length < 2 ^ 63 ∧ b.numberOfChunks < 2 ^ 63

theorem foldl_write {fp : Handle} (h : fp.pos ≤ fp.contents.length) (hw : fp.writable = true)
    (bss : List Bytes) : bss.foldl Handle.write fp = fp.write bss.flatten := by
  induction bss generalizing fp with
  | nil =>
    rw [List.foldl_nil, List.flatten_nil, Handle.write, if_pos hw]
    simp
  | cons bs bss ih =>
    have hpos : (fp.write bs).pos ≤ (fp.write bs).contents.length := by
      simp only [Handle.write, hw, if_true, List.length_append, List.length_take, List.length_drop]
      omega
    rw [List.foldl_cons, ih hpos (by rw [Handle.writable_write, hw]), List.flatten_cons,
      Handle.write_write h]

theorem contents_writeHeader {v : OpenVersion} {hdr r : Bytes} (h : Appending v.metadataFp (hdr ++ r))
    (hlen : hdr.length = 28 + v.path.length) :
    v.writeHeader.metadataFp.contents = headerBytes v ++ r := by
  have hc : (v.metadataFp.seek 0).contents = hdr ++ r := by rw [h]; rfl
  have hw : (v.metadataFp.seek 0).writable = true := by rw [h]; rfl
  rw [OpenVersion.writeHeader]
  dsimp only
  rw [foldl_write (Nat.zero_le _) hw]
  exact Handle.contents_write_start hw hc rfl ((length_headerBytes v).trans hlen.symm)

namespace Represents

variable {path : Bytes} {b : BackupVersion} {v : OpenVersion}

theorem create {path₀ : Bytes} {number : ℕ} (hpath : trimPath path₀ = .ok path) :
    ∃ v, createBackupVersion number path₀ = .ok v ∧ Represents path (.create number) v := by
  refine ⟨_, by rw [createBackupVersion, hpath]; rfl, rfl, rfl, rfl, rfl, rfl, ?_, ⟨rfl, rfl⟩, rfl, ?_,
    fun r hr ↦ (List.not_mem_nil hr).elim, show 0 < 2 ^ 63 ∧ 0 < 2 ^ 63 by decide⟩
  · refine ⟨headerBytes ⟨path, number, 0, 0, 0, .create, .create, .create, some [], some [], [], 0⟩, [],
      [], length_headerBytes _, ?_, rfl, Nat.zero_le _, rfl⟩
    rw [OpenVersion.writeHeader]
    dsimp only
    rw [foldl_write (Nat.zero_le _) rfl, List.append_nil]
    exact (show Appending .create [] from rfl).write _
  · exact ⟨[], [], rfl, rfl, rfl⟩

theorem flushMeta (h : Represents path b v) : Represents path b v.flushMeta := by
  obtain ⟨hdr, flushed, buf, hhdr, happ, hbuf, -, hbytes⟩ := h.metadata
  refine { h with metadata := ⟨hdr, flushed ++ buf, [], hhdr, ?_, ?_, Nat.zero_le _, ?_⟩ }
  · rw [← List.append_assoc, OpenVersion.flushMeta, hbuf]
    exact happ.write buf
  · rw [OpenVersion.flushMeta, hbuf]
    rfl
  · rw [List.append_nil, hbytes]

theorem flushRecords (h : Represents path b v) : Represents path b v.flushRecords := by
  obtain ⟨flushed, buf, happ, hbuf, hbytes⟩ := h.records
  refine { h with records := ⟨flushed ++ buf, [], ?_, ?_, ?_⟩ }
  · rw [OpenVersion.flushRecords, hbuf]
    exact happ.write buf
  · rw [OpenVersion.flushRecords, hbuf]
    rfl
  · rw [List.append_nil, hbytes]

theorem makeRoom (h : Represents path b v) (size : ℕ) :
    Represents path b (v.makeRoom size) ∧ ∀ buf, (v.makeRoom size).metabuf = some buf →
      size ≤ metabufsize → buf.length + size ≤ metabufsize := by
  obtain ⟨_, _, buf, -, -, hbuf, hle, -⟩ := h.metadata
  unfold OpenVersion.makeRoom
  rw [hbuf, Option.getD_some]
  split_ifs with hfull
  · refine ⟨h.flushMeta, fun buf' hbuf' hsize ↦ ?_⟩
    rw [OpenVersion.flushMeta, hbuf] at hbuf'
    obtain rfl : [] = buf' := Option.some.inj hbuf'
    simpa using hsize
  · refine ⟨h, fun buf' hbuf' hsize ↦ ?_⟩
    obtain rfl : buf = buf' := Option.some.inj (hbuf.symm.trans hbuf')
    omega

/-- `append_file_recipe_meta`: the entry is buffered if it fits into an empty buffer. -/
theorem appendFileRecipeMeta (h : Represents path b v) (r : FileRecipeMeta) :
    Post (v.appendFileRecipeMeta r.stored) (fun v' ↦ Represents path (b.appendFileRecipeMeta r) v' ∧
      v'.segmentlen = v.segmentlen) fun _ ↦ metabufsize < r.filename.length + 20 ∨ 2 ^ 63 ≤ b.files.length + 1 := by
  have hlen : r.stored.encode.length = r.filename.length + 20 := FileMeta.length_encode _
  have hsize : 4 + r.stored.filename.length + 8 + 8 = r.filename.length + 20 := by
    change 4 + r.filename.length + 8 + 8 = _
    omega
  obtain ⟨h₁, hroom⟩ := h.makeRoom (r.filename.length + 20)
  unfold OpenVersion.appendFileRecipeMeta
  rw [hsize]
  obtain ⟨hdr, flushed, buf, hhdr, happ, hbuf, hle, hbytes⟩ := h₁.metadata
  refine (post_getOr fun hnone ↦ ?_).bind fun buf' hbuf' ↦ ?_
  · rw [hbuf] at hnone
    cases hnone
  refine (post_check fun hfull ↦ ?_).bind fun _ hfit ↦ ?_
  · left
    by_contra hsmall
    exact hfull (hlen ▸ hroom buf' hbuf' (not_lt.mp hsmall))
  refine (post_addInt fun hover ↦ ?_).bind fun n hn ↦ ?_
  · right
    rw [h₁.numberOfFiles] at hover
    omega
  · obtain rfl : buf = buf' := Option.some.inj (hbuf.symm.trans hbuf')
    refine ⟨{ h₁ with
      numberOfFiles := ?_
      metadata := ⟨hdr, flushed, buf ++ r.stored.encode, hhdr, happ, rfl, ?_, ?_⟩
      names := fun r' hr' ↦ ?_
      counts := ⟨?_, h₁.counts.2⟩ }, ?_⟩
    · rw [hn.1, h₁.numberOfFiles, BackupVersion.appendFileRecipeMeta, List.length_append]
      rfl
    · rw [List.length_append]
      exact hfit
    · rw [BackupVersion.appendFileRecipeMeta, metaBytes_append, metaBytes_singleton, ← hbytes,
        List.append_assoc]
    · rw [BackupVersion.appendFileRecipeMeta, List.mem_append, List.mem_singleton] at hr'
      rcases hr' with hr' | rfl
      · exact h₁.names r' hr'
      · omega
    · have hlt := hn.2
      rw [hn.1, h₁.numberOfFiles] at hlt
      rw [BackupVersion.appendFileRecipeMeta, List.length_append, List.length_singleton]
      omega
    · dsimp only
      unfold OpenVersion.makeRoom
      split_ifs <;> rfl

/-- A record is copied as long as the length of the segment allows it. -/
theorem putPointer (h : Represents path b v) (cp : ChunkPointer) :
    Post (v.putPointer cp.stored) (fun v' ↦
      v' = { v with segmentbuf := recipeBytes (b.segmentbuf ++ [cp]) })
      fun _ ↦ v.segmentlen < recordSize * (b.segmentbuf.length + 1 : ℕ) := by
  unfold OpenVersion.putPointer
  rw [h.segmentbuf, recipeBytes_append, recipeBytes_singleton]
  refine (post_check fun hfull ↦ ?_).bind fun _ _ ↦ rfl
  rw [length_recipeBytes] at hfull
  rw [Nat.cast_succ, mul_add, mul_one]
  rw [Nat.cast_mul] at hfull
  exact not_le.mp hfull

theorem openSegment (h : Represents path b v) (segmentSize : ℕ) :
    Represents path { b with segmentbuf := [] } (v.openSegment segmentSize) :=
  { h with recipe := h.recipe, segmentbuf := rfl }

theorem setSegmentbuf (h : Represents path b v) (cps : List ChunkPointer) :
    Represents path { b with segmentbuf := cps } { v with segmentbuf := recipeBytes cps } :=
  { h with segmentbuf := rfl }

theorem appendSegmentStart (h : Represents path b v) (segmentSize : ℕ) :
    Post (v.appendSegmentStart segmentSize) (fun p ↦
      Represents path (b.appendSegmentStart segmentSize).2 p.2 ∧
      p.2.segmentlen = OpenVersion.segmentLength segmentSize)
      fun _ ↦ OpenVersion.segmentLength segmentSize < recordSize := by
  have hput := (h.openSegment segmentSize).putPointer (.flag segmentStartId segmentSize)
  refine Post.bind (hput.mono (fun _ h ↦ h) fun _ hfull ↦ ?_) fun v' hv' ↦ ?_
  · exact hfull
  · rw [hv']
    exact ⟨(h.openSegment segmentSize).setSegmentbuf _, rfl⟩

/-- `append_segment_flag` at the end of a segment: the buffer has been filled exactly. -/
theorem appendSegmentEnd (h : Represents path b v) :
    Post v.appendSegmentEnd (fun v' ↦ Represents path b.appendSegmentEnd v' ∧
      v.segmentlen = recordSize * (b.segmentbuf.length + 1 : ℕ))
      fun _ ↦ v.segmentlen ≠ recordSize * (b.segmentbuf.length + 1 : ℕ) := by
  have hput := h.putPointer (.flag segmentEndId 0)
  refine Post.bind (hput.mono (fun _ h ↦ h) fun _ hfull ↦ hfull.ne) fun v' hv' ↦ ?_
  have hlen : (v'.segmentbuf.length : ℤ) = recordSize * (b.segmentbuf.length + 1 : ℕ) := by
    rw [hv']
    dsimp only
    rw [length_recipeBytes, List.length_append, Nat.cast_mul]
    rfl
  have hsegmentlen : v'.segmentlen = v.segmentlen := by rw [hv']
  rw [hlen, hsegmentlen]
  refine Post.bind (post_check fun hne heq ↦ hne heq.symm) fun _ heq ↦ ⟨?_, heq.symm⟩
  have hw : v.recipeFp.seekEnd.writable = true := h.recipe.1
  rw [hv']
  refine { h with recipe := ⟨?_, ?_⟩, segmentbuf := rfl }
  · exact (Handle.writable_write _).trans hw
  · rw [OpenVersion.flushSegment]
    dsimp only
    rw [Handle.contents_write_end hw rfl, BackupVersion.appendSegmentEnd]
    dsimp only
    rw [List.append_assoc, recipeBytes_append _ (b.segmentbuf ++ _), ← h.recipe.2]
    rfl

theorem makeRecordRoom (h : Represents path b v) : Represents path b v.makeRecordRoom := by
  unfold OpenVersion.makeRecordRoom
  split_ifs
  · exact h.flushRecords
  · exact h

theorem noteAccess (h : Represents path b v) (accessRecord : ℤ) (cp : ChunkPointer) :
    Post (v.noteAccess accessRecord cp.id) (fun v' ↦ v'.segmentlen = v.segmentlen ∧
      Represents path { b with records := (b.appendChunkPointer accessRecord cp).1.records } v')
      fun _ ↦ False := by
  unfold OpenVersion.noteAccess BackupVersion.appendChunkPointer
  dsimp only
  by_cases hrec : accessRecord ≠ temporaryId ∧ accessRecord ≠ cp.id
  · rw [if_pos hrec, if_pos hrec]
    obtain ⟨flushed, buf, happ, hbuf, hbytes⟩ := h.makeRecordRoom.records
    refine (post_getOr fun hnone ↦ ?_).bind fun buf' hbuf' ↦ ⟨?_, ?_⟩
    · rw [hbuf] at hnone
      cases hnone
    · dsimp only
      unfold OpenVersion.makeRecordRoom
      split_ifs <;> rfl
    · obtain rfl : buf = buf' := Option.some.inj (hbuf.symm.trans hbuf')
      refine { h.makeRecordRoom with records := ⟨flushed, _, happ, rfl, ?_⟩ }
      rw [← List.append_assoc, hbytes, recordBytes_append, recordBytes_singleton]
  · rw [if_neg hrec, if_neg hrec]
    exact ⟨rfl, h⟩

theorem appendChunkPointer (h : Represents path b v) {cp : ChunkPointer} (accessRecord : ℤ)
    (hid : 0 ≤ cp.id) :
    Post (v.appendChunkPointer accessRecord cp.stored) (fun p ↦
      Represents path (b.appendChunkPointer accessRecord cp).1 p.1 ∧
      p.2 = (b.appendChunkPointer accessRecord cp).2 ∧ p.1.segmentlen = v.segmentlen)
      fun _ ↦ v.segmentlen < recordSize * (b.segmentbuf.length + 1 : ℕ) ∨
        2 ^ 63 ≤ b.numberOfChunks + 1 := by
  unfold OpenVersion.appendChunkPointer
  refine ((h.noteAccess accessRecord cp).mono (fun _ h ↦ h) fun _ h ↦ h.elim).bind fun v₁ h₁ ↦ ?_
  obtain ⟨hlen, h₁⟩ := h₁
  refine (post_check fun htemp ↦ ?_).bind fun _ _ ↦ ?_
  · refine absurd (ne_of_gt (lt_of_lt_of_le ?_ hid)) htemp
    decide
  refine ((h₁.putPointer cp).mono (fun _ h ↦ h) fun _ hfull ↦ ?_).bind fun v₂ hv₂ ↦ ?_
  · rw [hlen] at hfull
    exact .inl hfull
  have h₂ := h₁.setSegmentbuf (b.segmentbuf ++ [cp])
  have hlen₂ : v₂.segmentlen = v.segmentlen := by rw [hv₂, hlen]
  rw [← hv₂] at h₂
  refine (post_addInt fun hover ↦ ?_).bind fun n hn ↦ ?_
  · right
    have hnum : v₂.numberOfChunks = b.numberOfChunks := h₂.numberOfChunks
    rw [hnum] at hover
    omega
  · have hnum : v₂.numberOfChunks = b.numberOfChunks := h₂.numberOfChunks
    have hlt := hn.2
    rw [hn.1, hnum] at hlt
    refine ⟨{ h₂ with numberOfChunks := ?_, counts := ⟨h₂.counts.1, ?_⟩ }, rfl, hlen₂⟩
    · rw [hn.1, hnum]
      rfl
    · change b.numberOfChunks + 1 < 2 ^ 63
      omega

theorem drainMeta (h : Represents path b v) :
    Represents path b v.drainMeta ∧ v.drainMeta.metabuf = some [] := by
  obtain ⟨_, _, buf, -, -, hbuf, -, -⟩ := h.metadata
  unfold OpenVersion.drainMeta
  split_ifs with hne
  · refine ⟨h.flushMeta, ?_⟩
    rw [OpenVersion.flushMeta, hbuf]
    rfl
  · rw [hbuf, Option.getD_some, not_not] at hne
    exact ⟨h, hbuf.trans (congrArg some hne)⟩

theorem headerBytes_eq (h : Represents path b v) :
    headerBytes v = Word.le 4 b.bvNum ++ Word.le 4 (if b.deleted then 1 else 0) ++
      Word.le 8 b.files.length ++ Word.le 8 b.numberOfChunks ++ (Word.le 4 path.length ++ path) := by
  simp [headerBytes, OpenVersion.header, h.bvNum, h.deleted, h.numberOfFiles, h.numberOfChunks,
    h.trimmed]

theorem appending_drainRecords {bs : Bytes} (h : ∃ flushed buf, Appending v.recordFp flushed ∧
    v.recordbuf = some buf ∧ flushed ++ buf = bs) : Appending v.drainRecords.recordFp bs := by
  obtain ⟨flushed, buf, happ, hbuf, rfl⟩ := h
  unfold OpenVersion.drainRecords
  rw [hbuf, Option.getD_some]
  split_ifs with hne
  · rw [OpenVersion.flushRecords, hbuf]
    exact happ.write buf
  · rw [not_not.mp hne, List.append_nil]
    exact happ

theorem drainRecords_frame (v : OpenVersion) : v.drainRecords.metadataFp = v.metadataFp ∧
    v.drainRecords.recipeFp = v.recipeFp := by
  unfold OpenVersion.drainRecords
  split_ifs <;> exact ⟨rfl, rfl⟩

theorem contents_writeEnd {accessRecord : ℤ} {ids : List ℤ} (h : Appending v.recordFp (recordBytes ids)) :
    (v.writeEnd accessRecord).recordFp.contents = recordBytes
      (ids ++ (if accessRecord ≠ temporaryId then [accessRecord] else []) ++ [temporaryId]) := by
  have hend : ∀ fp bs, Appending fp bs → (fp.write (Word.le 8 temporaryId)).contents =
      bs ++ Word.le 8 temporaryId := fun fp bs happ ↦ by rw [happ.write]
  unfold OpenVersion.writeEnd
  split_ifs with haccess
  · rw [hend _ _ (h.write _), recordBytes_append, recordBytes_append, recordBytes_singleton,
      recordBytes_singleton]
  · rw [hend _ _ h, List.append_nil, recordBytes_append, recordBytes_singleton]

/-- **At the end of a backup** the files hold the records of the version. -/
theorem update (h : Represents path b v) (accessRecord : ℤ) :
    (v.update accessRecord).close = (b.update accessRecord).encode path := by
  obtain ⟨h₁, hempty⟩ := h.drainMeta
  obtain ⟨hdr, flushed, buf, hhdr, happ, hbuf, -, hbytes⟩ := h₁.metadata
  obtain rfl : [] = buf := Option.some.inj (hempty.symm.trans hbuf)
  rw [List.append_nil] at hbytes
  have hmeta : v.drainMeta.writeHeader.metadataFp.contents = headerBytes v.drainMeta ++ flushed :=
    contents_writeHeader happ (by rw [hhdr, h₁.trimmed])
  have hframe := drainRecords_frame v.drainMeta.writeHeader
  have hrecords := appending_drainRecords (v := v.drainMeta.writeHeader) h₁.records
  simp only [OpenVersion.close, OpenVersion.update, BackupVersion.encode, BackupVersion.update]
  refine VersionFiles.mk.injEq .. ▸ ⟨?_, ?_, ?_⟩
  · rw [OpenVersion.writeEnd, hframe.1, hmeta, h₁.headerBytes_eq, hbytes]
    rfl
  · rw [OpenVersion.writeEnd, hframe.2]
    exact h₁.recipe.2
  · exact contents_writeEnd hrecords

end Represents

/-! ## The recipe loop -/

/-- The entries that the rest of a stream adds to the file list, given the file being recorded. -/
def fileMetas : Option FileRecipeMeta → List Chunk → List FileRecipeMeta
  | _, [] => []
  | none, c :: cs => fileMetas (some ⟨c.data, 0, 0⟩) cs
  | some r, c :: cs =>
    if c.kind ≠ .fileEnd then
      fileMetas (some { r with chunknum := r.chunknum + 1, filesize := r.filesize + c.size }) cs
    else r :: fileMetas none cs

/-- What the types of the source guarantee of a chunk the filter thread records. -/
structure Chunk.Recordable (c : Chunk) : Prop where
  name : c.kind = .fileStart → 0 ∉ c.data
  id : c.isFileMarker = false → 0 ≤ c.id ∧ c.id < 2 ^ 63
  /-- The size is an `int32_t`. -/
  size : c.isFileMarker = false → c.size < 2 ^ 31

/-- A backup of the files `files` in `total` chunks has come to the state `core` in terms of records and
to `w` in terms of bytes; the chunks `todo` are left. -/
structure Recording (path : Bytes) (files : List FileRecipeMeta) (total : ℕ) (core : Core)
    (w : RecipeWriter) (todo : List Chunk) : Prop where
  bv : Represents path core.bv w.bv
  deleted : core.bv.deleted = false
  accessRecord : w.accessRecord = core.accessRecord
  fileRecipe : w.fileRecipe = core.fileRecipe.map FileRecipeMeta.stored
  /-- The counters of the file are bounded by that of the version. -/
  current : ∀ r ∈ core.fileRecipe, r.chunknum ≤ core.bv.numberOfChunks ∧
    r.filesize ≤ 2 ^ 31 * core.bv.numberOfChunks
  files : core.bv.files ++ fileMetas core.fileRecipe todo = files
  chunks : core.bv.numberOfChunks + chunkNum todo = total
  bracketed : Bracketed core.fileRecipe.isSome (todo.map Chunk.kind)
  recordable : ∀ c ∈ todo, c.Recordable

/-- The limits of the program that depend on the whole backup. -/
structure WithinLimits (files : List FileRecipeMeta) (total : ℕ) : Prop where
  names : ∀ r ∈ files, r.filename.length + 20 ≤ metabufsize
  files : files.length < 2 ^ 31
  chunks : total < 2 ^ 31

namespace Core

variable {core : Core} {c : Chunk} {r : FileRecipeMeta}

theorem writeRecipe_fileStart (hr : core.fileRecipe = none) (hk : c.kind = .fileStart) :
    core.writeRecipe c = .ok { core with fileRecipe := some ⟨c.data, 0, 0⟩ } := by
  unfold writeRecipe
  rw [hr]
  simp [check, hk, bind, Except.bind, pure, Except.pure]

theorem writeRecipe_pointer (hr : core.fileRecipe = some r) (hk : c.kind ≠ .fileEnd) (hid : 0 ≤ c.id) :
    core.writeRecipe c = .ok { core with
      bv := (core.bv.appendChunkPointer core.accessRecord c.pointer).1
      accessRecord := (core.bv.appendChunkPointer core.accessRecord c.pointer).2
      fileRecipe := some { r with chunknum := r.chunknum + 1, filesize := r.filesize + c.size } } := by
  unfold writeRecipe
  rw [hr]
  simp only [if_pos hk, check, if_pos hid]
  rfl

theorem writeRecipe_fileEnd (hr : core.fileRecipe = some r) (hk : c.kind = .fileEnd) :
    core.writeRecipe c = .ok { core with
      bv := core.bv.appendFileRecipeMeta r, fileRecipe := none } := by
  unfold writeRecipe
  rw [hr]
  simp [hk]

theorem writeSegmentRecipe_eq (core : Core) (cs : List Chunk) :
    core.writeSegmentRecipe cs =
      cs.foldlM writeRecipe { core with bv := (core.bv.appendSegmentStart (chunkNum cs)).2 } >>=
        fun core' ↦ pure ((core.bv.appendSegmentStart (chunkNum cs)).1,
          { core' with bv := core'.bv.appendSegmentEnd }) := by
  unfold writeSegmentRecipe
  obtain ⟨sid, bv⟩ := core.bv.appendSegmentStart (chunkNum cs)
  rfl

end Core

namespace Recording

variable {path : Bytes} {files : List FileRecipeMeta} {total : ℕ} {core : Core} {w : RecipeWriter}
  {c : Chunk} {todo : List Chunk}

/-- **The loops on records and on bytes take the same turn.** -/
theorem writeRecipe (h : Recording path files total core w (c :: todo)) :
    Post (w.writeRecipe c) (fun w' ↦ ∃ core', core.writeRecipe c = .ok core' ∧
      Recording path files total core' w' todo ∧ w'.bv.segmentlen = w.bv.segmentlen)
      fun _ ↦ ¬WithinLimits files total ∨ c.isFileMarker = false ∧
        w.bv.segmentlen < recordSize * (core.bv.segmentbuf.length + 1 : ℕ) := by
  have hc := h.recordable c List.mem_cons_self
  have htodo : ∀ d ∈ todo, d.Recordable := fun d hd ↦ h.recordable d (List.mem_cons_of_mem _ hd)
  have hb := h.bracketed
  have hfiles := h.files
  have hchunks := h.chunks
  unfold RecipeWriter.writeRecipe
  rw [h.fileRecipe]
  cases hr : core.fileRecipe with
  | none =>
    rw [hr] at hb hfiles
    obtain ⟨hk, hks⟩ := hb
    have hm : c.isFileMarker = true := by simp [Chunk.isFileMarker, hk]
    refine (post_check fun hne ↦ absurd hk hne).bind fun _ _ ↦
      ⟨_, Core.writeRecipe_fileStart hr hk, ⟨h.bv, h.deleted, h.accessRecord, ?_, ?_, hfiles, ?_, hks, htodo⟩, rfl⟩
    · rw [cString_eq (hc.name hk)]
      rfl
    · rintro r ⟨⟩
      exact ⟨Nat.zero_le _, Nat.zero_le _⟩
    · rw [← hchunks, chunkNum_cons, hm, if_pos rfl, Nat.zero_add]
  | some r =>
    rw [hr] at hb hfiles
    rw [fileMetas] at hfiles
    obtain ⟨hnum, hsize⟩ := h.current r hr
    rcases hb with ⟨hk, hks⟩ | ⟨hk, hks⟩
    · have hm : c.isFileMarker = true := by simp [Chunk.isFileMarker, hk]
      rw [if_neg (not_not.mpr hk)] at hfiles
      simp only [Option.map_some, hk, ne_eq, not_true_eq_false, if_false]
      refine ((h.bv.appendFileRecipeMeta r).mono (fun _ h ↦ h) fun _ hfull ↦ ?_).bind fun bv hbv ↦
        ⟨_, Core.writeRecipe_fileEnd hr hk,
          ⟨hbv.1, h.deleted, h.accessRecord, rfl, by simp, ?_, ?_, hks, htodo⟩, hbv.2⟩
      · left
        intro hlim
        have hname := hlim.names r (by rw [← hfiles]; simp)
        have hlen := hlim.files
        rw [← hfiles, List.length_append, List.length_cons] at hlen
        omega
      · rw [← hfiles, BackupVersion.appendFileRecipeMeta, List.append_assoc]
        rfl
      · rw [← hchunks, chunkNum_cons, hm, if_pos rfl, Nat.zero_add]
        rfl
    · have hm : c.isFileMarker = false := by simp [Chunk.isFileMarker, hk]
      have hne : c.kind ≠ .fileEnd := by simp [hk]
      have hcsize := hc.size hm
      rw [if_pos hne] at hfiles
      rw [chunkNum_cons, hm] at hchunks
      simp only [Bool.false_eq_true, if_false] at hchunks
      simp only [Option.map_some, hne, ne_eq, not_false_eq_true, if_true]
      -- The three counters stay below `2 ^ 63` as long as there are less than `2 ^ 31` chunks.
      have hover : 2 ^ 63 ≤ core.bv.numberOfChunks + 1 ∨ 2 ^ 63 ≤ r.chunknum + 1 ∨
          2 ^ 63 ≤ r.filesize + c.size → ¬WithinLimits files total := by
        intro hlarge hlim
        have hlt := hlim.chunks
        omega
      refine (post_check fun hneg ↦ absurd (hc.id hm).1 hneg).bind fun _ _ ↦ ?_
      rw [h.accessRecord]
      have hput := Represents.appendChunkPointer (b := core.bv) h.bv core.accessRecord
        (show 0 ≤ c.pointer.id from (hc.id hm).1)
      refine (hput.mono (fun _ h ↦ h) fun _ hfull ↦ ?_).bind ?_
      · rcases hfull with hfull | hfull
        · exact .inr ⟨hm, hfull⟩
        · exact .inl (hover (.inl hfull))
      rintro ⟨bv, accessRecord⟩ ⟨hbv, haccess, hlen⟩
      refine (post_addInt fun hbig ↦ ?_).bind fun n hn ↦ ?_
      · left
        apply hover
        have hstored : r.stored.chunknum = r.chunknum := rfl
        rw [hstored] at hbig
        omega
      refine (post_addInt fun hbig ↦ ?_).bind fun m hm' ↦ ?_
      · left
        apply hover
        have hstored : r.stored.filesize = r.filesize := rfl
        rw [hstored] at hbig
        omega
      have hnum' : (core.bv.appendChunkPointer core.accessRecord c.pointer).1.numberOfChunks =
          core.bv.numberOfChunks + 1 := rfl
      refine ⟨_, Core.writeRecipe_pointer hr hne (hc.id hm).1,
        ⟨hbv, h.deleted, haccess, ?_, ?_, hfiles, ?_, hks, htodo⟩, hlen⟩
      · rw [hn.1, hm'.1]
        rfl
      · rintro r' ⟨⟩
        dsimp only
        rw [hnum']
        omega
      · dsimp only
        rw [hnum']
        omega

/-- **The loop over the chunks of a segment** of `n` chunks. -/
theorem writeRecipes {n : ℕ} {cs : List Chunk} (h : Recording path files total core w (cs ++ todo))
    (hlen : w.bv.segmentlen = OpenVersion.segmentLength n)
    (hbuf : core.bv.segmentbuf.length + chunkNum cs = n + 1) :
    Post (cs.foldlM RecipeWriter.writeRecipe w) (fun w' ↦ ∃ core',
      cs.foldlM Core.writeRecipe core = .ok core' ∧ Recording path files total core' w' todo ∧
      w'.bv.segmentlen = OpenVersion.segmentLength n ∧ core'.bv.segmentbuf.length = n + 1)
      fun _ ↦ ¬WithinLimits files total ∨ 2 ^ 31 ≤ recordSize * (n + 2) := by
  induction cs generalizing core w with
  | nil => exact ⟨core, rfl, h, hlen, hbuf⟩
  | cons c cs ih =>
    rw [List.foldlM_cons]
    refine (h.writeRecipe.mono (fun _ h ↦ h) fun _ hfault ↦ ?_).bind ?_
    · rcases hfault with hlim | ⟨hm, hfull⟩
      · exact .inl hlim
      · right
        by_contra hsmall
        rw [hlen, OpenVersion.segmentLength_eq (not_le.mp hsmall)] at hfull
        rw [chunkNum_cons, hm] at hbuf
        unfold recordSize at hfull
        simp only [Bool.false_eq_true, if_false] at hbuf
        omega
    · rintro w₁ ⟨core₁, hcore₁, h₁, hlen₁⟩
      have hrec := Post.ok (Core.post_writeRecipe h.bracketed
        fun hm ↦ ((h.recordable c List.mem_cons_self).id hm).1) hcore₁
      refine (ih h₁ (hlen₁.trans hlen) ?_).mono ?_ fun _ h ↦ h
      · rw [hrec.segmentbuf, List.length_append, List.length_map, ← chunkNum_eq, chunkNum_singleton]
        rw [chunkNum_cons] at hbuf
        omega
      · rintro w₂ ⟨core₂, hcore₂, h₂⟩
        refine ⟨core₂, ?_, h₂⟩
        rw [List.foldlM_cons, hcore₁]
        exact hcore₂

/-- **The recipe of a segment** is written if its length fits into an `int`. -/
theorem writeSegmentRecipe {cs : List Chunk} (h : Recording path files total core w (cs ++ todo)) :
    Post (w.writeSegmentRecipe cs) (fun w' ↦ ∃ r, core.writeSegmentRecipe cs = .ok r ∧
      Recording path files total r.2 w' todo ∧ recordSize * (chunkNum cs + 2) < 2 ^ 31)
      fun _ ↦ ¬WithinLimits files total ∨ 2 ^ 31 ≤ recordSize * (chunkNum cs + 2) := by
  unfold RecipeWriter.writeSegmentRecipe
  refine ((h.bv.appendSegmentStart (chunkNum cs)).mono (fun _ h ↦ h) fun _ hfull ↦ ?_).bind ?_
  · right
    by_contra hsmall
    rw [OpenVersion.segmentLength_eq (not_le.mp hsmall)] at hfull
    unfold recordSize at hfull
    omega
  rintro ⟨_, bv⟩ ⟨hbv, hlen⟩
  have h₁ : Recording path files total { core with bv := (core.bv.appendSegmentStart (chunkNum cs)).2 }
      { w with bv := bv } (cs ++ todo) := { h with bv := hbv }
  refine (h₁.writeRecipes hlen ?_).bind ?_
  · exact Nat.add_comm _ _
  rintro w₂ ⟨core₂, hcore₂, h₂, hlen₂, hbuf⟩
  refine (h₂.bv.appendSegmentEnd.mono (fun _ h ↦ h) fun _ hne ↦ ?_).bind ?_
  · right
    by_contra hsmall
    rw [hlen₂, OpenVersion.segmentLength_eq (not_le.mp hsmall), hbuf] at hne
    exact hne rfl
  rintro bv₃ ⟨hbv₃, heq⟩
  refine ⟨_, by rw [Core.writeSegmentRecipe_eq, hcore₂]; rfl, { h₂ with bv := hbv₃ }, ?_⟩
  have hlt := OpenVersion.segmentLength_lt (chunkNum cs)
  rw [← hlen₂, heq, hbuf] at hlt
  exact_mod_cast hlt

/-- **The whole backup.** The records of the segments are written one after the other. -/
theorem writeSegments {segs : List (List Chunk)}
    (h : Recording path files total core w segs.flatten) :
    Post (segs.foldlM RecipeWriter.writeSegmentRecipe w) (fun w' ↦ ∃ core',
      Recording path files total core' w' [] ∧ core'.bv.bvNum = core.bv.bvNum ∧
      core'.bv.recipe = core.bv.recipe ++ segs.flatMap segmentRecords ∧
      ∀ cs ∈ segs, recordSize * (chunkNum cs + 2) < 2 ^ 31)
      fun _ ↦ ¬WithinLimits files total ∨ ∃ cs ∈ segs, 2 ^ 31 ≤ recordSize * (chunkNum cs + 2) := by
  induction segs generalizing core w with
  | nil => exact ⟨core, h, rfl, by simp, by simp⟩
  | cons cs segs ih =>
    have hb : Bracketed core.fileRecipe.isSome (cs.map Chunk.kind ++ segs.flatten.map Chunk.kind) := by
      have := h.bracketed
      rwa [List.flatten_cons, List.map_append] at this
    have hid : ∀ c ∈ dataChunks cs, 0 ≤ c.id := by
      intro c hc
      obtain ⟨hmem, hm⟩ := mem_dataChunks.mp hc
      exact ((h.recordable c (List.mem_append_left _ hmem)).id hm).1
    rw [List.foldlM_cons]
    refine (h.writeSegmentRecipe.mono (fun _ h ↦ h) fun _ hfault ↦ ?_).bind ?_
    · exact hfault.imp_right fun hlarge ↦ ⟨cs, List.mem_cons_self, hlarge⟩
    rintro w₁ ⟨r, hr, h₁, hsmall⟩
    have hrec := Post.ok (Core.post_writeSegmentRecipe hb hid) hr
    refine (ih h₁).mono ?_ fun _ hfault ↦ hfault.imp_right ?_
    · rintro w₂ ⟨core₂, h₂, hnum, hrecipe, hsegs⟩
      refine ⟨core₂, h₂, hnum.trans hrec.records.bvNum, ?_, ?_⟩
      · rw [hrecipe, hrec.recipe, List.flatMap_cons, List.append_assoc]
      · exact List.forall_mem_cons.mpr ⟨hsmall, hsegs⟩
    · rintro ⟨cs', hcs', hlarge⟩
      exact ⟨cs', List.mem_cons_of_mem _ hcs', hlarge⟩

end Recording

/-! ## The files of a version -/

/-- The limits of the program for a backup of the given files in the given segments. -/
structure Fits (path : Bytes) (files : List FileRecipeMeta) (segs : List (List Chunk)) : Prop where
  /-- The path can be trimmed, and its length and the byte behind it counted in an `int`. -/
  path : ∃ p, trimPath path = .ok p ∧ p.length + 1 < 2 ^ 31
  /-- Every file entry fits into the buffer. -/
  names : ∀ r ∈ files, r.filename.length + 20 ≤ metabufsize
  files : files.length < 2 ^ 31
  chunks : chunkNum segs.flatten < 2 ^ 31
  /-- The length of every segment is an `int`. -/
  segments : ∀ cs ∈ segs, recordSize * (chunkNum cs + 2) < 2 ^ 31

/-- The version of a backup in terms of records. -/
structure IsVersion (number : ℕ) (files : List FileRecipeMeta) (segs : List (List Chunk))
    (b : BackupVersion) : Prop where
  bvNum : b.bvNum = number
  deleted : b.deleted = false
  files : b.files = files
  recipe : b.recipe = segs.flatMap segmentRecords
  numberOfChunks : b.numberOfChunks = chunkNum segs.flatten

/-- **What a backup leaves in the recipe store:** the bytes of its records, unless a limit is hit. -/
theorem post_writeVersion {number : ℕ} {path : Bytes} {segs : List (List Chunk)}
    (hb : Bracketed false (segs.flatten.map Chunk.kind)) (hc : ∀ c ∈ segs.flatten, c.Recordable) :
    Post (writeVersion number path segs) (fun vf ↦ ∃ p b, trimPath path = .ok p ∧ vf = b.encode p ∧
      IsVersion number (fileMetas none segs.flatten) segs b ∧
      (∀ r ∈ b.files, r.filename.length + 20 ≤ metabufsize) ∧
      (b.files.length < 2 ^ 63 ∧ b.numberOfChunks < 2 ^ 63) ∧
      ∀ cs ∈ segs, recordSize * (chunkNum cs + 2) < 2 ^ 31)
      fun _ ↦ ¬Fits path (fileMetas none segs.flatten) segs := by
  unfold writeVersion
  cases hpath : trimPath path with
  | error e =>
    rw [createBackupVersion, hpath]
    intro hfits
    obtain ⟨p, hp, -⟩ := hfits.path
    rw [hpath] at hp
    cases hp
  | ok p =>
    obtain ⟨v, hv, hrep⟩ : ∃ v, createBackupVersion number path = .ok v ∧
        Represents p (.create number) v := Represents.create hpath
    -- The run is followed from any state of a node whose backup has just begun.
    let core : Core := { Core.init .start .empty with bv := .create number }
    have hstart : Recording p (fileMetas none segs.flatten) (chunkNum segs.flatten) core
        ⟨v, temporaryId, none⟩ segs.flatten :=
      ⟨hrep, rfl, rfl, rfl, fun r hr ↦ (by cases hr), rfl, Nat.zero_add _, hb, hc⟩
    rw [hv]
    refine (hstart.writeSegments.mono (fun _ h ↦ h) fun _ hfault hfits ↦ ?_).bind ?_
    · rcases hfault with hlim | ⟨cs, hcs, hlarge⟩
      · exact hlim ⟨hfits.names, hfits.files, hfits.chunks⟩
      · exact absurd (hfits.segments cs hcs) (not_lt.mpr hlarge)
    · rintro w ⟨core', h', hnum, hrecipe, hsegs⟩
      have hfiles := h'.files
      rw [fileMetas, List.append_nil] at hfiles
      refine ⟨p, core'.bv.update w.accessRecord, rfl, h'.bv.update w.accessRecord,
        ⟨hnum, h'.deleted, hfiles, hrecipe, h'.chunks⟩, h'.bv.names, h'.bv.counts, hsegs⟩

end UniDedup.Node
