import UniDedup.Lib.Transition
import UniDedup.Node.RecipeReading

/-!
# Marking a version as deleted

A deletion opens the recipe of the version for reading, sets the `deleted` field of the structure in
memory and hands it to the function that writes the header at the end of a backup. That function writes
to streams that were opened for reading, so nothing reaches the disk: the header keeps saying that the
version exists, and a restore of it is not refused, although its containers may have been reclaimed.

The recipe store is followed over its jobs, backups and deletions. What a deletion does to the index
and to the manifest is in other files.
-/

namespace UniDedup.Node

open Outcome Stdio Transition

/-! ## The recipe store between two jobs -/

/-- The recipe store on disk. -/
structure RecipeStore where
  /-- `backup_version_count`. -/
  count : ℕ
  versions : ℕ → Option VersionFiles

namespace RecipeStore

def empty : RecipeStore := ⟨0, fun _ ↦ none⟩

/-- The files of a version are replaced. -/
def set (st : RecipeStore) (number : ℕ) (vf : VersionFiles) : RecipeStore :=
  { st with versions := fun i ↦ if i = number then some vf else st.versions i }

def openBackupVersion (st : RecipeStore) (number : ℕ) : Except StoreFault OpenVersion := do
  let vf ← getOr (st.versions number) .noVersion
  vf.open number

/-- `init_restore_jcr`: a version that is marked as deleted is refused. -/
def initRestoreJcr (st : RecipeStore) (revision : ℕ) : Except StoreFault OpenVersion := do
  let bv ← st.openBackupVersion revision
  check (bv.deleted ≠ 1) .deleted
  return bv

/-- A backup of segments; the version number is an `int32_t`. -/
def backup (st : RecipeStore) (path : Bytes) (segs : List (List Chunk)) : Except StoreFault RecipeStore := do
  check (st.count + 1 < 2 ^ 31) .overflow
  let vf ← writeVersion st.count path segs
  return { st.set st.count vf with count := st.count + 1 }

end RecipeStore

/-- `read_next_segment`, with the pointers of the segment. -/
def readNextSegment (b : OpenVersion) : Except StoreFault (Option (List Pointer) × OpenVersion) :=
  match readPointer b.recipeFp with
  | .error _ => .ok (none, { b with recipeFp := b.recipeFp.seekEnd })
  | .ok (flag, fp) =>
    if flag.id ≠ segmentStartId then .ok (none, { b with recipeFp := fp })
    else do
      let (cps, fp) ← (List.range flag.size.toNat).foldlM (fun acc _ ↦ do
        let (cp, fp) ← readPointer acc.2
        check (cp.id > temporaryId) .pointerId
        return (acc.1 ++ [cp], fp)) ([], fp)
      let (flag, fp) ← readPointer fp
      check (flag.id = segmentEndId) .segmentEnd
      return (some cps, { b with recipeFp := fp })

/-- The loop of `do_delete` over the segments of a version, at most `n` of them. -/
def readSegmentsToEnd : ℕ → OpenVersion → Except StoreFault OpenVersion
  | 0, b => .ok b
  | n + 1, b => do
    let (segment, b) ← readNextSegment b
    if segment.isSome then readSegmentsToEnd n b else return b

/-- With logical locality `do_delete` reads the segments, to remove their entries from the index. -/
def visitSegments (locality : Locality) (b : OpenVersion) : Except StoreFault OpenVersion :=
  match locality with
  | .physical => .ok b
  | .logical => readSegmentsToEnd (b.recipeFp.contents.length / recordSize + 1) b

/-- What `do_delete` does with the recipe store. -/
def RecipeStore.delete (st : RecipeStore) (locality : Locality) (jobid : ℕ) :
    Except StoreFault RecipeStore := do
  let b ← st.openBackupVersion jobid
  let b ← visitSegments locality b
  let b := { b with deleted := 1 }
  return st.set jobid (b.update temporaryId).close

/-- A job that changes the recipe store. -/
inductive RecipeJob
  | backup (path : Bytes) (files : List RecordedFile) (segs : List (List Chunk))
  | delete (jobid : ℕ)

/-- The recipe store over its jobs, from a store on. A job that exits is the end of the run. -/
def recipeJobs (locality : Locality) (start : RecipeStore) : System RecipeStore RecipeJob where
  init st := st = start
  next st l := match l with
    | .backup path files segs =>
      if segs.flatten = files.flatMap RecordedFile.stream then (st.backup path segs).toOption else none
    | .delete jobid => (st.delete locality jobid).toOption

/-- **Deletion is durable:** every later opening of the version finds it deleted and no restore is
admitted; the files of the other versions and the file list of the version are as before. -/
structure Durable (locality : Locality) (st st' : RecipeStore) (jobid : ℕ) : Prop where
  deleted : ∀ later, (recipeJobs locality st').Reachable later → ∀ v,
    later.openBackupVersion jobid = .ok v → v.deleted = 1
  refused : ∀ later, (recipeJobs locality st').Reachable later →
    ∀ v, later.initRestoreJcr jobid ≠ .ok v
  others : ∀ i, i ≠ jobid → st'.versions i = st.versions i
  files : ∀ v v', st.openBackupVersion jobid = .ok v → st'.openBackupVersion jobid = .ok v' →
    v'.numberOfFiles = v.numberOfFiles ∧ v'.metadataFp.rest = v.metadataFp.rest

/-! ## Streams opened for reading -/

/-- The stream has been opened for reading a file with these contents. -/
def ReadOnly (bs : Bytes) (fp : Handle) : Prop := fp.writable = false ∧ fp.contents = bs

section

variable {bs : Bytes} {fp : Handle} {n : ℕ}

theorem ReadOnly.write (h : ReadOnly bs fp) (cs : Bytes) : ReadOnly bs (fp.write cs) := by
  rw [Handle.write_of_not_writable h.1]
  exact h

theorem ReadOnly.foldl_write (h : ReadOnly bs fp) (css : List Bytes) :
    ReadOnly bs (css.foldl Handle.write fp) := by
  induction css generalizing fp with
  | nil => exact h
  | cons cs css ih => exact ih (h.write cs)

theorem ReadOnly.readBytes {p : Bytes × Handle} (h : ReadOnly bs fp) (hp : readBytes fp n = .ok p) :
    ReadOnly bs p.2 := by
  have hread := getOr_eq_ok.mp hp
  unfold Handle.read at hread
  split_ifs at hread
  cases hread
  exact h

theorem ReadOnly.readInt {p : ℤ × Handle} (h : ReadOnly bs fp) (hp : readInt fp n = .ok p) :
    ReadOnly bs p.2 := by
  obtain ⟨q, hq, hp⟩ := bind_eq_ok.mp hp
  cases hp
  exact h.readBytes hq

theorem ReadOnly.readString {p : Bytes × Handle} (h : ReadOnly bs fp) (hp : readString fp = .ok p) :
    ReadOnly bs p.2 := by
  obtain ⟨q, hq, hp⟩ := bind_eq_ok.mp hp
  obtain ⟨_, -, hp⟩ := bind_eq_ok.mp hp
  obtain ⟨q', hq', hp⟩ := bind_eq_ok.mp hp
  have hfp : ReadOnly bs q'.2 := (h.readInt hq).readBytes hq'
  cases hp
  exact hfp

theorem ReadOnly.readPointer {p : Pointer × Handle} (h : ReadOnly bs fp) (hp : readPointer fp = .ok p) :
    ReadOnly bs p.2 := by
  obtain ⟨q, hq, hp⟩ := bind_eq_ok.mp hp
  obtain ⟨_, -, hp⟩ := bind_eq_ok.mp hp
  obtain ⟨q', hq', hp⟩ := bind_eq_ok.mp hp
  obtain ⟨q'', hq'', hp⟩ := bind_eq_ok.mp hp
  cases hp
  exact ((h.readBytes hq).readInt hq').readInt hq''

end

/-- A version opened by `open_backup_version`. -/
structure OpenVersion.Reading (vf : VersionFiles) (b : OpenVersion) : Prop where
  metadata : ReadOnly vf.metadata b.metadataFp
  recipe : ReadOnly vf.recipe b.recipeFp
  records : ReadOnly vf.records b.recordFp
  metabuf : b.metabuf = none
  recordbuf : b.recordbuf = none

namespace OpenVersion.Reading

variable {vf : VersionFiles} {b b' : OpenVersion}

theorem of_open {number : ℤ} (h : vf.open number = .ok b) : b.Reading vf := by
  obtain ⟨q₁, hq₁, h⟩ := bind_eq_ok.mp h
  obtain ⟨_, -, h⟩ := bind_eq_ok.mp h
  obtain ⟨q₂, hq₂, h⟩ := bind_eq_ok.mp h
  obtain ⟨q₃, hq₃, h⟩ := bind_eq_ok.mp h
  obtain ⟨q₄, hq₄, h⟩ := bind_eq_ok.mp h
  obtain ⟨q₅, hq₅, h⟩ := bind_eq_ok.mp h
  cases h
  have hopen : ∀ bs : Bytes, ReadOnly bs (.openRead bs) := fun bs ↦ ⟨rfl, rfl⟩
  exact ⟨((((hopen _).readInt hq₁).readInt hq₂).readInt hq₃ |>.readInt hq₄).readString hq₅, hopen _,
    hopen _, rfl, rfl⟩

/-- **`update_backup_version` changes nothing of a version opened for reading.** -/
theorem close_update (h : b.Reading vf) (accessRecord : ℤ) : (b.update accessRecord).close = vf := by
  have hmeta : b.drainMeta = b := by
    rw [drainMeta, h.metabuf]
    rfl
  have hrecords : b.writeHeader.drainRecords = b.writeHeader := by
    have : b.writeHeader.recordbuf = none := h.recordbuf
    rw [drainRecords, this]
    rfl
  have hheader : ReadOnly vf.metadata b.writeHeader.metadataFp := by
    refine ReadOnly.foldl_write ?_ _
    exact h.metadata
  rw [update, hmeta, hrecords, writeEnd, close]
  dsimp only
  have hend : ∀ fp, ReadOnly vf.records fp → (fp.write (Word.le 8 temporaryId)).contents = vf.records :=
    fun fp hfp ↦ (hfp.write _).2
  have hrec : ReadOnly vf.records (if accessRecord ≠ temporaryId then
      b.writeHeader.recordFp.write (Word.le 8 accessRecord) else b.writeHeader.recordFp) := by
    split_ifs
    · exact h.records.write _
    · exact h.records
  rw [hheader.2, hend _ hrec]
  exact congrArg (fun bs ↦ (⟨vf.metadata, bs, vf.records⟩ : VersionFiles)) h.recipe.2

theorem readNextSegment {o : Option (List Pointer)} (h : b.Reading vf)
    (hread : readNextSegment b = .ok (o, b')) : b'.Reading vf := by
  unfold Node.readNextSegment at hread
  cases hflag : readPointer b.recipeFp with
  | error e =>
    rw [hflag] at hread
    cases hread
    exact { h with recipe := h.recipe }
  | ok p =>
    have hp := h.recipe.readPointer hflag
    rw [hflag] at hread
    dsimp only at hread
    split_ifs at hread
    · cases hread
      exact { h with recipe := hp }
    · obtain ⟨acc, hacc, hread⟩ := bind_eq_ok.mp hread
      obtain ⟨q, hq, hread⟩ := bind_eq_ok.mp hread
      obtain ⟨_, -, hread⟩ := bind_eq_ok.mp hread
      have hloop : ReadOnly vf.recipe acc.2 := by
        refine Post.ok (Q := fun acc ↦ ReadOnly vf.recipe acc.2) (E := fun _ ↦ True)
          (Post.foldlM (I := fun _ _ acc ↦ ReadOnly vf.recipe acc.2) ?_ _ [] ([], p.2) hp) hacc
        intro _ _ _ acc hacc
        refine Post.bind (P := fun q ↦ ReadOnly vf.recipe q.2)
          (post_of_forall (fun _ hq ↦ hacc.readPointer hq) fun _ _ ↦ trivial) fun q hq ↦ ?_
        exact (post_check fun _ ↦ trivial).bind fun _ _ ↦ hq
      have hq' := hloop.readPointer hq
      cases hread
      exact { h with recipe := hq' }

theorem readSegmentsToEnd {n : ℕ} (h : b.Reading vf) (hread : readSegmentsToEnd n b = .ok b') :
    b'.Reading vf := by
  induction n generalizing b with
  | zero =>
    cases hread
    exact h
  | succ n ih =>
    obtain ⟨⟨o, b₁⟩, hnext, hread⟩ := bind_eq_ok.mp hread
    have h₁ := h.readNextSegment hnext
    dsimp only at hread
    split_ifs at hread
    · exact ih h₁ hread
    · cases hread
      exact h₁

end OpenVersion.Reading

/-! ## Deletions -/

namespace RecipeStore

variable {st st' : RecipeStore} {locality : Locality} {jobid : ℕ}

theorem set_self {vf : VersionFiles} (h : st.versions jobid = some vf) : st.set jobid vf = st := by
  obtain ⟨count, versions⟩ := st
  rw [set, mk.injEq]
  refine ⟨rfl, funext fun i ↦ ?_⟩
  split_ifs with hi
  · rw [hi, ← h]
  · rfl

/-- **A deletion leaves the recipe store as it was**, and the version can be opened. -/
theorem delete_eq_ok (h : st.delete locality jobid = .ok st') :
    st' = st ∧ ∃ v, st.openBackupVersion jobid = .ok v := by
  obtain ⟨b, hb, h⟩ := bind_eq_ok.mp h
  obtain ⟨vf, hvf, hopen⟩ := bind_eq_ok.mp hb
  have hread := OpenVersion.Reading.of_open hopen
  obtain ⟨b', hb', h⟩ := bind_eq_ok.mp h
  have hread' : b'.Reading vf := by
    cases locality with
    | physical =>
      obtain rfl : b = b' := Except.ok.inj hb'
      exact hread
    | logical => exact hread.readSegmentsToEnd hb'
  have hdel : OpenVersion.Reading vf { b' with deleted := 1 } := { hread' with metabuf := hread'.metabuf }
  cases h
  refine ⟨?_, b, hb⟩
  rw [hdel.close_update]
  exact set_self (getOr_eq_ok.mp hvf)

/-- The version can be opened and is not marked as deleted. -/
def Kept (st : RecipeStore) (jobid : ℕ) : Prop :=
  ∀ v, st.openBackupVersion jobid = .ok v → v.deleted = 0

theorem deleted_of_writeVersion {number : ℕ} {path : Bytes} {files : List RecordedFile}
    {segs : List (List Chunk)} {vf : VersionFiles} {v : OpenVersion} (hnum : number < 2 ^ 31)
    (hsegs : segs.flatten = files.flatMap RecordedFile.stream)
    (hvf : writeVersion number path segs = .ok vf) (hv : vf.open number = .ok v) : v.deleted = 0 := by
  obtain ⟨p, b, hp, rfl, hb, -, ⟨hfiles, hchunks⟩, -⟩ := Post.ok (post_writeFiles hsegs) hvf
  have hopen := post_open (hb.bvNum ▸ hnum) hfiles hchunks (trimPath_eq_ok hp)
  rw [hb.bvNum] at hopen
  rw [(Post.ok hopen hv).1.deleted, hb.deleted]
  rfl

/-- **In every run no version is ever marked as deleted.** -/
theorem kept_of_reachable (h : (recipeJobs locality .empty).Reachable st) : ∀ i, st.Kept i := by
  refine System.Reachable.invariant (P := fun st ↦ ∀ i, st.Kept i) ?_ ?_ h
  · rintro st rfl i v hv
    obtain ⟨vf, hvf, -⟩ := bind_eq_ok.mp hv
    cases getOr_eq_ok.mp hvf
  · intro st l st' ih hs i
    cases l with
    | backup path files segs =>
      simp only [recipeJobs] at hs
      split_ifs at hs with hsegs
      obtain ⟨_, hcount, hs⟩ := bind_eq_ok.mp (toOption_eq_some.mp hs)
      obtain ⟨vf, hvf, hs⟩ := bind_eq_ok.mp hs
      cases hs
      intro v hv
      obtain ⟨vf', hvf', hopen⟩ := bind_eq_ok.mp hv
      have hversion := getOr_eq_ok.mp hvf'
      simp only [set] at hversion
      split_ifs at hversion with hi
      · cases hversion
        subst hi
        exact deleted_of_writeVersion (Nat.lt_of_succ_lt (check_eq_ok.mp hcount)) hsegs hvf hopen
      · exact ih i v (bind_eq_ok.mpr ⟨vf', getOr_eq_ok.mpr hversion, hopen⟩)
    | delete jobid =>
      obtain ⟨rfl, -⟩ := delete_eq_ok (toOption_eq_some.mp hs)
      exact ih i

end RecipeStore

/-- **No deletion is durable:** whatever the store has been through, after deleting a version it can be
opened and restored as before. -/
theorem not_durable {locality : Locality} {st st' : RecipeStore} {jobid : ℕ}
    (h : (recipeJobs locality .empty).Reachable st) (hdel : st.delete locality jobid = .ok st') :
    ¬Durable locality st st' jobid := by
  intro hdurable
  obtain ⟨rfl, v, hv⟩ := RecipeStore.delete_eq_ok hdel
  have hone := hdurable.deleted st' (.init rfl) v hv
  have hzero := RecipeStore.kept_of_reachable h jobid v hv
  rw [hzero] at hone
  exact absurd hone (by decide)

/-- After a backup of a file, its deletion returns. -/
def deletedStore : Option (RecipeStore × RecipeStore) := do
  let st ← (recipeJobs .physical .empty).next .empty
    (.backup [slash] [recordedFile (2 * 3)] (recordedSegments 2 3))
  let st' ← (st.delete .physical 0).toOption
  return (st, st')

theorem exists_deletedStore : ∃ p, deletedStore = some p := by
  refine Option.isSome_iff_exists.mp ?_
  decide +kernel

theorem exists_deletion : ∃ st st', (recipeJobs .physical .empty).Reachable st ∧
    st.delete .physical 0 = .ok st' := by
  obtain ⟨⟨st, st'⟩, hp⟩ := exists_deletedStore
  obtain ⟨st₁, hst, hp⟩ := Option.bind_eq_some_iff.mp hp
  obtain ⟨st₂, hdel, hp⟩ := Option.bind_eq_some_iff.mp hp
  cases hp
  exact ⟨st, st', .step (.init rfl) trivial hst, toOption_eq_some.mp hdel⟩

theorem not_durable_sample : ∃ st st', (recipeJobs .physical .empty).Reachable st ∧
    st.delete .physical 0 = .ok st' ∧ ¬Durable .physical st st' 0 := by
  obtain ⟨st, st', hreach, hdel⟩ := exists_deletion
  exact ⟨st, st', hreach, hdel, not_durable hreach hdel⟩

/-- The deletion of the first version is lost: a restore of it is admitted. -/
theorem deletion_lost : ∃ st st' v, (recipeJobs .physical .empty).Reachable st ∧
    st.delete .physical 0 = .ok st' ∧ st'.initRestoreJcr 0 = .ok v ∧ ¬Durable .physical st st' 0 := by
  obtain ⟨st, st', hreach, hdel⟩ := exists_deletion
  obtain ⟨rfl, v, hv⟩ := RecipeStore.delete_eq_ok hdel
  have hzero := RecipeStore.kept_of_reachable hreach 0 v hv
  have hinit : st'.initRestoreJcr 0 = .ok v := by
    refine bind_eq_ok.mpr ⟨v, hv, bind_eq_ok.mpr ⟨⟨⟩, check_eq_ok.mpr ?_, rfl⟩⟩
    rw [hzero]
    decide
  refine ⟨st', st', v, hreach, hdel, hinit, fun hdurable ↦ ?_⟩
  exact hdurable.refused st' (.init rfl) v hinit

end UniDedup.Node
