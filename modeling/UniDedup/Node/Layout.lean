import UniDedup.Node.Contract
import UniDedup.Node.Record

/-!
# The segments of a recipe

A recipe file is a sequence of blocks, one for each segment: a flag with the number of chunks, their
pointers, and a flag for the end. Reading such a file from its start gives back the segments in order,
each with the id it was given when it was written. The id packs the version, the offset of the block
and its size into 64 bits; as long as the version fits into 16 bits and the offsets into 32, two
segments have the same id only if they are the same segment of the same version.
-/

namespace UniDedup.Node

open Outcome

/-! ## Blocks -/

/-- The records of a segment with the given pointers. -/
def segmentBlock (ps : List ChunkPointer) : List ChunkPointer :=
  .flag segmentStartId ps.length :: (ps ++ [.flag segmentEndId 0])

theorem segmentRecords_eq (cs : List Chunk) :
    segmentRecords cs = segmentBlock ((dataChunks cs).map Chunk.pointer) := by
  rw [segmentRecords, segmentBlock, chunkNum_eq, List.length_map]

@[simp] theorem length_segmentBlock (ps : List ChunkPointer) :
    (segmentBlock ps).length = ps.length + 2 := by simp [segmentBlock]

/-- The segment of the block at a position of the file. -/
def segmentAt (bvNum : ℤ) (pos : ℕ) (ps : List ChunkPointer) : SegmentRecipe :=
  ⟨makeSegmentId bvNum (recordSize * pos : ℕ) ps.length, (ps.map fun cp ↦ (cp.fp, cp.id)).reverse⟩

/-- The segments of consecutive blocks from a position on. -/
def layout (bvNum : ℤ) : ℕ → List (List ChunkPointer) → List SegmentRecipe
  | _, [] => []
  | pos, ps :: pss => segmentAt bvNum pos ps :: layout bvNum (pos + ps.length + 2) pss

theorem layout_append (bvNum : ℤ) (ps : List ChunkPointer) : ∀ (pos : ℕ) (pss : List (List ChunkPointer)),
    layout bvNum pos (pss ++ [ps]) =
      layout bvNum pos pss ++ [segmentAt bvNum (pos + (pss.flatMap segmentBlock).length) ps]
  | pos, [] => by simp [layout]
  | pos, qs :: pss => by
    rw [List.cons_append, layout, layout, layout_append, List.flatMap_cons, List.length_append,
      length_segmentBlock, List.cons_append]
    congr 4
    omega

/-! ## Reading -/

theorem readSegment_block (bvNum : ℤ) {pre ps post : List ChunkPointer} (h : ∀ cp ∈ ps, 0 ≤ cp.id) :
    readSegment bvNum (pre ++ (segmentBlock ps ++ post)) pre.length =
      .ok (some (segmentAt bvNum pre.length ps, pre.length + ps.length + 2)) := by
  have hdrop : (pre ++ (segmentBlock ps ++ post)).drop pre.length =
      .flag segmentStartId ps.length :: (ps ++ .flag segmentEndId 0 :: post) := by
    simp [segmentBlock]
  have htake : (ps ++ ChunkPointer.flag segmentEndId 0 :: post).take ps.length = ps := by simp
  unfold readSegment
  rw [hdrop]
  dsimp only
  rw [if_neg (by simp [ChunkPointer.flag])]
  simp only [bind_eq_ok, check_eq_ok]
  refine ⟨⟨⟩, ⟨?_, fun cp hcp ↦ ?_⟩, ⟨⟩, ?_, ?_⟩
  · simp [ChunkPointer.flag]
  · have hpos := h cp (htake ▸ hcp)
    unfold temporaryId
    omega
  · simp [ChunkPointer.flag]
  · have hsize : (ChunkPointer.flag segmentStartId ps.length).size = ps.length := rfl
    rw [hsize, htake]
    rfl

/-- **Reading a file gives back its segments.** -/
theorem readSegments_layout (bvNum : ℤ) : ∀ {pss : List (List ChunkPointer)} {pre : List ChunkPointer}
    {n : ℕ}, (∀ ps ∈ pss, ∀ cp ∈ ps, 0 ≤ cp.id) → pss.length ≤ n →
    readSegments bvNum (pre ++ pss.flatMap segmentBlock) n pre.length =
      .ok (layout bvNum pre.length pss)
  | [], pre, 0, _, _ => rfl
  | [], pre, n + 1, _, _ => by
    rw [readSegments, readSegment]
    simp [layout, bind, Except.bind, pure, Except.pure]
  | ps :: pss, pre, n + 1, h, hn => by
    have hrest : readSegments bvNum (pre ++ segmentBlock ps ++ pss.flatMap segmentBlock) n
        (pre ++ segmentBlock ps).length = .ok (layout bvNum (pre ++ segmentBlock ps).length pss) :=
      readSegments_layout bvNum (fun qs hqs ↦ h qs (List.mem_cons_of_mem _ hqs)) (by simpa using hn)
    rw [List.append_assoc, List.length_append, length_segmentBlock, ← Nat.add_assoc] at hrest
    rw [List.flatMap_cons, readSegments, readSegment_block bvNum (h ps List.mem_cons_self), layout]
    simp only [bind, Except.bind]
    rw [hrest]
    rfl

/-- The segments of a version, as reading its recipe from the start gives them. -/
def BackupVersion.segments (b : BackupVersion) : List SegmentRecipe :=
  match readSegments b.bvNum b.recipe b.recipe.length 0 with
  | .ok srs => srs
  | .error _ => []

/-- A recipe made of blocks with real pointers. -/
structure Laid (pss : List (List ChunkPointer)) (b : BackupVersion) : Prop where
  recipe : b.recipe = pss.flatMap segmentBlock
  pointers : ∀ ps ∈ pss, ∀ cp ∈ ps, 0 ≤ cp.id

namespace Laid

variable {pss : List (List ChunkPointer)} {b b' : BackupVersion}

theorem length_le (h : Laid pss b) : pss.length ≤ b.recipe.length := by
  rw [h.recipe]
  clear h
  induction pss with
  | nil => exact Nat.le_refl _
  | cons ps pss ih =>
    rw [List.flatMap_cons, List.length_append, length_segmentBlock, List.length_cons]
    omega

theorem read (h : Laid pss b) :
    readSegments b.bvNum b.recipe b.recipe.length 0 = .ok (layout b.bvNum 0 pss) := by
  have hread : readSegments b.bvNum ([] ++ pss.flatMap segmentBlock) b.recipe.length 0 =
      .ok (layout b.bvNum 0 pss) := readSegments_layout b.bvNum h.pointers h.length_le
  rw [List.nil_append, ← h.recipe] at hread
  exact hread

theorem segments (h : Laid pss b) : b.segments = layout b.bvNum 0 pss := by
  rw [BackupVersion.segments, h.read]

theorem append (h : Laid pss b) {ps : List ChunkPointer} (hps : ∀ cp ∈ ps, 0 ≤ cp.id)
    (hb : b'.recipe = b.recipe ++ segmentBlock ps) : Laid (pss ++ [ps]) b' where
  recipe := by simp [hb, h.recipe]
  pointers qs hqs := by
    rcases List.mem_append.mp hqs with hqs | hqs
    · exact h.pointers qs hqs
    · rw [List.mem_singleton.mp hqs]
      exact hps

theorem segments_append (h : Laid pss b) {ps : List ChunkPointer} (hps : ∀ cp ∈ ps, 0 ≤ cp.id)
    (hb : b'.recipe = b.recipe ++ segmentBlock ps) (hnum : b'.bvNum = b.bvNum) :
    b'.segments = b.segments ++ [segmentAt b.bvNum b.recipe.length ps] := by
  rw [(h.append hps hb).segments, h.segments, hnum, layout_append, ← h.recipe, Nat.zero_add]

end Laid

/-! ## Segment ids -/

/-- The ids of consecutive blocks lie, before they are cut to 64 bits, between the bounds their
positions give. -/
theorem exists_value {bvNum : ℕ} : ∀ {pos : ℕ} {pss : List (List ChunkPointer)} {sr : SegmentRecipe},
    sr ∈ layout bvNum pos pss → ∃ v : ℕ, sr.id = Int.bmod v (2 ^ 64) ∧
      bvNum * 2 ^ 48 + 2 ^ 21 * pos ≤ v ∧
      v + 1 < bvNum * 2 ^ 48 + 2 ^ 21 * (pos + (pss.flatMap segmentBlock).length)
  | pos, ps :: pss, sr, h => by
    rw [List.flatMap_cons, List.length_append, length_segmentBlock]
    rcases List.mem_cons.mp h with rfl | h
    · refine ⟨bvNum * 2 ^ 48 + recordSize * pos * 2 ^ 16 + ps.length, ?_, ?_, ?_⟩
      · simp [segmentAt, makeSegmentId]
      · unfold recordSize
        omega
      · unfold recordSize
        omega
    · obtain ⟨v, hv, hlo, hhi⟩ := exists_value h
      exact ⟨v, hv, by omega, by omega⟩

theorem eq_of_bmod_eq (v v' : ℕ) (hv : v + 1 < 2 ^ 64) (hv' : v' + 1 < 2 ^ 64)
    (h : Int.bmod v (2 ^ 64) = Int.bmod v' (2 ^ 64)) : v = v' := by
  have hmod := congrArg (· % ((2 ^ 64 : ℕ) : ℤ)) h
  simp only [Int.bmod_emod] at hmod
  omega

theorem value_lt {bvNum hi v : ℕ} (hb : bvNum < 2 ^ 16) (hv : v + 1 < bvNum * 2 ^ 48 + 2 ^ 21 * hi)
    (hhi : recordSize * hi ≤ 2 ^ 32) : v + 1 < 2 ^ 64 := by
  unfold recordSize at hhi
  omega

theorem layout_inj {bvNum : ℕ} (hb : bvNum < 2 ^ 16) : ∀ {pos : ℕ} {pss : List (List ChunkPointer)},
    recordSize * (pos + (pss.flatMap segmentBlock).length) ≤ 2 ^ 32 →
    ∀ sr ∈ layout bvNum pos pss, ∀ sr' ∈ layout bvNum pos pss, sr.id = sr'.id → sr = sr'
  | pos, ps :: pss, hlen, sr, h, sr', h', hid => by
    rw [List.flatMap_cons, List.length_append, length_segmentBlock] at hlen
    have hlen' : recordSize * (pos + (ps.length + 2)) ≤ 2 ^ 32 :=
      (Nat.mul_le_mul_left _ (by omega)).trans hlen
    have hrest : recordSize * (pos + ps.length + 2 + (pss.flatMap segmentBlock).length) ≤ 2 ^ 32 := by
      rw [show pos + ps.length + 2 + (pss.flatMap segmentBlock).length =
        pos + (ps.length + 2 + (pss.flatMap segmentBlock).length) by omega]
      exact hlen
    -- The block at the front ends before the others start.
    have hfront : ∀ sr' ∈ layout bvNum (pos + ps.length + 2) pss,
        (segmentAt bvNum pos ps).id ≠ sr'.id := by
      intro sr' h' hid
      have hmem : segmentAt bvNum pos ps ∈ layout bvNum pos [ps] := by simp [layout]
      obtain ⟨v, hv, hlo, hhi⟩ := exists_value hmem
      obtain ⟨v', hv', hlo', hhi'⟩ := exists_value h'
      rw [List.flatMap_cons, List.flatMap_nil, List.append_nil, length_segmentBlock] at hhi
      have heq : v = v' := eq_of_bmod_eq v v' (value_lt hb hhi hlen') (value_lt hb hhi' hrest)
        (by rw [← hv, ← hv', hid])
      clear hv hv' hid
      omega
    rcases List.mem_cons.mp h with rfl | h <;> rcases List.mem_cons.mp h' with rfl | h'
    · rfl
    · exact absurd hid (hfront sr' h')
    · exact absurd hid.symm (hfront sr h)
    · exact layout_inj hb hrest sr h sr' h' hid

/-- The fields of the segment ids of a version do not overflow. -/
structure Addressable (b : BackupVersion) : Prop where
  laid : ∃ pss, Laid pss b
  bvNum : b.recipe ≠ [] → b.bvNum < 2 ^ 16
  offset : recordSize * b.recipe.length ≤ 2 ^ 32

theorem Addressable.bvNum_lt {b : BackupVersion} (h : Addressable b) {sr : SegmentRecipe}
    (hsr : sr ∈ b.segments) : b.bvNum < 2 ^ 16 := by
  refine h.bvNum fun hnil ↦ ?_
  rw [BackupVersion.segments, hnil] at hsr
  cases hsr

/-- **A segment id names one segment** of one version. -/
theorem Addressable.eq_of_id {b b' : BackupVersion} (h : Addressable b) (h' : Addressable b')
    {sr sr' : SegmentRecipe} (hsr : sr ∈ b.segments) (hsr' : sr' ∈ b'.segments) (hid : sr.id = sr'.id) :
    b.bvNum = b'.bvNum ∧ (b = b' → sr = sr') := by
  have hb := h.bvNum_lt hsr
  have hb' := h'.bvNum_lt hsr'
  obtain ⟨pss, hl⟩ := h.laid
  obtain ⟨pss', hl'⟩ := h'.laid
  rw [hl.segments] at hsr
  rw [hl'.segments] at hsr'
  obtain ⟨v, hv, hlo, hhi⟩ := exists_value hsr
  obtain ⟨v', hv', hlo', hhi'⟩ := exists_value hsr'
  rw [← hl.recipe] at hhi
  rw [← hl'.recipe] at hhi'
  have hoff := h.offset
  have hoff' := h'.offset
  rw [Nat.zero_add] at hhi hhi'
  have heq : v = v' := eq_of_bmod_eq v v' (value_lt hb hhi hoff) (value_lt hb' hhi' hoff')
    (by rw [← hv, ← hv', hid])
  have hnum : b.bvNum = b'.bvNum := by
    unfold recordSize at hoff hoff'
    clear hv hv' hid
    omega
  refine ⟨hnum, ?_⟩
  rintro rfl
  rw [← hl'.segments, hl.segments] at hsr'
  refine layout_inj hb ?_ sr hsr sr' hsr' hid
  rw [← hl.recipe, Nat.zero_add]
  exact h.offset

theorem Addressable.ne_temporaryId {b : BackupVersion} (h : Addressable b) {sr : SegmentRecipe}
    (hsr : sr ∈ b.segments) : sr.id ≠ temporaryId := by
  have hb := h.bvNum_lt hsr
  obtain ⟨pss, hl⟩ := h.laid
  rw [hl.segments] at hsr
  obtain ⟨v, hv, hlo, hhi⟩ := exists_value hsr
  rw [← hl.recipe, Nat.zero_add] at hhi
  have hlt := value_lt hb hhi h.offset
  intro htemp
  have hmod := congrArg (· % ((2 ^ 64 : ℕ) : ℤ)) (hv.symm.trans htemp)
  simp only [Int.bmod_emod, temporaryId] at hmod
  omega

theorem Laid.fresh {pss : List (List ChunkPointer)} {b : BackupVersion} (h : Laid pss b)
    (hb : b.bvNum < 2 ^ 16) {ps : List ChunkPointer}
    (hlen : recordSize * (b.recipe.length + (ps.length + 2)) ≤ 2 ^ 32) {sr : SegmentRecipe}
    (hsr : sr ∈ b.segments) : sr.id ≠ (segmentAt b.bvNum b.recipe.length ps).id := by
  intro hid
  rw [h.segments] at hsr
  have hmem : segmentAt b.bvNum b.recipe.length ps ∈ layout b.bvNum b.recipe.length [ps] := by
    simp [layout]
  obtain ⟨v, hv, hlo, hhi⟩ := exists_value hsr
  obtain ⟨v', hv', hlo', hhi'⟩ := exists_value hmem
  rw [← h.recipe, Nat.zero_add] at hhi
  rw [List.flatMap_cons, List.flatMap_nil, List.append_nil, length_segmentBlock] at hhi'
  have hlen' : recordSize * b.recipe.length ≤ 2 ^ 32 :=
    (Nat.mul_le_mul_left _ (Nat.le_add_right _ _)).trans hlen
  have heq : v = v' := eq_of_bmod_eq v v' (value_lt hb hhi hlen') (value_lt hb hhi' hlen)
    (by rw [← hv, ← hv', hid])
  clear hv hv' hid
  omega

/-! ## A small file backed up again -/

def onceFiles : List File := [⟨[0x66], [[0x61]]⟩]

/-- The pointer of its chunk, in the first container. -/
def oncePointer : ChunkPointer := ⟨sampleSha1 [0x61], 0, 1⟩

/-- The version of a backup of the file. -/
def onceVersion (n : ℕ) : BackupVersion := ⟨n, false, [⟨[0x66], 1, 1⟩], segmentBlock [oncePointer], [0, -1], 1, []⟩

theorem nodup_onceEntries : ([⟨0, 1, sampleSha1 [0x61]⟩].map MetaEntry.fp).Nodup := List.nodup_singleton _

theorem bounded_onceEntries : ∀ e ∈ [(⟨0, 1, sampleSha1 [0x61]⟩ : MetaEntry)], e.off + e.len ≤ [(0x61 : UInt8)].length := by
  simp

/-- The disk after some backups of the file. -/
def onceDisk (versions : List BackupVersion) (sparse : List (List (ℤ × ℕ))) (jobid : ℕ) : Disk where
  count := 1
  pool := [⟨0, [⟨0, 1, sampleSha1 [0x61]⟩], [0x61], nodup_onceEntries, bounded_onceEntries⟩]
  kv := KVStore.empty.update .start (keyOf .start (sampleSha1 [0x61])) 0
  versions := versions
  sparse := sparse
  manifest := some [(0, jobid)]

end UniDedup.Node
