import UniDedup.Node.Hygiene

/-!
# Segment ids

The id of a segment packs the number of its version, the offset of its first flag in the recipe and its number of chunks
into fields of 16, 32 and 16 bits of a signed word, and nothing checks that they fit. Whatever a node has backed up, the
recipes are sequences of blocks; the id that `append_segment_flag` returns for a block gives back its three fields just if
the version is below `2 ^ 15`, the offset below `2 ^ 32` and the number of chunks below `2 ^ 16`. When this is so for all
segments, all ids differ and `prefetch_segments` reads the segment of the id and those behind it.

The version number comes first to its limit: after 32768 backups of a small file, the next one gets ids with a negative version.
-/

namespace UniDedup.Node

open Outcome Transition

def idToSize (id : ℤ) : ℤ := id % 2 ^ 16

/-! ## Fields -/

section Fields

variable {bid off size : ℕ}

/-- **The three fields of an id** are those it was made of just if they fit. -/
theorem decode_iff :
    (idToBnum (makeSegmentId bid off size) = bid ∧ idToOff (makeSegmentId bid off size) = off ∧
      idToSize (makeSegmentId bid off size) = size) ↔ bid < 2 ^ 15 ∧ off < 2 ^ 32 ∧ size < 2 ^ 16 := by
  have hlow := @Int.le_bmod (bid * 2 ^ 48 + off * 2 ^ 16 + size) (2 ^ 64) (by decide)
  have hhigh := @Int.bmod_lt (bid * 2 ^ 48 + off * 2 ^ 16 + size) (2 ^ 64) (by decide)
  constructor
  · rintro ⟨hbnum, hoff, hsize⟩
    rw [idToBnum, makeSegmentId] at hbnum
    rw [idToOff, makeSegmentId] at hoff
    rw [idToSize, makeSegmentId] at hsize
    generalize Int.bmod (bid * 2 ^ 48 + off * 2 ^ 16 + size) (2 ^ 64) = id at *
    omega
  · rintro ⟨hbnum, hoff, hsize⟩
    have hid : makeSegmentId bid off size = (bid * 2 ^ 48 + off * 2 ^ 16 + size : ℤ) := by
      rw [makeSegmentId, Int.bmod_eq_of_le] <;> omega
    rw [idToBnum, idToOff, idToSize, hid]
    omega

end Fields

/-! ## The segments of a recipe -/

/-- The version when its recipe had `n` records. -/
def BackupVersion.writtenTo (b : BackupVersion) (n : ℕ) : BackupVersion := { b with recipe := b.recipe.take n }

/-- A segment in its recipe: the pointers of the segments before it, its own, and those of the segments behind it. -/
structure Placed where
  bv : BackupVersion
  before : List (List ChunkPointer)
  pointers : List ChunkPointer
  behind : List (List ChunkPointer)

namespace Placed

/-- The number of records before the segment. -/
def pos (p : Placed) : ℕ := (p.before.flatMap segmentBlock).length

/-- What `append_segment_flag` returns for the segment. -/
def id (p : Placed) : ℤ := ((p.bv.writtenTo p.pos).appendSegmentStart p.pointers.length).1

/-- The segment stands in the recipe of one of the versions. -/
def Stands (versions : List BackupVersion) (p : Placed) : Prop :=
  p.bv ∈ versions ∧ Laid (p.before ++ p.pointers :: p.behind) p.bv

/-- The fields of the id are wide enough. -/
def Fits (p : Placed) : Prop := p.bv.bvNum < 2 ^ 15 ∧ recordSize * p.pos < 2 ^ 32 ∧ p.pointers.length < 2 ^ 16

/-- The id stands for the segment. -/
structure Faithful (versions : List BackupVersion) (p : Placed) : Prop where
  bnum : idToBnum p.id = p.bv.bvNum
  off : idToOff p.id = (recordSize * p.pos : ℕ)
  size : idToSize p.id = p.pointers.length
  real : p.id ≠ temporaryId
  distinct : ∀ q : Placed, q.Stands versions → (q.bv ≠ p.bv ∨ q.pos ≠ p.pos) → q.id ≠ p.id
  /-- The segment and up to `n` behind it, in the order of the recipe. -/
  prefetch : ∀ n, prefetchSegments versions p.id (n + 1) =
    .ok (segmentAt p.bv.bvNum p.pos p.pointers ::
      layout p.bv.bvNum (p.pos + p.pointers.length + 2) (p.behind.take n))
  /-- A fingerprint is mapped to the container of the last chunk that has it. -/
  lookup : ∀ fp, (segmentAt p.bv.bvNum p.pos p.pointers).lookup fp =
    (p.pointers.reverse.find? fun cp ↦ cp.fp = fp).map ChunkPointer.id

end Placed

/-- The recipes are sequences of blocks, and no two versions have one number. -/
structure Segmented (versions : List BackupVersion) : Prop where
  laid : ∀ b ∈ versions, ∃ pss, Laid pss b
  nodup : (versions.map BackupVersion.bvNum).Nodup
  bound : ∀ b ∈ versions, b.bvNum < versions.length

/-! ## Prefetching -/

theorem readSegments_take (bvNum : ℤ) {pss : List (List ChunkPointer)} {pre : List ChunkPointer} {n : ℕ}
    (h : ∀ ps ∈ pss, ∀ cp ∈ ps, 0 ≤ cp.id) :
    readSegments bvNum (pre ++ pss.flatMap segmentBlock) n pre.length = .ok (layout bvNum pre.length (pss.take n)) := by
  induction n generalizing pss pre with
  | zero => rw [List.take_zero, readSegments, layout]
  | succ n ih =>
    cases pss with
    | nil =>
      rw [List.flatMap_nil, List.append_nil, readSegments, readSegment, List.drop_length]
      rfl
    | cons ps pss =>
      have hrest := @ih pss (pre ++ segmentBlock ps) fun qs hqs ↦ h qs (List.mem_cons_of_mem _ hqs)
      rw [List.append_assoc, List.length_append, length_segmentBlock, ← Nat.add_assoc] at hrest
      rw [List.flatMap_cons, readSegments, readSegment_block bvNum (h ps List.mem_cons_self), List.take_succ_cons, layout]
      change (readSegments bvNum (pre ++ (segmentBlock ps ++ pss.flatMap segmentBlock)) n (pre.length + ps.length + 2) >>=
        fun srs ↦ Except.ok (segmentAt bvNum pre.length ps :: srs)) = _
      rw [hrest]
      rfl

namespace Placed

variable {versions : List BackupVersion} {p q : Placed}

theorem Stands.laid (h : p.Stands versions) : Laid (p.before ++ p.pointers :: p.behind) p.bv := h.2

theorem id_eq (h : p.Stands versions) : p.id = makeSegmentId p.bv.bvNum (recordSize * p.pos : ℕ) p.pointers.length := by
  have hlength : (p.bv.recipe.take p.pos).length = p.pos := by
    rw [h.laid.recipe, List.flatMap_append, pos, List.take_left]
  rw [id, BackupVersion.appendSegmentStart, BackupVersion.writtenTo, hlength]

theorem lookup_eq (fp : Fingerprint) : (segmentAt p.bv.bvNum p.pos p.pointers).lookup fp =
    (p.pointers.reverse.find? fun cp ↦ cp.fp = fp).map ChunkPointer.id := by
  rw [SegmentRecipe.lookup, segmentAt, ← List.map_reverse, List.find?_map, Option.map_map]
  rfl

theorem prefetch_eq (hs : Segmented versions) (h : p.Stands versions) (hbnum : idToBnum p.id = p.bv.bvNum)
    (hoff : idToOff p.id = (recordSize * p.pos : ℕ)) (hreal : p.id ≠ temporaryId) (n : ℕ) :
    prefetchSegments versions p.id (n + 1) =
      .ok (segmentAt p.bv.bvNum p.pos p.pointers ::
        layout p.bv.bvNum (p.pos + p.pointers.length + 2) (p.behind.take n)) := by
  have hfind : versions.find? (fun b ↦ (b.bvNum : ℤ) = p.bv.bvNum) = some p.bv := by
    have hsome : (versions.find? fun b ↦ (b.bvNum : ℤ) = p.bv.bvNum).isSome :=
      List.find?_isSome.mpr ⟨p.bv, h.1, decide_eq_true rfl⟩
    obtain ⟨b, hb⟩ := Option.isSome_iff_exists.mp hsome
    have hnum := List.find?_some hb
    rw [decide_eq_true_eq] at hnum
    rw [hb, List.inj_on_of_nodup_map hs.nodup (List.mem_of_find?_eq_some hb) h.1 (Int.ofNat.inj hnum)]
  have hread : readSegments p.bv.bvNum p.bv.recipe (n + 1) p.pos =
      .ok (segmentAt p.bv.bvNum p.pos p.pointers ::
        layout p.bv.bvNum (p.pos + p.pointers.length + 2) (p.behind.take n)) := by
    rw [h.laid.recipe, List.flatMap_append]
    exact readSegments_take _ fun ps hps ↦ h.laid.pointers ps (List.mem_append_right _ hps)
  have hpos : recordSize * p.pos / recordSize = p.pos := Nat.mul_div_cancel_left _ (by decide)
  simp only [prefetchSegments, bind_eq_ok, check_eq_ok, getOr_eq_ok, hoff, hbnum, Int.toNat_natCast, hpos]
  exact ⟨⟨⟩, hreal, p.bv, hfind, ⟨⟩, .inr (Nat.mul_mod_right ..), _, hread, ⟨⟩, .inr (List.cons_ne_nil _ _), rfl⟩

/-- **When all fields fit**, all ids are faithful, and only then. -/
theorem faithful_iff_once (hs : Segmented versions) :
    (∀ p : Placed, p.Stands versions → p.Faithful versions) ↔ ∀ p : Placed, p.Stands versions → p.Fits := by
  have hdecode : ∀ p : Placed, p.Stands versions → ((idToBnum p.id = p.bv.bvNum ∧
      idToOff p.id = (recordSize * p.pos : ℕ) ∧ idToSize p.id = p.pointers.length) ↔ p.Fits) := fun p hp ↦ by
    rw [id_eq hp]
    exact decode_iff
  constructor
  · intro h p hp
    have hf := h p hp
    exact (hdecode p hp).mp ⟨hf.bnum, hf.off, hf.size⟩
  · intro h p hp
    obtain ⟨hbnum, hoff, hsize⟩ := (hdecode p hp).mpr (h p hp)
    have hreal : p.id ≠ temporaryId := by
      intro htemp
      rw [htemp] at hbnum
      exact absurd hbnum (by rw [temporaryId, idToBnum]; omega)
    refine ⟨hbnum, hoff, hsize, hreal, fun q hq hne hid ↦ ?_, prefetch_eq hs hp hbnum hoff hreal, lookup_eq⟩
    obtain ⟨hbnum', hoff', -⟩ := (hdecode q hq).mpr (h q hq)
    rw [hid] at hbnum' hoff'
    rcases hne with hne | hne
    · exact hne (List.inj_on_of_nodup_map hs.nodup hq.1 hp.1 (Int.ofNat.inj (hbnum'.symm.trans hbnum)))
    · have hpos : recordSize * q.pos = recordSize * p.pos := Int.ofNat.inj (hoff'.symm.trans hoff)
      exact hne (Nat.eq_of_mul_eq_mul_left (by decide) hpos)

end Placed

/-! ## Every run -/

namespace Segmented

variable {b b' : BackupVersion} {versions : List BackupVersion}

theorem create (h : Segmented versions) : Segmented (.create versions.length :: versions) where
  laid b hb := by
    rcases List.mem_cons.mp hb with rfl | hb
    · exact ⟨[], rfl, fun _ h ↦ absurd h List.not_mem_nil⟩
    · exact h.laid b hb
  nodup := by
    rw [List.map_cons, List.nodup_cons]
    refine ⟨fun hmem ↦ ?_, h.nodup⟩
    obtain ⟨b, hb, heq⟩ := List.mem_map.mp hmem
    exact absurd heq (h.bound b hb).ne
  bound b hb := by
    rw [List.length_cons]
    rcases List.mem_cons.mp hb with rfl | hb
    · exact Nat.lt_succ_self _
    · exact (h.bound b hb).trans (Nat.lt_succ_self _)

/-- The version being written is replaced by one whose recipe is a sequence of blocks as well. -/
theorem replace (h : Segmented (b :: versions)) (hnum : b'.bvNum = b.bvNum) (hlaid : ∃ pss, Laid pss b') :
    Segmented (b' :: versions) where
  laid b₁ hb₁ := by
    rcases List.mem_cons.mp hb₁ with rfl | hb₁
    · exact hlaid
    · exact h.laid b₁ (List.mem_cons_of_mem _ hb₁)
  nodup := by
    rw [List.map_cons, hnum]
    exact h.nodup
  bound b₁ hb₁ := by
    rcases List.mem_cons.mp hb₁ with rfl | hb₁
    · rw [hnum]
      exact h.bound b List.mem_cons_self
    · exact h.bound b₁ (List.mem_cons_of_mem _ hb₁)

theorem congr (h : Segmented (b :: versions)) (hnum : b'.bvNum = b.bvNum) (hrecipe : b'.recipe = b.recipe) :
    Segmented (b' :: versions) := by
  obtain ⟨pss, hl⟩ := h.laid b List.mem_cons_self
  exact h.replace hnum ⟨pss, hrecipe.trans hl.recipe, hl.pointers⟩

/-! ### The turns -/

section Turns

variable {cfg : Config} {sha1 : Bytes → Fingerprint} {cl : Client} {core : Core} {segs : List (List Chunk)}
  {s s' rest : List Chunk}

/-- **A segment is filtered**: a block is appended to the recipe. -/
theorem filter (hs : Safe sha1 cl ⟨core, s :: segs, rest⟩) (h : Segmented (core.bv :: core.versions))
    (hm : Marked cfg s s') :
    Post (core.filterSegment cfg s') (fun core' ↦ Segmented (core'.bv :: core'.versions)) fun _ ↦ True := by
  rw [Core.filterSegment]
  refine ((hs.consult hm).mono (fun _ h ↦ h) fun _ h ↦ h.elim).bind fun cs ⟨hcs, hc⟩ ↦ ?_
  refine ((hs.filterChunks hm hcs hc).mono (fun _ h ↦ h) fun _ _ ↦ trivial).bind ?_
  rintro ⟨core₁, t, out⟩ hloop
  have hloop : FilterLoop sha1 (Sent cl) core cs out core₁ t := hloop
  refine ((hs.updateBuffer hm hcs hloop).mono (fun _ h ↦ h) fun _ h ↦ h.elim).bind fun b _ ↦ ?_
  refine ((hs.record hm hcs hloop b).mono (fun _ h ↦ h) fun _ h ↦ h.elim).bind fun ⟨sid, core₂⟩ hrec ↦ ?_
  refine Core.post_updateSegmentIndex (fun kv _ _ ↦ ?_) fun _ ↦ trivial
  have hframe := hrec.records.frame
  dsimp only at hframe
  have hversions : core₂.versions = core.versions := by rw [hframe, hloop.frame]
  have hbv : core₁.bv = core.bv := by rw [hloop.frame]
  have hnum : core₂.bv.bvNum = core₁.bv.bvNum := hrec.records.bvNum
  have hrecipe : core₂.bv.recipe = core₁.bv.recipe ++ segmentRecords out := hrec.recipe
  rw [hbv] at hnum hrecipe
  rw [segmentRecords_eq] at hrecipe
  obtain ⟨pss, hl⟩ := h.laid core.bv List.mem_cons_self
  simp only [hversions]
  refine h.replace hnum ⟨_, hl.append (fun cp hcp ↦ ?_) hrecipe⟩
  obtain ⟨c, hc, rfl⟩ := List.mem_map.mp hcp
  exact (Safe.held_out hloop hc).nonneg

theorem flush (h : Segmented (core.bv :: core.versions)) :
    Post (core.finalFlush cfg) (fun core' ↦ Segmented (core'.bv :: core'.versions)) fun _ ↦ True := by
  exact Core.post_finalFlush h fun _ _ _ ↦ Core.post_submitContainer (fun _ _ _ ↦ h) fun _ ↦ trivial

theorem lookup (h : Segmented (core.bv :: core.versions)) :
    Post (core.lookup cfg s) (fun r ↦ Segmented (r.1.bv :: r.1.versions)) fun _ ↦ True := by
  exact Core.post_lookup fun _ _ ↦ h

end Turns

end Segmented

/-- **The recipes as a contract**, on top of safety. -/
def segmentation (cfg : Config) (sha1 : Bytes → Fingerprint) : Contract cfg sha1 .any where
  idle cl d := SafeDisk sha1 cl d ∧ Segmented d.versions
  busy cl x := Safe sha1 cl x ∧ Segmented (x.core.bv :: x.core.versions)
  abort _ := True
  start := ⟨(safety cfg sha1 .any).start, fun _ h ↦ absurd h List.not_mem_nil, .nil,
    fun _ h ↦ absurd h List.not_mem_nil⟩
  backup cl d files h := ⟨h.1.backup files, h.2.create⟩
  turn cl x r h ht := by
    have hsegmented : Post r (fun x ↦ Segmented (x.core.bv :: x.core.versions)) fun _ ↦ True := by
      cases ht with
      | stay => exact h.2
      | lookup => exact Post.map (Post.mapError h.2.lookup)
      | skip => exact h.2
      | filter hm _ => exact Post.map (Post.mapError (h.2.filter h.1 hm))
      | flush => exact Post.map (Post.mapError h.2.flush)
      | append happ =>
        obtain ⟨st, -, rfl⟩ := Option.map_eq_some_iff.mp happ
        exact h.2
      | rewriteAbort => trivial
    exact (((safety cfg sha1 _).turn cl x r h.1 ht).and hsegmented).mono (fun _ h ↦ h) fun _ _ ↦ trivial
  finish cl core h hq hbuf := ⟨h.1.close hq hbuf, h.2.congr rfl rfl⟩
  delete cl d jobid h hdel := by
    have hsegmented : Post (doDelete cfg d jobid) (fun d' ↦ Segmented d'.versions) fun _ ↦ True := by
      refine post_of_forall (fun d' hd' ↦ ?_) fun _ _ ↦ trivial
      obtain ⟨_, _, _, kv, -, -, -, -, -, rfl⟩ := doDelete_eq_ok hd'
      exact h.2
    exact (((safety cfg sha1 _).delete cl d jobid h.1 hdel).and hsegmented).mono (fun _ h ↦ h) fun _ _ ↦ trivial

/-- The versions with their recipes, the one being written first. -/
def NodeState.versions : NodeState → List BackupVersion
  | .idle d => d.versions
  | .running j => j.core.bv :: j.core.versions
  | .aborted _ => []

theorem segmented_of_reachable {cfg : Config} {sha1 : Bytes → Fingerprint} {queueSize : ℕ} {s : State}
    (h : (node cfg sha1 queueSize).Reachable s) : Segmented s.node.versions := by
  have hat := (segmentation cfg sha1).holds_reachable h
  cases hn : s.node with
  | idle d => exact (Contract.at_idle hat hn).2
  | running j =>
    obtain ⟨x, hf, hb⟩ := Contract.at_running hat hn
    rw [NodeState.versions, ← hf.core]
    exact hb.2
  | aborted e =>
    exact ⟨fun _ h ↦ absurd h List.not_mem_nil, .nil, fun _ h ↦ absurd h List.not_mem_nil⟩

/-! ## Many versions of one file -/

set_option maxRecDepth 100000 in
theorem run_onceFiles_start : (node .start sampleSha1 1000).run .start (.backup onceFiles :: turns 11 12 7 2) =
    some ⟨⟨[onceFiles], 0⟩, .idle (onceDisk [onceVersion 0] [sparseContainers .start [(0, 1)]] 0)⟩ := rfl

set_option maxRecDepth 100000 in
theorem run_onceFiles (cl : Client) (versions : List BackupVersion) (sparse : List (List (ℤ × ℕ))) (jobid : ℕ) :
    (node .start sampleSha1 1000).run ⟨cl, .idle (onceDisk versions sparse jobid)⟩ (.backup onceFiles :: turns 11 12 7 0) =
      some ⟨{ cl with sent := onceFiles :: cl.sent }, .idle (onceDisk (onceVersion versions.length :: versions)
        (sparseContainers .start [(0, 1)] :: sparse) versions.length)⟩ := rfl

theorem exists_onceVersion (n : ℕ) : ∃ cl versions sparse jobid, versions.length = n ∧
    (node .start sampleSha1 1000).Reachable
      ⟨cl, .idle (onceDisk (onceVersion n :: versions) sparse jobid)⟩ := by
  induction n with
  | zero => exact ⟨_, [], _, _, rfl, System.Reachable.run (.init rfl) run_onceFiles_start⟩
  | succ n ih =>
    obtain ⟨cl, versions, sparse, jobid, hlength, hreach⟩ := ih
    have hrun := run_onceFiles cl (onceVersion n :: versions) sparse jobid
    rw [List.length_cons, hlength] at hrun
    exact ⟨_, _, _, _, by rw [List.length_cons, hlength], hreach.run hrun⟩

/-! ## Segment ids in every run -/

/-- **Segment ids are faithful** in a state of a run just if all fields fit. -/
theorem segment_ids_faithful_iff {cfg : Config} {sha1 : Bytes → Fingerprint} {queueSize : ℕ} {s : State}
    (h : (node cfg sha1 queueSize).Reachable s) :
    (∀ b ∈ s.node.versions, ∃ pss, Laid pss b) ∧
      ((∀ p : Placed, p.Stands s.node.versions → p.Faithful s.node.versions) ↔
        ∀ p : Placed, p.Stands s.node.versions → p.Fits) :=
  ⟨(segmented_of_reachable h).laid, Placed.faithful_iff_once (segmented_of_reachable h)⟩

theorem Placed.fits_of_short {versions : List BackupVersion} {p : Placed} (h : p.Stands versions)
    (hshort : ∀ b ∈ versions, b.bvNum < 2 ^ 15 ∧ b.recipe.length < 2 ^ 16) : p.Fits := by
  obtain ⟨hbnum, hlength⟩ := hshort p.bv h.1
  have hrecipe : p.bv.recipe.length = p.pos + (p.pointers.length + 2 + (p.behind.flatMap segmentBlock).length) := by
    rw [h.laid.recipe, List.flatMap_append, List.length_append, List.flatMap_cons, List.length_append, length_segmentBlock,
      pos]
  refine ⟨hbnum, ?_, by omega⟩
  rw [recordSize]
  omega

def pairConfig : Config := { Config.start with segmentSize := 2 }

/-- A file of three chunks is backed up twice, so each of the two versions has two segments. They all fit, so all four ids are
faithful. -/
theorem segment_ids_faithful_iff_twice :
    ∃ s, (node pairConfig sampleSha1 1000).Reachable s ∧
      s.node.versions.map (fun b ↦ b.segments.map fun sr ↦ (idToBnum sr.id, idToOff sr.id, idToSize sr.id)) =
        [[(1, 0, 2), (1, 128, 1)], [(0, 0, 2), (0, 128, 1)]] ∧
      ((∀ b ∈ s.node.versions, ∃ pss, Laid pss b) ∧
        ((∀ p : Placed, p.Stands s.node.versions → p.Faithful s.node.versions) ↔
          ∀ p : Placed, p.Stands s.node.versions → p.Fits)) ∧
      ∀ p : Placed, p.Stands s.node.versions → p.Faithful s.node.versions := by
  have hrun : ((node pairConfig sampleSha1 1000).run .start
      (.backup sampleFiles :: turns 19 20 12 2 ++ .backup sampleFiles :: turns 19 20 12 0)).any
      (fun s ↦ s.node.versions.map (fun b ↦ b.segments.map fun sr ↦ (idToBnum sr.id, idToOff sr.id, idToSize sr.id)) =
          [[(1, 0, 2), (1, 128, 1)], [(0, 0, 2), (0, 128, 1)]] &&
        s.node.versions.all fun b ↦ b.bvNum < 2 ^ 15 ∧ b.recipe.length < 2 ^ 16) = true := by
    decide +kernel
  obtain ⟨s, hs, hp⟩ := System.Reachable.exists_of_run (.init rfl) _ hrun
  simp only [Bool.and_eq_true, decide_eq_true_eq, List.all_eq_true] at hp
  have hfaithful := segment_ids_faithful_iff hs
  exact ⟨s, hs, hp.1, hfaithful, hfaithful.2.mpr fun p h ↦ Placed.fits_of_short h hp.2⟩

/-- The version after 32768 backups is read as a negative one. -/
theorem not_faithful_many_versions : ∃ s, (node .start sampleSha1 1000).Reachable s ∧
    ¬∀ p : Placed, p.Stands s.node.versions → p.Faithful s.node.versions := by
  obtain ⟨cl, versions, sparse, jobid, -, hreach⟩ := exists_onceVersion 32768
  refine ⟨_, hreach, fun h ↦ ?_⟩
  have hstands : Placed.Stands (onceVersion 32768 :: versions) ⟨onceVersion 32768, [], [oncePointer], []⟩ :=
    ⟨List.mem_cons_self, rfl, fun ps hps cp hcp ↦ by
      rw [List.mem_singleton.mp hps] at hcp
      rw [List.mem_singleton.mp hcp]
      exact le_rfl⟩
  exact absurd (h _ hstands).bnum (by decide +kernel)

end UniDedup.Node
