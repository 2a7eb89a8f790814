import UniDedup.Client.Grouping
import UniDedup.Chunking.LookAhead
import UniDedup.Lib.Fold

/-!
# The sizes of groups

`split2Groups` adds up the sizes of the chunks of a group in an unsigned 32-bit variable, hands the sum to
`new_group` as an `int`, from which it is converted to `size_t` for `malloc`, and copies the chunks one behind the
other at an offset that is an `int`. `UniDedup.Client.Group` has the groups as they should be; here they are built
with this arithmetic.

All goes well as long as no group has `2 ^ 31` bytes. From there on the `int` is negative, and `malloc` is asked for
nearly `2 ^ 64` bytes.

## Which sizes cut

The chunks themselves come from `chunkPhase`, and a file that is not empty is cut just if the configuration is one
of `Cutting`: the largest chunk is not empty, a block and a chunk together have less than `2 ^ 31` bytes, and a
content-defined algorithm has a positive minimum. With fixed chunks of average 0 nothing is ever loaded, so the file
is taken to be at its end before it was begun.
-/

namespace UniDedup.Client

open UniDedup.Chunking

/-- `malloc`. No request above `PTRDIFF_MAX` is granted; for smaller ones the memory is taken to suffice. What it
contains does not matter. -/
def malloc (n : ℕ) : Option Bytes := if n < 2 ^ 63 then some (List.replicate n 0) else none

/-- The conversion of an `int` to `size_t`. -/
def toSizeT (x : Int32) : ℕ := (x.toInt % 2 ^ 64).toNat

/-- `struct group` with its sizes. -/
structure SizedGroup where
  group : Group
  size : UInt32
  /-- The length of the memory at `data`. -/
  room : ℕ

/-- The sum of the sizes of the chunks, `size` in `split2Groups`. -/
def sumSizes (cs : List Chunk) : UInt32 := cs.foldl (fun size c ↦ size + UInt32.ofNat c.data.length) 0

/-- One iteration of the loop that copies the chunks: the memory and `offset`. It fails when the bytes do not fit. -/
def copyChunk (st : Bytes × Int32) (c : Chunk) : Option (Bytes × Int32) :=
  let (mem, offset) := st
  let size := UInt32.ofNat c.data.length
  if 0 ≤ offset.toInt ∧ offset.toInt.toNat + size.toNat ≤ mem.length then
    some (memcpy mem offset.toInt.toNat (c.data.take size.toNat), (offset.toUInt32 + size).toInt32)
  else none

/-- What `split2Groups` does with the chunks of a group, `new_group` included. A null pointer from `malloc` is
followed. -/
def closeGroup (filename : Name) (route : Routing) (id : ℕ) (delegate : Fingerprint) (cs : List Chunk) :
    Option SizedGroup := do
  let size := (sumSizes cs).toInt32
  let mem ← malloc (toSizeT size)
  let (data, _) ← cs.foldlM copyChunk (mem, 0)
  return ⟨newGroup filename id delegate (route id delegate cs) data, size.toUInt32, mem.length⟩

/-- The locals of the loop of `split2Groups`. -/
structure SizedState where
  /-- `chunkList`, the first `groupCnt` entries. -/
  chunkList : List Chunk
  id : ℕ
  result : List SizedGroup

/-- One iteration of the loop of `split2Groups`. -/
def splitStepSized (filename : Name) (route : Routing) (st : SizedState) (c : Chunk) : Option SizedState :=
  let chunkList := st.chunkList ++ [c]
  if chunkList.length = defaultGroupSize then do
    let gp ← closeGroup filename route st.id (delegateOfFull chunkList) chunkList
    return { chunkList := [], id := st.id + 1, result := st.result ++ [gp] }
  else some { st with chunkList := chunkList }

/-- `split2Groups`, with the arithmetic of the sizes. -/
def split2GroupsSized (filename : Name) (route : Routing) (chunks : List Chunk) : Option (List SizedGroup) := do
  let st ← chunks.foldlM (splitStepSized filename route) ⟨[], 0, []⟩
  if st.chunkList = [] then return st.result
  else
    let gp ← closeGroup filename route st.id (delegateOfLast st.chunkList) st.chunkList
    return st.result ++ [gp]

/-! ## The loop closes the runs of the file -/

section Split

variable (filename : Name) (route : Routing)

/-- The group of index `i` of a file. -/
def sizedGroupOf (chunks : List Chunk) (i : ℕ) : Option SizedGroup :=
  closeGroup filename route i (groupDelegate (groupRun chunks i)) (groupRun chunks i)

private theorem foldlM_splitStepSized (cs : List Chunk) :
    cs.foldlM (splitStepSized filename route) ⟨[], 0, []⟩ =
      ((List.range (cs.length / defaultGroupSize)).mapM (sizedGroupOf filename route cs)).map
        fun gs ↦ ⟨openRun cs, cs.length / defaultGroupSize, gs⟩ := by
  induction cs using List.reverseRecOn with
  | nil => rfl
  | append_singleton cs c ih =>
    have hgroups : ∀ i ∈ List.range (cs.length / defaultGroupSize),
        sizedGroupOf filename route (cs ++ [c]) i = sizedGroupOf filename route cs i := by
      intro i hi
      rw [sizedGroupOf, sizedGroupOf, groupRun_append [c] (List.mem_range.mp hi)]
    rw [List.foldlM_append, ih]
    by_cases hfull : (openRun cs ++ [c]).length = defaultGroupSize
    · obtain ⟨hdiv, hnil, hrun⟩ := openRun_concat_of_full hfull
      rw [hdiv, hnil, Fold.mapM_range_succ, Fold.mapM_congr hgroups, sizedGroupOf, hrun, groupDelegate, if_pos hfull]
      cases (List.range (cs.length / defaultGroupSize)).mapM (sizedGroupOf filename route cs) with
      | none => rfl
      | some gs =>
        simp only [Option.map_some, Option.bind_eq_bind, Option.bind_some, List.foldlM_cons, List.foldlM_nil,
          splitStepSized, if_pos hfull]
        cases closeGroup filename route (cs.length / defaultGroupSize) (delegateOfFull (openRun cs ++ [c]))
          (openRun cs ++ [c]) <;> rfl
    · obtain ⟨hdiv, hopen⟩ := openRun_concat_of_not_full hfull
      rw [hdiv, hopen, Fold.mapM_congr hgroups]
      cases (List.range (cs.length / defaultGroupSize)).mapM (sizedGroupOf filename route cs) with
      | none => rfl
      | some gs =>
        simp only [Option.map_some, Option.bind_eq_bind, Option.bind_some, List.foldlM_cons, List.foldlM_nil,
          splitStepSized, if_neg hfull]
        rfl

/-- **The groups are the runs of the file**, closed one after the other. -/
theorem split2GroupsSized_eq (chunks : List Chunk) :
    split2GroupsSized filename route chunks =
      (List.range (groupNum chunks.length)).mapM (sizedGroupOf filename route chunks) := by
  rw [split2GroupsSized, foldlM_splitStepSized]
  by_cases hnil : openRun chunks = []
  · rw [groupNum_of_openRun_eq_nil hnil]
    cases (List.range (chunks.length / defaultGroupSize)).mapM (sizedGroupOf filename route chunks) with
    | none => rfl
    | some gs => exact if_pos hnil
  · obtain ⟨hnum, hlt, hrun⟩ := groupNum_of_openRun_ne_nil hnil
    rw [hnum, Fold.mapM_range_succ, sizedGroupOf, hrun, groupDelegate, if_neg hlt.ne]
    cases (List.range (chunks.length / defaultGroupSize)).mapM (sizedGroupOf filename route chunks) with
    | none => rfl
    | some gs =>
      refine (if_neg hnil).trans ?_
      cases closeGroup filename route (chunks.length / defaultGroupSize) (delegateOfLast (openRun chunks))
        (openRun chunks) <;> rfl

end Split

/-! ## The arithmetic -/

section Sizes

variable {cs ds es : List Chunk} {filename : Name} {route : Routing} {id n : ℕ} {delegate : Fingerprint}
  {g : SizedGroup}

theorem sumSizes_eq (cs : List Chunk) : sumSizes cs = UInt32.ofNat (chunksData cs).length := by
  induction cs using List.reverseRecOn with
  | nil => rfl
  | append_singleton cs c ih =>
    have hconcat : sumSizes (cs ++ [c]) = sumSizes cs + UInt32.ofNat c.data.length := by
      rw [sumSizes, List.foldl_append]
      rfl
    rw [hconcat, ih, chunksData_append, chunksData_singleton, List.length_append, UInt32.ofNat_add]

theorem toInt_ofNat (hn : n < 2 ^ 31) : (UInt32.ofNat n).toInt32.toInt = n := by
  have htoNat : (UInt32.ofNat n).toBitVec.toNat = n := Nat.mod_eq_of_lt (by omega)
  change (UInt32.ofNat n).toBitVec.toInt = n
  rw [BitVec.toInt_eq_toNat_of_lt (by omega), htoNat]

theorem toSizeT_ofNat (hn : n < 2 ^ 31) : toSizeT (UInt32.ofNat n).toInt32 = n := by
  rw [toSizeT, toInt_ofNat hn]
  omega

/-- A sum that is no `int` never comes out right: it is wrapped, or negative and too large a request. -/
theorem toSizeT_ne (hn : 2 ^ 31 ≤ n) (hm : toSizeT (UInt32.ofNat n).toInt32 < 2 ^ 63) :
    toSizeT (UInt32.ofNat n).toInt32 ≠ n := by
  have htoNat : (UInt32.ofNat n).toBitVec.toNat = n % 2 ^ 32 := rfl
  have hint : (UInt32.ofNat n).toInt32.toInt = (UInt32.ofNat n).toBitVec.toInt := rfl
  rw [toSizeT, hint, BitVec.toInt_eq_toNat_cond, htoNat] at hm ⊢
  split_ifs at hm ⊢ <;> omega

theorem memcpy_length_append (xs src : Bytes) (m : ℕ) :
    memcpy (xs ++ List.replicate m 0) xs.length src = xs ++ src ++ List.replicate (m - src.length) 0 := by
  rw [memcpy, List.take_left, ← List.drop_drop, List.drop_left, List.drop_replicate, List.append_assoc]

theorem foldlM_copyChunk (hn : n < 2 ^ 31) (hle : (chunksData ds).length ≤ n) :
    ds.foldlM copyChunk (List.replicate n 0, 0) =
      some (chunksData ds ++ List.replicate (n - (chunksData ds).length) 0,
        (UInt32.ofNat (chunksData ds).length).toInt32) := by
  induction ds using List.reverseRecOn with
  | nil => rfl
  | append_singleton ds c ih =>
    rw [chunksData_append, chunksData_singleton, List.length_append] at hle ⊢
    have hsize : (UInt32.ofNat c.data.length).toNat = c.data.length := Nat.mod_eq_of_lt (by omega)
    have hoff : (UInt32.ofNat (chunksData ds).length).toInt32.toInt = (chunksData ds).length := toInt_ofNat (by omega)
    have hfit : 0 ≤ ((chunksData ds).length : ℤ) ∧ ((chunksData ds).length : ℤ).toNat + c.data.length ≤
        (chunksData ds ++ List.replicate (n - (chunksData ds).length) 0).length := by
      rw [List.length_append, List.length_replicate, Int.toNat_natCast]
      omega
    have hstep : copyChunk (chunksData ds ++ List.replicate (n - (chunksData ds).length) 0,
        (UInt32.ofNat (chunksData ds).length).toInt32) c =
          some (chunksData ds ++ c.data ++ List.replicate (n - ((chunksData ds).length + c.data.length)) 0,
            (UInt32.ofNat ((chunksData ds).length + c.data.length)).toInt32) := by
      rw [copyChunk]
      rw [hoff, hsize, if_pos hfit, Int.toNat_natCast, List.take_length, UInt32.toUInt32_toInt32, ← UInt32.ofNat_add,
        memcpy_length_append, Nat.sub_sub]
    rw [List.foldlM_append, ih (by omega), Option.bind_eq_bind, Option.bind_some, List.foldlM_cons, hstep]
    rfl

/-- What the sizes of a group should be. -/
structure Sized (run : List Chunk) (g : SizedGroup) : Prop where
  data : g.group.data = chunksData run
  size : g.size.toNat = (chunksData run).length
  room : g.room = (chunksData run).length
  /-- After every part of the chunks the offset is the number of their bytes. -/
  offset : ∀ ds es, run = ds ++ es → ∃ mem off, ds.foldlM copyChunk (List.replicate g.room 0, 0) = some (mem, off) ∧
    off.toInt = (chunksData ds).length

theorem closeGroup_of_lt (hlt : (chunksData cs).length < 2 ^ 31) :
    ∃ g, closeGroup filename route id delegate cs = some g ∧ Sized cs g ∧
      g.group = newGroup filename id delegate (route id delegate cs) (chunksData cs) := by
  have hcopy := @foldlM_copyChunk cs _ hlt le_rfl
  rw [Nat.sub_self, List.replicate_zero, List.append_nil] at hcopy
  refine ⟨⟨newGroup filename id delegate (route id delegate cs) (chunksData cs),
    UInt32.ofNat (chunksData cs).length, (List.replicate (chunksData cs).length (0 : UInt8)).length⟩, ?_,
    ⟨rfl, ?_, List.length_replicate, fun ds es hsplit ↦ ?_⟩, rfl⟩
  · have hmalloc : malloc (chunksData cs).length = some (List.replicate (chunksData cs).length 0) :=
      if_pos (by omega)
    rw [closeGroup, sumSizes_eq, toSizeT_ofNat hlt]
    simp only [hmalloc, Option.bind_eq_bind, Option.bind_some, hcopy, UInt32.toUInt32_toInt32]
    rfl
  · exact Nat.mod_eq_of_lt (by omega)
  · have hle : (chunksData ds).length ≤ (chunksData cs).length := by
      rw [hsplit, chunksData_append, List.length_append]
      exact Nat.le_add_right ..
    rw [List.length_replicate]
    exact ⟨_, _, foldlM_copyChunk hlt hle, toInt_ofNat (by omega)⟩

/-- A group that is built as it should be has less than `2 ^ 31` bytes. -/
theorem lt_of_closeGroup (h : closeGroup filename route id delegate cs = some g)
    (hroom : g.room = (chunksData cs).length) : (chunksData cs).length < 2 ^ 31 := by
  obtain ⟨mem, hmalloc, h⟩ := Option.bind_eq_some_iff.mp h
  obtain ⟨⟨data, off⟩, -, h⟩ := Option.bind_eq_some_iff.mp h
  obtain rfl := Option.some.inj h
  rw [malloc] at hmalloc
  split_ifs at hmalloc with hlt
  obtain rfl := Option.some.inj hmalloc
  rw [List.length_replicate, sumSizes_eq] at hroom
  rw [sumSizes_eq] at hlt
  by_contra hle
  exact toSizeT_ne (not_lt.mp hle) hlt hroom

end Sizes

/-! ## The groups of a file -/

section Groups

variable {filename : Name} {route : Routing} {chunks : List Chunk} {gs : List SizedGroup}

/-- What the groups of a file should be: its bytes in order, `DEFAULT_GROUP_SIZE` chunks in every group but the last,
and the right sizes. -/
structure Grouped (chunks : List Chunk) (gs : List SizedGroup) : Prop where
  content : gs.flatMap (fun g ↦ g.group.data) = chunksData chunks
  full : ∀ i, i + 1 < gs.length → (groupRun chunks i).length = defaultGroupSize
  sized : ∀ i g, gs[i]? = some g → Sized (groupRun chunks i) g

theorem length_groupRun {i : ℕ} (hi : i + 1 < groupNum chunks.length) :
    (groupRun chunks i).length = defaultGroupSize := by
  rw [groupRun, List.length_take, List.length_drop]
  simp only [groupNum, defaultGroupSize] at *
  omega

theorem flatMap_groupRun (chunks : List Chunk) :
    (List.range (groupNum chunks.length)).flatMap (groupRun chunks) = chunks := by
  refine (Slices.take_flatMap_piece defaultGroupSize ..).trans (List.take_of_length_le ?_)
  simp only [groupNum, defaultGroupSize]
  omega

/-- **When the groups of a file come out right**: when none of them has `2 ^ 31` bytes. -/
theorem grouped_iff (filename : Name) (route : Routing) (chunks : List Chunk) :
    (∃ gs, split2GroupsSized filename route chunks = some gs ∧ Grouped chunks gs) ↔
      ∀ i < groupNum chunks.length, (chunksData (groupRun chunks i)).length < 2 ^ 31 := by
  rw [split2GroupsSized_eq]
  constructor
  · rintro ⟨gs, hgs, hgrouped⟩ i hi
    have hlength := Fold.length_of_mapM hgs
    rw [List.length_range] at hlength
    have hget : gs[i]? = some gs[i] := List.getElem?_eq_getElem _
    obtain ⟨j, hj, hclose⟩ := Fold.getElem?_of_mapM hgs hget
    rw [List.getElem?_range hi] at hj
    obtain rfl := Option.some.inj hj
    exact lt_of_closeGroup hclose (hgrouped.sized _ _ hget).room
  · intro hlt
    have hclose : ∀ i, ∃ g, i < groupNum chunks.length → sizedGroupOf filename route chunks i = some g ∧
        Sized (groupRun chunks i) g := by
      intro i
      by_cases hi : i < groupNum chunks.length
      · obtain ⟨g, hg, hsized, -⟩ := @closeGroup_of_lt _ filename route i (groupDelegate (groupRun chunks i)) (hlt i hi)
        exact ⟨g, fun _ ↦ ⟨hg, hsized⟩⟩
      · exact ⟨⟨newGroup [] 0 (Fingerprint.fill 0) 0 [], 0, 0⟩, fun h ↦ absurd h hi⟩
    -- the groups are closed one after the other, and none depends on the one before
    choose g hg using hclose
    refine ⟨(List.range (groupNum chunks.length)).map g,
      Fold.mapM_eq_map fun i hi ↦ (hg i (List.mem_range.mp hi)).1, ?_, fun i hi ↦ ?_, fun i g' hg' ↦ ?_⟩
    · have hdata : ∀ i ∈ List.range (groupNum chunks.length), (g i).group.data = chunksData (groupRun chunks i) :=
        fun i hi ↦ (hg i (List.mem_range.mp hi)).2.data
      rw [List.flatMap_map, List.flatMap_congr hdata]
      conv_rhs => rw [← flatMap_groupRun chunks, chunksData, List.flatMap_assoc]
      rfl
    · rw [List.length_map, List.length_range] at hi
      exact length_groupRun hi
    · rw [List.getElem?_map] at hg'
      obtain ⟨j, hj, rfl⟩ := Option.map_eq_some_iff.mp hg'
      obtain ⟨hi, rfl⟩ := List.getElem?_eq_some_iff.mp hj
      rw [List.length_range] at hi
      rw [List.getElem_range]
      exact (hg i hi).2

/-- The largest chunk size `start_chunk_phase` leaves behind. -/
def largestChunk (conf : Config) : ℕ :=
  match conf.algorithm with
  | .fixed => conf.sizes.avg
  | .file => 4194304 - 32768
  | _ => conf.sizes.max

/-- The sizes with which something can be cut: a largest chunk that is not empty and leaves room for a block in an
`int`, and for a content-defined algorithm a minimum. -/
def Cutting (conf : Config) : Prop :=
  0 < largestChunk conf ∧ Chunking.defaultBlockSize + largestChunk conf < 2 ^ 31 ∧
    (conf.algorithm.ContentDefined → 0 < conf.sizes.min)

instance (conf : Config) : Decidable (Cutting conf) := inferInstanceAs (Decidable (_ ∧ _ ∧ _))

theorem chunks_replicate {s : Sizes} (havg : 0 < s.avg) (n : ℕ) :
    (fixedCutter havg).chunks (List.replicate (n * s.avg) 0) = List.replicate n (List.replicate s.avg 0) := by
  induction n with
  | zero =>
    rw [Nat.zero_mul]
    exact (fixedCutter havg).chunks_nil
  | succ n ih =>
    have hne : List.replicate s.avg (0 : UInt8) ≠ [] := by
      refine List.ne_nil_of_length_pos ?_
      rwa [List.length_replicate]
    rw [Nat.succ_mul, Nat.add_comm, List.replicate_add, (fixedCutter havg).chunks_append _ hne, ih,
      List.replicate_succ]
    change fixedChunkData s _ = _
    rw [fixedChunkData, List.length_append, List.length_replicate, if_neg (by omega)]

theorem length_chunksData_groupRun_le (cs : List Chunk) (i : ℕ) :
    (chunksData (groupRun cs i)).length ≤ (chunksData cs).length := by
  conv_rhs => rw [← List.take_append_drop (i * defaultGroupSize) cs,
    ← List.take_append_drop defaultGroupSize (cs.drop (i * defaultGroupSize)), chunksData_append, chunksData_append]
  rw [groupRun, List.length_append, List.length_append]
  omega

section File

variable {sha1 : Bytes → Fingerprint} {aeInit : ℕ → ℕ} {conf : Config} {blocks : List Bytes}

theorem maxSize_of_start {ph : Phase} (hstart : startChunkPhase aeInit conf = some ph) :
    ph.maxSize = largestChunk conf := by
  obtain ⟨alg, s⟩ := conf
  cases alg
  case rabin | normalizedRabin | tttd =>
    obtain ⟨avg, -, hph⟩ := Option.bind_eq_some_iff.mp hstart
    rw [← Option.some.inj hph]
    rfl
  all_goals
    rw [← Option.some.inj hstart]
    rfl

variable (aeInit) in
/-- The phase starts unless a content-defined algorithm has an average of zero. -/
theorem exists_start_iff :
    (∃ ph, startChunkPhase aeInit conf = some ph) ↔ (conf.algorithm.ContentDefined → 0 < conf.sizes.avg) := by
  obtain ⟨alg, s⟩ := conf
  by_cases havg : s.avg = 0 <;>
    cases alg <;> simp [startChunkPhase, roundAvg, ChunkAlgorithm.ContentDefined, havg, Nat.pos_iff_ne_zero]

variable (aeInit) in
theorem chunkPhase_spec (hstart : conf.algorithm.ContentDefined → 0 < conf.sizes.avg)
    (hcuts : blocks = [] ∨ Cutting conf) (hblocks : Blocks blocks) :
    ∃ chunks, chunkPhase aeInit conf blocks = some chunks ∧ chunks.flatten = blocks.flatten := by
  obtain ⟨ph, hph⟩ := (exists_start_iff aeInit).mpr hstart
  have hmax := maxSize_of_start hph
  rw [chunkPhase, hph, Option.bind_eq_bind, Option.bind_some]
  rcases hcuts with rfl | ⟨hpos, hlt, hmin⟩
  · refine ⟨[], ?_, rfl⟩
    rw [if_neg fun h ↦ h.1 rfl, chunkThread_eq_nil (.inl rfl)]
  · have hph' : ph.Takes := takes_of_start hmin (hmax ▸ hpos) hph
    obtain ⟨chunks, hthread, hcut⟩ := chunkThread_cut hph' hblocks
    refine ⟨chunks, ?_, hcut.flatten_eq⟩
    rw [if_neg, hthread]
    rintro ⟨-, hlarge | ⟨-, hzero, hcdc⟩⟩
    · rw [hmax] at hlarge
      omega
    · exact (hmin hcdc).ne' hzero

theorem of_chunkPhase (hblocks : Blocks blocks) {chunks : List Bytes}
    (h : chunkPhase aeInit conf blocks = some chunks) (hchunks : chunks.flatten = blocks.flatten) :
    (conf.algorithm.ContentDefined → 0 < conf.sizes.avg) ∧ (blocks = [] ∨ Cutting conf) := by
  obtain ⟨ph, hph, h⟩ := Option.bind_eq_some_iff.mp h
  have hmax := maxSize_of_start hph
  refine ⟨(exists_start_iff aeInit).mp ⟨ph, hph⟩, or_iff_not_imp_left.mpr fun hne ↦ ?_⟩
  split_ifs at h with hfail
  rw [hmax] at hfail
  have hpos : 0 < largestChunk conf := by
    by_contra hzero
    -- the thread ends before it has read a block
    rw [chunkThread_eq_nil (.inr (hmax.trans (Nat.eq_zero_of_not_pos hzero)))] at h
    rw [← Option.some.inj h, List.flatten_nil] at hchunks
    obtain ⟨block, rest, rfl⟩ := List.exists_cons_of_ne_nil hne
    rw [List.flatten_cons] at hchunks
    exact (hblocks block List.mem_cons_self).1 (List.append_eq_nil_iff.mp hchunks.symm).1
  refine ⟨hpos, ?_, fun hcdc ↦ ?_⟩
  · by_contra hlarge
    exact hfail ⟨hne, .inl (not_lt.mp hlarge)⟩
  · by_contra hmin
    exact hfail ⟨hne, .inr ⟨hpos, Nat.eq_zero_of_not_pos hmin, hcdc⟩⟩

/-- **When grouping loses nothing.** With sizes that cut, the chunks that are handed over make up the file, for every
algorithm and every way of reading the file in blocks. The groups made of them come out right if and only if the sizes
are of this kind, or the file is empty, and `DEFAULT_GROUP_SIZE` chunks in a row, from any multiple of this number on,
have less than `2 ^ 31` bytes. -/
theorem grouped_file_iff (sha1 : Bytes → Fingerprint) (aeInit : ℕ → ℕ) (conf : Config) (filename : Name)
    (route : Routing) {blocks : List Bytes} (hblocks : Blocks blocks) :
    ((conf.algorithm.ContentDefined → 0 < conf.sizes.avg) ∧ (blocks = [] ∨ Cutting conf) →
      ∃ chunks, chunkPhase aeInit conf blocks = some chunks ∧
        chunksData (hashPhase sha1 chunks) = blocks.flatten) ∧
    ((∃ chunks gs, chunkPhase aeInit conf blocks = some chunks ∧
        split2GroupsSized filename route (hashPhase sha1 chunks) = some gs ∧
        gs.flatMap (fun g ↦ g.group.data) = blocks.flatten ∧ Grouped (hashPhase sha1 chunks) gs) ↔
      (conf.algorithm.ContentDefined → 0 < conf.sizes.avg) ∧ (blocks = [] ∨ Cutting conf) ∧
        ∀ chunks, chunkPhase aeInit conf blocks = some chunks →
          ∀ i < groupNum chunks.length, (chunksData (groupRun (hashPhase sha1 chunks) i)).length < 2 ^ 31) := by
  have hdata : ∀ chunks, chunksData (hashPhase sha1 chunks) = chunks.flatten := fun chunks ↦ by
    rw [chunksData_eq_flatten, map_data_hashPhase]
  have hlength : ∀ chunks, (hashPhase sha1 chunks).length = chunks.length := fun chunks ↦ List.length_map _
  have hcontent : (conf.algorithm.ContentDefined → 0 < conf.sizes.avg) ∧ (blocks = [] ∨ Cutting conf) →
      ∃ chunks, chunkPhase aeInit conf blocks = some chunks ∧ chunksData (hashPhase sha1 chunks) = blocks.flatten := by
    rintro ⟨hstart, hcuts⟩
    obtain ⟨chunks, hphase, hflatten⟩ := chunkPhase_spec aeInit hstart hcuts hblocks
    exact ⟨chunks, hphase, (hdata chunks).trans hflatten⟩
  refine ⟨hcontent, ?_, ?_⟩
  · rintro ⟨chunks, gs, hphase, hgs, hflat, hgrouped⟩
    have hflatten : chunks.flatten = blocks.flatten := by rw [← hdata, ← hgrouped.content, hflat]
    obtain ⟨hstart, hcuts⟩ := of_chunkPhase hblocks hphase hflatten
    refine ⟨hstart, hcuts, fun chunks' hphase' ↦ ?_⟩
    obtain rfl : chunks = chunks' := Option.some.inj (hphase.symm.trans hphase')
    rw [← hlength]
    exact (grouped_iff filename route _).mp ⟨gs, hgs, hgrouped⟩
  · rintro ⟨hstart, hcuts, hlt⟩
    obtain ⟨chunks, hphase, hflat⟩ := hcontent ⟨hstart, hcuts⟩
    have hlt := hlt chunks hphase
    rw [← hlength] at hlt
    obtain ⟨gs, hgs, hgrouped⟩ := (grouped_iff filename route _).mpr hlt
    exact ⟨chunks, gs, hphase, hgs, hgrouped.content.trans hflat, hgrouped⟩

/-- With chunks of two bytes, 4100 bytes in two blocks are two full groups and a third one. The minimum is of no use to
chunks of one size, but an average of zero is. -/
theorem grouped_file_threeGroups :
    (∃ chunks gs, chunkPhase id ⟨.fixed, ⟨4, 2, 4⟩⟩ [List.replicate 3000 0, List.replicate 1100 0] = some chunks ∧
      split2GroupsSized ['f'] (fun _ _ _ ↦ 0) (hashPhase (fun _ ↦ Fingerprint.fill 0) chunks) = some gs ∧
      gs.length = 3 ∧ gs.flatMap (fun g ↦ g.group.data) = List.replicate 4100 0 ∧
      Grouped (hashPhase (fun _ ↦ Fingerprint.fill 0) chunks) gs) ∧
    ¬∃ chunks gs, chunkPhase id ⟨.fixed, ⟨4, 0, 4⟩⟩ [[1], [2, 3]] = some chunks ∧
      split2GroupsSized ['f'] (fun _ _ _ ↦ 0) (hashPhase (fun _ ↦ Fingerprint.fill 0) chunks) = some gs ∧
      gs.flatMap (fun g ↦ g.group.data) = [1, 2, 3] ∧ Grouped (hashPhase (fun _ ↦ Fingerprint.fill 0) chunks) gs := by
  have hpair : ∀ a b : Bytes, 0 < a.length → a.length ≤ Chunking.defaultBlockSize → 0 < b.length →
      b.length ≤ Chunking.defaultBlockSize → Blocks [a, b] := by
    intro a b ha hla hb hlb block hblock
    rcases List.mem_pair.mp hblock with rfl | rfl
    · exact ⟨List.ne_nil_of_length_pos ha, hla⟩
    · exact ⟨List.ne_nil_of_length_pos hb, hlb⟩
  constructor
  · have hblocks : Blocks [List.replicate 3000 0, List.replicate 1100 0] := by
      refine hpair _ _ ?_ ?_ ?_ ?_ <;> rw [List.length_replicate] <;> decide
    have hflatten : [List.replicate 3000 (0 : UInt8), List.replicate 1100 0].flatten =
        List.replicate (2050 * 2) 0 := by
      rw [List.flatten_cons, List.flatten_cons, List.flatten_nil, List.append_nil, ← List.replicate_add]
    have hphase : chunkPhase id ⟨.fixed, ⟨4, 2, 4⟩⟩ [List.replicate 3000 0, List.replicate 1100 0] =
        some (List.replicate 2050 (List.replicate 2 0)) := by
      have hcuts : Phase.Cuts ⟨fixedChunkData ⟨4, 2, 4⟩, 2⟩ (fixedCutter (s := ⟨4, 2, 4⟩) Nat.two_pos) := ⟨rfl, rfl⟩
      have hsizes : ¬(2 ^ 31 ≤ Chunking.defaultBlockSize + 2 ∨
          0 < 2 ∧ 4 = 0 ∧ ChunkAlgorithm.fixed.ContentDefined) := by decide
      have hstart : startChunkPhase id ⟨.fixed, ⟨4, 2, 4⟩⟩ = some ⟨fixedChunkData ⟨4, 2, 4⟩, 2⟩ := rfl
      rw [chunkPhase, hstart, Option.bind_eq_bind, Option.bind_some, if_neg fun h ↦ hsizes h.2,
        chunkThread_eq hcuts hblocks, hflatten]
      exact congrArg some (chunks_replicate (s := ⟨4, 2, 4⟩) Nat.two_pos 2050)
    obtain ⟨hcontent, hiff⟩ := grouped_file_iff (fun _ ↦ Fingerprint.fill 0) id ⟨.fixed, ⟨4, 2, 4⟩⟩ ['f']
      (fun _ _ _ ↦ 0) hblocks
    obtain ⟨chunks, gs, hchunks, hgs, hflat, hgrouped⟩ := hiff.mpr ⟨by decide, .inr (by decide), fun chunks hchunks i _ ↦ by
      obtain ⟨chunks', hchunks', hdata⟩ := hcontent ⟨by decide, .inr (by decide)⟩
      obtain rfl : chunks = chunks' := Option.some.inj (hchunks.symm.trans hchunks')
      refine (length_chunksData_groupRun_le _ i).trans_lt ?_
      rw [hdata, hflatten, List.length_replicate]
      decide⟩
    refine ⟨chunks, gs, hchunks, hgs, ?_, hflat.trans hflatten, hgrouped⟩
    rw [split2GroupsSized_eq] at hgs
    rw [Fold.length_of_mapM hgs, List.length_range, hashPhase, List.length_map,
      ← Option.some.inj (hphase.symm.trans hchunks), List.length_replicate]
    decide
  · have hblocks : Blocks [[1], [2, 3]] :=
      hpair [1] [2, 3] (by decide) (by decide) (by decide) (by decide)
    intro h
    obtain ⟨-, hcuts, -⟩ := (grouped_file_iff (fun _ ↦ Fingerprint.fill 0) id ⟨.fixed, ⟨4, 0, 4⟩⟩ ['f']
      (fun _ _ _ ↦ 0) hblocks).2.mp h
    exact absurd hcuts (by decide)

end File

end Groups

/-! ## A group that is too large -/

section Large

variable {cs : List Chunk} {filename : Name} {route : Routing} {id : ℕ} {delegate : Fingerprint}

theorem malloc_eq_none {n : ℕ} (hn : 2 ^ 31 ≤ n) (hlt : n < 2 ^ 32) :
    malloc (toSizeT (UInt32.ofNat n).toInt32) = none := by
  have htoNat : (UInt32.ofNat n).toBitVec.toNat = n := Nat.mod_eq_of_lt hlt
  have hint : (UInt32.ofNat n).toInt32.toInt = (UInt32.ofNat n).toBitVec.toInt := rfl
  rw [malloc, if_neg]
  rw [toSizeT, hint, BitVec.toInt_eq_toNat_cond, htoNat]
  split_ifs <;> omega

theorem closeGroup_eq_none (hcs : 2 ^ 31 ≤ (chunksData cs).length) (hlt : (chunksData cs).length < 2 ^ 32) :
    closeGroup filename route id delegate cs = none := by
  rw [closeGroup, sumSizes_eq]
  simp only [malloc_eq_none hcs hlt]
  rfl

/-- A file of `DEFAULT_GROUP_SIZE` chunks that are too large together. -/
theorem split2GroupsSized_eq_none (hlen : cs.length = defaultGroupSize) (hcs : 2 ^ 31 ≤ (chunksData cs).length)
    (hlt : (chunksData cs).length < 2 ^ 32) : split2GroupsSized filename route cs = none := by
  have hrun : groupRun cs 0 = cs := by
    rw [groupRun, Nat.zero_mul, List.drop_zero, List.take_of_length_le hlen.le]
  rw [split2GroupsSized_eq, hlen, show groupNum defaultGroupSize = 1 by decide, List.range_one, List.mapM_cons,
    sizedGroupOf, hrun, closeGroup_eq_none hcs hlt]
  rfl

end Large

/-- A file of `1024 * (4194304 - 32768)` zero bytes, with `CHUNK_FILE`: the chunks are fine, and no group can be made
of them. -/
theorem not_grouped_large_file :
    ∃ blocks chunks, Blocks blocks ∧
      startChunkPhase (fun avg ↦ avg) ⟨.file, ⟨1024, 8192, 65536⟩⟩ =
        some ⟨fixedChunkData ⟨1024, 4194304 - 32768, 65536⟩, 4194304 - 32768⟩ ∧
      chunkThread ⟨fixedChunkData ⟨1024, 4194304 - 32768, 65536⟩, 4194304 - 32768⟩ blocks = some chunks ∧
      split2GroupsSized ['f'] (fun _ _ _ ↦ 0) (hashPhase (fun _ ↦ Fingerprint.fill 0) chunks) = none := by
  have hblocks : Blocks (List.replicate 4064 (List.replicate Chunking.defaultBlockSize 0)) := by
    intro block hblock
    rw [List.eq_of_mem_replicate hblock]
    refine ⟨List.ne_nil_of_length_pos ?_, (List.length_replicate ..).le⟩
    rw [List.length_replicate]
    exact Nat.succ_pos _
  have hflatten : (List.replicate 4064 (List.replicate Chunking.defaultBlockSize (0 : UInt8))).flatten =
      List.replicate (defaultGroupSize * (4194304 - 32768)) 0 := by
    rw [List.flatten_replicate_replicate]
    exact congrArg (List.replicate · 0) (by decide)
  have hdata : (chunksData (hashPhase (fun _ ↦ Fingerprint.fill 0)
      (List.replicate defaultGroupSize (List.replicate (4194304 - 32768) 0)))).length =
        defaultGroupSize * (4194304 - 32768) := by
    rw [chunksData_eq_flatten, map_data_hashPhase, List.flatten_replicate_replicate, List.length_replicate]
  refine ⟨_, List.replicate defaultGroupSize (List.replicate (4194304 - 32768) 0), hblocks, rfl, ?_, ?_⟩
  · have hcuts : Phase.Cuts ⟨fixedChunkData ⟨1024, 4194304 - 32768, 65536⟩, 4194304 - 32768⟩
        (fixedCutter (s := ⟨1024, 4194304 - 32768, 65536⟩) (show 0 < 4194304 - 32768 by decide)) := ⟨rfl, rfl⟩
    rw [chunkThread_eq hcuts hblocks, hflatten]
    exact congrArg some (chunks_replicate _ _)
  · refine split2GroupsSized_eq_none ?_ ?_ ?_
    · rw [hashPhase, List.length_map, List.length_replicate]
    · rw [hdata]
      decide
    · rw [hdata]
      decide

end UniDedup.Client
