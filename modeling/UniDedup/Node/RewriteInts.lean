import UniDedup.Lib.Comparing
import UniDedup.Node.RewriteRecords

/-!
# The rewrite buffer in machine integers

The counters of the rewrite buffer are `int`s, and so are the results of the comparisons that its records are
searched and sorted by, although a container id has 64 bits. The operations are given here on these types, and
compared with those on numbers.

## When the two agree

The ids of the buffered duplicates have to differ by less than `2^31`, for else the comparison of two ids has the
wrong sign, or says that they are equal. The number of chunks and the size of each record have to fit an `int`. The
total size does not: it is added up and taken off again modulo `2^32`, and no other counter depends on it. So
`RewriteBuffer.toInt` lets the total wrap, and `RewriteBuffer.Fits` does not bound it.
-/

namespace UniDedup.Node

open Outcome Comparing

/-- The value of an `int` that a number is stored in. -/
def int32 (x : ℤ) : ℤ := Int.bmod x (2 ^ 32)

theorem int32_eq {x : ℤ} (hlow : -2 ^ 31 ≤ x) (hhigh : x < 2 ^ 31) : int32 x = x := by
  rw [int32, Int.bmod_eq_of_le_mul_two] <;> omega

theorem int32_add (x y : ℤ) : int32 (int32 x + y) = int32 (x + y) := by
  rw [int32, int32, int32, Int.bmod_add_bmod]

theorem int32_sub (x y : ℤ) : int32 (int32 x - y) = int32 (x - y) := by
  rw [int32, int32, int32, Int.bmod_sub_bmod]

/-- `struct containerRecord`. -/
structure IntRecord where
  cid : ℤ
  size : ℤ
  outOfOrder : Bool
deriving DecidableEq

def gRecordCmpById (a b : IntRecord) : ℤ := int32 (a.cid - b.cid)

def gRecordDescmpByLength (a b : IntRecord) : ℤ := int32 (b.size - a.size)

/-- `rewrite_buffer`. -/
structure IntBuffer where
  queue : List Chunk
  records : List IntRecord
  num : ℤ
  size : ℤ
deriving DecidableEq

namespace IntBuffer

def empty : IntBuffer := ⟨[], [], 0, 0⟩

/-- The part of `rewrite_buffer_push` that counts a chunk in the record of its container, if it has one. -/
def pushRecord (records : List IntRecord) (c : Chunk) : Except RewriteAbort (List IntRecord) :=
  if c.id = temporaryId then .ok records
  else match lookup gRecordCmpById ⟨c.id, 0, false⟩ records with
  | none => .ok (insertSorted gRecordCmpById ⟨c.id, c.size, true⟩ records)
  | some (before, r, behind) => do
    check (r.cid = c.id) .otherRecord
    return before ++ { r with size := int32 (r.size + c.size) } :: behind

/-- `rewrite_buffer_push`. -/
def push (cfg : Config) (buf : IntBuffer) (c : Chunk) : Except RewriteAbort (IntBuffer × Bool) :=
  if c.isMarker then .ok ({ buf with queue := buf.queue ++ [c] }, false)
  else do
    check (c.id = temporaryId ∨ c.duplicate) .notDuplicate
    let records ← pushRecord buf.records c
    let num := int32 (buf.num + 1)
    check (cfg.rewriteBufferSize ≤ num → num = cfg.rewriteBufferSize) .bufferNum
    return (⟨buf.queue ++ [c], records, num, int32 (buf.size + c.size)⟩, cfg.rewriteBufferSize ≤ num)

/-- The part of `rewrite_buffer_pop` that takes a chunk from the record of its container. -/
def popRecord (records : List IntRecord) (c : Chunk) : Except RewriteAbort (List IntRecord) :=
  match lookup gRecordCmpById ⟨c.id, 0, false⟩ records with
  | none => .error .noRecord
  | some (before, r, behind) =>
    let size := int32 (r.size - c.size)
    .ok (if size = 0 then before ++ behind else before ++ { r with size := size } :: behind)

/-- `rewrite_buffer_pop`. -/
def pop (cfg : Config) (inherited : List ℤ) (buf : IntBuffer) :
    Except RewriteAbort (Option (Chunk × IntBuffer)) :=
  match buf.queue with
  | [] => .ok none
  | c :: queue =>
    if c.isMarker then .ok (some (c, { buf with queue := queue }))
    else if c.duplicate && c.id ≠ temporaryId then do
      let records ← popRecord buf.records c
      let c' := if cfg.enableHar then harCheck inherited c else c
      return some (c', ⟨queue, records, int32 (buf.num - 1), int32 (buf.size - c.size)⟩)
    else .ok (some (c, ⟨queue, buf.records, int32 (buf.num - 1), int32 (buf.size - c.size)⟩))

/-- The first sort of `cap_segment_get_top`. -/
def sortByLength (buf : IntBuffer) : IntBuffer := { buf with records := sort gRecordDescmpByLength buf.records }

/-- The second sort of `cap_segment_get_top`. -/
def sortById (buf : IntBuffer) : IntBuffer := { buf with records := sort gRecordCmpById buf.records }

end IntBuffer

/-! ## Numbers and integers -/

/-- A record with its size in an `int`. -/
def ContainerRecord.toInt (r : ContainerRecord) : IntRecord := ⟨r.cid, r.size, r.outOfOrder⟩

/-- A buffer with its counters in `int`s; the total size may not fit one. -/
def RewriteBuffer.toInt (buf : RewriteBuffer) : IntBuffer :=
  ⟨buf.queue, buf.records.map ContainerRecord.toInt, buf.num, int32 buf.size⟩

/-- The id of a container, within 31 bits. -/
def Id31 (id : ℤ) : Prop := 0 ≤ id ∧ id < 2 ^ 31

theorem represents_id {a b : IntRecord} (ha : Id31 a.cid) (hb : Id31 b.cid) :
    Represents gRecordCmpById IntRecord.cid a b := by
  obtain ⟨ha, ha'⟩ := ha
  obtain ⟨hb, hb'⟩ := hb
  constructor <;> rw [gRecordCmpById, int32_eq (by omega) (by omega)] <;> omega

section Records

variable {records : List ContainerRecord} {c : Chunk}

theorem cid_toInt (records : List ContainerRecord) :
    (records.map ContainerRecord.toInt).map IntRecord.cid = records.map ContainerRecord.cid := by
  rw [List.map_map]
  rfl

theorem lookup_toInt (hids : ∀ r ∈ records, Id31 r.cid) (hc : Id31 c.id) :
    lookup gRecordCmpById ⟨c.id, 0, false⟩ (records.map ContainerRecord.toInt) = none ∧
        c.id ∉ records.map ContainerRecord.cid ∨
      ∃ before r behind, records = before ++ r :: behind ∧ r.cid = c.id ∧
        lookup gRecordCmpById ⟨c.id, 0, false⟩ (records.map ContainerRecord.toInt) =
          some (before.map ContainerRecord.toInt, r.toInt, behind.map ContainerRecord.toInt) := by
  cases h : lookup gRecordCmpById ⟨c.id, 0, false⟩ (records.map ContainerRecord.toInt) with
  | none =>
    refine .inl ⟨rfl, fun hmem ↦ ?_⟩
    obtain ⟨r, hr, hcid⟩ := List.mem_map.mp hmem
    refine lookup_eq_none.mp h r.toInt (List.mem_map_of_mem hr) ?_
    exact (represents_id (a := r.toInt) (hids r hr) hc).eq_zero.mpr hcid
  | some found =>
    obtain ⟨b, r, s⟩ := found
    obtain ⟨hsplit, hcmp⟩ := lookup_eq_some h
    obtain ⟨before, rest, rfl, rfl, hrest⟩ := List.map_eq_append_iff.mp hsplit
    obtain ⟨r, behind, rfl, rfl, rfl⟩ := List.map_eq_cons_iff.mp hrest
    have hr : r ∈ before ++ r :: behind := List.mem_append_right _ List.mem_cons_self
    exact .inr ⟨before, r, behind, rfl, (represents_id (a := r.toInt) (hids r hr) hc).eq_zero.mp hcmp, rfl⟩

theorem cid_ne {before behind : List ContainerRecord} {r : ContainerRecord}
    (h : ((before ++ r :: behind).map ContainerRecord.cid).Pairwise (· < ·)) :
    (∀ a ∈ before, a.cid ≠ r.cid) ∧ ∀ a ∈ behind, a.cid ≠ r.cid := by
  rw [List.map_append, List.map_cons, List.pairwise_append, List.pairwise_cons] at h
  obtain ⟨-, ⟨hbehind, -⟩, hbefore⟩ := h
  exact ⟨fun a ha ↦ (hbefore _ (List.mem_map_of_mem ha) _ List.mem_cons_self).ne,
    fun a ha ↦ (hbehind _ (List.mem_map_of_mem ha)).ne'⟩

theorem map_of_ne {l : List ContainerRecord} {id : ℤ} {f : ContainerRecord → ContainerRecord}
    (h : ∀ a ∈ l, a.cid ≠ id) : l.map (fun r ↦ if r.cid = id then f r else r) = l :=
  (List.map_congr_left fun a ha ↦ if_neg (h a ha)).trans (List.map_id l)

theorem pushRecord_toInt (hsorted : (records.map ContainerRecord.cid).Pairwise (· < ·))
    (hids : ∀ r ∈ records, Id31 r.cid) (hid : c.id ≠ temporaryId) (hc : Id31 c.id)
    (hsize : ∀ r ∈ records, r.cid = c.id → r.size + c.size < 2 ^ 31) :
    IntBuffer.pushRecord (records.map ContainerRecord.toInt) c =
      .ok ((RewriteBuffer.addRecord records c.id c.size).map ContainerRecord.toInt) := by
  rw [IntBuffer.pushRecord, if_neg hid, RewriteBuffer.addRecord]
  rcases lookup_toInt hids hc with ⟨hnone, hnot⟩ | ⟨before, r, behind, rfl, hcid, hsome⟩
  · have hmap : (records.orderedInsert (fun a b ↦ a.cid ≤ b.cid) ⟨c.id, c.size, true⟩).map
        ContainerRecord.toInt = (records.map ContainerRecord.toInt).orderedInsert
          (fun a b ↦ a.cid ≤ b.cid) ⟨c.id, c.size, true⟩ :=
      List.map_orderedInsert _ _ _ _ _ (fun _ _ ↦ Iff.rfl) fun _ _ ↦ Iff.rfl
    rw [hnone, if_neg hnot, hmap]
    refine congrArg Except.ok (insertSorted_eq IntRecord.cid ?_ ?_)
    · intro b hb
      obtain ⟨r, hr, rfl⟩ := List.mem_map.mp hb
      exact represents_id (hids r hr) hc
    · rwa [cid_toInt]
  · have hr : r ∈ before ++ r :: behind := List.mem_append_right _ List.mem_cons_self
    obtain ⟨hbefore, hbehind⟩ := cid_ne hsorted
    rw [hcid] at hbefore hbehind
    have hsum := hsize r hr hcid
    have hint : int32 (r.toInt.size + c.size) = ((r.size + c.size : ℕ) : ℤ) := by
      rw [int32_eq] <;> simp only [ContainerRecord.toInt] <;> omega
    rw [hsome, if_pos (hcid ▸ List.mem_map_of_mem hr)]
    dsimp only
    rw [hint, check, if_pos (show r.toInt.cid = c.id from hcid), List.map_append, List.map_cons, map_of_ne hbefore,
      map_of_ne hbehind, if_pos hcid, List.map_append, List.map_cons]
    rfl

theorem popRecord_toInt (hsorted : (records.map ContainerRecord.cid).Pairwise (· < ·))
    (hids : ∀ r ∈ records, Id31 r.cid) (hc : Id31 c.id)
    (hsize : ∀ r ∈ records, r.cid = c.id → c.size ≤ r.size ∧ r.size < 2 ^ 31)
    (hmem : c.id ∈ records.map ContainerRecord.cid) :
    IntBuffer.popRecord (records.map ContainerRecord.toInt) c =
      .ok ((RewriteBuffer.removeRecord records c.id c.size).map ContainerRecord.toInt) := by
  rw [IntBuffer.popRecord, RewriteBuffer.removeRecord]
  rcases lookup_toInt hids hc with ⟨-, hnot⟩ | ⟨before, r, behind, rfl, hcid, hsome⟩
  · exact absurd hmem hnot
  · have hr : r ∈ before ++ r :: behind := List.mem_append_right _ List.mem_cons_self
    obtain ⟨hbefore, hbehind⟩ := cid_ne hsorted
    rw [hcid] at hbefore hbehind
    obtain ⟨hle, hlt⟩ := hsize r hr hcid
    have hint : int32 (r.toInt.size - c.size) = ((r.size - c.size : ℕ) : ℤ) := by
      rw [int32_eq] <;> simp only [ContainerRecord.toInt] <;> omega
    have hkeep : ∀ l : List ContainerRecord, (∀ a ∈ l, a.cid ≠ c.id) →
        l.filter (fun r ↦ ¬(r.cid = c.id ∧ r.size = 0)) = l := fun l hl ↦
      List.filter_eq_self.mpr fun a ha ↦ decide_eq_true fun h ↦ hl a ha h.1
    rw [hsome]
    dsimp only
    rw [hint, List.map_append, List.map_cons, map_of_ne hbefore, map_of_ne hbehind, if_pos hcid,
      List.filter_append, List.filter_cons, hkeep before hbefore, hkeep behind hbehind]
    by_cases hzero : r.size - c.size = 0
    · simp [hzero, hcid]
    · simp [hzero, ContainerRecord.toInt]

/-- **The first sort** of `cap_segment_get_top` puts the largest records first. -/
theorem sortByLength_toInt (hsize : ∀ r ∈ records, r.size < 2 ^ 31) :
    sort gRecordDescmpByLength (records.map ContainerRecord.toInt) =
      (records.insertionSort fun a b ↦ b.size ≤ a.size).map ContainerRecord.toInt := by
  rw [sort]
  refine (List.map_insertionSort _ _ _ _ fun a ha b hb ↦ ?_).symm
  have := hsize a ha
  have := hsize b hb
  rw [gRecordDescmpByLength, int32_eq] <;> simp only [ContainerRecord.toInt] <;> omega

end Records

/-! ## The operations -/

/-- The ids of the buffered duplicates have 31 bits. The number of chunks is an `int`, and so are the sizes of the
duplicates of each container together; the size of all chunks need not be one. -/
structure RewriteBuffer.Fits (buf : RewriteBuffer) : Prop where
  id : ∀ c ∈ buf.queue, c.storedDuplicate = true → Id31 c.id
  num : buf.num < 2 ^ 31
  size : ∀ id, duplicateSize id buf.queue < 2 ^ 31

namespace RewriteBuffer

variable {cfg : Config} {inherited : List ℤ} {buf buf' : RewriteBuffer} {c : Chunk}

theorem duplicateSize_le_dataSize (id : ℤ) (cs : List Chunk) : duplicateSize id cs ≤ dataSize cs := by
  induction cs with
  | nil => exact le_rfl
  | cons c cs ih =>
    rw [duplicateSize_cons, dataSize_cons]
    split_ifs with hstored hm hm
    · rw [(Chunk.storedDuplicate_eq_true.mp hstored.1).1] at hm
      exact absurd hm Bool.false_ne_true
    · exact Nat.add_le_add_left ih _
    · exact ih
    · exact ih.trans (Nat.le_add_left _ _)

theorem Accounted.id31 (h : buf.Accounted) (hfits : buf.Fits) : ∀ r ∈ buf.records, Id31 r.cid := by
  intro r hr
  obtain ⟨c, hc, hstored, hid⟩ := (h.recorded r.cid).mp (List.mem_map_of_mem hr)
  exact hid ▸ hfits.id c hc hstored

theorem Accounted.record_lt (h : buf.Accounted) (hfits : buf.Fits) : ∀ r ∈ buf.records, r.size < 2 ^ 31 := by
  intro r hr
  rw [h.exact r hr]
  exact hfits.size r.cid

variable (cfg) in
/-- **Pushing** does with integers what it does with numbers. -/
theorem Accounted.push_toInt (h : buf.Accounted) (hfits : buf.Fits)
    (hc : c.isMarker = false → c.id ≠ temporaryId → Id31 c.id)
    (hnum : c.isMarker = false → buf.num + 1 < 2 ^ 31)
    (hsum : c.storedDuplicate = true → duplicateSize c.id buf.queue + c.size < 2 ^ 31) :
    buf.toInt.push cfg c = (buf.push cfg c).map fun r ↦ (r.1.toInt, r.2) := by
  rw [IntBuffer.push, RewriteBuffer.push]
  by_cases hm : c.isMarker = true
  · rw [if_pos hm, if_pos hm]
    simp only [Except.map, RewriteBuffer.toInt]
  rw [if_neg hm, if_neg hm]
  have hm' : c.isMarker = false := by simpa using hm
  have hlt := hnum hm'
  by_cases hdup : c.id = temporaryId ∨ c.duplicate = true
  · have hrecords : IntBuffer.pushRecord buf.toInt.records c =
        .ok ((if c.id ≠ temporaryId then addRecord buf.records c.id c.size else buf.records).map
          ContainerRecord.toInt) := by
      by_cases hid : c.id ≠ temporaryId
      · rw [if_pos hid]
        have hstored : c.storedDuplicate = true :=
          Chunk.storedDuplicate_eq_true.mpr ⟨hm', hdup.resolve_left hid, hid⟩
        refine pushRecord_toInt h.sorted (h.id31 hfits) hid (hc hm' hid) fun r hr hcid ↦ ?_
        rw [h.exact r hr, hcid]
        exact hsum hstored
      · rw [if_neg hid, IntBuffer.pushRecord, if_pos (not_not.mp hid)]
        rfl
    have hnum : int32 (buf.toInt.num + 1) = ((buf.num + 1 : ℕ) : ℤ) := by
      rw [int32_eq] <;> simp only [RewriteBuffer.toInt] <;> omega
    -- the total size is kept modulo `2 ^ 32`
    have hsize : int32 (buf.toInt.size + c.size) = int32 ((buf.size + c.size : ℕ) : ℤ) := by
      rw [Int.natCast_add, RewriteBuffer.toInt, int32_add]
    have hfull : ((cfg.rewriteBufferSize : ℤ) ≤ ((buf.num + 1 : ℕ) : ℤ) →
        ((buf.num + 1 : ℕ) : ℤ) = cfg.rewriteBufferSize) ↔ buf.num + 1 ≤ cfg.rewriteBufferSize := by omega
    dsimp only
    rw [hrecords, hnum, hsize]
    simp only [check, if_pos hdup, hfull]
    simp only [Int.ofNat_le]
    by_cases hroom : buf.num + 1 ≤ cfg.rewriteBufferSize
    · rw [if_pos hroom]
      rfl
    · rw [if_neg hroom]
      rfl
  · simp only [check, if_neg hdup]
    rfl

variable (cfg inherited) in
/-- **Popping** does with integers what it does with numbers. -/
theorem Accounted.pop_toInt (h : buf.Accounted) (hfits : buf.Fits) :
    buf.toInt.pop cfg inherited = (buf.pop cfg inherited).map (Option.map fun r ↦ (r.1, r.2.toInt)) := by
  rw [IntBuffer.pop, RewriteBuffer.pop]
  have hqueue : buf.toInt.queue = buf.queue := rfl
  rw [hqueue]
  rcases hq : buf.queue with _ | ⟨c, queue⟩
  · rfl
  dsimp only
  by_cases hm : c.isMarker = true
  · rw [if_pos hm, if_pos hm]
    simp only [Except.map, Option.map, RewriteBuffer.toInt]
  rw [if_neg hm, if_neg hm]
  have hm' : c.isMarker = false := by simpa using hm
  have hnum := h.num
  have hsize := h.size
  rw [Counted, hq, dataNum_cons, if_neg hm] at hnum
  rw [hq, dataSize_cons, if_neg hm] at hsize
  have hlt := hfits.num
  have hnum' : int32 (buf.toInt.num - 1) = ((buf.num - 1 : ℕ) : ℤ) := by
    rw [int32_eq] <;> simp only [RewriteBuffer.toInt] <;> omega
  -- the total may have wrapped around; it is kept modulo `2 ^ 32`
  have hsize' : int32 (buf.toInt.size - c.size) = int32 ((buf.size - c.size : ℕ) : ℤ) := by
    rw [Int.natCast_sub (by omega), RewriteBuffer.toInt, int32_sub]
  rw [hnum', hsize']
  by_cases hdup : (c.duplicate && decide (c.id ≠ temporaryId)) = true
  · rw [if_pos hdup, if_pos hdup]
    rw [Bool.and_eq_true, decide_eq_true_eq] at hdup
    have hstored : c.storedDuplicate = true := Chunk.storedDuplicate_eq_true.mpr ⟨hm', hdup.1, hdup.2⟩
    have hmem : c.id ∈ buf.records.map ContainerRecord.cid :=
      (h.recorded c.id).mpr ⟨c, hq ▸ List.mem_cons_self, hstored, rfl⟩
    have hpop : IntBuffer.popRecord buf.toInt.records c =
        .ok ((removeRecord buf.records c.id c.size).map ContainerRecord.toInt) := by
      -- the record has at least the size of its chunk, so no `int` gets negative
      refine popRecord_toInt h.sorted (h.id31 hfits) (hfits.id c (hq ▸ List.mem_cons_self) hstored)
        (fun r hr hcid ↦ ⟨?_, h.record_lt hfits r hr⟩) hmem
      rw [h.exact r hr, hq, duplicateSize_cons, hcid, if_pos ⟨hstored, rfl⟩]
      exact Nat.le_add_right _ _
    rw [hpop, check, if_pos hmem]
    rfl
  · rw [if_neg hdup, if_neg hdup]
    rfl

/-- The containers with the largest records, by the comparison of `int`s as by their sizes. -/
theorem Accounted.capTop_eq (h : buf.Accounted) (hfits : buf.Fits) :
    (buf.toInt.sortByLength.records.take cfg.cappingLevel).map IntRecord.cid = capTop cfg buf := by
  rw [IntBuffer.sortByLength, RewriteBuffer.toInt]
  dsimp only
  rw [sortByLength_toInt (h.record_lt hfits), ← List.map_take, cid_toInt, capTop]

theorem Accounted.sortById_toInt (h : buf.Accounted) (hfits : buf.Fits) :
    buf.toInt.sortByLength.sortById = buf.toInt := by
  have hsort : sort gRecordCmpById (sort gRecordDescmpByLength buf.toInt.records) = buf.toInt.records := by
    refine sort_eq_of_perm IntRecord.cid (fun a ha b hb ↦ ?_) ?_ (perm_sort _ _)
    · obtain ⟨r, hr, rfl⟩ := List.mem_map.mp ha
      obtain ⟨r', hr', rfl⟩ := List.mem_map.mp hb
      exact represents_id (h.id31 hfits r hr) (h.id31 hfits r' hr')
    · have hsorted := h.sorted
      rw [← cid_toInt] at hsorted
      exact List.pairwise_map.mp hsorted
  rw [IntBuffer.sortById, IntBuffer.sortByLength]
  dsimp only
  rw [hsort]

end RewriteBuffer

end UniDedup.Node
