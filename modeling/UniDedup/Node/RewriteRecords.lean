import Mathlib.Algebra.GroupWithZero.Nat
import UniDedup.Node.RewriteCount

/-!
# The records of the rewrite buffer

The record of a container holds the total size of the buffered duplicates that are stored in it. It is
created with the first of them, and goes when its size reaches zero. As chunks are not empty, that is
when the last of them is popped, so the records are exact after every sequence of pushes and pops. None
of the assertions of the buffer then fails.

## The invariant

`Accounted` is stated about the queue alone: a container has a record just if a chunk of the queue is a stored
duplicate in it, and then the size in the record is the sum over these chunks. Pushing and popping change one end of
the queue, so each changes one sum. Here sizes are natural numbers; `RewriteInts` has the buffer of the code, with
`int` sizes, and `RewriteAccounting` says for how long the two agree.
-/

namespace UniDedup.Node

open Outcome

/-- A duplicate whose container is known. -/
def Chunk.storedDuplicate (c : Chunk) : Bool := !c.isMarker && c.duplicate && decide (c.id ≠ temporaryId)

/-- The total size of the duplicates that are stored in a container. -/
def duplicateSize (id : ℤ) (cs : List Chunk) : ℕ :=
  ((cs.filter fun c ↦ c.storedDuplicate && decide (c.id = id)).map Chunk.size).sum

/-- The total size of the chunks that are no markers. -/
def dataSize (cs : List Chunk) : ℕ := ((cs.filter fun c ↦ !c.isMarker).map Chunk.size).sum

/-- What the rewrite phase relies on: a chunk whose container is known is a duplicate, and no chunk is
empty. -/
structure Chunk.Rewritable (c : Chunk) : Prop where
  duplicate : c.isMarker = false → c.id ≠ temporaryId → c.duplicate = true
  size_pos : c.isMarker = false → 0 < c.size

namespace Chunk

variable {cfg : Config} {c c' : Chunk}

theorem storedDuplicate_eq_true :
    c.storedDuplicate = true ↔ c.isMarker = false ∧ c.duplicate = true ∧ c.id ≠ temporaryId := by
  simp [storedDuplicate, and_assoc]

theorem Rewritable.storedDuplicate (h : c.Rewritable) (hm : c.isMarker = false)
    (hid : c.id ≠ temporaryId) : c.storedDuplicate = true :=
  storedDuplicate_eq_true.mpr ⟨hm, h.duplicate hm hid, hid⟩

theorem Marks.size (h : c.Marks cfg c') : c'.size = c.size := by
  rw [Chunk.size, Chunk.size, h.data]

theorem Marks.storedDuplicate (h : c.Marks cfg c') : c'.storedDuplicate = c.storedDuplicate := by
  rw [Chunk.storedDuplicate, Chunk.storedDuplicate, h.isMarker, h.duplicate, h.id]

theorem Rewritable.marks (h : c.Rewritable) (hm : c.Marks cfg c') : c'.Rewritable where
  duplicate := by
    rw [hm.isMarker, hm.id, hm.duplicate]
    exact h.duplicate
  size_pos := by
    rw [hm.isMarker, hm.size]
    exact h.size_pos

end Chunk

/-! ## Totals -/

section Totals

variable {cs ds : List Chunk} {c : Chunk} {id : ℤ}

@[simp] theorem duplicateSize_append :
    duplicateSize id (cs ++ ds) = duplicateSize id cs + duplicateSize id ds := by
  simp [duplicateSize]

theorem duplicateSize_cons :
    duplicateSize id (c :: cs) =
      if c.storedDuplicate = true ∧ c.id = id then c.size + duplicateSize id cs
      else duplicateSize id cs := by
  by_cases h : c.storedDuplicate = true ∧ c.id = id <;> simp [duplicateSize, h]

theorem duplicateSize_singleton :
    duplicateSize id [c] = if c.storedDuplicate = true ∧ c.id = id then c.size else 0 :=
  duplicateSize_cons

@[simp] theorem dataSize_append : dataSize (cs ++ ds) = dataSize cs + dataSize ds := by
  simp [dataSize]

theorem dataSize_cons :
    dataSize (c :: cs) = if c.isMarker then dataSize cs else c.size + dataSize cs := by
  cases h : c.isMarker <;> simp [dataSize, h]

/-- As no chunk is empty, a container has a total as long as a duplicate stored in it is there. -/
theorem duplicateSize_pos_iff (h : ∀ c ∈ cs, c.Rewritable) :
    0 < duplicateSize id cs ↔ ∃ c ∈ cs, c.storedDuplicate = true ∧ c.id = id := by
  induction cs with
  | nil => simp [duplicateSize]
  | cons c cs ih =>
    rw [List.forall_mem_cons] at h
    rw [duplicateSize_cons, List.exists_mem_cons_iff, ← ih h.2]
    split_ifs with hc
    · have hpos := h.1.size_pos (Chunk.storedDuplicate_eq_true.mp hc.1).1
      exact ⟨fun _ ↦ .inl hc, fun _ ↦ Nat.add_pos_left hpos _⟩
    · exact ⟨.inr, fun h' ↦ h'.resolve_left hc⟩

end Totals

/-! ## The buffer -/

namespace RewriteBuffer

variable {cfg : Config} {inherited : List ℤ} {buf buf' : RewriteBuffer} {c : Chunk}

/-- **The records are exact.** -/
structure Accounted (buf : RewriteBuffer) : Prop where
  rewritable : ∀ c ∈ buf.queue, c.Rewritable
  num : buf.Counted
  size : buf.size = dataSize buf.queue
  sorted : (buf.records.map ContainerRecord.cid).Pairwise (· < ·)
  exact : ∀ r ∈ buf.records, r.size = duplicateSize r.cid buf.queue
  recorded : ∀ id, id ∈ buf.records.map ContainerRecord.cid ↔
    ∃ c ∈ buf.queue, c.storedDuplicate = true ∧ c.id = id

theorem Accounted.mem_records (h : buf.Accounted) (id : ℤ) :
    id ∈ buf.records.map ContainerRecord.cid ↔ 0 < duplicateSize id buf.queue := by
  rw [h.recorded, duplicateSize_pos_iff h.rewritable]

theorem accounted_empty : empty.Accounted where
  rewritable := fun _ h ↦ absurd h List.not_mem_nil
  num := rfl
  size := rfl
  sorted := .nil
  exact := fun _ h ↦ absurd h List.not_mem_nil
  recorded := fun id ↦ by simp [empty]

theorem Accounted.eq_empty (h : buf.Accounted) (hq : buf.queue = []) : buf = empty := by
  have hrecords : buf.records = [] := by
    refine List.eq_nil_iff_forall_not_mem.mpr fun r hr ↦ ?_
    obtain ⟨c, hc, -⟩ := (h.recorded r.cid).mp (List.mem_map_of_mem hr)
    rw [hq] at hc
    exact List.not_mem_nil hc
  have hnum : buf.num = 0 := by
    rw [h.num, hq]
    rfl
  have hsize : buf.size = 0 := by
    rw [h.size, hq]
    rfl
  obtain ⟨queue, records, num, size⟩ := buf
  simp only at hq hrecords hnum hsize
  rw [hq, hrecords, hnum, hsize, empty]

/-! ### Pushing -/

theorem cid_addRecord (records : List ContainerRecord) (id id' : ℤ) (size : ℕ) :
    id' ∈ (addRecord records id size).map ContainerRecord.cid ↔
      id' = id ∨ id' ∈ records.map ContainerRecord.cid := by
  unfold addRecord
  by_cases hmem : id ∈ records.map ContainerRecord.cid
  · rw [if_pos hmem, List.map_map]
    have hcid : (ContainerRecord.cid ∘ fun r : ContainerRecord ↦
        if r.cid = id then { r with size := r.size + size } else r) = ContainerRecord.cid := by
      funext r
      rw [Function.comp_apply]
      split_ifs <;> rfl
    rw [hcid]
    refine ⟨.inr, ?_⟩
    rintro (rfl | h)
    · exact hmem
    · exact h
  · rw [if_neg hmem]
    simp only [List.mem_map, List.mem_orderedInsert]
    constructor
    · rintro ⟨r, rfl | hr, rfl⟩
      · exact .inl rfl
      · exact .inr ⟨r, hr, rfl⟩
    · rintro (rfl | ⟨r, hr, rfl⟩)
      · exact ⟨_, .inl rfl, rfl⟩
      · exact ⟨r, .inr hr, rfl⟩

theorem sorted_addRecord {records : List ContainerRecord} {id : ℤ} {size : ℕ}
    (h : (records.map ContainerRecord.cid).Pairwise (· < ·)) :
    ((addRecord records id size).map ContainerRecord.cid).Pairwise (· < ·) := by
  unfold addRecord
  by_cases hmem : id ∈ records.map ContainerRecord.cid
  · rw [if_pos hmem, List.map_map]
    refine (congrArg (List.Pairwise (· < ·)) (List.map_congr_left fun r _ ↦ ?_)).mpr h
    rw [Function.comp_apply]
    split_ifs <;> rfl
  · have hmap : (records.orderedInsert (fun a b ↦ a.cid ≤ b.cid) ⟨id, size, true⟩).map
        ContainerRecord.cid = (records.map ContainerRecord.cid).orderedInsert (· ≤ ·) id :=
      List.map_orderedInsert _ _ _ _ _ (fun _ _ ↦ Iff.rfl) fun _ _ ↦ Iff.rfl
    rw [if_neg hmem, hmap]
    have hle : ((records.map ContainerRecord.cid).orderedInsert (· ≤ ·) id).Pairwise (· ≤ ·) :=
      (h.imp le_of_lt).orderedInsert id _
    have hnodup : ((records.map ContainerRecord.cid).orderedInsert (· ≤ ·) id).Nodup := by
      rw [(List.perm_orderedInsert (· ≤ ·) id _).nodup_iff, List.nodup_cons]
      exact ⟨hmem, h.imp ne_of_lt⟩
    exact (hle.and hnodup).imp fun hab ↦ lt_of_le_of_ne hab.1 hab.2

theorem exact_addRecord {records : List ContainerRecord} (total : ℤ → ℕ) {id : ℤ} {size : ℕ}
    (h : ∀ r ∈ records, r.size = total r.cid)
    (hzero : id ∉ records.map ContainerRecord.cid → total id = 0) :
    ∀ r ∈ addRecord records id size,
      r.size = total r.cid + if r.cid = id then size else 0 := by
  intro r hr
  unfold addRecord at hr
  by_cases hmem : id ∈ records.map ContainerRecord.cid
  · rw [if_pos hmem] at hr
    obtain ⟨r₀, hr₀, rfl⟩ := List.mem_map.mp hr
    by_cases hid : r₀.cid = id
    · simp [hid, h r₀ hr₀]
    · simp [hid, h r₀ hr₀]
  · rw [if_neg hmem, List.mem_orderedInsert] at hr
    rcases hr with rfl | hr
    · simp [hzero hmem]
    · have hid : r.cid ≠ id := by
        rintro rfl
        exact hmem (List.mem_map_of_mem hr)
      rw [if_neg hid, Nat.add_zero]
      exact h r hr

variable (cfg) in
/-- **Pushing keeps the records exact.** -/
theorem Accounted.push (h : buf.Accounted) (hc : c.Rewritable)
    (hroom : c.isMarker = false → buf.num < cfg.rewriteBufferSize) :
    Post (buf.push cfg c) (fun r ↦ r.1.Accounted) fun _ ↦ False := by
  have hrewritable : ∀ d ∈ buf.queue ++ [c], d.Rewritable := by
    intro d hd
    rcases List.mem_append.mp hd with hd | hd
    · exact h.rewritable d hd
    · rwa [List.mem_singleton.mp hd]
  have hcount : ∀ r, buf.push cfg c = .ok r → r.1.Counted := fun r hr ↦ (counted_push h.num hr).1
  refine (?_ : Post (buf.push cfg c) (fun r ↦ r.1.Counted → r.1.Accounted) fun _ ↦ False).and
    (post_of_forall hcount fun _ _ ↦ trivial) |>.mono (fun _ h ↦ h.1 h.2) fun _ h ↦ h.1
  unfold RewriteBuffer.push
  by_cases hm : c.isMarker = true
  · have hstored : c.storedDuplicate = false := by simp [Chunk.storedDuplicate, hm]
    rw [if_pos hm]
    intro hnum
    refine ⟨hrewritable, hnum, ?_, h.sorted, fun r hr ↦ ?_, fun id ↦ ?_⟩
    · rw [h.size, dataSize_append, dataSize_cons, if_pos hm]
      rfl
    · rw [h.exact r hr, duplicateSize_append, duplicateSize_singleton, if_neg (by simp [hstored])]
      rfl
    · rw [h.recorded id]
      simp [hstored]
  · have hm' : c.isMarker = false := by simpa using hm
    rw [if_neg hm]
    refine (post_check fun hno ↦ hno ?_).bind fun _ _ ↦ ?_
    · exact or_iff_not_imp_left.mpr (hc.duplicate hm')
    refine (post_check fun hno ↦ hno (hroom hm')).bind fun _ _ ↦ ?_
    intro hnum
    have hsize : buf.size + c.size = dataSize (buf.queue ++ [c]) := by
      rw [h.size, dataSize_append, dataSize_cons, if_neg hm]
      rfl
    by_cases hid : c.id = temporaryId
    · have hstored : c.storedDuplicate = false := by simp [Chunk.storedDuplicate, hid]
      refine ⟨hrewritable, hnum, hsize, ?_, fun r hr ↦ ?_, fun id ↦ ?_⟩
      · rw [if_neg (not_not.mpr hid)]
        exact h.sorted
      · rw [if_neg (not_not.mpr hid)] at hr
        rw [h.exact r hr, duplicateSize_append, duplicateSize_singleton, if_neg (by simp [hstored])]
        rfl
      · rw [if_neg (not_not.mpr hid), h.recorded id]
        simp [hstored]
    · have hstored : c.storedDuplicate = true := hc.storedDuplicate hm' hid
      refine ⟨hrewritable, hnum, hsize, ?_, fun r hr ↦ ?_, fun id ↦ ?_⟩
      · rw [if_pos hid]
        exact sorted_addRecord h.sorted
      · rw [if_pos hid] at hr
        have hzero : c.id ∉ buf.records.map ContainerRecord.cid → duplicateSize c.id buf.queue = 0 := by
          rw [h.mem_records]
          exact Nat.eq_zero_of_not_pos
        rw [exact_addRecord (fun id ↦ duplicateSize id buf.queue) h.exact hzero r hr,
          duplicateSize_append, duplicateSize_singleton]
        simp only [hstored, true_and, eq_comm]
      · rw [if_pos hid, cid_addRecord, h.recorded id]
        simp only [List.mem_append, List.mem_singleton, or_and_right, exists_or, exists_eq_left, hstored,
          true_and]
        rw [or_comm, eq_comm]

theorem num_of_full (h : buf.Counted) (hpush : buf.push cfg c = .ok (buf', true)) :
    buf'.num = cfg.rewriteBufferSize := by
  refine le_antisymm ((counted_push h hpush).2.2 rfl).2 ?_
  unfold RewriteBuffer.push at hpush
  by_cases hm : c.isMarker = true
  · rw [if_pos hm] at hpush
    cases hpush
  · rw [if_neg hm] at hpush
    simp only [bind_eq_ok] at hpush
    obtain ⟨_, -, _, -, hpush⟩ := hpush
    obtain ⟨rfl, hfull⟩ := Prod.mk.inj (Except.ok.inj hpush)
    exact of_decide_eq_true hfull

/-! ### Popping -/

theorem mem_removeRecord {records : List ContainerRecord} {id : ℤ} {size : ℕ} {r : ContainerRecord} :
    r ∈ removeRecord records id size ↔
      (r ∈ records ∧ r.cid ≠ id) ∨
        (r.cid = id ∧ 0 < r.size ∧ ∃ r₀ ∈ records, r₀.cid = id ∧ { r₀ with size := r₀.size - size } = r) := by
  simp only [removeRecord, List.mem_filter, List.mem_map, decide_eq_true_eq]
  constructor
  · rintro ⟨⟨r₀, hr₀, rfl⟩, hno⟩
    by_cases hid : r₀.cid = id
    · rw [if_pos hid] at hno ⊢
      exact .inr ⟨hid, Nat.pos_of_ne_zero fun hz ↦ hno ⟨hid, hz⟩, r₀, hr₀, hid, rfl⟩
    · rw [if_neg hid]
      exact .inl ⟨hr₀, hid⟩
  · rintro (⟨hr, hid⟩ | ⟨hid, hpos, r₀, hr₀, hid₀, rfl⟩)
    · exact ⟨⟨r, hr, if_neg hid⟩, fun hz ↦ hid hz.1⟩
    · exact ⟨⟨r₀, hr₀, if_pos hid₀⟩, fun hz ↦ hpos.ne' hz.2⟩

theorem sorted_removeRecord {records : List ContainerRecord} {id : ℤ} {size : ℕ}
    (h : (records.map ContainerRecord.cid).Pairwise (· < ·)) :
    ((removeRecord records id size).map ContainerRecord.cid).Pairwise (· < ·) := by
  unfold removeRecord
  refine List.Pairwise.sublist (List.filter_sublist.map _) ?_
  rw [List.map_map]
  refine (congrArg (List.Pairwise (· < ·)) (List.map_congr_left fun r _ ↦ ?_)).mpr h
  rw [Function.comp_apply]
  split_ifs <;> rfl

/-- What popping leaves of a chunk for the algorithm: the sparse mark of history-aware rewriting. -/
def popped (cfg : Config) (inherited : List ℤ) (c : Chunk) : Chunk :=
  if c.storedDuplicate && cfg.enableHar then harCheck inherited c else c

theorem popped_marks (cfg : Config) (inherited : List ℤ) (c : Chunk) :
    c.Marks cfg (popped cfg inherited c) := by
  unfold popped
  split_ifs with h
  · rw [Bool.and_eq_true] at h
    exact harCheck_marks h.2 inherited c
  · exact .refl cfg c

variable (cfg inherited) in
/-- **Popping keeps the records exact**, and it finds the record it looks for. -/
theorem Accounted.pop (h : buf.Accounted) {queue : List Chunk} (hq : buf.queue = c :: queue) :
    ∃ buf', buf.pop cfg inherited = .ok (some (popped cfg inherited c, buf')) ∧ buf'.Accounted ∧
      buf'.queue = queue := by
  have hrewritable : ∀ d ∈ queue, d.Rewritable := fun d hd ↦
    h.rewritable d (hq ▸ List.mem_cons_of_mem c hd)
  have hnum := h.num
  have hsize := h.size
  rw [Counted, hq, dataNum_cons] at hnum
  rw [hq, dataSize_cons] at hsize
  by_cases hm : c.isMarker = true
  · have hstored : c.storedDuplicate = false := by simp [Chunk.storedDuplicate, hm]
    rw [if_pos hm] at hnum hsize
    refine ⟨{ buf with queue := queue }, ?_, ?_, rfl⟩
    · simp [RewriteBuffer.pop, hq, hm, popped, hstored]
    · refine ⟨hrewritable, hnum, hsize, h.sorted, fun r hr ↦ ?_, fun id ↦ ?_⟩
      · rw [h.exact r hr, hq, duplicateSize_cons, if_neg (by simp [hstored])]
      · rw [h.recorded id, hq]
        simp [hstored]
  rw [if_neg hm] at hnum hsize
  by_cases hstored : c.storedDuplicate = true
  · obtain ⟨hm', hd, hid⟩ := Chunk.storedDuplicate_eq_true.mp hstored
    have hmem : c.id ∈ buf.records.map ContainerRecord.cid :=
      (h.recorded c.id).mpr ⟨c, hq ▸ List.mem_cons_self, hstored, rfl⟩
    have htotal : ∀ r ∈ buf.records, r.cid = c.id → r.size = c.size + duplicateSize c.id queue := by
      intro r hr hcid
      rw [h.exact r hr, hq, duplicateSize_cons, hcid, if_pos ⟨hstored, rfl⟩]
    have hother : ∀ id, id ≠ c.id → duplicateSize id buf.queue = duplicateSize id queue := by
      intro id hne
      rw [hq, duplicateSize_cons, if_neg fun hc ↦ hne hc.2.symm]
    refine ⟨⟨queue, removeRecord buf.records c.id c.size, buf.num - 1, buf.size - c.size⟩, ?_, ?_, rfl⟩
    · simp [RewriteBuffer.pop, hq, hm', hd, hid, popped, hstored, check, hmem]
    · refine ⟨hrewritable, ?_, ?_, sorted_removeRecord h.sorted, fun r hr ↦ ?_, fun id ↦ ?_⟩
      · exact Nat.sub_eq_of_eq_add hnum
      · exact Nat.sub_eq_of_eq_add (hsize.trans (Nat.add_comm _ _))
      · rcases mem_removeRecord.mp hr with ⟨hr, hne⟩ | ⟨hcid, -, r₀, hr₀, hcid₀, rfl⟩
        · rw [h.exact r hr, hother r.cid hne]
        · simp only at hcid ⊢
          rw [htotal r₀ hr₀ hcid₀, hcid₀, Nat.add_sub_cancel_left]
      · rw [← duplicateSize_pos_iff hrewritable, List.mem_map]
        constructor
        · rintro ⟨r, hr, rfl⟩
          rcases mem_removeRecord.mp hr with ⟨hr, hne⟩ | ⟨hcid, hpos, r₀, hr₀, hcid₀, rfl⟩
          · rw [← hother r.cid hne]
            exact (h.mem_records r.cid).mp (List.mem_map_of_mem hr)
          · simp only at hcid hpos ⊢
            rwa [htotal r₀ hr₀ hcid₀, Nat.add_sub_cancel_left, ← hcid] at hpos
        · intro hpos
          by_cases hne : id = c.id
          · obtain ⟨r₀, hr₀, hcid₀⟩ := List.mem_map.mp hmem
            refine ⟨{ r₀ with size := r₀.size - c.size }, mem_removeRecord.mpr (.inr
              ⟨hcid₀, ?_, r₀, hr₀, hcid₀, rfl⟩), hcid₀.trans hne.symm⟩
            simp only
            rwa [htotal r₀ hr₀ hcid₀, Nat.add_sub_cancel_left, ← hne]
          · rw [← hother id hne, ← h.mem_records] at hpos
            obtain ⟨r, hr, rfl⟩ := List.mem_map.mp hpos
            exact ⟨r, mem_removeRecord.mpr (.inl ⟨hr, hne⟩), rfl⟩
  · have hstored' : c.storedDuplicate = false := by simpa using hstored
    have hno : (c.duplicate && decide (c.id ≠ temporaryId)) = false := by
      simpa [Chunk.storedDuplicate, hm] using hstored'
    refine ⟨⟨queue, buf.records, buf.num - 1, buf.size - c.size⟩, ?_, ?_, rfl⟩
    · rw [RewriteBuffer.pop, hq]
      simp only [if_neg hm, hno, popped, hstored', Bool.false_and, Bool.false_eq_true, if_false]
    · refine ⟨hrewritable, ?_, ?_, h.sorted, fun r hr ↦ ?_, fun id ↦ ?_⟩
      · exact Nat.sub_eq_of_eq_add hnum
      · exact Nat.sub_eq_of_eq_add (hsize.trans (Nat.add_comm _ _))
      · rw [h.exact r hr, hq, duplicateSize_cons, if_neg (by simp [hstored'])]
      · rw [h.recorded id, hq]
        simp [hstored']

theorem pop_nil (hq : buf.queue = []) : buf.pop cfg inherited = .ok none := by
  rw [RewriteBuffer.pop, hq]

variable (cfg inherited) in
/-- **Draining the buffer** marks each chunk as it is popped, and leaves the buffer empty. -/
theorem Accounted.popAll {mark : Chunk → Except RewriteAbort Chunk} :
    ∀ (n : ℕ) {buf : RewriteBuffer}, buf.Accounted → buf.queue.length ≤ n →
    (∀ c ∈ buf.queue, ∃ d, mark (popped cfg inherited c) = .ok d) →
    ∃ out, buf.popAll cfg inherited mark n = .ok (out, empty) ∧
      List.Forall₂ (fun c d ↦ mark (popped cfg inherited c) = .ok d) buf.queue out := by
  intro n
  induction n with
  | zero =>
    intro buf h hn _
    have hq : buf.queue = [] := List.length_eq_zero_iff.mp (Nat.le_zero.mp hn)
    rw [h.eq_empty hq]
    exact ⟨[], rfl, .nil⟩
  | succ n ih =>
    intro buf h hn hmark
    rw [RewriteBuffer.popAll]
    cases hq : buf.queue with
    | nil =>
      rw [pop_nil hq, h.eq_empty hq]
      exact ⟨[], rfl, .nil⟩
    | cons c queue =>
      rw [hq, List.forall_mem_cons] at hmark
      rw [hq, List.length_cons, Nat.add_le_add_iff_right] at hn
      obtain ⟨buf', hpop, h', rfl⟩ := h.pop cfg inherited hq
      obtain ⟨d, hd⟩ := hmark.1
      obtain ⟨out, hout, hforall⟩ := ih h' hn hmark.2
      refine ⟨d :: out, ?_, .cons hd hforall⟩
      exact bind_eq_ok.mpr ⟨_, hpop, bind_eq_ok.mpr ⟨d, hd, bind_eq_ok.mpr ⟨_, hout, rfl⟩⟩⟩

variable (cfg inherited) in
/-- **Popping the leading markers** passes them on as they are. -/
theorem Accounted.popMarkers : ∀ (n : ℕ) {buf : RewriteBuffer}, buf.Accounted →
    ∃ out buf', buf.popMarkers cfg inherited n = .ok (out, buf') ∧ buf'.Accounted ∧
      buf.queue = out ++ buf'.queue ∧ ∀ d ∈ out, d.isMarker = true := by
  intro n
  induction n with
  | zero =>
    intro buf h
    exact ⟨[], buf, rfl, h, rfl, fun _ hd ↦ absurd hd List.not_mem_nil⟩
  | succ n ih =>
    intro buf h
    rw [RewriteBuffer.popMarkers]
    by_cases hhead : buf.queue.head?.any Chunk.isMarker = true
    · rw [if_pos hhead]
      cases hq : buf.queue with
      | nil =>
        rw [hq] at hhead
        cases hhead
      | cons c queue =>
        have hm : c.isMarker = true := by simpa [hq] using hhead
        have hpopped : popped cfg inherited c = c := by simp [popped, Chunk.storedDuplicate, hm]
        obtain ⟨buf₁, hpop, h₁, rfl⟩ := h.pop cfg inherited hq
        obtain ⟨out, buf', hout, h', hqueue, hmarkers⟩ := ih h₁
        rw [hpopped] at hpop
        refine ⟨c :: out, buf', bind_eq_ok.mpr ⟨_, hpop, bind_eq_ok.mpr ⟨_, hout, rfl⟩⟩, h', ?_, ?_⟩
        · rw [hqueue, List.cons_append]
        · exact List.forall_mem_cons.mpr ⟨hm, hmarkers⟩
    · exact ⟨[], buf, if_neg hhead, h, rfl, fun _ hd ↦ absurd hd List.not_mem_nil⟩

/-- Marks of the head of the buffer and of the records leave the records exact. -/
theorem Accounted.mark (h : buf.Accounted) {c' : Chunk} {queue : List Chunk} (hq : buf.queue = c :: queue)
    (hc : c.Marks cfg c') {f : ContainerRecord → ContainerRecord}
    (hf : ∀ r, (f r).cid = r.cid ∧ (f r).size = r.size) :
    Accounted { buf with queue := c' :: queue, records := buf.records.map f } := by
  have hcid : (buf.records.map f).map ContainerRecord.cid = buf.records.map ContainerRecord.cid := by
    rw [List.map_map]
    exact List.map_congr_left fun r _ ↦ (hf r).1
  have htotal : ∀ id, duplicateSize id (c' :: queue) = duplicateSize id buf.queue := by
    intro id
    rw [hq, duplicateSize_cons, duplicateSize_cons, hc.storedDuplicate, hc.id, hc.size]
  have hrewritable := h.rewritable
  have hnum := h.num
  have hsize := h.size
  rw [hq, List.forall_mem_cons] at hrewritable
  rw [Counted, hq, dataNum_cons] at hnum
  rw [hq, dataSize_cons] at hsize
  refine ⟨?_, ?_, ?_, ?_, fun r hr ↦ ?_, fun id ↦ ?_⟩
  · exact List.forall_mem_cons.mpr ⟨hrewritable.1.marks hc, hrewritable.2⟩
  · rw [Counted, dataNum_cons, hc.isMarker]
    exact hnum
  · rw [dataSize_cons, hc.isMarker, hc.size]
    exact hsize
  · exact hcid ▸ h.sorted
  · obtain ⟨r₀, hr₀, rfl⟩ := List.mem_map.mp hr
    rw [(hf r₀).1, (hf r₀).2, htotal, h.exact r₀ hr₀]
  · rw [hcid, h.mem_records, ← htotal, duplicateSize_pos_iff]
    exact List.forall_mem_cons.mpr ⟨hrewritable.1.marks hc, hrewritable.2⟩

end RewriteBuffer

end UniDedup.Node
