import Mathlib.Data.List.Basic
import Mathlib.Data.List.Perm.Basic
import UniDedup.Node.OptimalCache

/-!
# The optimal cache evicts optimally within its window

At every time the table, the counter and the sequence numbers describe the same buffered records, a stretch of
the access records of the version that starts with the next access; and the queue and the sequence have
the same containers. So the assertions hold, and what is evicted is a container without a buffered access or,
where all have one, the one with the latest next access.

## The invariant

`Indexes` says that the table of the cache holds the places of each container in a list `buffered`, and `Reads` that
this list is the front of the accesses to come. `IsSound` adds that queue and sequence have the same containers
(`Corresponds`). The places are sequence numbers, which never start again, so "the latest next access" compares the
first entries of two queues (`NoLater`).
-/

namespace UniDedup.Node

namespace OptimalCache

/-! ## The buffered records -/

/-- The sequence numbers of the records of a container, where the first record has the number `base`. -/
def occurrences (base : ℕ) (id : ℤ) : List ℤ → List ℕ
  | [] => []
  | x :: l => if x = id then base :: occurrences (base + 1) id l else occurrences (base + 1) id l

section Occurrences

variable {base : ℕ} {id : ℤ} {l : List ℤ}

theorem occurrences_concat (x : ℤ) : occurrences base id (l ++ [x]) =
    occurrences base id l ++ if x = id then [base + l.length] else [] := by
  induction l generalizing base with
  | nil =>
    simp only [List.nil_append, occurrences, List.length_nil, Nat.add_zero]
  | cons y l ih =>
    rw [List.cons_append, occurrences, occurrences, ih, List.length_cons]
    have hlen : base + 1 + l.length = base + (l.length + 1) := by omega
    rw [hlen]
    split_ifs <;> rfl

theorem head?_occurrences : (occurrences base id l).head? =
    if id ∈ l then some (base + l.idxOf id) else none := by
  induction l generalizing base with
  | nil => rfl
  | cons x l ih =>
    rw [occurrences]
    by_cases hx : x = id
    · rw [if_pos hx, if_pos (hx ▸ List.mem_cons_self), hx, List.idxOf_cons_self]
      rfl
    · rw [if_neg hx, ih, List.idxOf_cons_ne l hx]
      by_cases hid : id ∈ l
      · rw [if_pos hid, if_pos (List.mem_cons_of_mem x hid)]
        congr 1
        omega
      · rw [if_neg hid, if_neg]
        rw [List.mem_cons, not_or]
        exact ⟨Ne.symm hx, hid⟩

theorem occurrences_of_notMem (h : id ∉ l) : occurrences base id l = [] := by
  rw [← List.head?_eq_none_iff, head?_occurrences, if_neg h]

end Occurrences

/-- The table describes the buffered records. -/
structure Indexes (st : OptimalCache) (buffered : List ℤ) : Prop where
  length_le : buffered.length ≤ st.sequenceNumber
  missing : ∀ id, st.table id = none → id ∉ buffered
  queue : ∀ id q, st.table id = some q →
    q = occurrences (st.sequenceNumber - buffered.length) id buffered

section Indexes

variable {st : OptimalCache} {buffered : List ℤ} {id : ℤ}

theorem Indexes.getD (h : st.Indexes buffered) (id : ℤ) : (st.table id).getD [] =
    occurrences (st.sequenceNumber - buffered.length) id buffered := by
  cases hq : st.table id with
  | none => rw [occurrences_of_notMem (h.missing id hq), Option.getD_none]
  | some q => exact h.queue id q hq

theorem Indexes.next_eq (h : st.Indexes buffered) (id : ℤ) : st.next id =
    if id ∈ buffered then some (st.sequenceNumber - buffered.length + buffered.idxOf id) else none := by
  rw [← head?_occurrences, ← h.getD, next]
  cases st.table id <;> rfl

theorem table_pushRecord_self : (st.pushRecord id).table id =
    some ((st.table id).getD [] ++ [st.sequenceNumber]) := Function.update_self _ _ _

theorem table_pushRecord_of_ne {id' : ℤ} (h : id' ≠ id) :
    (st.pushRecord id).table id' = st.table id' := Function.update_of_ne h _ _

theorem Indexes.pushRecord (h : st.Indexes buffered) (id : ℤ) :
    (st.pushRecord id).Indexes (buffered ++ [id]) := by
  have hbase : st.sequenceNumber + 1 - (buffered.length + 1) = st.sequenceNumber - buffered.length := by
    omega
  have hlast : st.sequenceNumber - buffered.length + buffered.length = st.sequenceNumber :=
    Nat.sub_add_cancel h.length_le
  constructor
  case length_le =>
    rw [List.length_append]
    exact Nat.succ_le_succ h.length_le
  case missing =>
    intro id' hnone
    by_cases hid : id' = id
    · rw [hid, table_pushRecord_self] at hnone
      cases hnone
    · rw [table_pushRecord_of_ne hid] at hnone
      rw [List.mem_append, List.mem_singleton, not_or]
      exact ⟨h.missing id' hnone, hid⟩
  case queue =>
    intro id' q hq
    have hnumber : (st.pushRecord id).sequenceNumber = st.sequenceNumber + 1 := rfl
    rw [List.length_append, List.length_singleton, hnumber, hbase, occurrences_concat, hlast]
    by_cases hid : id' = id
    · rw [hid, table_pushRecord_self] at hq
      rw [hid, if_pos rfl, ← h.getD]
      exact (Option.some.inj hq).symm
    · rw [table_pushRecord_of_ne hid] at hq
      rw [if_neg (Ne.symm hid), List.append_nil]
      exact h.queue id' q hq

theorem Indexes.foldl_pushRecord (h : st.Indexes buffered) (ids : List ℤ) :
    (ids.foldl OptimalCache.pushRecord st).Indexes (buffered ++ ids) := by
  induction ids generalizing st buffered with
  | nil => rwa [List.append_nil]
  | cons id ids ih =>
    rw [List.foldl_cons, ← List.singleton_append, ← List.append_assoc]
    exact ih (h.pushRecord id)

theorem foldl_pushRecord_eq (ids : List ℤ) : ids.foldl OptimalCache.pushRecord st =
    { st with
      table := (ids.foldl OptimalCache.pushRecord st).table
      sequenceNumber := (ids.foldl OptimalCache.pushRecord st).sequenceNumber } := by
  induction ids generalizing st with
  | nil => rfl
  | cons id ids ih =>
    rw [List.foldl_cons, ih]
    rfl

theorem Indexes.pop (h : st.Indexes (id :: buffered)) {q : List ℕ} (hq : st.table id = some q) (n : ℕ) :
    Indexes { st with table := Function.update st.table id (some q.tail), bufferedNum := n } buffered := by
  have hlen := h.length_le
  rw [List.length_cons] at hlen
  have hbase : st.sequenceNumber - (buffered.length + 1) + 1 = st.sequenceNumber - buffered.length := by
    omega
  constructor
  case length_le => exact Nat.le_of_succ_le hlen
  case missing =>
    intro id' hnone
    dsimp only at hnone
    by_cases hid : id' = id
    · rw [hid, Function.update_self] at hnone
      cases hnone
    · rw [Function.update_of_ne hid] at hnone
      exact fun hmem ↦ h.missing id' hnone (List.mem_cons_of_mem id hmem)
  case queue =>
    intro id' q' hq'
    dsimp only at hq' ⊢
    by_cases hid : id' = id
    · rw [hid, Function.update_self] at hq'
      rw [← Option.some.inj hq', h.queue id q hq, occurrences, if_pos rfl, List.length_cons, hbase, hid]
      rfl
    · rw [Function.update_of_ne hid] at hq'
      rw [h.queue id' q' hq', occurrences, if_neg (Ne.symm hid), List.length_cons, hbase]

/-- The records of a container without an access are removed from the table. -/
theorem Indexes.remove (h : st.Indexes buffered) (hid : id ∉ buffered) :
    Indexes { st with table := Function.update st.table id none } buffered := by
  constructor
  case length_le => exact h.length_le
  case missing =>
    intro id' hnone
    dsimp only at hnone
    by_cases heq : id' = id
    · rwa [heq]
    · rw [Function.update_of_ne heq] at hnone
      exact h.missing id' hnone
  case queue =>
    intro id' q hq
    dsimp only at hq
    by_cases heq : id' = id
    · rw [heq, Function.update_self] at hq
      cases hq
    · rw [Function.update_of_ne heq] at hq
      exact h.queue id' q hq

end Indexes

/-! ## The window -/

/-- The access records of the chunks to come, where the last record had the id `last`. -/
def pending (last : ℤ) : List ℤ → List ℤ
  | [] => []
  | id :: ids => if last = id then pending last ids else id :: pending id ids

/-- What is buffered and what is left of the file are the records to come and the end mark. -/
structure Reads (st : OptimalCache) (buffered future : List ℤ) : Prop where
  num : st.bufferedNum = buffered.length
  file : buffered ++ st.file = future ++ [temporaryId]
  ended : st.ended = true ↔ st.file = []
  notMem : temporaryId ∉ future

/-- The cached containers are the same, and records in the table stay there. -/
structure Keeps (st st' : OptimalCache) : Prop where
  sorted : st'.sorted = st.sorted
  lru : st'.lru = st.lru
  lastId : st'.lastId = st.lastId
  table : ∀ id, (st.table id).isSome = true → (st'.table id).isSome = true

section Window

variable {st st' : OptimalCache} {buffered future : List ℤ} {id : ℤ} {w : ℕ}

theorem Keeps.refl (st : OptimalCache) : st.Keeps st := ⟨rfl, rfl, rfl, fun _ h ↦ h⟩

theorem Keeps.trans {st'' : OptimalCache} (h : st.Keeps st') (h' : st'.Keeps st'') : st.Keeps st'' :=
  ⟨h'.sorted.trans h.sorted, h'.lru.trans h.lru, h'.lastId.trans h.lastId,
    fun id hid ↦ h'.table id (h.table id hid)⟩

theorem keeps_pushRecord : st.Keeps (st.pushRecord id) := by
  refine ⟨rfl, rfl, rfl, fun id' hid' ↦ ?_⟩
  by_cases hid : id' = id
  · rw [hid, table_pushRecord_self]
    rfl
  · rwa [table_pushRecord_of_ne hid]

theorem keeps_foldl_pushRecord (ids : List ℤ) : st.Keeps (ids.foldl pushRecord st) := by
  induction ids generalizing st with
  | nil => exact .refl st
  | cons id ids ih => exact keeps_pushRecord.trans ih

theorem Reads.file_eq (h : st.Reads buffered future) (hne : st.file ≠ []) :
    ∃ front, st.file = front ++ [temporaryId] ∧ temporaryId ∉ front := by
  have hfile := h.file
  rw [← List.dropLast_append_getLast hne, ← List.append_assoc] at hfile
  obtain ⟨hfront, hlast⟩ := List.append_inj' hfile rfl
  refine ⟨st.file.dropLast, ?_, fun hmem ↦ h.notMem (hfront ▸ List.mem_append_right _ hmem)⟩
  rw [← List.singleton_inj.mp hlast, List.dropLast_append_getLast]

theorem Reads.readNextNRecords (h : st.Reads buffered future) {n : ℕ} (hn : 0 < n) :
    ∃ ids file ended, st.readNextNRecords n = some (ids, { st with file := file, ended := ended }) ∧
      buffered ++ ids ≠ [] ∧ ids ++ file = st.file ∧ (ended = true ↔ file = []) := by
  rw [OptimalCache.readNextNRecords]
  by_cases hended : st.ended = true
  · rw [if_pos hended]
    have hnil := h.ended.mp hended
    refine ⟨[], st.file, st.ended, rfl, ?_, rfl, h.ended⟩
    have hfile := h.file
    rw [hnil, List.append_nil] at hfile
    rw [List.append_nil, hfile]
    exact List.append_ne_nil_of_right_ne_nil _ (List.cons_ne_nil _ _)
  · rw [if_neg hended]
    have hne : st.file ≠ [] := fun hnil ↦ hended (h.ended.mpr hnil)
    obtain ⟨front, hfront, hnot⟩ := h.file_eq hne
    obtain ⟨x, hx⟩ : ∃ x, (st.file.take n).getLast? = some x := by
      rw [← Option.isSome_iff_exists, List.getLast?_isSome, ne_eq, List.take_eq_nil_iff, not_or]
      exact ⟨hn.ne', hne⟩
    rw [hx]
    refine ⟨_, _, decide (x = temporaryId), rfl, ?_, List.take_append_drop n st.file, ?_⟩
    · exact List.append_ne_nil_of_right_ne_nil _ (List.ne_nil_of_mem (List.mem_of_getLast? hx))
    · rw [decide_eq_true_eq, List.drop_eq_nil_iff]
      rw [hfront] at hx ⊢
      rw [List.length_append, List.length_singleton]
      by_cases hall : n ≤ front.length
      · rw [List.take_append_of_le_length hall] at hx
        refine iff_of_false ?_ (by omega)
        rintro rfl
        exact hnot (List.mem_of_mem_take (List.mem_of_getLast? hx))
      · have hlen : (front ++ [temporaryId]).length ≤ n := by
          rw [List.length_append, List.length_singleton]
          omega
        rw [List.take_of_length_le hlen, List.getLast?_concat] at hx
        exact iff_of_true (Option.some.inj hx).symm (by omega)

/-- **The window is filled**, and then has a record. -/
theorem windowFill_spec (hi : st.Indexes buffered) (hr : st.Reads buffered future)
    (hroom : st.bufferedNum < w) :
    ∃ st' buffered', st.windowFill w = some st' ∧ st'.Indexes buffered' ∧ st'.Reads buffered' future ∧
      buffered' ≠ [] ∧ st.Keeps st' := by
  obtain ⟨ids, file, ended, hread, hne, hfile, hended⟩ :=
    hr.readNextNRecords (n := w - st.bufferedNum) (Nat.sub_pos_of_lt hroom)
  have hi' : Indexes { st with file, ended, bufferedNum := st.bufferedNum + ids.length } buffered :=
    ⟨hi.length_le, hi.missing, hi.queue⟩
  refine ⟨ids.foldl pushRecord { st with file, ended, bufferedNum := st.bufferedNum + ids.length },
    buffered ++ ids, ?_, hi'.foldl_pushRecord ids, ?_, hne, ?_⟩
  · rw [windowFill, hread]
    rfl
  · rw [foldl_pushRecord_eq]
    constructor
    case num => rw [List.length_append, ← hr.num]
    case file => rw [List.append_assoc, hfile, hr.file]
    case ended => exact hended
    case notMem => exact hr.notMem
  · have hkeep : st.Keeps { st with file, ended, bufferedNum := st.bufferedNum + ids.length } :=
      ⟨rfl, rfl, rfl, fun _ h ↦ h⟩
    exact hkeep.trans (keeps_foldl_pushRecord ids)

/-- **The window slides**: the record of the next chunk is there. -/
theorem windowSlides_spec (hw : 0 < w) (hi : st.Indexes buffered)
    (hr : st.Reads buffered (id :: future)) :
    ∃ st' buffered', st.windowSlides w id = some st' ∧ st'.Indexes buffered' ∧
      st'.Reads buffered' future ∧ st.Keeps st' ∧ (st'.table id).isSome = true := by
  have hfill : ∃ st₁ buffered₁, (if st.bufferedNum * 2 ≤ w then st.windowFill w else some st) = some st₁ ∧
      st₁.Indexes buffered₁ ∧ st₁.Reads buffered₁ (id :: future) ∧ buffered₁ ≠ [] ∧ st.Keeps st₁ := by
    by_cases hhalf : st.bufferedNum * 2 ≤ w
    · rw [if_pos hhalf]
      exact windowFill_spec hi hr (by omega)
    · rw [if_neg hhalf]
      refine ⟨st, buffered, rfl, hi, hr, ?_, .refl st⟩
      rintro rfl
      have hnum := hr.num
      rw [List.length_nil] at hnum
      omega
  obtain ⟨st₁, buffered₁, hst₁, hi₁, hr₁, hne, hkeep⟩ := hfill
  obtain ⟨x, buffered', rfl⟩ := List.exists_cons_of_ne_nil hne
  have hfile := hr₁.file
  rw [List.cons_append, List.cons_append] at hfile
  obtain ⟨rfl, hrest⟩ := List.cons.inj hfile
  obtain ⟨q, hq⟩ : ∃ q, st₁.table x = some q := by
    rw [← Option.ne_none_iff_exists']
    exact fun hnone ↦ hi₁.missing x hnone List.mem_cons_self
  have hslide : st.windowSlides w x = some { st₁ with
      table := Function.update st₁.table x (some q.tail), bufferedNum := st₁.bufferedNum - 1 } :=
    Option.bind_eq_some_iff.mpr ⟨st₁, hst₁, Option.bind_eq_some_iff.mpr ⟨q, hq, rfl⟩⟩
  refine ⟨_, buffered', hslide, hi₁.pop hq _, ?_, hkeep.trans ?_, ?_⟩
  · refine ⟨?_, hrest, hr₁.ended, fun hmem ↦ hr₁.notMem (List.mem_cons_of_mem x hmem)⟩
    rw [hr₁.num, List.length_cons]
    rfl
  · refine ⟨rfl, rfl, rfl, fun id' hid' ↦ ?_⟩
    dsimp only
    by_cases hid : id' = x
    · rw [hid, Function.update_self]
      rfl
    · rwa [Function.update_of_ne hid]
  · dsimp only
    rw [Function.update_self]
    rfl

end Window

/-! ## The eviction -/

/-- A container is not accessed later than another one. -/
def NoLater (st : OptimalCache) (a b : ℤ) : Prop := ∀ y ∈ st.next b, ∃ x ∈ st.next a, x ≤ y

/-- The queue and the sequence have the same containers, and their records are in the table. -/
structure Corresponds (st : OptimalCache) : Prop where
  perm : st.sorted.Perm st.lru.elems
  nodup : st.lru.elems.Nodup
  cached : ∀ id ∈ st.lru.elems, (st.table id).isSome = true
  maxSize_pos : 0 < st.lru.maxSize
  length_le : st.lru.elems.length ≤ st.lru.maxSize

/-- The evicted container is not accessed among the buffered records, or all cached ones are and it is the
last of them. -/
def IsOptimalVictim (st : OptimalCache) (buffered : List ℤ) (victim : ℤ) : Prop :=
  victim ∈ st.lru.elems ∧ (victim ∉ buffered ∨
    ∀ id ∈ st.lru.elems, id ∈ buffered ∧ buffered.idxOf id ≤ buffered.idxOf victim)

section Evict

variable {st : OptimalCache} {buffered : List ℤ} {a b c id : ℤ} {l : List ℤ}

theorem NoLater.refl (st : OptimalCache) (a : ℤ) : st.NoLater a a := fun y hy ↦ ⟨y, hy, le_rfl⟩

theorem NoLater.trans (h : st.NoLater a b) (h' : st.NoLater b c) : st.NoLater a c := by
  intro z hz
  obtain ⟨y, hy, hyz⟩ := h' z hz
  obtain ⟨x, hx, hxy⟩ := h y hy
  exact ⟨x, hx, hxy.trans hyz⟩

theorem noLater_of_isAfter (h : st.isAfter b a = true) : st.NoLater a b := by
  intro y hy
  rw [isAfter, Option.mem_def.mp hy] at h
  cases hx : st.next a with
  | none =>
    rw [hx] at h
    cases h
  | some x =>
    rw [hx] at h
    exact ⟨x, rfl, (of_decide_eq_true h).le⟩

theorem noLater_of_not_isAfter (h : ¬st.isAfter a b = true) : st.NoLater a b := by
  intro y hy
  rw [isAfter, Option.mem_def.mp hy] at h
  cases hx : st.next a with
  | none =>
    rw [hx] at h
    exact absurd rfl h
  | some x =>
    rw [hx, decide_eq_true_eq, not_lt] at h
    exact ⟨x, rfl, h⟩

theorem insertSorted_perm : (st.insertSorted id l).Perm (id :: l) := by
  induction l with
  | nil => exact .refl _
  | cons x l ih =>
    rw [insertSorted]
    split_ifs
    · exact .refl _
    · exact (ih.cons x).trans (.swap id x l)

theorem pairwise_insertSorted (h : l.Pairwise st.NoLater) :
    (st.insertSorted id l).Pairwise st.NoLater := by
  induction l with
  | nil => exact List.pairwise_singleton _ _
  | cons x l ih =>
    rw [List.pairwise_cons] at h
    rw [insertSorted]
    split_ifs with hafter
    · have hx := noLater_of_isAfter hafter
      exact List.pairwise_cons.mpr ⟨List.forall_mem_cons.mpr ⟨hx, fun y hy ↦ hx.trans (h.1 y hy)⟩,
        List.pairwise_cons.mpr h⟩
    · refine List.pairwise_cons.mpr ⟨fun y hy ↦ ?_, ih h.2⟩
      rcases List.mem_cons.mp (insertSorted_perm.mem_iff.mp hy) with rfl | hy
      · exact noLater_of_not_isAfter hafter
      · exact h.1 y hy

/-- **The sort** gives the containers in the order of their next access. -/
theorem resort_spec (st : OptimalCache) :
    st.resort.Perm st.sorted ∧ st.resort.Pairwise st.NoLater := by
  have hfold : ∀ (ids l : List ℤ), l.Pairwise st.NoLater →
      (ids.foldl (fun l id ↦ st.insertSorted id l) l).Perm (l ++ ids) ∧
        (ids.foldl (fun l id ↦ st.insertSorted id l) l).Pairwise st.NoLater := by
    intro ids
    induction ids with
    | nil => exact fun l hl ↦ ⟨by rw [List.append_nil]; exact .refl _, hl⟩
    | cons id ids ih =>
      intro l hl
      obtain ⟨hperm, hsorted⟩ := ih _ (pairwise_insertSorted hl)
      exact ⟨hperm.trans ((insertSorted_perm.append_right ids).trans List.perm_middle.symm), hsorted⟩
  obtain ⟨hperm, hsorted⟩ := hfold st.sorted [] .nil
  exact ⟨hperm, hsorted⟩

/-- Every container that may be kicked is cached, and has no access or is not accessed before any other. -/
theorem mem_kickable (h : id ∈ st.kickable) :
    id ∈ st.sorted ∧ (st.next id = none ∨ ∀ x ∈ st.sorted, st.NoLater x id) := by
  obtain ⟨hperm, hsorted⟩ := st.resort_spec
  rw [kickable] at h
  cases hrev : st.resort.reverse with
  | nil =>
    rw [hrev] at h
    exact absurd h List.not_mem_nil
  | cons last rest =>
    rw [hrev] at h
    have hmem : ∀ x, x ∈ last :: rest ↔ x ∈ st.sorted := fun x ↦ by
      rw [← hrev, List.mem_reverse, hperm.mem_iff]
    rcases List.mem_cons.mp h with rfl | h
    · refine ⟨(hmem id).mp List.mem_cons_self, .inr fun x hx ↦ ?_⟩
      rw [← List.pairwise_reverse, hrev, List.pairwise_cons] at hsorted
      rcases List.mem_cons.mp ((hmem x).mpr hx) with rfl | hx
      · exact .refl st x
      · exact hsorted.1 x hx
    · have hrest := (List.takeWhile_sublist _).subset h
      refine ⟨(hmem id).mp (List.mem_cons_of_mem last (List.mem_of_mem_take hrest)), .inl ?_⟩
      exact Option.isNone_iff_eq_none.mp
        (List.mem_takeWhile_imp (p := fun id ↦ (st.next id).isNone) h)

theorem exists_mem_kickable (h : st.sorted ≠ []) : ∃ id, id ∈ st.kickable := by
  rw [kickable]
  cases hrev : st.resort.reverse with
  | nil =>
    have hnil := List.reverse_eq_nil_iff.mp hrev
    exact absurd (List.perm_nil.mp (hnil ▸ st.resort_spec.1.symm)) h
  | cons last rest => exact ⟨last, List.mem_cons_self⟩

theorem isOptimalVictim_of_mem_kickable (hc : st.Corresponds) (hi : st.Indexes buffered)
    (h : id ∈ st.kickable) : st.IsOptimalVictim buffered id := by
  obtain ⟨hmem, hkick⟩ := mem_kickable h
  refine ⟨hc.perm.mem_iff.mp hmem, ?_⟩
  rw [hi.next_eq] at hkick
  by_cases hid : id ∈ buffered
  · right
    rw [if_pos hid] at hkick
    rcases hkick with hkick | hkick
    · cases hkick
    intro x hx
    obtain ⟨n, hn, hle⟩ := hkick x (hc.perm.mem_iff.mpr hx) _ (by rw [hi.next_eq, if_pos hid]; rfl)
    rw [hi.next_eq] at hn
    by_cases hxb : x ∈ buffered
    · rw [if_pos hxb] at hn
      obtain rfl := Option.some.inj hn
      exact ⟨hxb, Nat.add_le_add_iff_left.mp hle⟩
    · rw [if_neg hxb] at hn
      cases hn
  · exact .inl hid

end Evict

/-! ## The operations -/

section Operations

variable {st st' : OptimalCache} {buffered future : List ℤ} {id : ℤ} {w : ℕ}

theorem Indexes.congr (h : st.Indexes buffered) (htable : st'.table = st.table)
    (hnumber : st'.sequenceNumber = st.sequenceNumber) : st'.Indexes buffered := by
  constructor
  · rw [hnumber]
    exact h.length_le
  · rw [htable]
    exact h.missing
  · rw [htable, hnumber]
    exact h.queue

/-- The records that are left in the table still describe what is buffered. -/
theorem Indexes.evict (h : st.Indexes buffered) {q : List ℕ} (hq : st.table id = some q)
    (htable : st'.table = if q = [] then Function.update st.table id none else st.table)
    (hnumber : st'.sequenceNumber = st.sequenceNumber) : st'.Indexes buffered := by
  by_cases hnil : q = []
  · rw [if_pos hnil] at htable
    refine (h.remove fun hmem ↦ ?_).congr htable hnumber
    have hhead := @head?_occurrences (st.sequenceNumber - buffered.length) id buffered
    rw [← h.queue id q hq, hnil, if_pos hmem] at hhead
    cases hhead
  · rw [if_neg hnil] at htable
    exact h.congr htable hnumber

/-- What an operation on the cached containers leaves as it is. -/
structure SameWindow (st st' : OptimalCache) : Prop where
  file : st'.file = st.file
  ended : st'.ended = st.ended
  bufferedNum : st'.bufferedNum = st.bufferedNum
  lastId : st'.lastId = st.lastId

theorem Reads.congr (h : st.Reads buffered future) (hsame : st.SameWindow st') :
    st'.Reads buffered future := by
  constructor
  · rw [hsame.bufferedNum, h.num]
  · rw [hsame.file, h.file]
  · rw [hsame.ended, hsame.file, h.ended]
  · exact h.notMem

/-- **An eviction.** -/
theorem evict_spec (hc : st.Corresponds) (hi : st.Indexes buffered) (hne : st.lru.elems ≠ []) :
    ∃ victim st', st.evict = some (victim, st') ∧ st.IsOptimalVictim buffered victim ∧
      st'.Indexes buffered ∧ st'.Corresponds ∧ st.SameWindow st' ∧
      (victim :: st'.lru.elems).Perm st.lru.elems ∧ st'.lru.maxSize = st.lru.maxSize ∧
      ∀ x, x ≠ victim → st'.table x = st.table x := by
  have hlive : (st.sorted.all fun id ↦ (st.table id).isSome) = true :=
    List.all_eq_true.mpr fun id hid ↦ hc.cached id (hc.perm.mem_iff.mp hid)
  have hsorted : st.sorted ≠ [] := fun hnil ↦ hne (List.perm_nil.mp (hnil ▸ hc.perm.symm))
  obtain ⟨x, hx⟩ := exists_mem_kickable hsorted
  obtain ⟨victim, hvictim⟩ : ∃ victim, st.lru.elems.reverse.find? (· ∈ st.kickable) = some victim := by
    rw [← Option.isSome_iff_exists, List.find?_isSome]
    exact ⟨x, List.mem_reverse.mpr (hc.perm.mem_iff.mp (mem_kickable hx).1), decide_eq_true hx⟩
  have hkick : victim ∈ st.kickable := by simpa using List.find?_some hvictim
  obtain ⟨q, hq⟩ := Option.isSome_iff_exists.mp
    (hc.cached victim (List.mem_reverse.mp (List.mem_of_find?_eq_some hvictim)))
  have hperm := Lru.Cache.kicks_perm hvictim
  have hnodup := List.nodup_cons.mp (hperm.nodup_iff.mpr hc.nodup)
  have htable : ∀ x, x ≠ victim →
      (if q = [] then Function.update st.table victim none else st.table) x = st.table x := by
    intro x hx
    split_ifs
    · exact Function.update_of_ne hx _ _
    · rfl
  have hevict : st.evict = some (victim, { st with
      table := if q = [] then Function.update st.table victim none else st.table
      sorted := (st.resort.reverse.erase victim).reverse
      lru := st.lru.kicks (· ∈ st.kickable) }) := by
    rw [OptimalCache.evict, if_pos hlive]
    exact Option.bind_eq_some_iff.mpr ⟨victim, hvictim, Option.bind_eq_some_iff.mpr ⟨q, hq, rfl⟩⟩
  refine ⟨victim, _, hevict, isOptimalVictim_of_mem_kickable hc hi hkick, hi.evict hq rfl rfl, ?_,
    ⟨rfl, rfl, rfl, rfl⟩, hperm, Lru.Cache.maxSize_kicks _ _, htable⟩
  constructor
  case perm =>
    have herase : (st.resort.reverse.erase victim).Perm (st.lru.elems.erase victim) :=
      (((List.reverse_perm _).trans st.resort_spec.1).trans hc.perm).erase victim
    have hkicks : (st.lru.kicks (· ∈ st.kickable)).elems.Perm (st.lru.elems.erase victim) := by
      have h := hperm.erase victim
      rwa [List.erase_cons_head] at h
    exact (List.reverse_perm _).trans (herase.trans hkicks.symm)
  case nodup => exact hnodup.2
  case cached =>
    intro x hx
    dsimp only at hx ⊢
    rw [htable x fun heq ↦ hnodup.1 (heq ▸ hx)]
    exact hc.cached x (hperm.subset (List.mem_cons_of_mem victim hx))
  case maxSize_pos =>
    rw [Lru.Cache.maxSize_kicks]
    exact hc.maxSize_pos
  case length_le =>
    have hlen := hperm.length_eq
    rw [List.length_cons] at hlen
    rw [Lru.Cache.maxSize_kicks]
    exact (Nat.le_succ _).trans (hlen.le.trans hc.length_le)

/-- **An insertion.** -/
theorem insert_spec (search : OptimalCache → ℤ → ℕ) (hc : st.Corresponds) (hi : st.Indexes buffered)
    (hnot : id ∉ st.lru.elems) (hid : (st.table id).isSome = true) :
    ∃ victim st', st.insert search id = some (victim, st') ∧
      (∀ v ∈ victim, st.IsOptimalVictim buffered v) ∧ st'.Indexes buffered ∧ st'.Corresponds ∧
      st.SameWindow st' ∧ id ∈ st'.lru.elems := by
  have hroom : ∃ victim st₁, (if st.lru.isFull then st.evict.map fun r ↦ (some r.1, r.2)
      else some (none, st)) = some (victim, st₁) ∧ (∀ v ∈ victim, st.IsOptimalVictim buffered v) ∧
      st₁.Indexes buffered ∧ st₁.Corresponds ∧ st.SameWindow st₁ ∧ id ∉ st₁.lru.elems ∧
      (st₁.table id).isSome = true ∧ st₁.lru.elems.length < st₁.lru.maxSize := by
    by_cases hfull : st.lru.isFull = true
    · rw [if_pos hfull]
      have hlen : st.lru.maxSize ≤ st.lru.elems.length := of_decide_eq_true hfull
      have hne : st.lru.elems ≠ [] :=
        List.ne_nil_of_length_pos (Nat.lt_of_lt_of_le hc.maxSize_pos hlen)
      obtain ⟨victim, st₁, hevict, hvictim, hi₁, hc₁, hsame, hperm, hmax, htable⟩ := evict_spec hc hi hne
      have hne' : id ≠ victim := fun heq ↦ hnot (heq ▸ hvictim.1)
      have hlen₁ := hperm.length_eq
      rw [List.length_cons] at hlen₁
      refine ⟨some victim, st₁, by rw [hevict]; rfl, ?_, hi₁, hc₁, hsame, ?_, ?_, ?_⟩
      · exact fun v hv ↦ Option.some.inj hv ▸ hvictim
      · exact fun hmem ↦ hnot (hperm.subset (List.mem_cons_of_mem victim hmem))
      · rw [htable id hne']
        exact hid
      · rw [hmax]
        exact Nat.lt_of_succ_le (hlen₁.le.trans hc.length_le)
    · rw [if_neg hfull]
      refine ⟨none, st, rfl, fun v hv ↦ absurd hv (Option.not_mem_none v), hi, hc, ⟨rfl, rfl, rfl, rfl⟩,
        hnot, hid, ?_⟩
      exact Nat.lt_of_not_le fun hle ↦ hfull (decide_eq_true hle)
  obtain ⟨victim, st₁, hevict, hvictim, hi₁, hc₁, hsame, hnot₁, hid₁, hlen⟩ := hroom
  obtain ⟨q, hq⟩ := Option.isSome_iff_exists.mp hid₁
  have hinsert : st.insert search id = some (victim, { st₁ with
      lru := st₁.lru.insert id
      sorted := st₁.sorted.take (search { st₁ with lru := st₁.lru.insert id } id) ++
        id :: st₁.sorted.drop (search { st₁ with lru := st₁.lru.insert id } id) }) :=
    Option.bind_eq_some_iff.mpr ⟨(victim, st₁), hevict, Option.bind_eq_some_iff.mpr ⟨q, hq, rfl⟩⟩
  refine ⟨victim, _, hinsert, hvictim, hi₁.congr rfl rfl, ?_,
    ⟨hsame.file, hsame.ended, hsame.bufferedNum, hsame.lastId⟩, Lru.Cache.mem_insert_self _ _⟩
  have helems : (st₁.lru.insert id).elems = id :: st₁.lru.elems := by
    rw [Lru.Cache.insert_of_length_lt hlen]
  constructor
  case perm =>
    dsimp only
    rw [helems]
    refine List.perm_middle.trans (List.Perm.cons id ?_)
    rw [List.take_append_drop]
    exact hc₁.perm
  case nodup =>
    dsimp only
    rw [helems]
    exact List.nodup_cons.mpr ⟨hnot₁, hc₁.nodup⟩
  case cached =>
    dsimp only
    rw [helems]
    exact List.forall_mem_cons.mpr ⟨hid₁, hc₁.cached⟩
  case maxSize_pos =>
    rw [Lru.Cache.maxSize_insert]
    exact hc₁.maxSize_pos
  case length_le =>
    rw [Lru.Cache.maxSize_insert]
    dsimp only
    rw [helems]
    exact hlen

theorem Corresponds.lookup (hc : st.Corresponds) (p : ℤ → Bool) :
    Corresponds { st with lru := (st.lru.lookup p).2 } := by
  have hperm := st.lru.lookup_perm p
  constructor
  case perm => exact hc.perm.trans hperm.symm
  case nodup => exact hperm.nodup_iff.mpr hc.nodup
  case cached => exact fun id hid ↦ hc.cached id (hperm.subset hid)
  case maxSize_pos =>
    rw [Lru.Cache.maxSize_lookup]
    exact hc.maxSize_pos
  case length_le =>
    rw [Lru.Cache.maxSize_lookup]
    exact hperm.length_eq.le.trans hc.length_le

end Operations

/-! ## The run -/

/-- The state of the cache is sound: it buffers a stretch of the records of the chunks to come. -/
structure IsSound (st : OptimalCache) (buffered : List ℤ) (cps : List ChunkPointer) : Prop where
  indexes : st.Indexes buffered
  reads : st.Reads buffered (pending st.lastId (cps.map ChunkPointer.id))
  corresponds : st.Corresponds

section Run

variable {st : OptimalCache} {buffered : List ℤ} {cp : ChunkPointer} {cps : List ChunkPointer}
  {w size : ℕ}

/-- **The look at the cache** for a chunk. -/
theorem hits_spec (hw : 0 < w) (h : st.IsSound buffered (cp :: cps))
    (hlast : st.lastId = temporaryId ∨ st.lastId ∈ st.lru.elems) (hid : cp.id ≠ temporaryId) :
    ∃ hit st' buffered', st.hits w cp.id = some (hit, st') ∧ st'.IsSound buffered' cps ∧
      st'.lastId = cp.id ∧ (hit = true ↔ cp.id ∈ st'.lru.elems) ∧ (st'.table cp.id).isSome = true := by
  have hslide : ∃ st₁ buffered₁, (if st.lastId ≠ cp.id then
        (st.windowSlides w cp.id).map fun st ↦ { st with lastId := cp.id } else some st) = some st₁ ∧
      st₁.IsSound buffered₁ cps ∧ st₁.lastId = cp.id ∧ (st₁.table cp.id).isSome = true := by
    have hreads := h.reads
    rw [List.map_cons, pending] at hreads
    by_cases heq : st.lastId = cp.id
    · rw [if_neg (not_not.mpr heq)]
      rw [if_pos heq] at hreads
      have hmem := hlast.resolve_left fun htemp ↦ hid (heq ▸ htemp)
      exact ⟨st, buffered, rfl, ⟨h.indexes, hreads, h.corresponds⟩, heq,
        heq ▸ h.corresponds.cached _ hmem⟩
    · rw [if_pos heq]
      rw [if_neg heq] at hreads
      obtain ⟨st₁, buffered₁, hst₁, hi, hr, hkeep, htable⟩ := windowSlides_spec hw h.indexes hreads
      refine ⟨{ st₁ with lastId := cp.id }, buffered₁, by rw [hst₁]; rfl, ⟨hi.congr rfl rfl, ?_, ?_⟩, rfl, htable⟩
      · exact ⟨hr.num, hr.file, hr.ended, hr.notMem⟩
      · constructor
        case perm =>
          dsimp only
          rw [hkeep.sorted, hkeep.lru]
          exact h.corresponds.perm
        case nodup =>
          dsimp only
          rw [hkeep.lru]
          exact h.corresponds.nodup
        case cached =>
          dsimp only
          rw [hkeep.lru]
          exact fun x hx ↦ hkeep.table x (h.corresponds.cached x hx)
        case maxSize_pos =>
          dsimp only
          rw [hkeep.lru]
          exact h.corresponds.maxSize_pos
        case length_le =>
          dsimp only
          rw [hkeep.lru]
          exact h.corresponds.length_le
  obtain ⟨st₁, buffered₁, hst₁, hsound, hlast₁, htable⟩ := hslide
  have hperm := st₁.lru.lookup_perm (· = cp.id)
  have hlookup : (st₁.lru.lookup (· = cp.id)).1.isSome = true ↔
      cp.id ∈ (st₁.lru.lookup (· = cp.id)).2.elems := by
    rw [hperm.mem_iff, ← Bool.not_eq_false, Option.isSome_eq_false_iff, Option.isNone_iff_eq_none,
      Lru.Cache.lookup_eq_none]
    simp
  have hhits : st.hits w cp.id = some ((st₁.lru.lookup (· = cp.id)).1.isSome,
      { st₁ with lru := (st₁.lru.lookup (· = cp.id)).2 }) :=
    Option.bind_eq_some_iff.mpr ⟨st₁, hst₁, rfl⟩
  refine ⟨_, _, buffered₁, hhits, ⟨hsound.indexes.congr rfl rfl, ?_, hsound.corresponds.lookup _⟩,
    hlast₁, hlookup, htable⟩
  exact ⟨hsound.reads.num, hsound.reads.file, hsound.reads.ended, hsound.reads.notMem⟩

/-- **A miss** puts the container into the cache. -/
theorem IsSound.insert (search : OptimalCache → ℤ → ℕ) (h : st.IsSound buffered cps) {id : ℤ}
    (hnot : id ∉ st.lru.elems) (htable : (st.table id).isSome = true) :
    ∃ victim st', st.insert search id = some (victim, st') ∧
      (∀ v ∈ victim, st.IsOptimalVictim buffered v) ∧ st'.IsSound buffered cps ∧
      st'.lastId = st.lastId ∧ id ∈ st'.lru.elems := by
  obtain ⟨victim, st', hinsert, hvictim, hi, hc, hsame, hmem⟩ :=
    insert_spec search h.corresponds h.indexes hnot htable
  exact ⟨victim, st', hinsert, hvictim, ⟨hi, hsame.lastId ▸ h.reads.congr hsame, hc⟩, hsame.lastId, hmem⟩

theorem IsSound.lookup (holds : ℤ → Fingerprint → Bool) (h : st.IsSound buffered cps) (fp : Fingerprint) :
    IsSound (st.lookup holds fp).2 buffered cps where
  indexes := h.indexes.congr rfl rfl
  reads := ⟨h.reads.num, h.reads.file, h.reads.ended, h.reads.notMem⟩
  corresponds := h.corresponds.lookup _

/-- **The look at the cache and the insertion** after a miss. -/
theorem access_spec (search : OptimalCache → ℤ → ℕ) (hw : 0 < w) (h : st.IsSound buffered (cp :: cps))
    (hlast : st.lastId = temporaryId ∨ st.lastId ∈ st.lru.elems) (hid : cp.id ≠ temporaryId) :
    ∃ hit st₁ st₂ buffered₁, st.hits w cp.id = some (hit, st₁) ∧
      (if hit then some st₁ else (st₁.insert search cp.id).map Prod.snd) = some st₂ ∧
      st₂.IsSound buffered₁ cps ∧ st₂.lastId ∈ st₂.lru.elems ∧ cp.id ∈ st₂.lru.elems := by
  obtain ⟨hit, st₁, buffered₁, hhits, hsound, hlast₁, hmem, htable⟩ := hits_spec hw h hlast hid
  cases hit with
  | true =>
    refine ⟨true, st₁, st₁, buffered₁, hhits, rfl, hsound, ?_, hmem.mp rfl⟩
    rw [hlast₁]
    exact hmem.mp rfl
  | false =>
    have hnot : cp.id ∉ st₁.lru.elems := fun h ↦ Bool.false_ne_true (hmem.mpr h)
    obtain ⟨victim, st₂, hinsert, -, hsound₂, hlast₂, hmem₂⟩ := hsound.insert search hnot htable
    refine ⟨false, st₁, st₂, buffered₁, hhits, by rw [hinsert]; rfl, hsound₂, ?_, hmem₂⟩
    rw [hlast₂, hlast₁]
    exact hmem₂

/-- **A turn** of the restore thread. -/
theorem turn_spec (search : OptimalCache → ℤ → ℕ) (holds : ℤ → Fingerprint → Bool) (hw : 0 < w)
    (h : st.IsSound buffered (cp :: cps))
    (hlast : st.lastId = temporaryId ∨ st.lastId ∈ st.lru.elems) (hid : cp.id ≠ temporaryId) :
    ∃ st' buffered', st.turn w search holds cp = some st' ∧ st'.IsSound buffered' cps ∧
      st'.lastId ∈ st'.lru.elems := by
  obtain ⟨hit, st₁, st₂, buffered₁, hhits, hst₂, hsound₂, hmem₂, -⟩ := access_spec search hw h hlast hid
  refine ⟨_, buffered₁, Option.bind_eq_some_iff.mpr ⟨(hit, st₁), hhits,
    Option.bind_eq_some_iff.mpr ⟨st₂, hst₂, rfl⟩⟩, hsound₂.lookup holds cp.fp, ?_⟩
  exact (st₂.lru.lookup_perm _).mem_iff.mpr hmem₂

theorem run_spec (search : OptimalCache → ℤ → ℕ) (holds : ℤ → Fingerprint → Bool) (hw : 0 < w)
    {before after : List ChunkPointer} (h : st.IsSound buffered (before ++ after))
    (hlast : st.lastId = temporaryId ∨ st.lastId ∈ st.lru.elems)
    (hids : ∀ cp ∈ before, cp.id ≠ temporaryId) :
    ∃ st' buffered', before.foldlM (turn w search holds) st = some st' ∧ st'.IsSound buffered' after ∧
      (st'.lastId = temporaryId ∨ st'.lastId ∈ st'.lru.elems) := by
  induction before generalizing st buffered with
  | nil => exact ⟨st, buffered, rfl, h, hlast⟩
  | cons cp before ih =>
    rw [List.forall_mem_cons] at hids
    obtain ⟨st₁, buffered₁, hturn, hsound, hlast₁⟩ := turn_spec search holds hw h hlast hids.1
    obtain ⟨st₂, buffered₂, hrun, hsound₂, hlast₂⟩ := ih hsound (.inr hlast₁) hids.2
    exact ⟨st₂, buffered₂, Option.bind_eq_some_iff.mpr ⟨st₁, hturn, hrun⟩, hsound₂, hlast₂⟩

/-- The records that are written for some chunks, and the pending one. -/
theorem foldl_appendChunkPointer (b : BackupVersion) (last : ℤ) (hids : ∀ cp ∈ cps, cp.id ≠ temporaryId) :
    (cps.foldl (fun r cp ↦ r.1.appendChunkPointer r.2 cp) (b, last)).1.records ++
        (if (cps.foldl (fun r cp ↦ r.1.appendChunkPointer r.2 cp) (b, last)).2 ≠ temporaryId
          then [(cps.foldl (fun r cp ↦ r.1.appendChunkPointer r.2 cp) (b, last)).2] else []) =
      b.records ++ (if last ≠ temporaryId then [last] else []) ++ pending last (cps.map ChunkPointer.id) := by
  induction cps generalizing b last with
  | nil => exact (List.append_nil _).symm
  | cons cp cps ih =>
    rw [List.forall_mem_cons] at hids
    rw [List.foldl_cons, ih _ _ hids.2, List.map_cons, pending]
    simp only [BackupVersion.appendChunkPointer]
    rw [if_pos hids.1]
    by_cases heq : last = cp.id
    · rw [if_pos heq, heq, if_neg fun h ↦ h.2 rfl, if_pos hids.1]
    · rw [if_neg heq]
      by_cases htemp : last = temporaryId
      · rw [if_neg fun h ↦ h.1 htemp, if_neg (not_not.mpr htemp)]
        simp
      · rw [if_pos ⟨htemp, heq⟩, if_pos htemp]
        simp

/-- The access records of a version with some chunks. -/
def writtenRecords (cps : List ChunkPointer) : List ℤ :=
  let (b, accessRecord) :=
    cps.foldl (fun r cp ↦ r.1.appendChunkPointer r.2 cp) (BackupVersion.create 0, temporaryId)
  (b.update accessRecord).records

theorem writtenRecords_eq (hids : ∀ cp ∈ cps, cp.id ≠ temporaryId) :
    writtenRecords cps = pending temporaryId (cps.map ChunkPointer.id) ++ [temporaryId] :=
  congrArg (· ++ [temporaryId]) (foldl_appendChunkPointer (BackupVersion.create 0) temporaryId hids)

theorem temporaryId_notMem_pending {last : ℤ} {ids : List ℤ} (h : ∀ id ∈ ids, id ≠ temporaryId) :
    temporaryId ∉ pending last ids := by
  induction ids generalizing last with
  | nil => exact List.not_mem_nil
  | cons id ids ih =>
    rw [List.forall_mem_cons] at h
    rw [pending]
    split_ifs
    · exact ih h.2
    · rw [List.mem_cons, not_or]
      exact ⟨Ne.symm h.1, ih h.2⟩

theorem init_spec (hw : 0 < w) (hsize : 0 < size) (hids : ∀ cp ∈ cps, cp.id ≠ temporaryId) :
    ∃ st buffered, init w size (writtenRecords cps) = some st ∧ st.IsSound buffered cps ∧
      st.lastId = temporaryId := by
  have hi : Indexes ⟨writtenRecords cps, false, 0, fun _ ↦ none, 0, [], Lru.Cache.new size, temporaryId⟩
      [] := ⟨le_rfl, fun _ _ ↦ List.not_mem_nil, fun _ _ h ↦ by cases h⟩
  have hr : Reads ⟨writtenRecords cps, false, 0, fun _ ↦ none, 0, [], Lru.Cache.new size, temporaryId⟩
      [] (pending temporaryId (cps.map ChunkPointer.id)) := by
    refine ⟨rfl, writtenRecords_eq hids, ?_, temporaryId_notMem_pending fun id hid ↦ ?_⟩
    · dsimp only
      rw [writtenRecords_eq hids]
      simp
    · obtain ⟨cp, hcp, rfl⟩ := List.mem_map.mp hid
      exact hids cp hcp
  obtain ⟨st, buffered, hfill, hi', hr', -, hkeep⟩ := windowFill_spec hi hr hw
  refine ⟨st, buffered, hfill, ⟨hi', hkeep.lastId ▸ hr', ?_⟩, hkeep.lastId⟩
  constructor
  case perm =>
    rw [hkeep.sorted, hkeep.lru]
    exact .refl _
  case nodup =>
    rw [hkeep.lru]
    exact List.nodup_nil
  case cached =>
    rw [hkeep.lru]
    exact fun id hid ↦ absurd hid List.not_mem_nil
  case maxSize_pos =>
    rw [hkeep.lru]
    exact hsize
  case length_le =>
    rw [hkeep.lru]
    exact Nat.zero_le _

/-- At a chunk, the cache tells whether its container is cached, and what is evicted for it is
an optimal victim. -/
def EvictsOptimally (w : ℕ) (search : OptimalCache → ℤ → ℕ) (st : OptimalCache) (cp : ChunkPointer)
    (cps : List ChunkPointer) : Prop :=
  ∃ hit st₁ buffered, st.hits w cp.id = some (hit, st₁) ∧ st₁.IsSound buffered cps ∧
    (hit = true ↔ cp.id ∈ st₁.lru.elems) ∧
    (hit = false → ∃ victim st₂, st₁.insert search cp.id = some (victim, st₂) ∧
      st₂.IsSound buffered cps ∧ ∀ v ∈ victim, st₁.IsOptimalVictim buffered v)

theorem IsSound.evictsOptimally (search : OptimalCache → ℤ → ℕ) (hw : 0 < w)
    (h : st.IsSound buffered (cp :: cps)) (hlast : st.lastId = temporaryId ∨ st.lastId ∈ st.lru.elems)
    (hid : cp.id ≠ temporaryId) : st.EvictsOptimally w search cp cps := by
  obtain ⟨hit, st₁, buffered₁, hhits, hsound, -, hmem, htable⟩ := hits_spec hw h hlast hid
  refine ⟨hit, st₁, buffered₁, hhits, hsound, hmem, fun hmiss ↦ ?_⟩
  have hnot : cp.id ∉ st₁.lru.elems := fun h ↦ Bool.false_ne_true (hmiss ▸ hmem.mpr h)
  obtain ⟨victim, st₂, hinsert, hvictim, hsound₂, -, -⟩ := hsound.insert search hnot htable
  exact ⟨victim, st₂, hinsert, hsound₂, hvictim⟩

/-- No assertion fails in the restore of the chunks: the cache is sound before each of them and at the end,
and it evicts optimally. -/
def RestoresOptimally (w size : ℕ) (search : OptimalCache → ℤ → ℕ) (holds : ℤ → Fingerprint → Bool)
    (cps : List ChunkPointer) : Prop :=
  ∃ st₀, init w size (writtenRecords cps) = some st₀ ∧ ∀ before after, cps = before ++ after →
    ∃ st buffered, before.foldlM (turn w search holds) st₀ = some st ∧ st.IsSound buffered after ∧
      ∀ cp rest, after = cp :: rest → st.EvictsOptimally w search cp rest

/-- **The optimal cache evicts optimally within its window**, at any of its sizes. -/
theorem restoresOptimally (search : OptimalCache → ℤ → ℕ) (holds : ℤ → Fingerprint → Bool) (hw : 0 < w)
    (hsize : 0 < size) (hids : ∀ cp ∈ cps, cp.id ≠ temporaryId) :
    RestoresOptimally w size search holds cps := by
  obtain ⟨st₀, buffered₀, hinit, hsound₀, hlast₀⟩ := init_spec hw hsize hids
  refine ⟨st₀, hinit, fun before after heq ↦ ?_⟩
  subst heq
  obtain ⟨st, buffered, hrun, hsound, hlast⟩ := run_spec search holds hw hsound₀ (.inl hlast₀)
    fun cp hcp ↦ hids cp (List.mem_append_left after hcp)
  refine ⟨st, buffered, hrun, hsound, fun cp rest heq ↦ ?_⟩
  subst heq
  exact hsound.evictsOptimally search hw hlast
    (hids cp (List.mem_append_right before List.mem_cons_self))

/-- Three containers in a cache for two. -/
theorem restoresOptimally_two : RestoresOptimally 2 2 (fun st _ ↦ st.sorted.length) (fun _ _ ↦ true)
    [⟨.fill 1, 0, 10⟩, ⟨.fill 2, 1, 10⟩, ⟨.fill 3, 2, 10⟩, ⟨.fill 1, 0, 10⟩] :=
  restoresOptimally _ _ (by decide) (by decide) (by decide)

end Run

end OptimalCache

end UniDedup.Node
