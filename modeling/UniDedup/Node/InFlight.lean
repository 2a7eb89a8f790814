import UniDedup.Node.RewriteStream
import UniDedup.Node.Filter

/-!
# Chunks in flight

Between its lookup and its filtering a chunk is in flight: it has an element in the index buffer, and
other chunks may be marked as its duplicates before it is stored. The invariant `InFlight` says what
the lookup of a chunk may rely on later: the queue of a fingerprint has one element for each of its
occurrences; a chunk that was not found is the first occurrence of its fingerprint and is not in the
container being filled; and where the head of a queue has no container yet, the first occurrence is
such a chunk, so a container will be known once it is filtered.

The invariant is about the fingerprint, the container id and the duplicate flag of each chunk only, so
the marks of the rewrite phase do not touch it. `H` and `O` stand for what the containers hold and for
what is in the container being filled.
-/

namespace UniDedup.Node

open Outcome

/-! ## Entries -/

/-- The chunks of a list that are not file markers. -/
def dataChunks (cs : List Chunk) : List Chunk := cs.filter fun c ↦ !c.isFileMarker

@[simp] theorem dataChunks_append (cs ds : List Chunk) :
    dataChunks (cs ++ ds) = dataChunks cs ++ dataChunks ds := List.filter_append _ _

theorem mem_dataChunks {cs : List Chunk} {c : Chunk} :
    c ∈ dataChunks cs ↔ c ∈ cs ∧ c.isFileMarker = false := by simp [dataChunks]

theorem dataChunks_cons_data {c : Chunk} (h : c.isFileMarker = false) (cs : List Chunk) :
    dataChunks (c :: cs) = c :: dataChunks cs := by simp [dataChunks, h]

theorem dataChunks_cons_marker {c : Chunk} (h : c.isFileMarker = true) (cs : List Chunk) :
    dataChunks (c :: cs) = dataChunks cs := by simp [dataChunks, h]

theorem chunkNum_append (cs ds : List Chunk) : chunkNum (cs ++ ds) = chunkNum cs + chunkNum ds :=
  List.countP_append

theorem chunkNum_singleton (c : Chunk) : chunkNum [c] = if c.isFileMarker then 0 else 1 := by
  cases hm : c.isFileMarker <;> simp [chunkNum, hm]

theorem chunkNum_cons (c : Chunk) (cs : List Chunk) :
    chunkNum (c :: cs) = (if c.isFileMarker then 0 else 1) + chunkNum cs := by
  rw [← chunkNum_singleton, ← chunkNum_append, List.singleton_append]

theorem chunkNum_eq (cs : List Chunk) : chunkNum cs = (dataChunks cs).length :=
  List.countP_eq_length_filter

/-- What the index knows of a chunk in flight. -/
structure Entry where
  fp : Fingerprint
  id : ℤ
  dup : Bool

def Chunk.entry (c : Chunk) : Entry := ⟨c.fp, c.id, c.duplicate⟩

def entries (cs : List Chunk) : List Entry := (dataChunks cs).map Chunk.entry

@[simp] theorem entries_append (cs ds : List Chunk) : entries (cs ++ ds) = entries cs ++ entries ds := by
  simp [entries]

theorem Marked.dataChunks {cfg : Config} {cs cs' : List Chunk} (h : Marked cfg cs cs') :
    Marked cfg (dataChunks cs) (dataChunks cs') := by
  induction h with
  | nil => exact .nil
  | @cons c c' cs cs' hc _ ih =>
    cases hm : c.isFileMarker with
    | true =>
      rw [dataChunks_cons_marker hm, dataChunks_cons_marker (hc.isFileMarker.trans hm)]
      exact ih
    | false =>
      rw [dataChunks_cons_data hm, dataChunks_cons_data (hc.isFileMarker.trans hm)]
      exact .cons hc ih

theorem Marked.entries_eq {cfg : Config} {cs cs' : List Chunk} (h : Marked cfg cs cs') :
    entries cs' = entries cs := by
  have hmap : ∀ {ds ds' : List Chunk}, Marked cfg ds ds' →
      ds'.map Chunk.entry = ds.map Chunk.entry := by
    intro ds ds' hd
    induction hd with
    | nil => rfl
    | cons hc _ ih => simp [Chunk.entry, hc.fp, hc.id, hc.duplicate, ih]
  exact hmap h.dataChunks

/-! ## The invariant -/

/-- **The invariant of the chunks in flight.** -/
structure InFlight (H : ℤ → Fingerprint → Prop) (O : Fingerprint → Prop)
    (queues : Fingerprint → List ℤ) (F : List Entry) : Prop where
  /-- A container id is right once it is known. -/
  ids : ∀ e ∈ F, e.id = temporaryId ∨ H e.id e.fp
  /-- A chunk that was not found is new. -/
  unique : ∀ pre e post, F = pre ++ e :: post → e.dup = false →
    (∀ e' ∈ pre, e'.fp ≠ e.fp) ∧ ¬O e.fp
  length : ∀ fp, (queues fp).length = F.countP fun e ↦ e.fp = fp
  /-- The container id of an element is right once it is known. -/
  elems : ∀ fp, ∀ id ∈ queues fp, id = temporaryId ∨ H id fp
  /-- Where the head of a queue has no container, the first occurrence will be stored. -/
  head : ∀ fp, (queues fp).head? = some temporaryId →
    ∃ e, F.find? (fun e ↦ e.fp = fp) = some e ∧ e.dup = false

namespace InFlight

variable {H H' : ℤ → Fingerprint → Prop} {O O' : Fingerprint → Prop}
  {queues : Fingerprint → List ℤ} {F G : List Entry}

theorem empty (H : ℤ → Fingerprint → Prop) (O : Fingerprint → Prop) :
    InFlight H O (fun _ ↦ []) [] where
  ids _ h := by simp at h
  unique pre e post h := by simp at h
  length _ := rfl
  elems _ _ h := by simp at h
  head _ h := by simp at h

theorem mono (h : InFlight H O queues F) (hH : ∀ id fp, H id fp → H' id fp)
    (hO : ∀ fp, O' fp → O fp) : InFlight H' O' queues F where
  ids e he := (h.ids e he).imp id (hH _ _)
  unique pre e post hF hd :=
    ⟨(h.unique pre e post hF hd).1, fun ho ↦ (h.unique pre e post hF hd).2 (hO _ ho)⟩
  length := h.length
  elems fp id hid := (h.elems fp id hid).imp (fun h ↦ h) (hH _ _)
  head := h.head

theorem refill (h : InFlight H O queues F)
    (hO : ∀ e ∈ F, e.dup = false → O' e.fp → O e.fp) : InFlight H O' queues F :=
  { h with
    unique := fun pre e post hF hd ↦
      ⟨(h.unique pre e post hF hd).1, fun ho ↦ (h.unique pre e post hF hd).2
        (hO e (by simp [hF]) hd ho)⟩ }

/-- A chunk that was not found and comes behind others is none of them. -/
theorem fp_ne_of_mem_append (h : InFlight H O queues (G ++ F)) {e e' : Entry} (he : e ∈ F)
    (hd : e.dup = false) (he' : e' ∈ G) : e'.fp ≠ e.fp := by
  obtain ⟨pre, post, rfl⟩ := List.append_of_mem he
  exact (h.unique (G ++ pre) e post (by simp) hd).1 e' (List.mem_append_left _ he')

theorem queue_ne_nil (h : InFlight H O queues F) {e : Entry} (he : e ∈ F) : queues e.fp ≠ [] := by
  intro hq
  have hlen := h.length e.fp
  rw [hq, List.length_nil, eq_comm, List.countP_eq_zero] at hlen
  exact hlen e he (by simp)

theorem fp_ne_of_queue_eq_nil (h : InFlight H O queues F) {fp : Fingerprint} (hq : queues fp = []) :
    ∀ e ∈ F, e.fp ≠ fp := by
  rintro e he rfl
  exact h.queue_ne_nil he hq

/-- **A chunk was looked up.** -/
theorem push (h : InFlight H O queues F) {e : Entry} (hid : e.id = temporaryId ∨ H e.id e.fp)
    (hnew : e.dup = false → queues e.fp = [] ∧ ¬O e.fp)
    (hdup : e.dup = true → queues e.fp = [] → e.id ≠ temporaryId) :
    InFlight H O (Function.update queues e.fp (queues e.fp ++ [e.id])) (F ++ [e]) where
  ids e' he' := by
    rcases List.mem_append.mp he' with he' | he'
    · exact h.ids e' he'
    · rw [List.mem_singleton.mp he']
      exact hid
  unique pre e' post hF hd := by
    rcases List.append_eq_append_iff.mp hF with ⟨as, rfl, hpost⟩ | ⟨bs, rfl, hpost⟩
    · -- The chunk is the new one.
      cases as with
      | nil =>
        simp only [List.nil_append, List.cons.injEq] at hpost
        obtain ⟨rfl, -⟩ := hpost
        obtain ⟨hq, ho⟩ := hnew hd
        simp only [List.append_nil]
        exact ⟨h.fp_ne_of_queue_eq_nil hq, ho⟩
      | cons a as => simp at hpost
    · cases bs with
      | nil =>
        simp only [List.nil_append, List.cons.injEq] at hpost
        obtain ⟨rfl, -⟩ := hpost
        obtain ⟨hq, ho⟩ := hnew hd
        refine ⟨fun e'' he'' ↦ h.fp_ne_of_queue_eq_nil hq e'' (by simpa using he''), ho⟩
      | cons b bs =>
        simp only [List.cons_append, List.cons.injEq] at hpost
        obtain ⟨rfl, -⟩ := hpost
        exact h.unique pre e' bs rfl hd
  length fp := by
    rw [List.countP_append, ← h.length fp]
    by_cases hfp : e.fp = fp
    · subst hfp
      simp
    · rw [Function.update_of_ne (Ne.symm hfp)]
      simp [hfp]
  elems fp id hmem := by
    by_cases hfp : fp = e.fp
    · subst hfp
      rw [Function.update_self, List.mem_append, List.mem_singleton] at hmem
      rcases hmem with hmem | rfl
      · exact h.elems _ id hmem
      · exact hid
    · rw [Function.update_of_ne hfp] at hmem
      exact h.elems fp id hmem
  head fp hhead := by
    rw [List.find?_append]
    by_cases hfp : fp = e.fp
    · subst hfp
      rw [Function.update_self] at hhead
      by_cases hq : queues e.fp = []
      · -- The new chunk is the first occurrence.
        rw [hq] at hhead
        have htemp : e.id = temporaryId := by simpa using hhead
        have hnone : F.find? (fun e' ↦ e'.fp = e.fp) = none := by
          rw [List.find?_eq_none]
          intro e' he'
          simpa using h.fp_ne_of_queue_eq_nil hq e' he'
        refine ⟨e, by simp [hnone], ?_⟩
        cases hd : e.dup with
        | false => rfl
        | true => exact absurd htemp (hdup hd hq)
      · obtain ⟨e', he', hd⟩ := h.head e.fp (by
          cases hqq : queues e.fp with
          | nil => exact absurd hqq hq
          | cons i q => simpa [hqq] using hhead)
        exact ⟨e', by simp [he'], hd⟩
    · rw [Function.update_of_ne hfp] at hhead
      obtain ⟨e', he', hd⟩ := h.head fp hhead
      exact ⟨e', by simp [he'], hd⟩

/-- **A chunk was filtered**, and its container is known now. -/
theorem pop {e : Entry} (h : InFlight H O queues (e :: F)) {id : ℤ} (hid : H id e.fp)
    (hne : id ≠ temporaryId) :
    InFlight H O (Function.update queues e.fp ((queues e.fp).tail.map fun _ ↦ id)) F where
  ids e' he' := h.ids e' (List.mem_cons_of_mem _ he')
  unique pre e' post hF hd := by
    obtain ⟨hpre, ho⟩ := h.unique (e :: pre) e' post (by simp [hF]) hd
    exact ⟨fun e'' he'' ↦ hpre e'' (List.mem_cons_of_mem _ he''), ho⟩
  length fp := by
    have hlen := h.length fp
    rw [List.countP_cons] at hlen
    by_cases hfp : e.fp = fp
    · subst hfp
      rw [Function.update_self, List.length_map, List.length_tail, hlen]
      simp
    · rw [Function.update_of_ne (Ne.symm hfp)]
      simpa [hfp] using hlen
  elems fp id' hmem := by
    by_cases hfp : fp = e.fp
    · subst hfp
      rw [Function.update_self, List.mem_map] at hmem
      obtain ⟨_, -, rfl⟩ := hmem
      exact .inr hid
    · rw [Function.update_of_ne hfp] at hmem
      exact h.elems fp id' hmem
  head fp hhead := by
    by_cases hfp : fp = e.fp
    · subst hfp
      rw [Function.update_self] at hhead
      have hmem := List.mem_of_mem_head? hhead
      rw [List.mem_map] at hmem
      obtain ⟨_, -, htemp⟩ := hmem
      exact absurd htemp hne
    · rw [Function.update_of_ne hfp] at hhead
      obtain ⟨e', he', hd⟩ := h.head fp hhead
      rw [List.find?_cons_of_neg (by simpa using Ne.symm hfp)] at he'
      exact ⟨e', he', hd⟩

end InFlight

end UniDedup.Node
