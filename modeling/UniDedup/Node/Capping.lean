import Mathlib.Data.Finset.Card
import UniDedup.Node.Filter
import UniDedup.Node.RewriteRun

/-!
# Capping

`cap_rewrite` lets the duplicates of a buffer refer to the containers with the largest records only.
Where the records are exact, these are the containers with the largest totals, and one flush keeps the
capping guarantee.

## Which chunks are marked

A chunk without a container is in none of the containers kept. In a full buffer a duplicate of a chunk
that is still on its way to a container is therefore marked as out of order, and in the last buffer
every chunk without a container is: the other rewriters leave these chunks alone. So only stored
duplicates are marked if and only if no such chunk comes through capping, where the full buffers end
after each `rewriteBufferSize` chunks and the rest is the last one.
-/

namespace UniDedup.Node

open Outcome

/-! ## One flush -/

/-- A chunk the dedup phase passes on has no mark of the rewrite phase. -/
structure Chunk.Unmarked (c : Chunk) : Prop where
  outOfOrder : c.outOfOrder = false
  sparse : c.sparse = false

/-- The containers that the unmarked duplicates refer to. -/
def keptContainers (out : List Chunk) : Finset ℤ :=
  ((out.filter fun d ↦ !d.isMarker && d.duplicate && !d.outOfOrder).map Chunk.id).toFinset

theorem mem_keptContainers {out : List Chunk} {id : ℤ} :
    id ∈ keptContainers out ↔ ∃ d ∈ out, d.isMarker = false ∧ d.duplicate = true ∧
      d.outOfOrder = false ∧ d.id = id := by
  simp [keptContainers, and_assoc]

/-- **The capping guarantee** for a buffer and what a flush passes on. -/
structure Capped (cfg : Config) (queue out : List Chunk) : Prop where
  marked : Marked cfg queue out
  card_le : (keptContainers out).card ≤ cfg.cappingLevel
  /-- No container left out has a larger total than one kept. -/
  largest : ∀ id ∈ keptContainers out, ∀ c ∈ queue, c.storedDuplicate = true →
    c.id ∉ keptContainers out → duplicateSize c.id queue ≤ duplicateSize id queue

section Flush

variable {cfg : Config} {inherited : List ℤ} {buf : RewriteBuffer} {final : Bool} {c d : Chunk}

theorem outOfOrder_popped (cfg : Config) (inherited : List ℤ) (c : Chunk) :
    (RewriteBuffer.popped cfg inherited c).outOfOrder = c.outOfOrder := by
  unfold RewriteBuffer.popped harCheck
  split_ifs <;> rfl

theorem sparse_popped (h : c.storedDuplicate = false) :
    (RewriteBuffer.popped cfg inherited c).sparse = c.sparse := by
  simp [RewriteBuffer.popped, h]

theorem outOfOrder_capMark {top : List ℤ} (h : c.outOfOrder = false)
    (hd : capMark top final (RewriteBuffer.popped cfg inherited c) = .ok d) :
    d.outOfOrder = true ↔ c.isMarker = false ∧ (final = true ∨ c.duplicate = true) ∧ c.id ∉ top := by
  have hm := RewriteBuffer.popped_marks cfg inherited c
  unfold capMark at hd
  simp only [hm.isMarker, hm.duplicate, hm.id] at hd
  split_ifs at hd with hcond
  · cases hd
    simpa [and_assoc] using hcond
  · cases hd
    rw [outOfOrder_popped, h]
    simpa [and_assoc] using hcond

theorem temporaryId_notMem_capTop (h : buf.Accounted) : temporaryId ∉ capTop cfg buf := by
  intro hmem
  obtain ⟨r, hr, hcid⟩ := List.mem_map.mp hmem
  have hrecord : temporaryId ∈ buf.records.map ContainerRecord.cid :=
    List.mem_map.mpr ⟨r, (List.mem_insertionSort _).mp (List.mem_of_mem_take hr), hcid⟩
  obtain ⟨c, -, hc, hid⟩ := (h.recorded temporaryId).mp hrecord
  exact (Chunk.storedDuplicate_eq_true.mp hc).2.2 hid

/-- The containers on top have totals at least as large as the others. -/
theorem le_of_mem_capTop (h : buf.Accounted) {id id' : ℤ} (hid : id ∈ capTop cfg buf)
    (hid' : id' ∉ capTop cfg buf) (hrecord : id' ∈ buf.records.map ContainerRecord.cid) :
    duplicateSize id' buf.queue ≤ duplicateSize id buf.queue := by
  obtain ⟨r, hr, rfl⟩ := List.mem_map.mp hid
  obtain ⟨r', hr', rfl⟩ := List.mem_map.mp hrecord
  have hsorted : (buf.records.insertionSort fun a b ↦ b.size ≤ a.size).Pairwise
      fun a b ↦ b.size ≤ a.size :=
    @List.pairwise_insertionSort _ (fun a b : ContainerRecord ↦ b.size ≤ a.size) _
      ⟨fun a b ↦ le_total b.size a.size⟩ ⟨fun _ _ _ hab hbc ↦ le_trans hbc hab⟩ _
  have hmem : r' ∈ (buf.records.insertionSort fun a b ↦ b.size ≤ a.size) :=
    (List.mem_insertionSort _).mpr hr'
  rw [← List.take_append_drop cfg.cappingLevel (List.insertionSort _ _)] at hsorted hmem
  -- The record left out is behind the records taken.
  have hdrop : r' ∈ (buf.records.insertionSort fun a b ↦ b.size ≤ a.size).drop cfg.cappingLevel :=
    (List.mem_append.mp hmem).resolve_left fun htake ↦ hid' (List.mem_map_of_mem htake)
  have hle := (List.pairwise_append.mp hsorted).2.2 r hr r' hdrop
  rwa [← h.exact r' hr', ← h.exact r ((List.mem_insertionSort _).mp (List.mem_of_mem_take hr))]

/-- **A flush of capping keeps the guarantee.** -/
theorem capped_of_forall₂ (halg : cfg.rewriteAlgorithm = .capping) (h : buf.Accounted)
    (hun : ∀ c ∈ buf.queue, c.Unmarked) {out : List Chunk}
    (hout : List.Forall₂ (fun c d ↦
      capMark (capTop cfg buf) final (RewriteBuffer.popped cfg inherited c) = .ok d) buf.queue out) :
    Capped cfg buf.queue out := by
  have hmarks : ∀ c d, capMark (capTop cfg buf) final (RewriteBuffer.popped cfg inherited c) = .ok d →
      c.Marks cfg d := fun c _ hd ↦
    (RewriteBuffer.popped_marks cfg inherited c).trans (capMark_marks (by simp [halg]) hd)
  -- What is kept is on top.
  have hkept : ∀ id ∈ keptContainers out, id ∈ capTop cfg buf := by
    intro id hid
    obtain ⟨d, hd, hm, hdup, hno, rfl⟩ := mem_keptContainers.mp hid
    obtain ⟨c, hc, hcd⟩ := hout.exists_of_mem_right hd
    have hiff := outOfOrder_capMark (hun c hc).outOfOrder hcd
    rw [hno, ← (hmarks c d hcd).isMarker, ← (hmarks c d hcd).duplicate, ← (hmarks c d hcd).id] at hiff
    by_contra htop
    exact Bool.false_ne_true (hiff.mpr ⟨hm, .inr hdup, htop⟩)
  refine ⟨hout.imp hmarks, ?_, fun id hid c hc hstored hleft ↦ ?_⟩
  · calc (keptContainers out).card
        ≤ (capTop cfg buf).toFinset.card :=
          Finset.card_le_card fun id hid ↦ List.mem_toFinset.mpr (hkept id hid)
      _ ≤ (capTop cfg buf).length := List.toFinset_card_le _
      _ ≤ cfg.cappingLevel := by
        rw [capTop, List.length_map]
        exact List.length_take_le _ _
  · obtain ⟨hm, hdup, -⟩ := Chunk.storedDuplicate_eq_true.mp hstored
    refine le_of_mem_capTop h (hkept id hid) (fun htop ↦ hleft ?_)
      ((h.recorded c.id).mpr ⟨c, hc, hstored, rfl⟩)
    obtain ⟨d, hd, hcd⟩ := hout.exists_of_mem_left hc
    have hiff := outOfOrder_capMark (hun c hc).outOfOrder hcd
    have hno : d.outOfOrder = false := by
      rw [Bool.eq_false_iff]
      exact fun h ↦ (hiff.mp h).2.2 htop
    exact mem_keptContainers.mpr ⟨d, hd, (hmarks c d hcd).isMarker.trans hm,
      (hmarks c d hcd).duplicate.trans hdup, hno, (hmarks c d hcd).id⟩

end Flush

/-! ## Runs of `cap_rewrite` -/

/-- What `cap_rewrite` makes of a chunk in a full buffer, or in the last one. -/
def CapMarks (cfg : Config) (inherited : List ℤ) (final : Bool) (c d : Chunk) : Prop :=
  ∃ top : List ℤ, temporaryId ∉ top ∧
    capMark top final (RewriteBuffer.popped cfg inherited c) = .ok d

section Run

variable {cfg : Config} {inherited : List ℤ} {final : Bool} {c d : Chunk}

theorem CapMarks.marks (halg : cfg.rewriteAlgorithm = .capping) (h : CapMarks cfg inherited final c d) :
    c.Marks cfg d := by
  obtain ⟨top, -, hd⟩ := h
  exact (RewriteBuffer.popped_marks cfg inherited c).trans (capMark_marks (by simp [halg]) hd)

variable (inherited) in
/-- **The loop of `cap_rewrite`** passes on full buffers only: the chunks it has passed on come first in
the stream, and their number is a multiple of the size of the buffer. -/
theorem capRun (hpos : 0 < cfg.rewriteBufferSize) (halg : cfg.rewriteAlgorithm = .capping) :
    ∀ {stream : List (Chunk × Bool)} {st : RewriteState}, RewriteSound cfg st →
    (∀ item ∈ stream, item.1.Rewritable) →
    ∃ st' out done, rewriteRun cfg inherited st stream = .ok (st', out) ∧ RewriteSound cfg st' ∧
      st.buffer.queue ++ stream.map Prod.fst = done ++ st'.buffer.queue ∧
      cfg.rewriteBufferSize ∣ dataNum done ∧ List.Forall₂ (CapMarks cfg inherited false) done out := by
  intro stream
  induction stream with
  | nil =>
    intro st h _
    exact ⟨st, [], [], rfl, h, by simp, Nat.dvd_zero _, .nil⟩
  | cons item stream ih =>
    intro st h hstream
    rw [List.forall_mem_cons] at hstream
    obtain ⟨buf, hbuf, hqueue, hturn⟩ := capRewrite_spec inherited halg h hstream.1
    have hchunk : ∀ late, rewriteChunk cfg inherited late st item.1 =
        capRewrite cfg inherited st item.1 := fun late ↦ by rw [rewriteChunk, halg]
    have happend : st.buffer.queue ++ (item :: stream).map Prod.fst =
        buf.queue ++ stream.map Prod.fst := by simp [hqueue]
    rcases hturn with ⟨hok, hlt⟩ | ⟨out₁, hok, hnum, hforall⟩
    · have hsound : RewriteSound cfg { st with buffer := buf } :=
        ⟨h.ok.cap hpos halg hok, hbuf, fun hno ↦ by simp [halg] at hno⟩
      obtain ⟨st', out, done, hrun, h', hsplit, hdvd, hout⟩ := ih hsound hstream.2
      refine ⟨st', out, done, bind_eq_ok.mpr ⟨_, (hchunk _).trans hok, bind_eq_ok.mpr ⟨_, hrun, rfl⟩⟩,
        h', ?_, hdvd, hout⟩
      rw [happend, hsplit]
    · have hsound : RewriteSound cfg { st with buffer := .empty } :=
        ⟨h.ok.cap hpos halg hok, RewriteBuffer.accounted_empty, fun hno ↦ by simp [halg] at hno⟩
      obtain ⟨st', out, done, hrun, h', hsplit, hdvd, hout⟩ := ih hsound hstream.2
      refine ⟨st', out₁ ++ out, buf.queue ++ done,
        bind_eq_ok.mpr ⟨_, (hchunk _).trans hok, bind_eq_ok.mpr ⟨_, hrun, rfl⟩⟩, h', ?_, ?_, ?_⟩
      · rw [happend, List.append_assoc, ← hsplit]
        rfl
      · rw [dataNum_append, hnum]
        exact Nat.dvd_add (Nat.dvd_refl _) hdvd
      · refine List.rel_append (hforall.imp fun c d hcd ↦ ?_) hout
        exact ⟨_, temporaryId_notMem_capTop hbuf, hcd⟩

end Run

/-! ## Which chunks are marked -/

/-- The filter thread does not write the chunk, whatever the index buffer finds for it. -/
def Chunk.NotWritten (cfg : Config) (c : Chunk) : Prop :=
  ∀ (core core' : Core) (t t' : Core.Tables) (id : ℤ) (denied : Bool) (c' : Chunk),
    core.filterChunk cfg t { c with id := id, rewriteDenied := denied } = .ok (core', t', c') →
    core'.containerBuffer = core.containerBuffer ∧ core'.storage = core.storage

/-- Only stored duplicates leave the rewrite phase with the out-of-order mark, and a duplicate of a
chunk on its way to a container is not written again. -/
structure MarksStoredOnly (cfg : Config) (out : List Chunk) : Prop where
  stored : ∀ d ∈ out, d.outOfOrder = true →
    d.isMarker = false ∧ d.duplicate = true ∧ d.id ≠ temporaryId
  selfReference : ∀ d ∈ out, d.isMarker = false → d.duplicate = true → d.id = temporaryId →
    d.NotWritten cfg

/-- The chunks of a stream that are no markers. -/
def normalChunks (cs : List Chunk) : List Chunk := cs.filter fun c ↦ !c.isMarker

/-- No duplicate goes through a full buffer without a container, and no chunk through the last one. -/
def CapsStoredOnly (cfg : Config) (cs : List Chunk) : Prop :=
  let n := (normalChunks cs).length / cfg.rewriteBufferSize * cfg.rewriteBufferSize
  (∀ c ∈ (normalChunks cs).take n, c.duplicate = true → c.id ≠ temporaryId) ∧
    ∀ c ∈ (normalChunks cs).drop n, c.id ≠ temporaryId

section Marks

variable {cfg : Config} {inherited : List ℤ} {final : Bool} {c d : Chunk}

theorem notWritten_of_unmarked (hdup : c.duplicate = true) (hout : c.outOfOrder = false)
    (hsparse : c.sparse = false) : c.NotWritten cfg := by
  intro core core' t t' id denied c' h
  have hstore : ∀ (c₁ : Chunk) (b : Bool), c₁.duplicate = true → c₁.outOfOrder = false →
      c₁.sparse = false → Core.mustStore b (Core.resolveRewritten t c₁) = false := by
    intro c₁ b hd ho hs
    unfold Core.resolveRewritten Core.mustStore
    split <;> simp [hd, ho, hs]
  unfold Core.filterChunk at h
  split_ifs at h with hmarker
  · cases h
    exact ⟨rfl, rfl⟩
  · simp only [bind_eq_ok] at h
    obtain ⟨c₁, hcache, c₂, hunique, ⟨core₁, t₁, c₃⟩, hstored, _, -, h⟩ := h
    cases h
    -- Neither the cache nor the tables of the segment change the marks.
    have h₁ : c₁.duplicate = true ∧ c₁.outOfOrder = false ∧ c₁.sparse = false := by
      unfold Core.cacheAware at hcache
      split_ifs at hcache
      · simp only [bind_eq_ok] at hcache
        obtain ⟨_, -, hcache⟩ := hcache
        cases hcache
        exact ⟨hdup, hout, hsparse⟩
      · cases hcache
        exact ⟨hdup, hout, hsparse⟩
    have h₂ : c₂.duplicate = true ∧ c₂.outOfOrder = false ∧ c₂.sparse = false := by
      unfold Core.resolveUnique at hunique
      split_ifs at hunique
      · simp only [bind_eq_ok] at hunique
        obtain ⟨_, -, hunique⟩ := hunique
        cases hunique
        exact h₁
      · cases hunique
        exact h₁
    rw [Core.storeIfNeeded, hstore c₂ _ h₂.1 h₂.2.1 h₂.2.2] at hstored
    cases hstored
    exact ⟨rfl, rfl⟩

theorem CapMarks.stored_iff (halg : cfg.rewriteAlgorithm = .capping) (hc : c.Rewritable)
    (hun : c.Unmarked) (h : CapMarks cfg inherited final c d) :
    (d.outOfOrder = true → d.storedDuplicate = true) ↔
      (c.isMarker = false → final = true ∨ c.duplicate = true → c.id ≠ temporaryId) := by
  rw [(h.marks halg).storedDuplicate]
  obtain ⟨top, htop, hd⟩ := h
  rw [outOfOrder_capMark hun.outOfOrder hd]
  constructor
  · intro hstored hm hfinal hid
    exact (Chunk.storedDuplicate_eq_true.mp (hstored ⟨hm, hfinal, hid ▸ htop⟩)).2.2 hid
  · rintro hid ⟨hm, hfinal, -⟩
    exact hc.storedDuplicate hm (hid hm hfinal)

theorem keptByMarks_sparse (halg : cfg.rewriteAlgorithm ≠ .no) :
    KeptByMarks cfg inherited fun c ↦ c.sparse = true → c.storedDuplicate = true where
  pop c h := by
    rw [(RewriteBuffer.popped_marks cfg inherited c).storedDuplicate]
    intro hs
    by_contra hno
    exact hno (h (by rwa [sparse_popped (by simpa using hno)] at hs))
  mark _ _ _ h := h
  cap _ _ h := h
  no hno := absurd hno halg

/-- Without capping, the out-of-order mark is set on stored duplicates only. -/
theorem keptByMarks_outOfOrder (halg : cfg.rewriteAlgorithm ≠ .no)
    (hcap : cfg.rewriteAlgorithm ≠ .capping) :
    KeptByMarks cfg inherited fun c ↦ c.outOfOrder = true → c.storedDuplicate = true where
  pop c h := by
    rw [(RewriteBuffer.popped_marks cfg inherited c).storedDuplicate, outOfOrder_popped]
    exact h
  mark _ _ hstored _ _ := hstored
  cap hno := absurd hno hcap
  no hno := absurd hno halg

/-- The marks are on stored duplicates if and only if the out-of-order marks are. -/
theorem marksStoredOnly_iff {out : List Chunk}
    (hsparse : ∀ d ∈ out, d.sparse = true → d.storedDuplicate = true) :
    MarksStoredOnly cfg out ↔ ∀ d ∈ out, d.outOfOrder = true → d.storedDuplicate = true := by
  constructor
  · exact fun h d hd hout ↦ Chunk.storedDuplicate_eq_true.mpr (h.stored d hd hout)
  · intro h
    refine ⟨fun d hd hout ↦ Chunk.storedDuplicate_eq_true.mp (h d hd hout),
      fun d hd _ hdup hid ↦ ?_⟩
    have hno : ¬d.storedDuplicate = true := fun hs ↦ (Chunk.storedDuplicate_eq_true.mp hs).2.2 hid
    exact notWritten_of_unmarked hdup (Bool.eq_false_iff.mpr fun ho ↦ hno (h d hd ho))
      (Bool.eq_false_iff.mpr fun hs ↦ hno (hsparse d hd hs))

theorem dataNum_eq_length (cs : List Chunk) : dataNum cs = (normalChunks cs).length :=
  List.countP_eq_length_filter

theorem mem_normalChunks {cs : List Chunk} : c ∈ normalChunks cs ↔ c ∈ cs ∧ c.isMarker = false := by
  simp [normalChunks]

theorem capsStoredOnly_append {done queue : List Chunk} (hdvd : cfg.rewriteBufferSize ∣ dataNum done)
    (hlt : dataNum queue < cfg.rewriteBufferSize) :
    CapsStoredOnly cfg (done ++ queue) ↔
      (∀ c ∈ done, c.isMarker = false → false = true ∨ c.duplicate = true → c.id ≠ temporaryId) ∧
      ∀ c ∈ queue, c.isMarker = false → true = true ∨ c.duplicate = true → c.id ≠ temporaryId := by
  obtain ⟨k, hk⟩ := hdvd
  have happend : normalChunks (done ++ queue) = normalChunks done ++ normalChunks queue :=
    List.filter_append _ _
  have hdiv : (normalChunks (done ++ queue)).length / cfg.rewriteBufferSize * cfg.rewriteBufferSize =
      (normalChunks done).length := by
    rw [← dataNum_eq_length, ← dataNum_eq_length, dataNum_append, hk,
      Nat.mul_add_div (Nat.zero_lt_of_lt hlt), Nat.div_eq_of_lt hlt, Nat.add_zero, Nat.mul_comm]
  unfold CapsStoredOnly
  dsimp only
  rw [hdiv, happend, List.take_left, List.drop_left]
  simp only [mem_normalChunks, Bool.false_eq_true, false_or, true_or, and_imp, true_implies]

variable (inherited) in
/-- `cap_rewrite` for a whole stream: the chunks in full buffers, and those in the last one. -/
theorem capThread (hpos : 0 < cfg.rewriteBufferSize) (halg : cfg.rewriteAlgorithm = .capping)
    {stream : List (Chunk × Bool)} (hstream : ∀ item ∈ stream, item.1.Rewritable) :
    ∃ out rest done queue, rewriteThread cfg inherited stream = .ok (out ++ rest) ∧
      stream.map Prod.fst = done ++ queue ∧ cfg.rewriteBufferSize ∣ dataNum done ∧
      dataNum queue < cfg.rewriteBufferSize ∧ List.Forall₂ (CapMarks cfg inherited false) done out ∧
      List.Forall₂ (CapMarks cfg inherited true) queue rest := by
  obtain ⟨st, out, done, hrun, h, hsplit, hdvd, hout⟩ :=
    capRun inherited hpos halg (.init hpos) hstream
  obtain ⟨rest, hflush, hforall⟩ := capFlush_spec cfg inherited h.accounted true
  refine ⟨out, rest, done, st.buffer.queue, ?_, hsplit, hdvd, ?_, hout, ?_⟩
  · have hdrain : drain cfg inherited st.buffer = .ok (rest, .empty) := by
      rw [drain, halg]
      exact hflush
    exact bind_eq_ok.mpr ⟨_, hrun, bind_eq_ok.mpr ⟨_, bind_eq_ok.mpr ⟨_, hdrain, rfl⟩, rfl⟩⟩
  · rw [← h.accounted.num]
    exact h.ok.room (h.ok.bufferFull_eq_false (by simp [halg]))
  · exact hforall.imp fun c d hcd ↦ ⟨_, temporaryId_notMem_capTop h.accounted, hcd⟩

/-- **Which rewriters mark stored duplicates only.** `cfl_rewrite` and `cbr_rewrite` always do;
`cap_rewrite` does if and only if no duplicate without a container goes through a full buffer and no
chunk without a container is left for the last one. -/
theorem marks_stored_only_iff (hpos : 0 < cfg.rewriteBufferSize) (halg : cfg.rewriteAlgorithm ≠ .no)
    {stream : List (Chunk × Bool)} (hstream : ∀ item ∈ stream, item.1.Rewritable ∧ item.1.Unmarked) :
    ∃ out, rewriteThread cfg inherited stream = .ok out ∧
      (MarksStoredOnly cfg out ↔
        (cfg.rewriteAlgorithm = .capping → CapsStoredOnly cfg (stream.map Prod.fst))) := by
  have hrewritable : ∀ item ∈ stream, item.1.Rewritable := fun item hitem ↦ (hstream item hitem).1
  have hunmarked : ∀ c ∈ stream.map Prod.fst, c.Unmarked := by
    intro c hc
    obtain ⟨item, hitem, rfl⟩ := List.mem_map.mp hc
    exact (hstream item hitem).2
  have hkept : ∀ {P : Chunk → Prop}, KeptByMarks cfg inherited P → (∀ c ∈ stream.map Prod.fst, P c) →
      ∃ out, rewriteThread cfg inherited stream = .ok out ∧ ∀ d ∈ out, P d :=
    fun hP hall ↦ rewriteThread_keeps hpos hP hrewritable hall
  obtain ⟨out, hok, hsparse⟩ := hkept (keptByMarks_sparse halg) fun c hc hs ↦ by
    rw [(hunmarked c hc).sparse] at hs
    cases hs
  refine ⟨out, hok, (marksStoredOnly_iff hsparse).trans ?_⟩
  by_cases hcap : cfg.rewriteAlgorithm = .capping
  · obtain ⟨out₁, out₂, done, queue, hok', hsplit, hdvd, hlt, hfull, hlast⟩ :=
      capThread inherited hpos hcap hrewritable
    rw [hok'] at hok
    cases hok
    have hchunk : ∀ c ∈ done ++ queue, c.Rewritable ∧ c.Unmarked := by
      intro c hc
      rw [← hsplit] at hc
      obtain ⟨item, hitem, rfl⟩ := List.mem_map.mp hc
      exact hstream item hitem
    rw [hsplit, capsStoredOnly_append hdvd hlt, List.forall_mem_append, forall_prop_of_true hcap]
    refine and_congr (hfull.forall_iff fun c hc d hcd ↦ ?_) (hlast.forall_iff fun c hc d hcd ↦ ?_)
    · obtain ⟨hr, hu⟩ := hchunk c (List.mem_append_left _ hc)
      exact hcd.stored_iff hcap hr hu
    · obtain ⟨hr, hu⟩ := hchunk c (List.mem_append_right _ hc)
      exact hcd.stored_iff hcap hr hu
  · obtain ⟨out', hok', hmarks⟩ := hkept (keptByMarks_outOfOrder halg hcap) fun c hc ho ↦ by
      rw [(hunmarked c hc).outOfOrder] at ho
      cases ho
    rw [hok'] at hok
    cases hok
    exact iff_of_true hmarks fun h ↦ absurd h hcap

/-- Buffers of four chunks with one container kept of each. In the first, a duplicate of container 8 is marked and a new chunk
is not; in the second, which is not full, a duplicate of container 10. All of them are stored. -/
theorem marks_stored_only_capped :
    let cfg := { Config.start with rewriteAlgorithm := .capping, rewriteBufferSize := 4, cappingLevel := 1 }
    let dup (d : Bytes) (id : ℤ) : Chunk := { Chunk.new .normal d with duplicate := true, id := id }
    let stream := [(.new .fileStart [97], false), (dup [1] 7, false), (dup [2] 7, false), (dup [3] 8, false),
      (.new .normal [4], false), (dup [5, 6] 9, false), (dup [7] 10, false), (.new .fileEnd [], false)]
    ∃ out, rewriteThread cfg [] stream = .ok out ∧
      out.map Chunk.outOfOrder = [false, false, false, true, false, false, true, false] ∧
      (MarksStoredOnly cfg out ↔ ((.capping : RewriteAlgorithm) = .capping → CapsStoredOnly cfg (stream.map Prod.fst))) ∧
      MarksStoredOnly cfg out := by
  intro cfg dup stream
  have hitems : ∀ item ∈ stream, (item.1.isMarker = false → item.1.id ≠ temporaryId → item.1.duplicate = true) ∧
      (item.1.isMarker = false → 0 < item.1.size) ∧ item.1.outOfOrder = false ∧ item.1.sparse = false := by
    decide
  have hstream : ∀ item ∈ stream, item.1.Rewritable ∧ item.1.Unmarked := by
    intro item hitem
    obtain ⟨hdup, hsize, hout, hsparse⟩ := hitems item hitem
    exact ⟨⟨hdup, hsize⟩, hout, hsparse⟩
  obtain ⟨out, hok, hiff⟩ := @marks_stored_only_iff cfg [] (by decide) (by decide) stream hstream
  have hrun : (rewriteThread cfg [] stream).map (fun out ↦ out.map Chunk.outOfOrder) =
      .ok [false, false, false, true, false, false, true, false] := by
    decide +kernel
  rw [hok] at hrun
  have hstored : CapsStoredOnly cfg (stream.map Prod.fst) := by
    unfold CapsStoredOnly
    decide
  exact ⟨out, hok, Except.ok.inj hrun, hiff, hiff.mpr fun _ ↦ hstored⟩

/-- With a capping level of one and a buffer of two chunks, a duplicate of the chunk before it, which
is still on its way to a container, is marked as out of order. -/
theorem cap_marks_selfReference :
    ∃ out, rewriteThread
        { Config.start with rewriteAlgorithm := .capping, rewriteBufferSize := 2, cappingLevel := 1 } []
        [(.new .normal [1], false), ({ Chunk.new .normal [1] with duplicate := true }, false)] = .ok out ∧
      ¬MarksStoredOnly
        { Config.start with rewriteAlgorithm := .capping, rewriteBufferSize := 2, cappingLevel := 1 }
        out := by
  refine ⟨[.new .normal [1], { Chunk.new .normal [1] with duplicate := true, outOfOrder := true }], rfl,
    fun h ↦ ?_⟩
  exact (h.stored _ (List.mem_cons_of_mem _ List.mem_cons_self) rfl).2.2 rfl

end Marks

end UniDedup.Node
