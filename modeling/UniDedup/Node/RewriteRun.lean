import UniDedup.Lib.Pointwise
import UniDedup.Node.RewriteRecords

/-!
# Runs of the rewrite thread

The rewrite thread takes one chunk after the other from the dedup phase, and drains its buffer at the
end of the stream. With exact records none of its assertions fails, whichever algorithm runs, and what
it passes on has every property that its marks keep.

The counters are numbers here, so a run is a function of the stream: what is marked does not depend on
where a counter wraps. The threads with the `int`s of the source are a transition system of their own.
-/

namespace UniDedup.Node

open Outcome

/-- The loop of the rewrite thread. Each chunk comes with whether the filter thread is so fast that it
does not see a mark set after the chunk was passed on. -/
def rewriteRun (cfg : Config) (inherited : List ℤ) :
    RewriteState → List (Chunk × Bool) → Except RewriteAbort (RewriteState × List Chunk)
  | st, [] => .ok (st, [])
  | st, item :: stream => do
    let (st, out) ← rewriteChunk cfg inherited item.2 st item.1
    let (st, rest) ← rewriteRun cfg inherited st stream
    return (st, out ++ rest)

/-- The rewrite thread for a whole stream: what it pushes to `rewrite_queue`. -/
def rewriteThread (cfg : Config) (inherited : List ℤ) (stream : List (Chunk × Bool)) :
    Except RewriteAbort (List Chunk) := do
  let (st, out) ← rewriteRun cfg inherited (.init cfg) stream
  let (_, rest) ← rewriteEnd cfg inherited st
  return out ++ rest

/-! ## One turn -/

/-- The invariant of the rewrite thread, with exact records. -/
structure RewriteSound (cfg : Config) (st : RewriteState) : Prop where
  ok : RewriteOk cfg st
  accounted : st.buffer.Accounted
  /-- Without rewriting nothing is ever buffered. -/
  noBuffer : cfg.rewriteAlgorithm = .no → st.buffer.queue = []

/-- A property of chunks that the rewrite thread keeps: when a chunk is popped, when a stored duplicate
is marked, when capping marks any chunk, and when there is no rewriting. -/
structure KeptByMarks (cfg : Config) (inherited : List ℤ) (P : Chunk → Prop) : Prop where
  pop : ∀ c, P c → P (RewriteBuffer.popped cfg inherited c)
  mark : ∀ c b, c.storedDuplicate = true → P c → P { c with outOfOrder := b }
  cap : cfg.rewriteAlgorithm = .capping → ∀ c, P c → P { c with outOfOrder := true }
  no : cfg.rewriteAlgorithm = .no → ∀ c late, P c → P (noRewrite cfg inherited late c)

section Turn

variable {cfg : Config} {inherited : List ℤ} {st st' : RewriteState} {c : Chunk} {out : List Chunk}
  {P : Chunk → Prop}

theorem cflMark_total {c : Chunk} (h : c.Rewritable) (outOfOrder : Bool) :
    ∃ d, cflMark outOfOrder c = .ok d := by
  unfold cflMark
  by_cases hm : c.isMarker = true
  · exact ⟨c, if_pos hm⟩
  rw [if_neg hm]
  by_cases hid : (outOfOrder && decide (c.id ≠ temporaryId)) = true
  · rw [if_pos hid]
    simp only [Bool.and_eq_true, decide_eq_true_eq] at hid
    exact ⟨_, bind_eq_ok.mpr ⟨⟨⟩, check_eq_ok.mpr (h.duplicate (by simpa using hm) hid.2), rfl⟩⟩
  · exact ⟨c, if_neg hid⟩

theorem capMark_total (top : List ℤ) (final : Bool) (c : Chunk) :
    ∃ d, capMark top final c = .ok d := by
  unfold capMark
  split_ifs
  · exact ⟨_, rfl⟩
  · exact ⟨c, rfl⟩

variable (cfg inherited) in
theorem cflFlush_spec {buf : RewriteBuffer} (h : buf.Accounted) :
    ∃ out outOfOrder, cflFlush cfg inherited buf = .ok (out, .empty) ∧
      List.Forall₂ (fun c d ↦ cflMark outOfOrder (RewriteBuffer.popped cfg inherited c) = .ok d)
        buf.queue out := by
  obtain ⟨out, hout, hforall⟩ := h.popAll cfg inherited _ le_rfl
    fun c hc ↦ cflMark_total ((h.rewritable c hc).marks (RewriteBuffer.popped_marks cfg inherited c)) _
  exact ⟨out, _, hout, hforall⟩

variable (cfg inherited) in
theorem capFlush_spec {buf : RewriteBuffer} (h : buf.Accounted) (final : Bool) :
    ∃ out, capFlush cfg inherited final buf = .ok (out, .empty) ∧
      List.Forall₂ (fun c d ↦
        capMark (capTop cfg buf) final (RewriteBuffer.popped cfg inherited c) = .ok d) buf.queue out :=
  h.popAll cfg inherited _ le_rfl fun _ _ ↦ capMark_total _ _ _

theorem KeptByMarks.cflMark (hP : KeptByMarks cfg inherited P) {outOfOrder : Bool} {c d : Chunk}
    (hd : cflMark outOfOrder (RewriteBuffer.popped cfg inherited c) = .ok d) (h : P c) : P d := by
  unfold Node.cflMark at hd
  split_ifs at hd with hm hid
  · cases hd
    exact hP.pop c h
  · simp only [bind_eq_ok, check_eq_ok] at hd
    obtain ⟨_, hdup, hd⟩ := hd
    cases hd
    simp only [Bool.and_eq_true, decide_eq_true_eq] at hid
    exact hP.mark _ true
      (Chunk.storedDuplicate_eq_true.mpr ⟨Bool.eq_false_iff.mpr hm, hdup, hid.2⟩) (hP.pop c h)
  · cases hd
    exact hP.pop c h

theorem KeptByMarks.capMark (hP : KeptByMarks cfg inherited P) (halg : cfg.rewriteAlgorithm = .capping)
    {top : List ℤ} {final : Bool} {c d : Chunk}
    (hd : capMark top final (RewriteBuffer.popped cfg inherited c) = .ok d) (h : P c) : P d := by
  unfold Node.capMark at hd
  split_ifs at hd
  · cases hd
    exact hP.cap halg _ (hP.pop c h)
  · cases hd
    exact hP.pop c h

/-- **The turn of `cfl_rewrite`.** -/
theorem cflRewrite_spec (hpos : 0 < cfg.rewriteBufferSize) (h : RewriteSound cfg st)
    (hP : KeptByMarks cfg inherited P) (hc : c.Rewritable) :
    ∃ st' out, cflRewrite cfg inherited st c = .ok (st', out) ∧ st'.buffer.Accounted ∧
      ((∀ d ∈ st.buffer.queue ++ [c], P d) → ∀ d ∈ out ++ st'.buffer.queue, P d) := by
  -- What is judged is passed on, and makes room for the chunk.
  have hjudge : ∃ out buf, cflJudge cfg inherited st c = .ok (out, buf) ∧ buf.Accounted ∧
      buf.num < cfg.rewriteBufferSize ∧
      ((∀ d ∈ st.buffer.queue, P d) → ∀ d ∈ out ++ buf.queue, P d) := by
    unfold cflJudge
    by_cases hb : st.cflBoundary c = true
    · rw [if_pos hb]
      obtain ⟨out, outOfOrder, hout, hforall⟩ :=
        cflFlush_spec cfg inherited h.accounted
      refine ⟨out, .empty, hout, RewriteBuffer.accounted_empty, hpos, fun hkeep ↦ ?_⟩
      rw [RewriteBuffer.empty, List.append_nil]
      exact hforall.forall_right (fun _ _ ↦ hP.cflMark) hkeep
    · rw [if_neg hb]
      simp only [RewriteState.cflBoundary, Bool.or_eq_true, not_or] at hb
      exact ⟨[], st.buffer, rfl, h.accounted, h.ok.room (by simpa using hb.2), fun hkeep ↦ hkeep⟩
  obtain ⟨out, buf, hout, hbuf, hroom, hkeep⟩ := hjudge
  obtain ⟨⟨buf', full⟩, hr, hbuf'⟩ := (hbuf.push cfg hc fun _ ↦ hroom).exists_ok
  refine ⟨_, out, bind_eq_ok.mpr ⟨_, hout, bind_eq_ok.mpr ⟨_, hr, rfl⟩⟩, hbuf', fun hall ↦ ?_⟩
  simp only [List.forall_mem_append, List.forall_mem_singleton] at hall
  rw [RewriteBuffer.queue_push hr, ← List.append_assoc]
  simp only [List.forall_mem_append, List.forall_mem_singleton]
  exact ⟨List.forall_mem_append.mp (hkeep hall.1), hall.2⟩

theorem cbrMark_spec {queue : List Chunk} (hP : KeptByMarks cfg inherited P) (h : st.buffer.Accounted)
    (hq : st.buffer.queue = c :: queue) (hm : c.isMarker = false) :
    ∃ c' f utility, cbrMark cfg st c = .ok (c', st.buffer.records.map f, utility) ∧
      (∃ b, c' = { c with outOfOrder := b }) ∧
      (∀ r, (f r).cid = r.cid ∧ (f r).size = r.size) ∧ (P c → P c') := by
  have hc : c.Rewritable := h.rewritable c (hq ▸ List.mem_cons_self)
  unfold cbrMark
  by_cases hid : c.id = temporaryId
  · rw [if_pos hid]
    exact ⟨c, id, 0, by rw [List.map_id], ⟨c.outOfOrder, rfl⟩, fun _ ↦ ⟨rfl, rfl⟩, id⟩
  rw [if_neg hid]
  have hstored := hc.storedDuplicate hm hid
  have hrecord : ∃ r, st.buffer.record c.id = some r := by
    obtain ⟨r, hr, hcid⟩ := List.mem_map.mp
      ((h.recorded c.id).mpr ⟨c, hq ▸ List.mem_cons_self, hstored, rfl⟩)
    rw [← Option.isSome_iff_exists, RewriteBuffer.record, List.find?_isSome]
    exact ⟨r, hr, decide_eq_true hcid⟩
  obtain ⟨r, hr⟩ := hrecord
  refine ⟨_, _, _, bind_eq_ok.mpr ⟨⟨⟩, check_eq_ok.mpr (hc.duplicate hm hid),
    bind_eq_ok.mpr ⟨r, getOr_eq_ok.mpr hr, rfl⟩⟩, ⟨_, rfl⟩, fun r' ↦ ?_, hP.mark c _ hstored⟩
  split_ifs
  · exact ⟨rfl, rfl⟩
  · exact ⟨rfl, rfl⟩

theorem cbrHead_spec {queue : List Chunk} (hP : KeptByMarks cfg inherited P) (halg : cfg.rewriteAlgorithm ≠ .no)
    (h : st.buffer.Accounted) (hq : st.buffer.queue = c :: queue) (hm : c.isMarker = false) :
    ∃ st' d, cbrHead cfg inherited st = .ok (st', d) ∧ st'.buffer.Accounted ∧
      st'.buffer.queue = queue ∧ (P c → P d) := by
  obtain ⟨c', f, utility, hmark, ⟨b, rfl⟩, hf, hkeep⟩ := cbrMark_spec hP h hq hm
  obtain ⟨buf', hpop, hbuf', hqueue⟩ := (h.mark hq (.setOutOfOrder halg c b) hf).pop cfg
    inherited rfl
  refine ⟨{ st with buffer := buf', buckets := st.buckets.update cfg utility },
    RewriteBuffer.popped cfg inherited { c with outOfOrder := b }, ?_, hbuf', hqueue,
    fun hc ↦ hP.pop _ (hkeep hc)⟩
  unfold cbrHead
  rw [hq]
  exact bind_eq_ok.mpr ⟨_, hmark, bind_eq_ok.mpr ⟨_, hpop, rfl⟩⟩

/-- **The turn of `cbr_rewrite`.** -/
theorem cbrRewrite_spec (halg : cfg.rewriteAlgorithm = .contextBased) (h : RewriteSound cfg st)
    (hP : KeptByMarks cfg inherited P) (hc : c.Rewritable) :
    ∃ st' out, cbrRewrite cfg inherited st c = .ok (st', out) ∧ st'.buffer.Accounted ∧
      ((∀ d ∈ st.buffer.queue ++ [c], P d) → ∀ d ∈ out ++ st'.buffer.queue, P d) := by
  have hroom := h.ok.room (h.ok.bufferFull_eq_false (by simp [halg]))
  obtain ⟨⟨buf, full⟩, hr, hbuf⟩ := (h.accounted.push cfg hc fun _ ↦ hroom).exists_ok
  have hqueue := RewriteBuffer.queue_push hr
  cases full with
  | false =>
    refine ⟨{ st with buffer := buf }, [], bind_eq_ok.mpr ⟨_, hr, rfl⟩, hbuf, fun hall ↦ ?_⟩
    rwa [List.nil_append, hqueue]
  | true =>
    obtain ⟨out, buf₁, hout, hbuf₁, hsplit, -⟩ :=
      hbuf.popMarkers cfg inherited buf.queue.length
    -- The chunk that filled the buffer is still there behind the markers.
    obtain ⟨-, hnum, hhead⟩ := RewriteBuffer.counted_popMarkers _ hbuf.num le_rfl hout
    have hfull := (RewriteBuffer.counted_push h.accounted.num hr).2.2 rfl
    cases hq : buf₁.queue with
    | nil =>
      have hzero := hbuf₁.num
      rw [RewriteBuffer.Counted, hq, hnum, hbuf.num, hqueue, dataNum_append, dataNum_cons,
        if_neg (by simp [hfull.1])] at hzero
      simp at hzero
    | cons d queue =>
      have hm : d.isMarker = false := hhead d (by simp [hq])
      obtain ⟨st', e, he, hbuf', hrest, hkeep⟩ := @cbrHead_spec cfg inherited
        { st with buffer := buf₁ } d P queue hP (by simp [halg]) hbuf₁ hq hm
      refine ⟨st', out ++ [e], bind_eq_ok.mpr ⟨_, hr, bind_eq_ok.mpr ⟨_, hout,
        bind_eq_ok.mpr ⟨_, he, rfl⟩⟩⟩, hbuf', fun hall ↦ ?_⟩
      rw [← hqueue, hsplit, hq] at hall
      simp only [List.forall_mem_append, List.forall_mem_cons] at hall
      rw [hrest]
      simp only [List.forall_mem_append, List.forall_mem_singleton]
      exact ⟨⟨hall.1, hkeep hall.2.1⟩, hall.2.2⟩

variable (inherited) in
/-- **The turn of `cap_rewrite`**: the chunk is buffered, or it fills the buffer, which is flushed. -/
theorem capRewrite_spec (halg : cfg.rewriteAlgorithm = .capping) (h : RewriteSound cfg st)
    (hc : c.Rewritable) :
    ∃ buf, buf.Accounted ∧ buf.queue = st.buffer.queue ++ [c] ∧
      (capRewrite cfg inherited st c = .ok ({ st with buffer := buf }, []) ∧
          dataNum buf.queue < cfg.rewriteBufferSize ∨
        ∃ out, capRewrite cfg inherited st c = .ok ({ st with buffer := .empty }, out) ∧
          dataNum buf.queue = cfg.rewriteBufferSize ∧ List.Forall₂ (fun c d ↦
            capMark (capTop cfg buf) false (RewriteBuffer.popped cfg inherited c) = .ok d)
              buf.queue out) := by
  have hroom := h.ok.room (h.ok.bufferFull_eq_false (by simp [halg]))
  obtain ⟨⟨buf, full⟩, hr, hbuf⟩ := (h.accounted.push cfg hc fun _ ↦ hroom).exists_ok
  refine ⟨buf, hbuf, RewriteBuffer.queue_push hr, ?_⟩
  rw [← hbuf.num]
  cases full with
  | false =>
    exact .inl ⟨bind_eq_ok.mpr ⟨_, hr, rfl⟩, (RewriteBuffer.counted_push h.accounted.num hr).2.1 rfl hroom⟩
  | true =>
    obtain ⟨out, hout, hforall⟩ := capFlush_spec cfg inherited hbuf false
    exact .inr ⟨out, bind_eq_ok.mpr ⟨_, hr, bind_eq_ok.mpr ⟨_, hout, rfl⟩⟩,
      RewriteBuffer.num_of_full h.accounted.num hr, hforall⟩

/-- **The turn of the rewrite thread.** No assertion fails. -/
theorem rewriteChunk_spec (hpos : 0 < cfg.rewriteBufferSize) (h : RewriteSound cfg st)
    (hP : KeptByMarks cfg inherited P) (hc : c.Rewritable) (late : Bool) :
    ∃ st' out, rewriteChunk cfg inherited late st c = .ok (st', out) ∧ RewriteSound cfg st' ∧
      ((∀ d ∈ st.buffer.queue ++ [c], P d) → ∀ d ∈ out ++ st'.buffer.queue, P d) := by
  have hturn : ∃ st' out, rewriteChunk cfg inherited late st c = .ok (st', out) ∧
      st'.buffer.Accounted ∧
      ((∀ d ∈ st.buffer.queue ++ [c], P d) → ∀ d ∈ out ++ st'.buffer.queue, P d) := by
    unfold rewriteChunk
    cases halg : cfg.rewriteAlgorithm with
    | no =>
      refine ⟨st, _, rfl, h.accounted, fun hall ↦ ?_⟩
      rw [h.noBuffer halg] at hall ⊢
      simp only [List.nil_append, List.append_nil, List.forall_mem_singleton] at hall ⊢
      exact hP.no halg c late hall
    | cfl => exact cflRewrite_spec hpos h hP hc
    | contextBased => exact cbrRewrite_spec halg h hP hc
    | capping =>
      obtain ⟨buf, hbuf, hqueue, ⟨hok, -⟩ | ⟨out, hok, -, hforall⟩⟩ :=
        capRewrite_spec inherited halg h hc
      · refine ⟨_, [], hok, hbuf, fun hall ↦ ?_⟩
        rwa [List.nil_append, hqueue]
      · refine ⟨_, out, hok, RewriteBuffer.accounted_empty, fun hall ↦ ?_⟩
        rw [RewriteBuffer.empty, List.append_nil]
        rw [← hqueue] at hall
        exact hforall.forall_right (fun _ _ ↦ hP.capMark halg) hall
  obtain ⟨st', out, hok, hbuf, hkeep⟩ := hturn
  refine ⟨st', out, hok, ⟨h.ok.chunk hpos hok, hbuf, fun hno ↦ ?_⟩, hkeep⟩
  rw [rewriteChunk_no hno hok]
  exact h.noBuffer hno

/-- **The drain** at the end of the stream. -/
theorem rewriteEnd_spec (h : RewriteSound cfg st) (hP : KeptByMarks cfg inherited P) :
    ∃ out, rewriteEnd cfg inherited st = .ok ({ st with buffer := .empty }, out) ∧
      ((∀ d ∈ st.buffer.queue, P d) → ∀ d ∈ out, P d) := by
  have hdrain : ∃ out, drain cfg inherited st.buffer = .ok (out, .empty) ∧
      ((∀ d ∈ st.buffer.queue, P d) → ∀ d ∈ out, P d) := by
    unfold drain
    cases halg : cfg.rewriteAlgorithm with
    | no =>
      rw [h.accounted.eq_empty (h.noBuffer halg)]
      exact ⟨[], rfl, fun hall ↦ hall⟩
    | cfl =>
      obtain ⟨out, outOfOrder, hok, hforall⟩ :=
        cflFlush_spec cfg inherited h.accounted
      exact ⟨out, hok, hforall.forall_right fun _ _ ↦ hP.cflMark⟩
    | contextBased =>
      obtain ⟨out, hok, hforall⟩ := @RewriteBuffer.Accounted.popAll cfg inherited .ok _ _
        h.accounted le_rfl fun _ _ ↦ ⟨_, rfl⟩
      exact ⟨out, hok, hforall.forall_right fun c _ hd h ↦ Except.ok.inj hd ▸ hP.pop c h⟩
    | capping =>
      obtain ⟨out, hok, hforall⟩ :=
        capFlush_spec cfg inherited h.accounted true
      exact ⟨out, hok, hforall.forall_right fun _ _ ↦ hP.capMark halg⟩
  obtain ⟨out, hok, hkeep⟩ := hdrain
  exact ⟨out, bind_eq_ok.mpr ⟨_, hok, rfl⟩, hkeep⟩

end Turn

theorem RewriteSound.init {cfg : Config} (hpos : 0 < cfg.rewriteBufferSize) :
    RewriteSound cfg (.init cfg) :=
  ⟨.init hpos, RewriteBuffer.accounted_empty, fun _ ↦ rfl⟩

/-! ## Whole streams -/

section Run

variable {cfg : Config} {inherited : List ℤ}

/-- **No assertion of the loop fails.** -/
theorem rewriteRun_total (hpos : 0 < cfg.rewriteBufferSize) {P : Chunk → Prop}
    (hP : KeptByMarks cfg inherited P) :
    ∀ {stream : List (Chunk × Bool)} {st : RewriteState}, RewriteSound cfg st →
    (∀ item ∈ stream, item.1.Rewritable) →
    ∃ st' out, rewriteRun cfg inherited st stream = .ok (st', out) ∧ RewriteSound cfg st' ∧
      ((∀ d ∈ st.buffer.queue ++ stream.map Prod.fst, P d) →
        ∀ d ∈ out ++ st'.buffer.queue, P d) := by
  intro stream
  induction stream with
  | nil =>
    intro st h _
    refine ⟨st, [], rfl, h, fun hall ↦ ?_⟩
    rwa [List.map_nil, List.append_nil] at hall
  | cons item stream ih =>
    intro st h hstream
    rw [List.forall_mem_cons] at hstream
    obtain ⟨st₁, out₁, hchunk, h₁, hkeep₁⟩ := rewriteChunk_spec hpos h hP hstream.1 item.2
    obtain ⟨st₂, rest, hrun, h₂, hkeep₂⟩ := ih h₁ hstream.2
    refine ⟨st₂, out₁ ++ rest, bind_eq_ok.mpr ⟨_, hchunk, bind_eq_ok.mpr ⟨_, hrun, rfl⟩⟩, h₂,
      fun hall ↦ ?_⟩
    simp only [List.map_cons, List.forall_mem_append, List.forall_mem_cons] at hall
    have hall₁ := List.forall_mem_append.mp (hkeep₁ (List.forall_mem_append.mpr
      ⟨hall.1, List.forall_mem_singleton.mpr hall.2.1⟩))
    have hall₂ := List.forall_mem_append.mp (hkeep₂ (List.forall_mem_append.mpr
      ⟨hall₁.2, hall.2.2⟩))
    simp only [List.forall_mem_append]
    exact ⟨⟨hall₁.1, hall₂.1⟩, hall₂.2⟩

/-- **The thread gets to the end of the stream**, and what it pushes has every property that its marks
keep. -/
theorem rewriteThread_keeps (hpos : 0 < cfg.rewriteBufferSize) {P : Chunk → Prop}
    (hP : KeptByMarks cfg inherited P) {stream : List (Chunk × Bool)}
    (hstream : ∀ item ∈ stream, item.1.Rewritable) (hall : ∀ c ∈ stream.map Prod.fst, P c) :
    ∃ out, rewriteThread cfg inherited stream = .ok out ∧ ∀ d ∈ out, P d := by
  obtain ⟨st, out, hrun, h, hkeep⟩ := rewriteRun_total hpos hP (.init hpos) hstream
  obtain ⟨rest, hend, hkeep'⟩ := rewriteEnd_spec h hP
  have hrun' := List.forall_mem_append.mp (hkeep hall)
  exact ⟨out ++ rest, bind_eq_ok.mpr ⟨_, hrun, bind_eq_ok.mpr ⟨_, hend, rfl⟩⟩,
    List.forall_mem_append.mpr ⟨hrun'.1, hkeep' hrun'.2⟩⟩

end Run

end UniDedup.Node
