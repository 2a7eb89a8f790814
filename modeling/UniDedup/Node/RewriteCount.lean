import UniDedup.Node.RewriteStream

/-!
# How much the rewrite phase holds back

The rewrite buffer counts its chunks, not its markers. Between two turns it is full only if the chunk
that filled it came last, and only `cfl` leaves it so: context-based rewriting gives one chunk up at
once, capping all of them. So if the last item of the buffer is a marker, the buffer holds back fewer
chunks than it has room for.
-/

namespace UniDedup.Node

open Outcome

/-- The number of items of a stream that are no markers. -/
def dataNum (cs : List Chunk) : ℕ := cs.countP fun c ↦ !c.isMarker

@[simp] theorem dataNum_nil : dataNum [] = 0 := rfl

@[simp] theorem dataNum_append (cs ds : List Chunk) : dataNum (cs ++ ds) = dataNum cs + dataNum ds :=
  List.countP_append

theorem dataNum_cons (c : Chunk) (cs : List Chunk) :
    dataNum (c :: cs) = if c.isMarker then dataNum cs else dataNum cs + 1 := by
  cases hm : c.isMarker <;> simp [dataNum, hm]

namespace RewriteBuffer

variable {cfg : Config} {inherited : List ℤ} {buf buf' : RewriteBuffer} {c : Chunk}

/-- The number of chunks is that of the queue. -/
def Counted (buf : RewriteBuffer) : Prop := buf.num = dataNum buf.queue

theorem counted_push {full : Bool} (h : buf.Counted) (hpush : buf.push cfg c = .ok (buf', full)) :
    buf'.Counted ∧ (full = false → buf.num < cfg.rewriteBufferSize → buf'.num < cfg.rewriteBufferSize) ∧
      (full = true → c.isMarker = false ∧ buf'.num ≤ cfg.rewriteBufferSize) := by
  unfold push at hpush
  by_cases hm : c.isMarker
  · rw [if_pos hm] at hpush
    cases hpush
    refine ⟨?_, fun _ h ↦ h, fun h ↦ by simp at h⟩
    rw [Counted, dataNum_append, dataNum_cons, if_pos hm]
    exact h
  · rw [if_neg hm] at hpush
    simp only [bind_eq_ok, check_eq_ok] at hpush
    obtain ⟨_, -, _, hle, hpush⟩ := hpush
    cases hpush
    refine ⟨?_, fun hfull _ ↦ ?_, fun _ ↦ ⟨by simpa using hm, hle⟩⟩
    · rw [Counted, dataNum_append, dataNum_cons, if_neg hm]
      exact congrArg (· + 1) h
    · simpa using hfull

theorem counted_pop {c' : Chunk} (h : buf.Counted)
    (hpop : buf.pop cfg inherited = .ok (some (c', buf'))) : buf'.Counted := by
  obtain ⟨-, hr⟩ | ⟨c, _, _, hr, hq, -, hnum⟩ := pop_cases hpop
  · cases hr
  · cases hr
    rw [Counted, hq, dataNum_cons] at h
    rw [Counted, hnum]
    split_ifs at h ⊢
    · exact h
    · omega

theorem counted_popAll {mark : Chunk → Except RewriteAbort Chunk} :
    ∀ (n : ℕ) {buf buf' : RewriteBuffer} {out : List Chunk}, buf.Counted →
    buf.popAll cfg inherited mark n = .ok (out, buf') → buf'.Counted := by
  intro n
  induction n with
  | zero =>
    intro buf buf' out h hpop
    cases hpop
    exact h
  | succ n ih =>
    intro buf buf' out h hpop
    rw [popAll, bind_eq_ok] at hpop
    obtain ⟨_ | ⟨c', buf₁⟩, hr, hpop⟩ := hpop
    · cases hpop
      exact h
    · simp only [bind_eq_ok] at hpop
      obtain ⟨_, -, ⟨rest, buf₂⟩, hrest, hpop⟩ := hpop
      cases hpop
      exact ih (counted_pop h hr) hrest

/-- Popping the leading markers leaves the number of chunks and no marker at the head. -/
theorem counted_popMarkers : ∀ (n : ℕ) {buf buf' : RewriteBuffer} {out : List Chunk}, buf.Counted →
    buf.queue.length ≤ n → buf.popMarkers cfg inherited n = .ok (out, buf') →
    buf'.Counted ∧ buf'.num = buf.num ∧ ∀ c ∈ buf'.queue.head?, c.isMarker = false := by
  intro n
  induction n with
  | zero =>
    intro buf buf' out h hn hpop
    cases hpop
    refine ⟨h, rfl, fun c hc ↦ ?_⟩
    rw [List.length_eq_zero_iff.mp (Nat.le_zero.mp hn)] at hc
    cases hc
  | succ n ih =>
    intro buf buf' out h hn hpop
    rw [popMarkers] at hpop
    by_cases hhead : buf.queue.head?.any Chunk.isMarker = true
    · rw [if_pos hhead, bind_eq_ok] at hpop
      obtain ⟨_ | ⟨c', buf₁⟩, hr, hpop⟩ := hpop
      · rw [pop_eq_none hr] at hhead
        cases hhead
      · simp only [bind_eq_ok] at hpop
        obtain ⟨⟨rest, buf₂⟩, hrest, hpop⟩ := hpop
        cases hpop
        obtain ⟨-, hr'⟩ | ⟨c, _, _, hr', hq, -, hnum⟩ := pop_cases hr
        · cases hr'
        · cases hr'
          have hm : c.isMarker = true := by simpa [hq] using hhead
          rw [hq, List.length_cons, Nat.add_le_add_iff_right] at hn
          obtain ⟨hcounted, hnum', hnone⟩ := ih (counted_pop h hr) hn hrest
          refine ⟨hcounted, ?_, hnone⟩
          rw [hnum', hnum, if_pos hm]
    · rw [if_neg hhead] at hpop
      cases hpop
      refine ⟨h, rfl, fun c hc ↦ ?_⟩
      rw [Option.mem_def.mp hc] at hhead
      simpa using hhead

end RewriteBuffer

/-! ## The algorithms -/

/-- **The invariant of the rewrite thread.** -/
structure RewriteOk (cfg : Config) (st : RewriteState) : Prop where
  counted : st.buffer.Counted
  room : st.bufferFull = false → st.buffer.num < cfg.rewriteBufferSize
  /-- Only `cfl` leaves the buffer full, until the next item comes. -/
  full : st.bufferFull = true → cfg.rewriteAlgorithm = .cfl ∧
    ∃ c ∈ st.buffer.queue.getLast?, c.isMarker = false

namespace RewriteOk

variable {cfg : Config} {inherited : List ℤ} {st st' : RewriteState} {c : Chunk} {out : List Chunk}

theorem init (h : 0 < cfg.rewriteBufferSize) : RewriteOk cfg (.init cfg) :=
  ⟨rfl, fun _ ↦ h, fun h ↦ by cases h⟩

theorem num_of_queue_nil {buf : RewriteBuffer} (h : buf.Counted) (hq : buf.queue = []) :
    buf.num = 0 := by
  rw [h, hq]
  rfl

theorem cfl (hpos : 0 < cfg.rewriteBufferSize) (halg : cfg.rewriteAlgorithm = .cfl)
    (h : RewriteOk cfg st) (hc : cflRewrite cfg inherited st c = .ok (st', out)) :
    RewriteOk cfg st' := by
  unfold cflRewrite at hc
  simp only [bind_eq_ok] at hc
  obtain ⟨⟨out₁, buf₁⟩, hjudge, ⟨buf₂, full⟩, hpush, hc⟩ := hc
  cases hc
  -- A full buffer is passed on before the next item is pushed.
  have hbuf₁ : buf₁.Counted ∧ buf₁.num < cfg.rewriteBufferSize := by
    unfold cflJudge at hjudge
    by_cases hb : st.cflBoundary c = true
    · rw [if_pos hb] at hjudge
      have hcounted := RewriteBuffer.counted_popAll _ h.counted hjudge
      exact ⟨hcounted, by rwa [num_of_queue_nil hcounted (cflFlush_marked (by simp [halg]) hjudge).2]⟩
    · rw [if_neg hb] at hjudge
      cases hjudge
      simp only [RewriteState.cflBoundary, Bool.or_eq_true, not_or] at hb
      exact ⟨h.counted, h.room (by simpa using hb.2)⟩
  have hfull : (st.bufferFull && !st.cflBoundary c) = false := by
    cases hf : st.bufferFull <;> simp [RewriteState.cflBoundary, hf]
  obtain ⟨hcounted, hroom, hlast⟩ := RewriteBuffer.counted_push hbuf₁.1 hpush
  refine ⟨hcounted, fun hf ↦ hroom ?_ hbuf₁.2, fun hf ↦ ⟨halg, c, ?_, (hlast ?_).1⟩⟩
  · simpa [hfull] using hf
  · simp [RewriteBuffer.queue_push hpush]
  · simpa [hfull] using hf

theorem bufferFull_eq_false (h : RewriteOk cfg st) (halg : cfg.rewriteAlgorithm ≠ .cfl) :
    st.bufferFull = false := by
  rw [Bool.eq_false_iff]
  exact fun hf ↦ halg (h.full hf).1

theorem cbr (halg : cfg.rewriteAlgorithm ≠ .cfl) (h : RewriteOk cfg st)
    (hc : cbrRewrite cfg inherited st c = .ok (st', out)) : RewriteOk cfg st' := by
  have hno := h.bufferFull_eq_false halg
  unfold cbrRewrite at hc
  simp only [bind_eq_ok] at hc
  obtain ⟨⟨buf₁, full⟩, hpush, hc⟩ := hc
  obtain ⟨hcounted, hroom, hlast⟩ := RewriteBuffer.counted_push h.counted hpush
  cases full with
  | false =>
    cases hc
    exact ⟨hcounted, fun _ ↦ hroom rfl (h.room hno), fun hf ↦ by simp [hno] at hf⟩
  | true =>
    simp only [Bool.not_true, Bool.false_eq_true, if_false, bind_eq_ok] at hc
    obtain ⟨⟨out₁, buf₂⟩, hmarkers, ⟨st₁, d⟩, hhead, hc⟩ := hc
    cases hc
    obtain ⟨hcounted₂, hnum₂, hdata⟩ := RewriteBuffer.counted_popMarkers _ hcounted le_rfl hmarkers
    -- One chunk is decided, which makes room for the next.
    unfold cbrHead at hhead
    split at hhead
    · cases hhead
    · rename_i c₀ queue hq
      dsimp only at hq
      simp only [bind_eq_ok, getOr_eq_ok] at hhead
      obtain ⟨⟨c₁, records, utility⟩, hmark, r, hpop, ⟨d', buf₃⟩, rfl, hhead⟩ := hhead
      cases hhead
      have hm₀ : c₀.isMarker = false := hdata c₀ (by simp [hq])
      have hm₁ : c₁.isMarker = false := by
        unfold cbrMark at hmark
        split_ifs at hmark
        · cases hmark
          exact hm₀
        · simp only [bind_eq_ok] at hmark
          obtain ⟨_, -, _, -, hmark⟩ := hmark
          cases hmark
          exact hm₀
      have hcounted₁ : RewriteBuffer.Counted { buf₂ with queue := c₁ :: queue, records := records } := by
        rw [RewriteBuffer.Counted, dataNum_cons, if_neg (by simp [hm₁])]
        rw [RewriteBuffer.Counted, hq, dataNum_cons, if_neg (by simp [hm₀])] at hcounted₂
        exact hcounted₂
      refine ⟨RewriteBuffer.counted_pop hcounted₁ hpop, fun _ ↦ ?_, fun hf ↦ ?_⟩
      · obtain ⟨-, hr⟩ | ⟨c₂, _, _, hr, hq₂, -, hnum₃⟩ := RewriteBuffer.pop_cases hpop
        · cases hr
        · cases hr
          obtain ⟨rfl, -⟩ := List.cons.inj hq₂
          rw [if_neg (by simp [hm₁])] at hnum₃
          have hle := (hlast rfl).2
          have hpos : 0 < buf₂.num := by
            rw [hcounted₂, hq, dataNum_cons, if_neg (by simp [hm₀])]
            exact Nat.succ_pos _
          dsimp only at hnum₃ ⊢
          omega
      · dsimp only at hf
        rw [hno] at hf
        cases hf

theorem cap (hpos : 0 < cfg.rewriteBufferSize) (halg : cfg.rewriteAlgorithm = .capping)
    (h : RewriteOk cfg st) (hc : capRewrite cfg inherited st c = .ok (st', out)) :
    RewriteOk cfg st' := by
  have hno := h.bufferFull_eq_false (by simp [halg])
  unfold capRewrite at hc
  simp only [bind_eq_ok] at hc
  obtain ⟨⟨buf₁, full⟩, hpush, hc⟩ := hc
  obtain ⟨hcounted, hroom, -⟩ := RewriteBuffer.counted_push h.counted hpush
  cases full with
  | false =>
    cases hc
    exact ⟨hcounted, fun _ ↦ hroom rfl (h.room hno), fun hf ↦ by simp [hno] at hf⟩
  | true =>
    simp only [Bool.not_true, Bool.false_eq_true, if_false, bind_eq_ok] at hc
    obtain ⟨⟨out₁, buf₂⟩, hflush, hc⟩ := hc
    cases hc
    have hcounted₂ := RewriteBuffer.counted_popAll _ hcounted hflush
    refine ⟨hcounted₂, fun _ ↦ ?_, fun hf ↦ by simp [hno] at hf⟩
    rwa [num_of_queue_nil hcounted₂ (capFlush_marked (by simp [halg]) hflush).2]

/-- **The invariant is kept by every algorithm.** -/
theorem chunk (hpos : 0 < cfg.rewriteBufferSize) (h : RewriteOk cfg st) {late : Bool}
    (hc : rewriteChunk cfg inherited late st c = .ok (st', out)) : RewriteOk cfg st' := by
  unfold rewriteChunk at hc
  split at hc
  · cases hc
    exact h
  all_goals rename_i halg
  · exact h.cfl hpos halg hc
  · exact h.cbr (by simp [halg]) hc
  · exact h.cap hpos halg hc

theorem num_lt (h : RewriteOk cfg st) {pre : List Chunk} (hq : st.buffer.queue = pre ++ [c])
    (hm : c.isMarker = true) : dataNum st.buffer.queue < cfg.rewriteBufferSize := by
  rw [← h.counted]
  refine h.room (Bool.eq_false_iff.mpr fun hf ↦ ?_)
  obtain ⟨-, c', hc', hm'⟩ := h.full hf
  rw [hq, List.getLast?_concat, Option.mem_some_iff] at hc'
  rw [← hc', hm] at hm'
  cases hm'

end RewriteOk

end UniDedup.Node
