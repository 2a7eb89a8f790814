import Mathlib.Data.List.Forall2
import UniDedup.Node.Rewrite

/-!
# The rewrite phase keeps the stream

Whatever an algorithm decides, the chunks it passes on followed by those it still buffers are the
chunks it was given, in the same order, with nothing changed but the out-of-order and the sparse flag.
The out-of-order flag is left alone without a rewriting algorithm, the sparse flag without
history-aware rewriting.
-/

namespace UniDedup.Node

open Outcome

/-- `c'` is `c` with the marks of the rewrite phase. -/
structure Chunk.Marks (cfg : Config) (c c' : Chunk) : Prop where
  eq : c' = { c with outOfOrder := c'.outOfOrder, sparse := c'.sparse }
  outOfOrder : cfg.rewriteAlgorithm = .no → c'.outOfOrder = c.outOfOrder
  sparse : cfg.enableHar = false → c'.sparse = c.sparse

/-- A list of chunks with the marks of the rewrite phase. -/
def Marked (cfg : Config) : List Chunk → List Chunk → Prop := List.Forall₂ (Chunk.Marks cfg)

namespace Chunk.Marks

variable {cfg : Config} {c c' c'' : Chunk}

theorem refl (cfg : Config) (c : Chunk) : c.Marks cfg c := ⟨rfl, fun _ ↦ rfl, fun _ ↦ rfl⟩

theorem trans (h : c.Marks cfg c') (h' : c'.Marks cfg c'') : c.Marks cfg c'' where
  eq := by
    have h₁ := h.eq
    have h₂ := h'.eq
    rw [h₁] at h₂
    exact h₂
  outOfOrder hno := (h'.outOfOrder hno).trans (h.outOfOrder hno)
  sparse hhar := (h'.sparse hhar).trans (h.sparse hhar)

theorem kind (h : c.Marks cfg c') : c'.kind = c.kind := by rw [h.eq]

theorem duplicate (h : c.Marks cfg c') : c'.duplicate = c.duplicate := by rw [h.eq]

theorem id (h : c.Marks cfg c') : c'.id = c.id := by rw [h.eq]

theorem fp (h : c.Marks cfg c') : c'.fp = c.fp := by rw [h.eq]

theorem data (h : c.Marks cfg c') : c'.data = c.data := by rw [h.eq]

theorem isFileMarker (h : c.Marks cfg c') : c'.isFileMarker = c.isFileMarker := by
  simp only [Chunk.isFileMarker, h.kind]

theorem isMarker (h : c.Marks cfg c') : c'.isMarker = c.isMarker := by
  simp only [Chunk.isMarker, h.isFileMarker, h.kind]

/-- Setting the out-of-order flag is the mark of a rewriting algorithm. -/
theorem setOutOfOrder (h : cfg.rewriteAlgorithm ≠ .no) (c : Chunk) (b : Bool) :
    c.Marks cfg { c with outOfOrder := b } := ⟨rfl, fun hno ↦ absurd hno h, fun _ ↦ rfl⟩

end Chunk.Marks

theorem Marked.refl (cfg : Config) (cs : List Chunk) : Marked cfg cs cs :=
  List.forall₂_same.mpr fun c _ ↦ Chunk.Marks.refl cfg c

theorem Marked.trans {cfg : Config} {cs cs' cs'' : List Chunk} (h : Marked cfg cs cs')
    (h' : Marked cfg cs' cs'') : Marked cfg cs cs'' := by
  induction h generalizing cs'' with
  | nil =>
    cases h'
    exact .nil
  | cons hc _ ih =>
    obtain _ | ⟨hc', hcs'⟩ := h'
    exact .cons (hc.trans hc') (ih hcs')

theorem Marked.append {cfg : Config} {cs cs' ds ds' : List Chunk} (h : Marked cfg cs cs')
    (h' : Marked cfg ds ds') : Marked cfg (cs ++ ds) (cs' ++ ds') := List.rel_append h h'

theorem harCheck_marks {cfg : Config} (h : cfg.enableHar = true) (inherited : List ℤ) (c : Chunk) :
    c.Marks cfg (harCheck inherited c) := by
  unfold harCheck
  split_ifs
  · exact ⟨rfl, fun _ ↦ rfl, fun h' ↦ by simp [h] at h'⟩
  · exact .refl cfg c

/-! ## The buffer -/

namespace RewriteBuffer

variable {cfg : Config} {inherited : List ℤ} {buf buf' : RewriteBuffer}

theorem queue_push {c : Chunk} {full : Bool} (h : buf.push cfg c = .ok (buf', full)) :
    buf'.queue = buf.queue ++ [c] := by
  unfold push at h
  by_cases hm : c.isMarker
  · rw [if_pos hm] at h
    cases h
    rfl
  · rw [if_neg hm] at h
    simp only [bind_eq_ok] at h
    obtain ⟨_, -, _, -, h⟩ := h
    cases h
    rfl

theorem pop_cases {r : Option (Chunk × RewriteBuffer)} (h : buf.pop cfg inherited = .ok r) :
    (buf.queue = [] ∧ r = none) ∨
    ∃ c c' buf', r = some (c', buf') ∧ buf.queue = c :: buf'.queue ∧ c.Marks cfg c' ∧
      buf'.num = if c.isMarker then buf.num else buf.num - 1 := by
  unfold pop at h
  split at h
  · cases h
    exact .inl ⟨by assumption, rfl⟩
  · rename_i c queue hq
    refine .inr ?_
    by_cases hm : c.isMarker
    · rw [if_pos hm] at h
      cases h
      exact ⟨c, c, _, rfl, hq, .refl cfg c, by simp [hm]⟩
    rw [if_neg hm] at h
    by_cases hd : (c.duplicate && decide (c.id ≠ temporaryId)) = true
    · rw [if_pos hd] at h
      simp only [bind_eq_ok] at h
      obtain ⟨_, -, h⟩ := h
      cases h
      refine ⟨c, _, _, rfl, hq, ?_, by simp [hm]⟩
      split_ifs with hhar
      · exact harCheck_marks hhar inherited c
      · exact .refl cfg c
    · rw [if_neg hd] at h
      cases h
      exact ⟨c, c, _, rfl, hq, .refl cfg c, by simp [hm]⟩

theorem pop_eq_none (h : buf.pop cfg inherited = .ok none) : buf.queue = [] := by
  obtain ⟨hq, -⟩ | ⟨_, _, _, hr, -⟩ := pop_cases h
  · exact hq
  · cases hr

theorem pop_eq_some {c' : Chunk} (h : buf.pop cfg inherited = .ok (some (c', buf'))) :
    ∃ c, buf.queue = c :: buf'.queue ∧ c.Marks cfg c' := by
  obtain ⟨-, hr⟩ | ⟨c, _, _, hr, hq, hc, -⟩ := pop_cases h
  · cases hr
  · cases hr
    exact ⟨c, hq, hc⟩

theorem popAll_marked {mark : Chunk → Except RewriteAbort Chunk}
    (hmark : ∀ c c', mark c = .ok c' → c.Marks cfg c') :
    ∀ (n : ℕ) {buf buf' : RewriteBuffer} {out : List Chunk},
      buf.popAll cfg inherited mark n = .ok (out, buf') →
      buf.queue.length ≤ n → Marked cfg buf.queue out ∧ buf'.queue = [] := by
  intro n
  induction n with
  | zero =>
    intro buf buf' out h hn
    cases h
    have hq : buf.queue = [] := List.length_eq_zero_iff.mp (Nat.le_zero.mp hn)
    rw [hq]
    exact ⟨.nil, rfl⟩
  | succ n ih =>
    intro buf buf' out h hn
    rw [popAll, bind_eq_ok] at h
    obtain ⟨_ | ⟨c', buf₁⟩, hr, h⟩ := h
    · cases h
      rw [pop_eq_none hr]
      exact ⟨.nil, rfl⟩
    · obtain ⟨c, hq, hc⟩ := pop_eq_some hr
      simp only [bind_eq_ok] at h
      obtain ⟨d, hd, ⟨rest, buf₂⟩, hrest, h⟩ := h
      cases h
      rw [hq, List.length_cons, Nat.add_le_add_iff_right] at hn
      obtain ⟨hm, hempty⟩ := ih hrest hn
      rw [hq]
      exact ⟨.cons (hc.trans (hmark c' d hd)) hm, hempty⟩

theorem popMarkers_marked : ∀ (n : ℕ) {buf buf' : RewriteBuffer} {out : List Chunk},
    buf.popMarkers cfg inherited n = .ok (out, buf') →
    Marked cfg buf.queue (out ++ buf'.queue) := by
  intro n
  induction n with
  | zero =>
    intro buf buf' out h
    cases h
    exact .refl cfg _
  | succ n ih =>
    intro buf buf' out h
    rw [popMarkers] at h
    split_ifs at h
    · rw [bind_eq_ok] at h
      obtain ⟨_ | ⟨c', buf₁⟩, hr, h⟩ := h
      · cases h
        exact .refl cfg _
      · obtain ⟨c, hq, hc⟩ := pop_eq_some hr
        simp only [bind_eq_ok] at h
        obtain ⟨⟨rest, buf₂⟩, hrest, h⟩ := h
        cases h
        rw [hq]
        exact .cons hc (ih hrest)
    · cases h
      exact .refl cfg _

end RewriteBuffer

/-! ## The algorithms -/

section Algorithms

variable {cfg : Config} {inherited : List ℤ} {st st' : RewriteState} {c : Chunk} {out : List Chunk}

theorem cflMark_marks (halg : cfg.rewriteAlgorithm ≠ .no) {outOfOrder : Bool} {c c' : Chunk}
    (h : cflMark outOfOrder c = .ok c') : c.Marks cfg c' := by
  unfold cflMark at h
  split_ifs at h
  · cases h
    exact .refl cfg c
  · simp only [bind_eq_ok] at h
    obtain ⟨_, -, h⟩ := h
    cases h
    exact .setOutOfOrder halg c true
  · cases h
    exact .refl cfg c

theorem capMark_marks (halg : cfg.rewriteAlgorithm ≠ .no) {top : List ℤ} {final : Bool} {c c' : Chunk}
    (h : capMark top final c = .ok c') : c.Marks cfg c' := by
  unfold capMark at h
  split_ifs at h
  · cases h
    exact .setOutOfOrder halg c true
  · cases h
    exact .refl cfg c

theorem cflFlush_marked (halg : cfg.rewriteAlgorithm ≠ .no) {buf buf' : RewriteBuffer}
    (h : cflFlush cfg inherited buf = .ok (out, buf')) :
    Marked cfg buf.queue out ∧ buf'.queue = [] :=
  buf.popAll_marked (fun _ _ ↦ cflMark_marks halg) _ h le_rfl

theorem capFlush_marked (halg : cfg.rewriteAlgorithm ≠ .no) {final : Bool} {buf buf' : RewriteBuffer}
    (h : capFlush cfg inherited final buf = .ok (out, buf')) :
    Marked cfg buf.queue out ∧ buf'.queue = [] :=
  buf.popAll_marked (fun _ _ ↦ capMark_marks halg) _ h le_rfl

theorem cflRewrite_marked (halg : cfg.rewriteAlgorithm ≠ .no)
    (h : cflRewrite cfg inherited st c = .ok (st', out)) :
    Marked cfg (st.buffer.queue ++ [c]) (out ++ st'.buffer.queue) := by
  unfold cflRewrite at h
  simp only [bind_eq_ok] at h
  obtain ⟨⟨out₁, buf₁⟩, hflush, ⟨buf₂, full⟩, hpush, h⟩ := h
  cases h
  have hqueue : Marked cfg st.buffer.queue (out₁ ++ buf₁.queue) := by
    unfold cflJudge at hflush
    split_ifs at hflush
    · obtain ⟨hm, hempty⟩ := cflFlush_marked halg hflush
      simpa [hempty] using hm
    · cases hflush
      exact .refl cfg _
  rw [RewriteBuffer.queue_push hpush, ← List.append_assoc]
  exact hqueue.append (.refl cfg [c])

theorem cbrHead_marked (halg : cfg.rewriteAlgorithm ≠ .no) {d : Chunk}
    (h : cbrHead cfg inherited st = .ok (st', d)) :
    Marked cfg st.buffer.queue (d :: st'.buffer.queue) := by
  unfold cbrHead at h
  split at h
  · cases h
  · rename_i c queue hq
    simp only [bind_eq_ok, getOr_eq_ok] at h
    obtain ⟨⟨c₁, records, utility⟩, hdecide, r, hpop, ⟨d', buf'⟩, rfl, h⟩ := h
    cases h
    -- The decision only marks the chunk, and popping takes it off.
    have hc₁ : c.Marks cfg c₁ := by
      unfold cbrMark at hdecide
      split_ifs at hdecide
      · cases hdecide
        exact .refl cfg c
      · simp only [bind_eq_ok] at hdecide
        obtain ⟨_, -, _, -, hdecide⟩ := hdecide
        cases hdecide
        exact .setOutOfOrder halg c _
    obtain ⟨c₂, hqueue, hc₂⟩ := RewriteBuffer.pop_eq_some hpop
    obtain ⟨rfl, hrest⟩ := List.cons.inj hqueue
    rw [hq, ← hrest]
    exact .cons (hc₁.trans hc₂) (Marked.refl cfg _)

theorem cbrRewrite_marked (halg : cfg.rewriteAlgorithm ≠ .no)
    (h : cbrRewrite cfg inherited st c = .ok (st', out)) :
    Marked cfg (st.buffer.queue ++ [c]) (out ++ st'.buffer.queue) := by
  unfold cbrRewrite at h
  simp only [bind_eq_ok] at h
  obtain ⟨⟨buf₁, full⟩, hpush, h⟩ := h
  rw [← RewriteBuffer.queue_push hpush]
  split_ifs at h
  · cases h
    exact .refl cfg _
  · simp only [bind_eq_ok] at h
    obtain ⟨⟨out₁, buf₂⟩, hmarkers, ⟨st₁, d⟩, hhead, h⟩ := h
    cases h
    have hm := RewriteBuffer.popMarkers_marked _ hmarkers
    have hd := cbrHead_marked halg hhead
    rw [List.append_assoc]
    exact hm.trans ((Marked.refl cfg out₁).append hd)

theorem capRewrite_marked (halg : cfg.rewriteAlgorithm ≠ .no)
    (h : capRewrite cfg inherited st c = .ok (st', out)) :
    Marked cfg (st.buffer.queue ++ [c]) (out ++ st'.buffer.queue) := by
  unfold capRewrite at h
  simp only [bind_eq_ok] at h
  obtain ⟨⟨buf₁, full⟩, hpush, h⟩ := h
  rw [← RewriteBuffer.queue_push hpush]
  split_ifs at h
  · cases h
    exact .refl cfg _
  · simp only [bind_eq_ok] at h
    obtain ⟨⟨out₁, buf₂⟩, hflush, h⟩ := h
    cases h
    obtain ⟨hm, hempty⟩ := capFlush_marked halg hflush
    simpa [hempty] using hm

theorem noRewrite_marks (cfg : Config) (inherited : List ℤ) (late : Bool) (c : Chunk) :
    c.Marks cfg (noRewrite cfg inherited late c) := by
  unfold noRewrite
  split_ifs with h
  · simp only [Bool.and_eq_true] at h
    exact harCheck_marks h.1.1 inherited c
  · exact .refl cfg c

/-- **Every algorithm keeps the stream.** Without rewriting nothing is ever buffered. -/
theorem rewriteChunk_marked {late : Bool} (hno : cfg.rewriteAlgorithm = .no → st.buffer.queue = [])
    (h : rewriteChunk cfg inherited late st c = .ok (st', out)) :
    Marked cfg (st.buffer.queue ++ [c]) (out ++ st'.buffer.queue) := by
  unfold rewriteChunk at h
  split at h
  · rename_i halg
    cases h
    rw [hno halg]
    exact .cons (noRewrite_marks cfg inherited late c) .nil
  all_goals rename_i halg
  · exact cflRewrite_marked (by simp [halg]) h
  · exact cbrRewrite_marked (by simp [halg]) h
  · exact capRewrite_marked (by simp [halg]) h

theorem rewriteChunk_no {late : Bool} (hno : cfg.rewriteAlgorithm = .no)
    (h : rewriteChunk cfg inherited late st c = .ok (st', out)) : st' = st := by
  unfold rewriteChunk at h
  rw [hno] at h
  cases h
  rfl

theorem rewriteEnd_marked (hno : cfg.rewriteAlgorithm = .no → st.buffer.queue = [])
    (h : rewriteEnd cfg inherited st = .ok (st', out)) :
    Marked cfg st.buffer.queue out ∧ st'.buffer.queue = [] := by
  unfold rewriteEnd at h
  simp only [bind_eq_ok] at h
  obtain ⟨⟨out₁, buf⟩, hflush, h⟩ := h
  cases h
  unfold drain at hflush
  split at hflush
  all_goals rename_i halg
  · cases hflush
    rw [hno halg]
    exact ⟨.nil, rfl⟩
  · exact cflFlush_marked (by simp [halg]) hflush
  · refine RewriteBuffer.popAll_marked (fun c c' hc ↦ ?_) _ hflush le_rfl
    cases hc
    exact .refl cfg c
  · exact capFlush_marked (by simp [halg]) hflush

end Algorithms

end UniDedup.Node
