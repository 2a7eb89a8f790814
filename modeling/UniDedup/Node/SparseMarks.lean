import UniDedup.Node.Flow
import UniDedup.Node.Record

/-!
# The marks of sparse containers

A backup records the containers it uses too little, and the next one inherits them. The rewrite thread
marks every duplicate that was found in such a container. What has left the thread has its mark
(`Job.Watched`), for the chunks of a buffer are marked before they are popped. Without a rewriting
algorithm the mark is set after the chunk was passed on, and the filter thread may overtake it.
-/

namespace UniDedup.Node

open Outcome Transition

/-! ## The marks of the rewrite thread -/

/-- A duplicate in one of the containers has the sparse mark. -/
def Chunk.SparseIn (inherited : List ℤ) (c : Chunk) : Prop :=
  c.isMarker = false → c.duplicate = true → c.id ∈ inherited → c.sparse = true

section Marks

variable {cfg : Config} {inherited : List ℤ} {c : Chunk}

theorem Chunk.SparseIn.setOutOfOrder (h : c.SparseIn inherited) (b : Bool) :
    Chunk.SparseIn inherited { c with outOfOrder := b } := h

theorem sparseIn_of_isMarker (h : c.isMarker = true) : c.SparseIn inherited := by
  intro hm
  rw [h] at hm
  cases hm

theorem Chunk.isFileMarker_of_isMarker (h : c.isMarker = false) : c.isFileMarker = false := by
  simp only [Chunk.isMarker, Bool.or_eq_false_iff] at h
  exact h.1.1

theorem harCheck_sparseIn (inherited : List ℤ) (c : Chunk) :
    (harCheck inherited c).SparseIn inherited := by
  unfold harCheck
  split_ifs with h
  · exact fun _ _ _ ↦ rfl
  · intro hm hd hid
    have hfile : c.isFileMarker = false := Chunk.isFileMarker_of_isMarker hm
    exact absurd (by simp [hfile, hd, hid]) h

namespace RewriteBuffer

variable {buf buf' : RewriteBuffer}

theorem sparseIn_pop (hhar : cfg.enableHar = true) (htemp : temporaryId ∉ inherited)
    (h : buf.pop cfg inherited = .ok (some (c, buf'))) : c.SparseIn inherited := by
  unfold pop at h
  split at h
  · cases h
  · rename_i c₀ queue hq
    by_cases hm : c₀.isMarker = true
    · rw [if_pos hm] at h
      cases h
      exact sparseIn_of_isMarker hm
    rw [if_neg hm] at h
    by_cases hd : (c₀.duplicate && decide (c₀.id ≠ temporaryId)) = true
    · rw [if_pos hd] at h
      simp only [bind_eq_ok, if_pos hhar] at h
      obtain ⟨_, -, h⟩ := h
      cases h
      exact harCheck_sparseIn inherited c₀
    · rw [if_neg hd] at h
      cases h
      intro _ hdup hid
      refine absurd ?_ hd
      simp only [hdup, Bool.true_and, decide_eq_true_eq]
      rintro ht
      exact htemp (ht ▸ hid)

theorem sparseIn_popAll (hhar : cfg.enableHar = true) (htemp : temporaryId ∉ inherited)
    {mark : Chunk → Except RewriteAbort Chunk}
    (hmark : ∀ c d, mark c = .ok d → c.SparseIn inherited → d.SparseIn inherited) :
    ∀ (n : ℕ) {buf buf' : RewriteBuffer} {out : List Chunk},
      buf.popAll cfg inherited mark n = .ok (out, buf') → ∀ d ∈ out, d.SparseIn inherited := by
  intro n
  induction n with
  | zero =>
    intro buf buf' out h
    cases h
    exact fun _ h ↦ by cases h
  | succ n ih =>
    intro buf buf' out h
    rw [popAll, bind_eq_ok] at h
    obtain ⟨_ | ⟨c, buf₁⟩, hr, h⟩ := h
    · cases h
      exact fun _ h ↦ by cases h
    · simp only [bind_eq_ok] at h
      obtain ⟨d, hd, ⟨rest, buf₂⟩, hrest, h⟩ := h
      cases h
      rw [List.forall_mem_cons]
      exact ⟨hmark c d hd (sparseIn_pop hhar htemp hr), ih hrest⟩

theorem sparseIn_popMarkers (hhar : cfg.enableHar = true) (htemp : temporaryId ∉ inherited) :
    ∀ (n : ℕ) {buf buf' : RewriteBuffer} {out : List Chunk},
      buf.popMarkers cfg inherited n = .ok (out, buf') → ∀ d ∈ out, d.SparseIn inherited := by
  intro n
  induction n with
  | zero =>
    intro buf buf' out h
    cases h
    exact fun _ h ↦ by cases h
  | succ n ih =>
    intro buf buf' out h
    rw [popMarkers] at h
    split_ifs at h
    · rw [bind_eq_ok] at h
      obtain ⟨_ | ⟨c, buf₁⟩, hr, h⟩ := h
      · cases h
        exact fun _ h ↦ by cases h
      · simp only [bind_eq_ok] at h
        obtain ⟨⟨rest, buf₂⟩, hrest, h⟩ := h
        cases h
        rw [List.forall_mem_cons]
        exact ⟨sparseIn_pop hhar htemp hr, ih hrest⟩
    · cases h
      exact fun _ h ↦ by cases h

end RewriteBuffer

variable {st st' : RewriteState} {out : List Chunk} {buf buf' : RewriteBuffer}

theorem sparseIn_cflFlush (hhar : cfg.enableHar = true) (htemp : temporaryId ∉ inherited)
    (h : cflFlush cfg inherited buf = .ok (out, buf')) : ∀ d ∈ out, d.SparseIn inherited := by
  refine RewriteBuffer.sparseIn_popAll hhar htemp (fun c d hd hc ↦ ?_) _ h
  unfold cflMark at hd
  split_ifs at hd
  · cases hd
    exact hc
  · simp only [bind_eq_ok] at hd
    obtain ⟨_, -, hd⟩ := hd
    cases hd
    exact hc.setOutOfOrder true
  · cases hd
    exact hc

theorem sparseIn_capFlush (hhar : cfg.enableHar = true) (htemp : temporaryId ∉ inherited) {final : Bool}
    (h : capFlush cfg inherited final buf = .ok (out, buf')) : ∀ d ∈ out, d.SparseIn inherited := by
  refine RewriteBuffer.sparseIn_popAll hhar htemp (fun c d hd hc ↦ ?_) _ h
  unfold capMark at hd
  split_ifs at hd
  · cases hd
    exact hc.setOutOfOrder true
  · cases hd
    exact hc

/-- **What the rewrite thread passes on has its mark**, unless the filter thread overtakes it, which
takes a thread without a buffer. -/
theorem sparseIn_rewriteChunk (hhar : cfg.enableHar = true) (htemp : temporaryId ∉ inherited)
    {late : Bool} (hlate : cfg.rewriteAlgorithm = .no → late = false)
    (h : rewriteChunk cfg inherited late st c = .ok (st', out)) : ∀ d ∈ out, d.SparseIn inherited := by
  unfold rewriteChunk at h
  split at h
  all_goals rename_i halg
  · cases h
    rw [List.forall_mem_singleton, noRewrite, hlate halg, hhar]
    cases hd : c.duplicate with
    | true => exact harCheck_sparseIn inherited c
    | false =>
      rintro _ hdup
      simp [hd] at hdup
  · simp only [cflRewrite, bind_eq_ok] at h
    obtain ⟨⟨out₁, buf₁⟩, hjudge, _, -, h⟩ := h
    cases h
    unfold cflJudge at hjudge
    split_ifs at hjudge
    · exact sparseIn_cflFlush hhar htemp hjudge
    · cases hjudge
      exact fun _ h ↦ by cases h
  · simp only [cbrRewrite, bind_eq_ok] at h
    obtain ⟨⟨buf₁, full⟩, -, h⟩ := h
    split_ifs at h
    · cases h
      exact fun _ h ↦ by cases h
    · simp only [bind_eq_ok] at h
      obtain ⟨⟨out₁, buf₂⟩, hmarkers, ⟨st₁, d⟩, hhead, h⟩ := h
      cases h
      rw [List.forall_mem_append, List.forall_mem_singleton]
      refine ⟨RewriteBuffer.sparseIn_popMarkers hhar htemp _ hmarkers, ?_⟩
      unfold cbrHead at hhead
      split at hhead
      · cases hhead
      · simp only [bind_eq_ok, getOr_eq_ok] at hhead
        obtain ⟨_, -, r, hpop, ⟨d', buf'⟩, rfl, hhead⟩ := hhead
        cases hhead
        exact RewriteBuffer.sparseIn_pop hhar htemp hpop
  · simp only [capRewrite, bind_eq_ok] at h
    obtain ⟨⟨buf₁, full⟩, -, h⟩ := h
    split_ifs at h
    · cases h
      exact fun _ h ↦ by cases h
    · simp only [bind_eq_ok] at h
      obtain ⟨⟨out₁, buf₂⟩, hflush, h⟩ := h
      cases h
      exact sparseIn_capFlush hhar htemp hflush

theorem sparseIn_rewriteEnd (hhar : cfg.enableHar = true) (htemp : temporaryId ∉ inherited)
    (h : rewriteEnd cfg inherited st = .ok (st', out)) : ∀ d ∈ out, d.SparseIn inherited := by
  simp only [rewriteEnd, bind_eq_ok] at h
  obtain ⟨⟨out₁, buf₁⟩, hdrain, h⟩ := h
  cases h
  unfold drain at hdrain
  split at hdrain
  · cases hdrain
    exact fun _ h ↦ by cases h
  · exact sparseIn_cflFlush hhar htemp hdrain
  · refine RewriteBuffer.sparseIn_popAll hhar htemp (fun c d hd hc ↦ ?_) _ hdrain
    cases hd
    exact hc
  · exact sparseIn_capFlush hhar htemp hdrain

end Marks

/-! ## Behind the rewrite thread -/

namespace Core

variable {cfg : Config} {core : Core} {cs : List Chunk}

/-- The containers that the last version recorded as sparse. -/
def inherited (core : Core) : List ℤ := (core.sparse.headD []).map Prod.fst

theorem post_lookup_sparse : Post (core.lookup cfg cs) (fun r ↦ r.1.sparse = core.sparse) fun _ ↦ True :=
  post_lookup fun _ _ ↦ rfl

theorem post_filterChunks_sparse :
    Post (core.filterChunks cfg cs) (fun r ↦ r.1.sparse = core.sparse) fun _ ↦ True := by
  refine post_filterChunks (I := fun _ _ _ core' _ ↦ core'.sparse = core.sparse)
    (fun done c todo out core' t h ↦ ?_) rfl
  cases hm : c.isFileMarker with
  | true =>
    unfold filterChunk
    rw [if_pos hm]
    exact h
  | false =>
    refine post_filterChunk (P := fun r ↦ r.1.sparse = core.sparse) hm (fun _ ↦ trivial)
      (fun _ _ _ ↦ trivial) (fun b c₁ _ _ ↦ ?_) (fun _ _ _ _ ↦ h) fun r hr ↦ ⟨fun _ ↦ trivial, hr⟩
    refine post_storeChunk (I := fun core' ↦ core'.sparse = core.sparse) (fun _ h _ ↦ h)
      (fun core' con h _ _ ↦ post_submitContainer (fun _ _ _ ↦ h) fun _ ↦ trivial)
      (fun core' con h _ ↦ ?_) h
    unfold addChunk
    refine (post_check fun _ ↦ trivial).bind fun _ _ ↦ ?_
    split
    · exact h
    · exact (post_check fun _ ↦ trivial).bind fun _ _ ↦ h

theorem post_filterSegment_sparse :
    Post (core.filterSegment cfg cs) (fun core' ↦ core'.sparse = core.sparse) fun _ ↦ True := by
  unfold filterSegment
  refine Post.bind (P := fun _ ↦ True)
    (post_of_forall (fun _ _ ↦ trivial) fun _ _ ↦ trivial) fun cs' _ ↦ ?_
  refine post_filterChunks_sparse.bind ?_
  rintro ⟨core₁, t, out⟩ hcore₁
  refine Post.bind (P := fun _ ↦ True)
    (post_of_forall (fun _ _ ↦ trivial) fun _ _ ↦ trivial) fun b _ ↦ ?_
  refine Post.bind (P := fun r ↦ r.2.sparse = core.sparse) ?_ fun r hr ↦
    post_updateSegmentIndex (fun _ _ _ ↦ hr) fun _ ↦ trivial
  unfold writeSegmentRecipe
  refine Post.bind (P := fun core' : Core ↦ core'.sparse = core.sparse) ?_ fun core₂ h ↦ h
  refine Post.foldlM_of_invariant (I := fun core' : Core ↦ core'.sparse = core.sparse)
    (fun core' c _ h ↦ ?_) hcore₁
  unfold writeRecipe
  split
  · exact (post_check fun _ ↦ trivial).bind fun _ _ ↦ h
  · split_ifs
    · exact (post_check fun _ ↦ trivial).bind fun _ _ ↦ h
    · exact h

theorem post_finalFlush_sparse :
    Post (core.finalFlush cfg) (fun core' ↦ core'.sparse = core.sparse) fun _ ↦ True :=
  post_finalFlush rfl fun _ _ _ ↦ post_submitContainer (fun _ _ _ ↦ rfl) fun _ ↦ trivial

end Core

/-- What has left the rewrite thread has its mark. -/
structure Job.Watched (j : Job) : Prop where
  inherited : j.inherited = j.core.inherited
  temporary : temporaryId ∉ j.inherited
  passed : ∀ c ∈ j.pending ++ (j.rewriteQueue.items ++ j.filter.collected), c.SparseIn j.inherited

namespace Job.Watched

variable {cfg : Config} {queueSize : ℕ} {j j' : Job}

/-- A turn behind which the inherited containers are the same, and the same has left the rewrite thread or less. -/
theorem of_subset (h : j.Watched) (hinherited : j'.inherited = j.inherited)
    (hsparse : j'.core.sparse = j.core.sparse)
    (hpassed : ∀ c ∈ j'.pending ++ (j'.rewriteQueue.items ++ j'.filter.collected), c.SparseIn j.inherited) :
    j'.Watched where
  inherited := by
    rw [hinherited, h.inherited, Core.inherited, Core.inherited, hsparse]
  temporary := hinherited ▸ h.temporary
  passed := hinherited ▸ hpassed

theorem dedupStep (h : j.Watched) (hs : j.dedupStep cfg queueSize = some (.ok j')) : j'.Watched := by
  unfold Job.dedupStep at hs
  split at hs
  · split at hs
    · cases hs
      exact h.of_subset rfl rfl h.passed
    · split at hs
      · cases hs
        exact h.of_subset rfl rfl h.passed
      · cases hs
        exact h.of_subset rfl rfl h.passed
  · split_ifs at hs
    simp only [Option.some.injEq, bind_eq_ok] at hs
    obtain ⟨⟨core, s⟩, hlook, hs⟩ := hs
    cases hs
    exact h.of_subset rfl (Core.post_lookup_sparse.ok (mapError_eq_ok.mp hlook)) h.passed
  · split_ifs at hs
    cases hs
    exact h.of_subset rfl rfl h.passed
  · cases hs
    exact h.of_subset rfl rfl h.passed
  · cases hs
    exact h.of_subset rfl rfl h.passed
  · cases hs

theorem rewriteStep (hhar : cfg.enableHar = true) {late : Bool}
    (hlate : cfg.rewriteAlgorithm = .no → late = false) (h : j.Watched)
    (hs : j.rewriteStep cfg queueSize late = some (.ok j')) : j'.Watched := by
  have hpassed := h.passed
  simp only [List.forall_mem_append] at hpassed
  obtain ⟨hpending, hqueue, hfilter⟩ := hpassed
  unfold Job.rewriteStep at hs
  split at hs
  · rename_i c rest hpend
    split_ifs at hs
    cases hs
    rw [hpend, List.forall_mem_cons] at hpending
    refine h.of_subset rfl rfl ?_
    simp only [SyncQueue.push, List.forall_mem_append, List.forall_mem_singleton]
    exact ⟨hpending.2, ⟨hqueue, hpending.1⟩, hfilter⟩
  · by_cases hended : j.rewriteEnded
    · rw [if_pos hended] at hs
      split_ifs at hs
      cases hs
      exact h.of_subset rfl rfl h.passed
    rw [if_neg hended] at hs
    split at hs
    · simp only [Option.some.injEq, bind_eq_ok] at hs
      obtain ⟨⟨rw, out⟩, hrewrite, hs⟩ := hs
      cases hs
      refine h.of_subset rfl rfl ?_
      simp only [List.forall_mem_append]
      exact ⟨sparseIn_rewriteChunk hhar h.temporary hlate (mapError_eq_ok.mp hrewrite), hqueue, hfilter⟩
    · split_ifs at hs
      simp only [Option.some.injEq, bind_eq_ok] at hs
      obtain ⟨⟨rw, out⟩, hrewrite, hs⟩ := hs
      cases hs
      refine h.of_subset rfl rfl ?_
      simp only [List.forall_mem_append]
      exact ⟨sparseIn_rewriteEnd hhar h.temporary (mapError_eq_ok.mp hrewrite), hqueue, hfilter⟩

theorem filterStep (h : j.Watched) (hs : j.filterStep cfg = some (.ok j')) : j'.Watched := by
  have hpassed := h.passed
  simp only [List.forall_mem_append] at hpassed
  obtain ⟨hpending, hqueue, hfilter⟩ := hpassed
  unfold Job.filterStep at hs
  split at hs
  · split at hs
    · rename_i c rest hitems
      simp only [Option.some.injEq, bind_eq_ok] at hs
      obtain ⟨_, -, hs⟩ := hs
      cases hs
      rw [hitems, List.forall_mem_cons] at hqueue
      refine h.of_subset rfl rfl ?_
      simp only [List.forall_mem_append]
      exact ⟨hpending, hqueue.2, fun _ h ↦ by cases h⟩
    · split_ifs at hs
      simp only [Option.some.injEq, bind_eq_ok] at hs
      obtain ⟨core, hflush, hs⟩ := hs
      cases hs
      refine h.of_subset rfl ?_ ?_
      · exact Core.post_finalFlush_sparse.ok (mapError_eq_ok.mp hflush)
      · simp only [List.forall_mem_append]
        exact ⟨hpending, hqueue, fun _ h ↦ by cases h⟩
  · rename_i cs hcs
    split at hs
    · rename_i c rest hitems
      cases hs
      rw [hitems, List.forall_mem_cons] at hqueue
      rw [hcs] at hfilter
      refine h.of_subset rfl rfl ?_
      simp only [List.forall_mem_append]
      refine ⟨hpending, hqueue.2, ?_⟩
      split_ifs
      · exact hfilter
      · simp only [FilterState.collected, List.forall_mem_append, List.forall_mem_singleton]
        exact ⟨hfilter, hqueue.1⟩
    · split_ifs at hs
      cases hs
  · rename_i cs hcs
    simp only [Option.some.injEq, bind_eq_ok] at hs
    obtain ⟨core, hseg, hs⟩ := hs
    cases hs
    refine h.of_subset rfl (Core.post_filterSegment_sparse.ok (mapError_eq_ok.mp hseg)) ?_
    simp only [List.forall_mem_append]
    exact ⟨hpending, hqueue, fun _ h ↦ by cases h⟩
  · cases hs

/-- **What leaves the rewrite thread has its mark**, in every turn of a thread. -/
theorem step (hhar : cfg.enableHar = true) {l : Label} (hlate : cfg.rewriteAlgorithm = .no → l ≠ .rewrite true)
    (h : j.Watched) (hs : jobStep cfg queueSize j l = some (.ok j')) : j'.Watched := by
  unfold jobStep at hs
  split at hs
  · exact h.dedupStep hs
  · rename_i late
    refine h.rewriteStep hhar (fun hno ↦ ?_) hs
    have hne := hlate hno
    cases late with
    | true => exact absurd rfl hne
    | false => rfl
  · exact h.filterStep hs
  · obtain ⟨j₁, hstep, hj₁⟩ := Option.map_eq_some_iff.mp hs
    cases hj₁
    obtain ⟨core, happ, rfl⟩ := Option.map_eq_some_iff.mp hstep
    obtain ⟨st, -, rfl⟩ := Option.map_eq_some_iff.mp happ
    exact h.of_subset rfl rfl h.passed
  · cases hs

end Job.Watched

end UniDedup.Node
