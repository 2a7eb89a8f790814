import UniDedup.Node.RewriteCount
import UniDedup.Node.Safety

/-!
# Progress of the pipeline

The dedup thread waits while the index buffer has `wait_threshold` chunks or more. It is woken by the
filter thread at the end of a segment, which has to pass the rewrite thread first; and that one holds
chunks and markers back until more come in. With segments of `S` chunks and a rewrite buffer of `R`,
the threshold of `R + S - 1` leaves one case in which all three wait for each other: the filter thread
has all `S` chunks of a segment but not its end, and the rewrite buffer has that end and `R - 1` chunks
behind it. Since whole segments are in flight, `S` then divides `R - 1`; for other sizes some thread
can always take a turn.
-/

namespace UniDedup.Node

open Outcome Transition

/-! ## The chunks in the index buffer -/

theorem post_indexLookup_chunkNum {cfg : Config} {env : LookupEnv} {st : IndexState}
    (cs : List Chunk) :
    Post (indexLookup cfg env st cs)
      (fun r ↦ r.1.buffer.chunkNum = st.buffer.chunkNum + chunkNum cs) fun _ ↦ True := by
  have hchunk : ∀ (useKV : Bool) (st : IndexState) (c : Chunk), Post (lookupChunk cfg env useKV st c)
      (fun r ↦ r.1.buffer.chunkNum = st.buffer.chunkNum + chunkNum [c]) fun _ ↦ True := by
    intro useKV st c
    refine post_of_forall (fun r hr ↦ ?_) fun _ _ ↦ trivial
    rw [chunkNum_singleton]
    unfold lookupChunk at hr
    split_ifs at hr ⊢
    · cases hr
      rfl
    · simp only [bind_eq_ok] at hr
      obtain ⟨_, -, _, -, hr⟩ := hr
      cases hr
      rfl
  unfold indexLookup
  refine Post.bind (P := fun _ ↦ True)
    (post_of_forall (fun _ _ ↦ trivial) fun _ _ ↦ trivial) fun cache _ ↦ ?_
  refine post_lookupChunks (E := fun _ ↦ True) (I := fun done _ _ st' ↦
    st'.buffer.chunkNum = st.buffer.chunkNum + chunkNum done) (fun done c todo out st' h ↦ ?_) rfl
  refine (hchunk _ st' c).mono (fun r hr ↦ ?_) fun _ h ↦ h
  rw [hr, h, chunkNum_append, Nat.add_assoc]

theorem post_indexUpdateBuffer_chunkNum {b : IndexBuffer} (cs : List Chunk) :
    Post (indexUpdateBuffer b cs) (fun b' ↦ b'.chunkNum = b.chunkNum - chunkNum cs) fun _ ↦ True := by
  refine Post.foldlM (I := fun done _ b' ↦ b'.chunkNum = b.chunkNum - chunkNum done)
    (fun done c todo b' h ↦ ?_) cs [] b rfl
  refine post_of_forall (fun b'' hb'' ↦ ?_) fun _ _ ↦ trivial
  rw [chunkNum_append, chunkNum_singleton]
  unfold updateChunk at hb''
  split_ifs at hb'' ⊢
  · cases hb''
    exact h
  · simp only [bind_eq_ok] at hb''
    obtain ⟨_, -, _, -, hb''⟩ := hb''
    cases hb''
    change b'.chunkNum - 1 = _
    rw [h, Nat.sub_sub]

/-- The index buffer counts the chunks in flight, and segments of fixed size are complete until the
end of the stream. -/
structure Paced (cfg : Config) (x : Flight) : Prop where
  count : x.core.index.buffer.chunkNum = chunkNum x.segs.flatten
  sized : cfg.segmentAlgorithm = .fixed → x.rest ≠ [] → ∀ s ∈ x.segs, chunkNum s = cfg.segmentSize

namespace Paced

variable {cfg : Config} {sha1 : Bytes → Fingerprint} {cl : Client} {core core' : Core}
  {segs : List (List Chunk)} {s s' rest : List Chunk}

theorem sized_append (h : Paced cfg ⟨core, segs, s ++ rest⟩) (hsize : Sized cfg s rest)
    (hnum : chunkNum s' = chunkNum s) :
    cfg.segmentAlgorithm = .fixed → rest ≠ [] → ∀ t ∈ segs ++ [s'], chunkNum t = cfg.segmentSize := by
  intro hfixed hne t ht
  rw [List.mem_append, List.mem_singleton] at ht
  rcases ht with ht | rfl
  · exact h.sized hfixed (by simp [hne]) t ht
  · exact hnum.trans (hsize hfixed hne)

theorem lookup (h : Paced cfg ⟨core, segs, s ++ rest⟩) (hsize : Sized cfg s rest) :
    Post (core.lookup cfg s) (fun r ↦ Paced cfg ⟨r.1, segs ++ [r.2], rest⟩) fun _ ↦ True := by
  have hup : Post (indexLookup cfg core.lookupEnv core.index s)
      (fun r ↦ List.Forall₂ Chunk.LookedUp s r.2) fun _ ↦ True :=
    post_of_forall (fun r hr ↦ indexLookup_lookedUp hr) fun _ _ ↦ trivial
  unfold Core.lookup
  refine (((post_indexLookup_chunkNum s).and hup).mono (fun _ h ↦ h) fun _ _ ↦ trivial).bind ?_
  rintro ⟨index, s'⟩ ⟨hcount, hs'⟩
  have hnum : chunkNum s' = chunkNum s := chunkNum_congr (map_content_eq (fun _ _ hc ↦ hc.content) hs')
  refine ⟨?_, h.sized_append hsize hnum⟩
  have hflat : (segs ++ [s']).flatten = segs.flatten ++ s' := by simp
  have hold : core.index.buffer.chunkNum = chunkNum segs.flatten := h.count
  have hcount : index.buffer.chunkNum = core.index.buffer.chunkNum + chunkNum s := hcount
  dsimp only
  rw [hflat, chunkNum_append, hnum, hcount, hold]

theorem skip (h : Paced cfg ⟨core, segs, s ++ rest⟩) (hs : chunkNum s = 0)
    (hsize : Sized cfg s rest) : Paced cfg ⟨core, segs ++ [s], rest⟩ := by
  refine ⟨?_, h.sized_append hsize rfl⟩
  have hflat : (segs ++ [s]).flatten = segs.flatten ++ s := by simp
  dsimp only
  rw [hflat, chunkNum_append, hs]
  exact h.count

theorem filter (hs : Safe sha1 cl ⟨core, s :: segs, rest⟩) (h : Paced cfg ⟨core, s :: segs, rest⟩)
    (hm : Marked cfg s s') :
    Post (core.filterSegment cfg s') (fun core' ↦ Paced cfg ⟨core', segs, rest⟩) fun _ ↦ True := by
  unfold Core.filterSegment
  refine ((hs.consult hm).mono (fun _ h ↦ h) fun _ h ↦ h.elim).bind fun cs ⟨hcs, hc⟩ ↦ ?_
  refine ((hs.filterChunks hm hcs hc).mono (fun _ h ↦ h) fun _ _ ↦ trivial).bind ?_
  rintro ⟨core₁, t, out⟩ (hloop : FilterLoop sha1 (Sent cl) core cs out core₁ t)
  refine (post_indexUpdateBuffer_chunkNum out).bind fun b hb ↦ ?_
  refine ((hs.record hm hcs hloop b).mono (fun _ h ↦ h) fun _ h ↦ h.elim).bind
    fun ⟨sid, core₂⟩ hrec ↦ ?_
  refine Core.post_updateSegmentIndex (fun kv _ _ ↦ ⟨?_, fun hfixed hne t ht ↦ ?_⟩) fun _ ↦ trivial
  · have hframe := hrec.records.frame
    dsimp only at hframe
    have hindex : core₂.index = { core₁.index with buffer := b } := by rw [hframe]
    have hindex₁ : core₁.index = core.index := by rw [hloop.frame]
    have hold : core.index.buffer.chunkNum = chunkNum (s ++ segs.flatten) := by simpa using h.count
    dsimp only
    rw [hindex, hb, hindex₁, hold, chunkNum_congr (Safe.content_out hm hcs hloop), chunkNum_append]
    exact Nat.add_sub_cancel_left _ _
  · exact h.sized hfixed hne t (List.mem_cons_of_mem _ ht)

theorem congr (h : Paced cfg ⟨core, segs, rest⟩) (hindex : core'.index = core.index) :
    Paced cfg ⟨core', segs, rest⟩ := by
  refine ⟨?_, h.sized⟩
  dsimp only
  rw [hindex]
  exact h.count

theorem flush (h : Paced cfg ⟨core, segs, rest⟩) :
    Post (core.finalFlush cfg) (fun core' ↦ Paced cfg ⟨core', segs, rest⟩) fun _ ↦ True := by
  exact Core.post_finalFlush h fun _ _ _ ↦
    Core.post_submitContainer (fun _ _ _ ↦ h.congr rfl) fun _ ↦ trivial

end Paced

/-- What the threads keep of their own state. -/
structure JobOk (cfg : Config) (j : Job) : Prop where
  rewrite : j.rewriteEnded = false → RewriteOk cfg j.rewrite
  done : j.dedup = .done → j.dedupQueue.term = true

namespace JobOk

variable {cfg : Config} {sha1 : Bytes → Fingerprint} {queueSize : ℕ} {j j' : Job}

theorem dedup (h : JobOk cfg j) (hs : j.dedupStep cfg queueSize = some (.ok j')) : JobOk cfg j' := by
  have hnext : ∀ s last, Job.nextSegment s last ≠ .done := by
    intro s last
    unfold Job.nextSegment
    split_ifs <;> simp
  unfold Job.dedupStep at hs
  split at hs
  · rename_i hd
    split at hs
    · cases hs
      exact ⟨h.rewrite, fun hd ↦ absurd hd (hnext _ _)⟩
    · split at hs
      · cases hs
        refine ⟨h.rewrite, fun hd' ↦ ?_⟩
        rw [hd] at hd'
        cases hd'
      · cases hs
        exact ⟨h.rewrite, fun hd ↦ absurd hd (hnext _ _)⟩
  · split_ifs at hs
    rw [Option.some.injEq, bind_eq_ok] at hs
    obtain ⟨_, -, hs⟩ := hs
    cases hs
    exact ⟨h.rewrite, fun hd ↦ by simp at hd⟩
  · split_ifs at hs
    cases hs
    exact ⟨h.rewrite, fun hd ↦ by simp at hd⟩
  · cases hs
    exact ⟨h.rewrite, fun hd ↦ by simp at hd⟩
  · cases hs
    exact ⟨h.rewrite, fun _ ↦ rfl⟩
  · cases hs

theorem rewriteStep (hpos : 0 < cfg.rewriteBufferSize) (h : JobOk cfg j) {late : Bool}
    (hs : j.rewriteStep cfg queueSize late = some (.ok j')) : JobOk cfg j' := by
  unfold Job.rewriteStep at hs
  split at hs
  · split_ifs at hs
    cases hs
    exact ⟨h.rewrite, h.done⟩
  · by_cases hended : j.rewriteEnded = true
    · rw [if_pos hended] at hs
      split_ifs at hs
      cases hs
      exact ⟨h.rewrite, h.done⟩
    · rw [if_neg hended] at hs
      split at hs
      · rw [Option.some.injEq, bind_eq_ok] at hs
        obtain ⟨⟨st, out⟩, hr, hs⟩ := hs
        cases hs
        refine ⟨fun _ ↦ ?_, h.done⟩
        cases hc : rewriteChunk cfg j.inherited late j.rewrite _ with
        | error e =>
          rw [hc] at hr
          cases hr
        | ok p =>
          rw [hc] at hr
          cases hr
          exact (h.rewrite (by simpa using hended)).chunk hpos hc
      · split_ifs at hs
        rw [Option.some.injEq, bind_eq_ok] at hs
        obtain ⟨_, -, hs⟩ := hs
        cases hs
        exact ⟨fun he ↦ (by simp at he), h.done⟩

theorem filter (h : JobOk cfg j) (hs : j.filterStep cfg = some (.ok j')) : JobOk cfg j' := by
  unfold Job.filterStep at hs
  split at hs
  · split at hs
    · rw [Option.some.injEq, bind_eq_ok] at hs
      obtain ⟨_, -, hs⟩ := hs
      cases hs
      exact ⟨h.rewrite, h.done⟩
    · split_ifs at hs
      rw [Option.some.injEq, bind_eq_ok] at hs
      obtain ⟨_, -, hs⟩ := hs
      cases hs
      exact ⟨h.rewrite, h.done⟩
  · split at hs
    · cases hs
      exact ⟨h.rewrite, h.done⟩
    · split_ifs at hs
      cases hs
  · rw [Option.some.injEq, bind_eq_ok] at hs
    obtain ⟨_, -, hs⟩ := hs
    cases hs
    exact ⟨h.rewrite, h.done⟩
  · cases hs

theorem jobStep (hpos : 0 < cfg.rewriteBufferSize) (h : JobOk cfg j) {l : Label}
    (hs : jobStep cfg queueSize j l = some (.ok j')) : JobOk cfg j' := by
  cases l with
  | dedup => exact h.dedup hs
  | rewrite late => exact h.rewriteStep hpos hs
  | filter => exact h.filter hs
  | append =>
    obtain ⟨j₁, hj₁, hs⟩ := Option.map_eq_some_iff.mp hs
    cases hs
    obtain ⟨core, -, rfl⟩ := Option.map_eq_some_iff.mp hj₁
    exact ⟨h.rewrite, h.done⟩
  | _ => cases hs

end JobOk

/-! ## Blocked threads -/

namespace Job

variable {cfg : Config} {queueSize : ℕ} {j : Job} {x : Flight}

/-- What the threads wait for where none can take a turn. -/
structure Waits (cfg : Config) (j : Job) : Prop where
  dedup : ∃ s last, j.dedup = .looking s last
  full : j.core.index.buffer.isFull cfg = true
  pending : j.pending = []
  running : j.rewriteEnded = false
  dedupQueue : j.dedupQueue.items = []
  filter : j.filter = .waiting ∨ ∃ cs, j.filter = .collecting cs
  rewriteQueue : j.rewriteQueue.items = []

end Job

/-! ## Counting the chunks in flight -/

section Counting

variable {cfg : Config}

end Counting

section Main

variable {cfg : Config} {sha1 : Bytes → Fingerprint} {queueSize : ℕ} {s : State} {j : Job}

end Main

end UniDedup.Node
