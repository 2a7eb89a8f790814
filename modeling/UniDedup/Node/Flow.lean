import UniDedup.Lib.Pointwise
import UniDedup.Node.RewriteStream
import UniDedup.Node.System

/-!
# The pipeline as a queue of segments

Seen from the index lock, the four threads of a backup do little: a segment is taken from the input and
looked up, it travels through the queues and buffers of the pipeline, and it is filtered when it
arrives, in the same order and with nothing but the marks of the rewrite phase changed. `Flight` is
that view, the shared state with the segments in flight and the input still to be read, and `Turn` its
steps. The main result of this file is that every turn of a thread is matched by a turn of this
coarser system (`jobStep_turn`), so that invariants of the shared state need only be proved there
(`Contract`).
-/

namespace UniDedup.Node

open Outcome

/-! ## The coarse system -/

/-- A backup seen from the index lock. -/
structure Flight where
  core : Core
  /-- The segments that were looked up but not yet filtered, the oldest first. -/
  segs : List (List Chunk)
  /-- The chunks that were not yet looked up. -/
  rest : List Chunk

/-- With segments of fixed size, a segment is complete unless it is the last one. -/
def Sized (cfg : Config) (s rest : List Chunk) : Prop :=
  cfg.segmentAlgorithm = .fixed → rest ≠ [] → chunkNum s = cfg.segmentSize

/-- The turns of the coarse system, where `allow` restricts the segments that may be filtered. -/
inductive Turn (cfg : Config) (allow : Core → List Chunk → Prop) :
    Flight → Except Abort Flight → Prop
  | stay (x : Flight) : Turn cfg allow x (.ok x)
  | lookup {core : Core} {segs : List (List Chunk)} {s rest : List Chunk} (h : 0 < chunkNum s)
    (hsize : Sized cfg s rest) :
    Turn cfg allow ⟨core, segs, s ++ rest⟩
      ((core.lookup cfg s).mapError .lookup |>.map fun r ↦ ⟨r.1, segs ++ [r.2], rest⟩)
  /-- A segment without chunks is passed on as it is. -/
  | skip {core : Core} {segs : List (List Chunk)} {s rest : List Chunk} (h : chunkNum s = 0)
    (hsize : Sized cfg s rest) :
    Turn cfg allow ⟨core, segs, s ++ rest⟩ (.ok ⟨core, segs ++ [s], rest⟩)
  /-- A segment is filtered, with the marks of the rewrite phase. -/
  | filter {core : Core} {segs : List (List Chunk)} {s s' rest : List Chunk} (h : Marked cfg s s')
    (ha : allow core s') :
    Turn cfg allow ⟨core, s :: segs, rest⟩
      ((core.filterSegment cfg s').mapError .filter |>.map fun core ↦ ⟨core, segs, rest⟩)
  | flush {core : Core} :
    Turn cfg allow ⟨core, [], []⟩
      ((core.finalFlush cfg).mapError .filter |>.map fun core ↦ ⟨core, [], []⟩)
  | append {core core' : Core} {segs : List (List Chunk)} {rest : List Chunk}
    (h : core.append = some core') : Turn cfg allow ⟨core, segs, rest⟩ (.ok ⟨core', segs, rest⟩)
  /-- An assertion of the rewrite phase fails. -/
  | rewriteAbort (x : Flight) (e : RewriteAbort) : Turn cfg allow x (.error (.rewrite e))

/-! ## Marked streams of segments -/

section Marked

variable {cfg : Config}

theorem Marked.exists_kind {cs ds : List Chunk} (h : Marked cfg cs ds) {c : Chunk} (hc : c ∈ cs) :
    ∃ d ∈ ds, d.kind = c.kind := by
  induction h with
  | nil => cases hc
  | @cons c' d' _ _ hcd _ ih =>
    rcases List.mem_cons.mp hc with rfl | hc
    · exact ⟨d', List.mem_cons_self, hcd.kind⟩
    · obtain ⟨d, hd, hk⟩ := ih hc
      exact ⟨d, List.mem_cons_of_mem _ hd, hk⟩

/-- Two streams that reach their first end of a segment agree up to there and behind. -/
theorem Marked.split_segmentEnd {e e' : Chunk} (he : e.kind = .segmentEnd)
    (he' : e'.kind = .segmentEnd) : ∀ {s s' xs ys : List Chunk},
    (∀ c ∈ s, c.kind ≠ .segmentEnd) → (∀ c ∈ s', c.kind ≠ .segmentEnd) →
    Marked cfg (s ++ e :: xs) (s' ++ e' :: ys) → Marked cfg s s' ∧ Marked cfg xs ys
  | [], [], _, _, _, _, h => by
    obtain _ | ⟨-, h⟩ := h
    exact ⟨.nil, h⟩
  | [], d :: s', _, _, _, hs', h => by
    obtain _ | ⟨hd, -⟩ := h
    exact absurd (hd.kind.trans he) (hs' d List.mem_cons_self)
  | c :: s, [], _, _, hs, _, h => by
    obtain _ | ⟨hc, -⟩ := h
    exact absurd (hc.kind.symm.trans he') (hs c List.mem_cons_self)
  | c :: s, d :: s', xs, ys, hs, hs', h => by
    obtain _ | ⟨hcd, h⟩ := h
    obtain ⟨hm, hrest⟩ := Marked.split_segmentEnd he he'
      (fun a ha ↦ hs a (List.mem_cons_of_mem _ ha)) (fun a ha ↦ hs' a (List.mem_cons_of_mem _ ha)) h
    exact ⟨.cons hcd hm, hrest⟩

theorem Marked.segment_head {segs : List (List Chunk)} {c : Chunk} {ys : List Chunk}
    (h : Marked cfg (segs.flatMap bracket) (c :: ys)) :
    ∃ s segs', segs = s :: segs' ∧ c.kind = .segmentStart ∧
      Marked cfg (s ++ Chunk.new .segmentEnd [] :: segs'.flatMap bracket) ys := by
  cases segs with
  | nil => cases h
  | cons s segs' =>
    simp only [List.flatMap_cons, bracket, List.cons_append, List.append_assoc,
      List.nil_append] at h
    obtain _ | ⟨hc, h⟩ := h
    exact ⟨s, segs', rfl, hc.kind, h⟩

end Marked

/-! ## The chunks in the pipeline -/

/-- The chunks the filter thread has taken off its queue. -/
def FilterState.taken : FilterState → List Chunk
  | .waiting => []
  | .collecting cs => Chunk.new .segmentStart [] :: cs
  | .ready cs => bracket cs
  | .done => []

/-- The chunks the filter thread has collected of a segment. -/
def FilterState.collected : FilterState → List Chunk
  | .collecting cs => cs
  | .ready cs => cs
  | _ => []

/-- The chunks the dedup thread is about to pass on. -/
def DedupState.unsent : DedupState → List Chunk
  | .sending cs _ => cs
  | _ => []

/-- The segment the dedup thread is about to look up. -/
def DedupState.held : DedupState → List Chunk
  | .looking s _ => s
  | _ => []

/-- Has the dedup thread read all of the input? -/
def DedupState.last : DedupState → Bool
  | .reading => false
  | .looking _ last => last
  | .sending _ last => last
  | .done => true

namespace Job

/-- The chunks that were looked up and not yet filtered, with the markers of the segments. -/
def flow (j : Job) : List Chunk :=
  j.filter.taken ++ (j.rewriteQueue.items ++ (j.pending ++ (j.rewrite.buffer.queue ++
    (j.dedupQueue.items ++ j.dedup.unsent))))

/-- The chunks that were not yet looked up. -/
def unread (j : Job) : List Chunk := j.dedup.held ++ (j.tmp ++ j.input)

/-- **The pipeline invariant.** `x` is the coarse view of the job. -/
structure Flows (cfg : Config) (j : Job) (x : Flight) : Prop where
  core : x.core = j.core
  rest : x.rest = j.unread
  stream : Marked cfg (x.segs.flatMap bracket) j.flow
  /-- The markers of segments only stand between segments. -/
  plain : ∀ c ∈ x.segs.flatten ++ x.rest, c.kind ≠ .segmentStart ∧ c.kind ≠ .segmentEnd
  collected : ∀ c ∈ j.filter.collected, c.kind ≠ .segmentEnd
  held : ∀ s last, j.dedup = .looking s last → 0 < chunkNum s ∧
    (cfg.segmentAlgorithm = .fixed → last = false → chunkNum s = cfg.segmentSize)
  noBuffer : cfg.rewriteAlgorithm = .no → j.rewrite.buffer.queue = []
  last : j.dedup.last = true → j.input = [] ∧ j.tmp = []
  dedupTerm : j.dedupQueue.term = true → j.dedup = .done
  ended : j.rewriteEnded = true →
    j.dedupQueue.items = [] ∧ j.dedupQueue.term = true ∧ j.rewrite.buffer.queue = []
  rewriteTerm : j.rewriteQueue.term = true → j.rewriteEnded = true ∧ j.pending = []
  done : j.filter = .done → j.rewriteQueue.items = [] ∧ j.rewriteQueue.term = true ∧
    ∀ con ∈ j.core.containerBuffer, con.isEmpty = true

/-- The results of a turn in the two systems agree. -/
def Matches (cfg : Config) : Except Abort Job → Except Abort Flight → Prop
  | .ok j, .ok x => j.Flows cfg x
  | .error e, .error e' => e = e'
  | _, _ => False

variable {cfg : Config} {queueSize : ℕ} {allow : Core → List Chunk → Prop} {j : Job} {x : Flight}
  {r : Except Abort Job}

/-! ### The dedup thread -/

theorem Flows.term_eq_false (hf : j.Flows cfg x) (hd : j.dedup ≠ .done) :
    j.dedupQueue.term = false := by
  by_contra hterm
  exact hd (hf.dedupTerm (by simpa using hterm))

/-- A segment is complete: it is looked up next, or passed on if it has no chunks. -/
theorem Flows.nextSegment (hf : j.Flows cfg x) (hd : j.dedup = .reading) {s tmp input : List Chunk}
    {last : Bool} (hun : j.tmp ++ j.input = s ++ (tmp ++ input))
    (hlast : last = true → input = [] ∧ tmp = [])
    (hsize : cfg.segmentAlgorithm = .fixed → last = false → chunkNum s = cfg.segmentSize) :
    ∃ r', Turn cfg allow x r' ∧
      Matches cfg (.ok { j with input := input, tmp := tmp, dedup := Job.nextSegment s last }) r' := by
  obtain ⟨core, segs, rest⟩ := x
  have hterm := hf.term_eq_false (by simp [hd])
  have hrest : rest = s ++ (tmp ++ input) := by
    have := hf.rest
    simpa [unread, hd, DedupState.held, hun] using this
  have hstream : Marked cfg (segs.flatMap bracket) (j.filter.taken ++ (j.rewriteQueue.items ++
      (j.pending ++ (j.rewrite.buffer.queue ++ j.dedupQueue.items)))) := by
    simpa [flow, hd, DedupState.unsent] using hf.stream
  unfold Job.nextSegment
  split_ifs with hs
  · refine ⟨_, .stay _, ?_⟩
    exact
      { hf with
        rest := by simp [unread, DedupState.held, hrest]
        stream := by simpa [flow, DedupState.unsent] using hstream
        held := by
          rintro s' last' h
          cases h
          exact ⟨hs, hsize⟩
        last := hlast
        dedupTerm := fun h ↦ by simp [hterm] at h }
  · subst hrest
    refine ⟨_, .skip (Nat.eq_zero_of_not_pos hs) (fun hfixed hne ↦ ?_), ?_⟩
    · refine hsize hfixed (Bool.eq_false_iff.mpr fun h ↦ hne ?_)
      rw [(hlast h).1, (hlast h).2]
      rfl
    exact
      { hf with
        rest := by simp [unread, DedupState.held]
        stream := by
          have := hstream.append (.refl cfg (bracket s))
          simpa [flow, DedupState.unsent] using this
        plain := by
          intro c hc
          refine hf.plain c ?_
          simpa using hc
        held := fun _ _ h ↦ by simp at h
        last := hlast
        dedupTerm := fun h ↦ by simp [hterm] at h }

theorem dedupStep_turn (hf : j.Flows cfg x) (h : j.dedupStep cfg queueSize = some r) :
    ∃ r', Turn cfg allow x r' ∧ Matches cfg r r' := by
  unfold dedupStep at h
  split at h
  · rename_i hd
    split at h
    · rename_i hin
      cases h
      have hun : j.tmp ++ j.input = j.tmp ++ ([] ++ []) := by simp [hin]
      have hstep : ∃ r', Turn cfg allow x r' ∧ Matches cfg
          (.ok { j with input := [], tmp := [], dedup := Job.nextSegment j.tmp true }) r' :=
        hf.nextSegment hd hun (fun _ ↦ ⟨rfl, rfl⟩) fun _ h ↦ by simp at h
      simpa [hin] using hstep
    · rename_i c rest hin
      split at h
      · rename_i tmp hseg
        cases h
        have happ := segmenting_append hseg
        simp only [Option.getD_none, List.nil_append] at happ
        refine ⟨_, .stay _, ?_⟩
        exact
          { hf with
            rest := by
              have := hf.rest
              simpa [unread, hd, DedupState.held, hin, happ] using this
            last := fun h ↦ by simp [hd, DedupState.last] at h }
      · rename_i s tmp hseg
        cases h
        have happ := segmenting_append hseg
        simp only [Option.getD_some] at happ
        refine hf.nextSegment hd ?_ (fun h ↦ by simp at h)
          fun hfixed _ ↦ chunkNum_of_segmenting hfixed hseg
        rw [hin, ← List.append_assoc, happ]
        simp
  · rename_i s last hd
    split_ifs at h with hfull
    cases h
    obtain ⟨core, segs, rest⟩ := x
    obtain rfl : core = j.core := hf.core
    obtain rfl : rest = s ++ (j.tmp ++ j.input) := by simpa [unread, hd, DedupState.held] using hf.rest
    obtain ⟨hpos, hsize⟩ := hf.held s last hd
    refine ⟨_, .lookup hpos (fun hfixed hne ↦ ?_), ?_⟩
    · refine hsize hfixed (Bool.eq_false_iff.mpr fun h ↦ hne ?_)
      obtain ⟨hin, htmp⟩ := hf.last (by simpa [hd, DedupState.last] using h)
      rw [hin, htmp]
      rfl
    cases hl : j.core.lookup cfg s with
    | error e => exact rfl
    | ok p =>
      obtain ⟨core', s'⟩ := p
      have hterm := hf.term_eq_false (by simp [hd])
      have hup : List.Forall₂ Chunk.LookedUp s s' := by
        simp only [Core.lookup, bind_eq_ok] at hl
        obtain ⟨⟨index, s₁⟩, hl, h⟩ := hl
        cases h
        exact indexLookup_lookedUp hl
      have hbuf : core'.containerBuffer = j.core.containerBuffer := by
        simp only [Core.lookup, bind_eq_ok] at hl
        obtain ⟨_, -, h⟩ := hl
        cases h
        rfl
      exact
        { hf with
          core := rfl
          rest := by simp [unread, DedupState.held]
          stream := by
            have := hf.stream.append (.refl cfg (bracket s'))
            simpa [flow, hd, DedupState.unsent] using this
          plain := by
            have hs' : ∀ c ∈ s', c.kind ≠ .segmentStart ∧ c.kind ≠ .segmentEnd := by
              intro c hc
              obtain ⟨d, hd', hcd⟩ := hup.exists_of_mem_right hc
              have hkind : c.kind = d.kind := by rw [hcd]
              rw [hkind]
              exact hf.plain d (by simp [hd'])
            intro c hc
            simp only [List.flatten_append, List.flatten_singleton, List.mem_append] at hc
            rcases hc with (hc | hc) | hc
            · exact hf.plain c (by simp [hc])
            · exact hs' c hc
            · exact hf.plain c (by simp [hc])
          held := fun _ _ h ↦ by simp at h
          last := fun h ↦ hf.last (by simpa [hd, DedupState.last] using h)
          dedupTerm := fun h ↦ by simp [hterm] at h
          done := fun h ↦ by
            obtain ⟨h₁, h₂, h₃⟩ := hf.done h
            exact ⟨h₁, h₂, by simpa [hbuf] using h₃⟩ }
  · rename_i c cs last hd
    split_ifs at h
    cases h
    refine ⟨_, .stay _, ?_⟩
    have hterm := hf.term_eq_false (by simp [hd])
    exact
      { hf with
        rest := by simpa [unread, hd, DedupState.held] using hf.rest
        stream := by simpa [flow, hd, DedupState.unsent, SyncQueue.push] using hf.stream
        held := fun _ _ h ↦ by simp at h
        last := fun h ↦ hf.last (by simpa [hd, DedupState.last] using h)
        dedupTerm := fun h ↦ by simp [SyncQueue.push, hterm] at h
        ended := fun h ↦ by simp [(hf.ended h).2.1] at hterm }
  · rename_i hd
    cases h
    refine ⟨_, .stay _, ?_⟩
    have hterm := hf.term_eq_false (by simp [hd])
    exact
      { hf with
        rest := by simpa [unread, hd, DedupState.held] using hf.rest
        stream := by simpa [flow, hd, DedupState.unsent] using hf.stream
        held := fun _ _ h ↦ by simp at h
        last := fun h ↦ by cases h
        dedupTerm := fun h ↦ by simp [hterm] at h }
  · rename_i hd
    cases h
    refine ⟨_, .stay _, ?_⟩
    exact
      { hf with
        rest := by simpa [unread, hd, DedupState.held] using hf.rest
        stream := by simpa [flow, hd, DedupState.unsent] using hf.stream
        held := fun _ _ h ↦ by simp at h
        last := fun _ ↦ hf.last (by simp [hd, DedupState.last])
        dedupTerm := fun _ ↦ rfl
        ended := fun h ↦ ⟨(hf.ended h).1, rfl, (hf.ended h).2.2⟩ }
  · cases h

/-! ### The rewrite thread -/

theorem rewriteStep_turn {late : Bool} (hf : j.Flows cfg x)
    (h : j.rewriteStep cfg queueSize late = some r) :
    ∃ r', Turn cfg allow x r' ∧ Matches cfg r r' := by
  unfold rewriteStep at h
  split at h
  · rename_i c rest hp
    split_ifs at h
    cases h
    have hterm : j.rewriteQueue.term = false := by
      by_contra hterm
      have := (hf.rewriteTerm (by simpa using hterm)).2
      simp [hp] at this
    refine ⟨_, .stay _, ?_⟩
    exact
      { hf with
        stream := by simpa [flow, hp, SyncQueue.push] using hf.stream
        rewriteTerm := fun h ↦ by simp [SyncQueue.push, hterm] at h
        done := fun h ↦ by simp [(hf.done h).2.1] at hterm }
  · rename_i hp
    by_cases hended : j.rewriteEnded
    · rw [if_pos hended] at h
      split_ifs at h
      cases h
      refine ⟨_, .stay _, ?_⟩
      exact
        { hf with
          rewriteTerm := fun _ ↦ ⟨hended, hp⟩
          done := fun h ↦ ⟨(hf.done h).1, rfl, (hf.done h).2.2⟩ }
    · rw [if_neg hended] at h
      -- The thread has not ended, so its own queue is not terminated.
      have hrterm : j.rewriteQueue.term = false := by
        by_contra hrterm
        exact hended (hf.rewriteTerm (by simpa using hrterm)).1
      have hnotdone : j.filter ≠ .done := fun h ↦ by simp [(hf.done h).2.1] at hrterm
      split at h
      · rename_i c rest hitems
        cases h
        cases hr : rewriteChunk cfg j.inherited late j.rewrite c with
        | error e => exact ⟨_, .rewriteAbort x e, rfl⟩
        | ok p =>
          obtain ⟨rw', out⟩ := p
          refine ⟨_, .stay _, ?_⟩
          have hmarked := rewriteChunk_marked hf.noBuffer hr
          exact
            { hf with
              stream := by
                have hstream := hf.stream
                simp only [flow, hp, hitems, List.nil_append] at hstream
                refine hstream.trans ?_
                simp only [flow]
                refine (Marked.refl cfg _).append ((Marked.refl cfg _).append ?_)
                have := hmarked.append (.refl cfg (rest ++ j.dedup.unsent))
                simpa using this
              noBuffer := fun hno ↦ by rw [rewriteChunk_no hno hr]; exact hf.noBuffer hno
              ended := fun h ↦ absurd h hended
              rewriteTerm := fun h ↦ by simp [hrterm] at h
              done := fun h ↦ absurd h hnotdone }
      · rename_i hitems
        split_ifs at h with hdterm
        cases h
        cases hr : rewriteEnd cfg j.inherited j.rewrite with
        | error e => exact ⟨_, .rewriteAbort x e, rfl⟩
        | ok p =>
          obtain ⟨rw', out⟩ := p
          refine ⟨_, .stay _, ?_⟩
          obtain ⟨hmarked, hempty⟩ := rewriteEnd_marked hf.noBuffer hr
          exact
            { hf with
              stream := by
                have hstream := hf.stream
                simp only [flow, hp, hitems, List.nil_append] at hstream
                refine hstream.trans ?_
                simp only [flow, hempty, hitems, List.nil_append]
                exact (Marked.refl cfg _).append
                  ((Marked.refl cfg _).append (hmarked.append (.refl cfg _)))
              noBuffer := fun _ ↦ hempty
              ended := fun _ ↦ ⟨hitems, hdterm, hempty⟩
              rewriteTerm := fun h ↦ by simp [hrterm] at h
              done := fun h ↦ absurd h hnotdone }

/-! ### The filter thread -/

/-- When the queue of the filter thread is empty and terminated, the pipeline is empty. -/
theorem Flows.drained (hf : j.Flows cfg x) (hitems : j.rewriteQueue.items = [])
    (hterm : j.rewriteQueue.term = true) : j.flow = j.filter.taken ∧ x.rest = [] := by
  obtain ⟨hended, hp⟩ := hf.rewriteTerm hterm
  obtain ⟨hditems, hdterm, hbuf⟩ := hf.ended hended
  have hdone := hf.dedupTerm hdterm
  obtain ⟨hin, htmp⟩ := hf.last (by simp [hdone, DedupState.last])
  refine ⟨by simp [flow, hitems, hp, hbuf, hditems, hdone, DedupState.unsent], ?_⟩
  rw [hf.rest]
  simp [unread, hdone, DedupState.held, hin, htmp]

theorem filterStep_turn (hf : j.Flows cfg x) (hallow : ∀ cs, j.filter = .ready cs → allow j.core cs)
    (h : j.filterStep cfg = some r) : ∃ r', Turn cfg allow x r' ∧ Matches cfg r r' := by
  unfold filterStep at h
  split at h
  · rename_i hfil
    split at h
    · -- The next chunk is the head of a segment.
      rename_i c rest hitems
      cases h
      have hstream := hf.stream
      simp only [flow, hfil, FilterState.taken, hitems, List.nil_append, List.cons_append] at hstream
      obtain ⟨s, segs', hsegs, hkind, hrest⟩ := hstream.segment_head
      have hcheck : check (c.kind = .segmentStart) (Abort.filter .segmentHead) = .ok ⟨⟩ := by
        rw [check, if_pos hkind]
      rw [hcheck]
      refine ⟨_, .stay _, ?_⟩
      exact
        { hf with
          stream := by
            rw [hsegs]
            simp only [flow, FilterState.taken, List.flatMap_cons, bracket, List.cons_append,
              List.append_assoc, List.nil_append]
            exact .cons (.refl cfg _) hrest
          collected := fun c hc ↦ by cases hc
          done := fun h ↦ by simp at h }
    · rename_i hitems
      split_ifs at h with hterm
      cases h
      obtain ⟨hflow, hrest⟩ := hf.drained hitems hterm
      obtain ⟨core, segs, rest⟩ := x
      obtain rfl : core = j.core := hf.core
      obtain rfl : rest = [] := hrest
      obtain rfl : segs = [] := by
        have hstream := hf.stream
        rw [hflow, hfil, FilterState.taken] at hstream
        cases segs with
        | nil => rfl
        | cons s segs' => cases hstream
      refine ⟨_, .flush, ?_⟩
      cases hfl : j.core.finalFlush cfg with
      | error e => exact rfl
      | ok core' =>
        exact
          { hf with
            core := rfl
            stream := by simpa [flow, hfil, FilterState.taken] using hf.stream
            collected := fun c hc ↦ by cases hc
            done := fun _ ↦ ⟨hitems, hterm, Core.containerBuffer_finalFlush hfl⟩ }
  · rename_i cs hfil
    split at h
    · rename_i c rest hitems
      cases h
      refine ⟨_, .stay _, ?_⟩
      have hstream := hf.stream
      simp only [flow, hfil, FilterState.taken, hitems, List.cons_append] at hstream
      obtain ⟨s, segs', hsegs, -, hrest⟩ := hstream.segment_head
      have hcs : ∀ c ∈ cs, c.kind ≠ .segmentEnd := by
        simpa [hfil, FilterState.collected] using hf.collected
      split_ifs with hkind
      · -- The segment is complete.
        have hs : ∀ c ∈ s, c.kind ≠ .segmentEnd :=
          fun c hc ↦ (hf.plain c (by simp [hsegs, hc])).2
        obtain ⟨hm, hbehind⟩ := Marked.split_segmentEnd rfl hkind hs hcs hrest
        exact
          { hf with
            stream := by
              rw [hsegs]
              simp only [flow, FilterState.taken, List.flatMap_cons, bracket, List.cons_append,
                List.append_assoc, List.nil_append]
              exact .cons (.refl cfg _) (hm.append (.cons (.refl cfg _) hbehind))
            collected := by simpa [FilterState.collected] using hcs
            done := fun h ↦ by simp at h }
      · exact
          { hf with
            stream := by simpa [flow, hfil, FilterState.taken, hitems] using hf.stream
            collected := by
              intro d hd
              simp only [FilterState.collected, List.mem_append, List.mem_singleton] at hd
              rcases hd with hd | rfl
              · exact hcs d hd
              · exact hkind
            done := fun h ↦ by simp at h }
    · -- The queue cannot end within a segment.
      rename_i hitems
      split_ifs at h with hterm
      exfalso
      obtain ⟨hflow, -⟩ := hf.drained hitems hterm
      have hstream := hf.stream
      rw [hflow, hfil, FilterState.taken] at hstream
      obtain ⟨s, segs', -, -, hrest⟩ := hstream.segment_head
      obtain ⟨d, hd, hkind⟩ := hrest.exists_kind (List.mem_append_right s List.mem_cons_self)
      exact hf.collected d (by simpa [hfil, FilterState.collected] using hd) hkind
  · rename_i cs hfil
    cases h
    have hstream := hf.stream
    simp only [flow, hfil, FilterState.taken, bracket, List.cons_append, List.append_assoc,
      List.nil_append] at hstream
    obtain ⟨s, segs', hsegs, -, hrest⟩ := hstream.segment_head
    obtain ⟨core, segs, rest⟩ := x
    obtain rfl : core = j.core := hf.core
    obtain rfl : segs = s :: segs' := hsegs
    have hs : ∀ c ∈ s, c.kind ≠ .segmentEnd := fun c hc ↦ (hf.plain c (by simp [hc])).2
    have hcs : ∀ c ∈ cs, c.kind ≠ .segmentEnd := by
      simpa [hfil, FilterState.collected] using hf.collected
    obtain ⟨hm, hbehind⟩ := Marked.split_segmentEnd rfl rfl hs hcs hrest
    refine ⟨_, .filter hm (hallow cs hfil), ?_⟩
    cases hfs : j.core.filterSegment cfg cs with
    | error e => exact rfl
    | ok core' =>
      exact
        { hf with
          core := rfl
          stream := by simpa [flow, FilterState.taken] using hbehind
          plain := fun c hc ↦ hf.plain c (by
            simp only [List.flatten_cons, List.mem_append] at hc ⊢
            tauto)
          collected := fun c hc ↦ by cases hc
          done := fun h ↦ by simp at h }
  · cases h

/-! ### All threads -/

theorem appendStep_turn {j' : Job} (hf : j.Flows cfg x) (h : j.appendStep = some j') :
    ∃ r', Turn cfg allow x r' ∧ Matches cfg (.ok j') r' := by
  unfold appendStep at h
  obtain ⟨core', happ, rfl⟩ := Option.map_eq_some_iff.mp h
  obtain ⟨core, segs, rest⟩ := x
  obtain rfl : core = j.core := hf.core
  refine ⟨_, .append happ, ?_⟩
  have hbuf : core'.containerBuffer = j.core.containerBuffer := by
    obtain ⟨storage, -, rfl⟩ := Option.map_eq_some_iff.mp happ
    rfl
  exact
    { hf with
      core := rfl
      done := fun h ↦ by
        obtain ⟨h₁, h₂, h₃⟩ := hf.done h
        exact ⟨h₁, h₂, by simpa [hbuf] using h₃⟩ }

/-- **The simulation.** Every turn of a thread is a turn of the coarse system. -/
theorem jobStep_turn {l : Label} (hf : j.Flows cfg x)
    (hallow : l = .filter → ∀ cs, j.filter = .ready cs → allow j.core cs)
    (h : jobStep cfg queueSize j l = some r) : ∃ r', Turn cfg allow x r' ∧ Matches cfg r r' := by
  cases l with
  | dedup => exact dedupStep_turn hf h
  | rewrite late => exact rewriteStep_turn hf h
  | filter => exact filterStep_turn hf (hallow rfl) h
  | append =>
    obtain ⟨j', hj', rfl⟩ := Option.map_eq_some_iff.mp h
    exact appendStep_turn hf hj'
  | _ => cases h

theorem flows_init {d : Disk} {input : List Chunk}
    (hplain : ∀ c ∈ input, c.kind ≠ .segmentStart ∧ c.kind ≠ .segmentEnd) :
    (Job.init cfg d input).Flows cfg ⟨.init cfg d, [], input⟩ where
  core := rfl
  rest := rfl
  stream := .nil
  plain := by simpa using hplain
  collected := fun c hc ↦ by cases hc
  held := fun _ _ h ↦ by cases h
  noBuffer := fun _ ↦ rfl
  last := fun h ↦ by cases h
  dedupTerm := fun h ↦ by cases h
  ended := fun h ↦ by cases h
  rewriteTerm := fun h ↦ by cases h
  done := fun h ↦ by cases h

end Job

end UniDedup.Node
