import Mathlib.Data.List.Chain
import UniDedup.Node.InFlight
import UniDedup.Node.Sampling

/-!
# Segmenting is a partition

The dedup thread hands the chunks of a stream to the segmenting method one by one, and at the end of
the stream a null pointer. The methods keep the segment they assemble in a static variable, with a
count of its normal chunks beside the sequence.

The segments make up the stream, and their counts are right. A segment of fixed size or between the two
ends of a file is what it should be. A content-defined cut puts the chunk that triggers it into the next
segment without a look at the maximum, so with a maximum of one chunk that segment is full already, and
can take one more.
-/

namespace UniDedup.Node

/-- `struct segment`, as far as segmenting fills it in. -/
structure Segment where
  chunkNum : ℕ
  chunks : List Chunk
deriving DecidableEq

namespace Segment

/-- `new_segment`. -/
def new : Segment := ⟨0, []⟩

/-- `g_sequence_append(tmp->chunks, c)`. -/
def append (s : Segment) (c : Chunk) : Segment := { s with chunks := s.chunks ++ [c] }

/-- `tmp->chunk_num++`. -/
def count (s : Segment) : Segment := { s with chunkNum := s.chunkNum + 1 }

/-- What a segmenting method returns, and the static `tmp` it leaves behind. -/
abbrev Outcome := Option Segment × Option Segment

/-- `segment_fixed`. -/
def fixed (cfg : Config) (tmp : Option Segment) : Option Chunk → Outcome
  | none => (some (tmp.getD new), some (tmp.getD new))
  | some c =>
    let s := (tmp.getD new).append c
    if c.isFileMarker then (none, some s)
    else if s.count.chunkNum = cfg.segmentSize then (some s.count, none)
    else (none, some s.count)

/-- `segment_file_defined`. -/
def fileDefined (tmp : Option Segment) : Option Chunk → Outcome
  | none => (some (tmp.getD new), some (tmp.getD new))
  | some c =>
    let s := (tmp.getD new).append c
    if c.kind = .fileEnd then (some s, none)
    else if c.kind = .fileStart then (none, some s)
    else (none, some s.count)

/-- `segment_content_defined`; `none` where the division traps. -/
def contentDefined (cfg : Config) (tmp : Option Segment) : Option Chunk → Option Outcome
  | none => some (some (tmp.getD new), some (tmp.getD new))
  | some c =>
    let s := tmp.getD new
    if c.isFileMarker then some (none, some (s.append c))
    else if s.chunkNum < cfg.segmentMin then some (none, some (s.append c).count)
    else if cfg.segmentSize = 0 then none
    else if fingerprintHead c.fp % cfg.segmentSize = 0 then some (some s, some (new.append c).count)
    else if cfg.segmentMax ≤ (s.append c).count.chunkNum then some (some (s.append c).count, some new)
    else some (none, some (s.append c).count)

def segmenting (cfg : Config) (tmp : Option Segment) (c : Option Chunk) : Option Outcome :=
  match cfg.segmentAlgorithm with
  | .fixed => some (fixed cfg tmp c)
  | .fileDefined => some (fileDefined tmp c)
  | .contentDefined => contentDefined cfg tmp c

/-- The segments the dedup thread gets for the rest of a stream. -/
def segments (cfg : Config) : Option Segment → List Chunk → Option (List Segment)
  | tmp, [] => do
    let (s, _) ← segmenting cfg tmp none
    return s.toList
  | tmp, c :: cs => do
    let (s, tmp) ← segmenting cfg tmp (some c)
    let rest ← segments cfg tmp cs
    return s.toList ++ rest

def IsCounted (s : Segment) : Prop := s.chunkNum = UniDedup.Node.chunkNum s.chunks

theorem isCounted_new : new.IsCounted := rfl

theorem IsCounted.append {s : Segment} (h : s.IsCounted) {c : Chunk} (hc : c.isFileMarker = true) :
    (s.append c).IsCounted := by
  rw [IsCounted, Segment.append, chunkNum_append, chunkNum_singleton, if_pos hc, Nat.add_zero]
  exact h

theorem IsCounted.count {s : Segment} (h : s.IsCounted) {c : Chunk} (hc : ¬c.isFileMarker = true) :
    (s.append c).count.IsCounted := by
  rw [IsCounted, Segment.count, Segment.append, chunkNum_append, chunkNum_singleton, if_neg hc]
  exact congrArg (· + 1) h

/-- What a method does with a chunk is what the same method does on lists, and it counts right. -/
structure Follows (cfg : Config) (tmp : Option Segment) (c : Chunk) (r : Outcome) : Prop where
  eq : (r.1.map chunks, (r.2.getD new).chunks) =
    UniDedup.Node.segmenting cfg (tmp.getD new).chunks c
  returned : ∀ s ∈ r.1, s.IsCounted
  kept : (r.2.getD new).IsCounted

section Follows

variable {cfg : Config} {tmp : Option Segment} {c : Chunk}

theorem Follows.none {s : Segment} (hs : s.IsCounted)
    (h : UniDedup.Node.segmenting cfg (tmp.getD new).chunks c = (none, s.chunks)) :
    Follows cfg tmp c (none, some s) :=
  ⟨h.symm, fun _ hmem ↦ absurd hmem (Option.not_mem_none _), hs⟩

theorem Follows.some {s : Segment} {tmp' : Option Segment} (hs : s.IsCounted)
    (htmp : (tmp'.getD new).IsCounted)
    (h : UniDedup.Node.segmenting cfg (tmp.getD new).chunks c = (some s.chunks, (tmp'.getD new).chunks)) :
    Follows cfg tmp c (some s, tmp') :=
  ⟨h.symm, fun _ hmem ↦ Option.mem_some.mp hmem ▸ hs, htmp⟩

theorem fixed_follows (halg : cfg.segmentAlgorithm = .fixed) (h : (tmp.getD new).IsCounted) :
    Follows cfg tmp c (fixed cfg tmp (some c)) := by
  have hnode : UniDedup.Node.segmenting cfg (tmp.getD new).chunks c =
      segmentFixed cfg (tmp.getD new).chunks c := by rw [UniDedup.Node.segmenting, halg]
  rw [fixed]
  rw [segmentFixed] at hnode
  by_cases hc : c.isFileMarker
  · rw [if_pos hc] at hnode ⊢
    exact .none (h.append hc) hnode
  · have hcount := h.count hc
    have hsize : ((tmp.getD new).append c).count.chunkNum =
        UniDedup.Node.chunkNum ((tmp.getD new).chunks ++ [c]) := hcount
    rw [if_neg hc] at hnode ⊢
    rw [← hsize] at hnode
    by_cases hfull : ((tmp.getD new).append c).count.chunkNum = cfg.segmentSize
    · rw [if_pos hfull] at hnode ⊢
      exact .some hcount isCounted_new hnode
    · rw [if_neg hfull] at hnode ⊢
      exact .none hcount hnode

theorem fileDefined_follows (halg : cfg.segmentAlgorithm = .fileDefined)
    (h : (tmp.getD new).IsCounted) : Follows cfg tmp c (fileDefined tmp (some c)) := by
  have hnode : UniDedup.Node.segmenting cfg (tmp.getD new).chunks c =
      segmentFileDefined (tmp.getD new).chunks c := by rw [UniDedup.Node.segmenting, halg]
  rw [fileDefined]
  rw [segmentFileDefined] at hnode
  by_cases hend : c.kind = .fileEnd
  · have hc : c.isFileMarker = true := by simp [Chunk.isFileMarker, hend]
    rw [if_pos hend] at hnode ⊢
    exact .some (h.append hc) isCounted_new hnode
  · rw [if_neg hend] at hnode ⊢
    by_cases hstart : c.kind = .fileStart
    · have hc : c.isFileMarker = true := by simp [Chunk.isFileMarker, hstart]
      rw [if_pos hstart]
      exact .none (h.append hc) hnode
    · have hc : ¬c.isFileMarker = true := by simp [Chunk.isFileMarker, hend, hstart]
      rw [if_neg hstart]
      exact .none (h.count hc) hnode

theorem contentDefined_follows (halg : cfg.segmentAlgorithm = .contentDefined)
    (h : (tmp.getD new).IsCounted) {r : Outcome} (hr : contentDefined cfg tmp (some c) = some r) :
    Follows cfg tmp c r := by
  have hnode : UniDedup.Node.segmenting cfg (tmp.getD new).chunks c =
      segmentContentDefined cfg (tmp.getD new).chunks c := by rw [UniDedup.Node.segmenting, halg]
  rw [contentDefined] at hr
  rw [segmentContentDefined] at hnode
  rw [h] at hr
  by_cases hc : c.isFileMarker
  · rw [if_pos hc] at hr hnode
    obtain rfl := Option.some.inj hr
    exact .none (h.append hc) hnode
  have hcount := h.count hc
  rw [if_neg hc] at hr hnode
  by_cases hmin : UniDedup.Node.chunkNum (tmp.getD new).chunks < cfg.segmentMin
  · rw [if_pos hmin] at hr hnode
    obtain rfl := Option.some.inj hr
    exact .none hcount hnode
  rw [if_neg hmin] at hr hnode
  by_cases hsize : cfg.segmentSize = 0
  · rw [if_pos hsize] at hr
    cases hr
  rw [if_neg hsize] at hr
  by_cases hcut : fingerprintHead c.fp % cfg.segmentSize = 0
  · rw [if_pos hcut] at hr hnode
    obtain rfl := Option.some.inj hr
    exact .some h (isCounted_new.count hc) hnode
  rw [if_neg hcut] at hr hnode
  have hlen : ((tmp.getD new).append c).count.chunkNum =
    UniDedup.Node.chunkNum ((tmp.getD new).chunks ++ [c]) := hcount
  rw [hlen] at hr
  by_cases hmax : cfg.segmentMax ≤ UniDedup.Node.chunkNum ((tmp.getD new).chunks ++ [c])
  · rw [if_pos hmax] at hr hnode
    obtain rfl := Option.some.inj hr
    exact .some hcount isCounted_new hnode
  · rw [if_neg hmax] at hr hnode
    obtain rfl := Option.some.inj hr
    exact .none hcount hnode

/-- **A chunk**, by every method. -/
theorem segmenting_follows (h : (tmp.getD new).IsCounted) {r : Outcome}
    (hr : segmenting cfg tmp (some c) = some r) : Follows cfg tmp c r := by
  rw [segmenting] at hr
  cases halg : cfg.segmentAlgorithm with
  | fixed =>
    rw [halg] at hr
    exact Option.some.inj hr ▸ fixed_follows halg h
  | fileDefined =>
    rw [halg] at hr
    exact Option.some.inj hr ▸ fileDefined_follows halg h
  | contentDefined =>
    rw [halg] at hr
    exact contentDefined_follows halg h hr

theorem segmenting_eq_none_iff (h : (tmp.getD new).IsCounted) :
    segmenting cfg tmp (some c) = none ↔
      cfg.segmentAlgorithm = .contentDefined ∧ cfg.segmentSize = 0 ∧ c.isFileMarker = false ∧
        cfg.segmentMin ≤ UniDedup.Node.chunkNum (tmp.getD new).chunks := by
  rw [segmenting]
  cases halg : cfg.segmentAlgorithm with
  | fixed => simp
  | fileDefined => simp
  | contentDefined =>
    simp only [contentDefined, true_and]
    rw [h]
    split_ifs with hc hmin hsize <;> simp_all

end Follows

end Segment

/-! ## The stream -/

/-- The segments of the rest of a stream, as lists of chunks. -/
def splitStream (cfg : Config) : List Chunk → List Chunk → List (List Chunk)
  | tmp, [] => [tmp]
  | tmp, c :: cs => (segmenting cfg tmp c).1.toList ++ splitStream cfg (segmenting cfg tmp c).2 cs

theorem splitStream_ne_nil {cfg : Config} {tmp cs : List Chunk} : splitStream cfg tmp cs ≠ [] := by
  induction cs generalizing tmp with
  | nil => exact List.cons_ne_nil _ _
  | cons c cs ih => exact List.append_ne_nil_of_right_ne_nil _ ih

/-- All segments but the last of a stream with one more chunk in front. -/
theorem dropLast_splitStream {cfg : Config} {tmp cs : List Chunk} {c : Chunk} :
    (splitStream cfg tmp (c :: cs)).dropLast =
      (segmenting cfg tmp c).1.toList ++ (splitStream cfg (segmenting cfg tmp c).2 cs).dropLast :=
  List.dropLast_append_of_ne_nil splitStream_ne_nil

theorem flatten_splitStream {cfg : Config} {tmp cs : List Chunk} :
    (splitStream cfg tmp cs).flatten = tmp ++ cs := by
  induction cs generalizing tmp with
  | nil => simp [splitStream]
  | cons c cs ih =>
    have hstep : (segmenting cfg tmp c).1.getD [] ++ (segmenting cfg tmp c).2 = tmp ++ [c] :=
      segmenting_append rfl
    have hout : (segmenting cfg tmp c).1.toList.flatten = (segmenting cfg tmp c).1.getD [] := by
      cases (segmenting cfg tmp c).1 <;> simp
    rw [splitStream, List.flatten_append, ih, hout, ← List.append_assoc, hstep, List.append_assoc,
      List.singleton_append]

/-- What holds of a segment when a boundary is found, by an invariant `P` of the segment being
assembled. -/
theorem forall_dropLast_splitStream {cfg : Config} {P Q : List Chunk → Prop}
    (hstep : ∀ tmp c, P tmp → (∀ s ∈ (segmenting cfg tmp c).1, Q s) ∧ P (segmenting cfg tmp c).2)
    {tmp cs : List Chunk} (htmp : P tmp) : ∀ s ∈ (splitStream cfg tmp cs).dropLast, Q s := by
  induction cs generalizing tmp with
  | nil => exact fun s hs ↦ absurd hs List.not_mem_nil
  | cons c cs ih =>
    rw [dropLast_splitStream]
    intro s hs
    rcases List.mem_append.mp hs with hs | hs
    · exact (hstep tmp c htmp).1 s (Option.mem_toList.mp hs)
    · exact ih (hstep tmp c htmp).2 s hs

/-- What a segment is that ends at a boundary. -/
def IsComplete (cfg : Config) (s : List Chunk) : Prop :=
  match cfg.segmentAlgorithm with
  | .fixed => chunkNum s = cfg.segmentSize
  | .fileDefined => ∃ c, s.getLast? = some c ∧ c.kind = .fileEnd
  | .contentDefined => cfg.segmentMin ≤ chunkNum s ∧ chunkNum s ≤ cfg.segmentMax

section Complete

variable {cfg : Config} {tmp cs : List Chunk} {c : Chunk}

theorem isComplete_fixed (halg : cfg.segmentAlgorithm = .fixed) :
    ∀ s ∈ (splitStream cfg tmp cs).dropLast, IsComplete cfg s := by
  refine forall_dropLast_splitStream (P := fun _ ↦ True) (fun tmp c _ ↦ ⟨fun s hs ↦ ?_, trivial⟩) trivial
  rw [IsComplete, halg]
  exact chunkNum_of_segmenting halg (Prod.ext hs rfl)

theorem isComplete_fileDefined (halg : cfg.segmentAlgorithm = .fileDefined) :
    ∀ s ∈ (splitStream cfg tmp cs).dropLast, IsComplete cfg s := by
  refine forall_dropLast_splitStream (P := fun _ ↦ True) (fun tmp c _ ↦ ⟨fun s hs ↦ ?_, trivial⟩) trivial
  rw [IsComplete, halg]
  rw [segmenting, halg] at hs
  dsimp only [segmentFileDefined] at hs
  split_ifs at hs with hend
  · obtain rfl := Option.mem_some.mp hs
    exact ⟨c, List.getLast?_concat, hend⟩
  · exact absurd hs (Option.not_mem_none s)

/-- The chunk that triggers a cut is the first of its segment, which has room for another one. -/
theorem isComplete_contentDefined (halg : cfg.segmentAlgorithm = .contentDefined)
    (hbounds : cfg.segmentMin < cfg.segmentMax) (hmax : 1 < cfg.segmentMax)
    (htmp : chunkNum tmp < cfg.segmentMax) :
    ∀ s ∈ (splitStream cfg tmp cs).dropLast, IsComplete cfg s := by
  refine forall_dropLast_splitStream (P := fun tmp ↦ chunkNum tmp < cfg.segmentMax)
    (fun tmp c htmp ↦ ?_) htmp
  have hone : chunkNum [c] ≤ 1 := by
    rw [chunkNum_singleton]
    split_ifs <;> decide
  have happend := chunkNum_append tmp [c]
  rw [segmenting, halg]
  dsimp only [segmentContentDefined]
  split_ifs with hc hmin hcut hfull
  · refine ⟨fun s hs ↦ absurd hs (Option.not_mem_none s), ?_⟩
    rw [chunkNum_singleton, if_pos hc] at happend
    exact happend ▸ htmp
  · exact ⟨fun s hs ↦ absurd hs (Option.not_mem_none s), by dsimp only; omega⟩
  · refine ⟨fun s hs ↦ ?_, lt_of_le_of_lt hone hmax⟩
    obtain rfl := Option.mem_some.mp hs
    rw [IsComplete, halg]
    exact ⟨not_lt.mp hmin, htmp.le⟩
  · refine ⟨fun s hs ↦ ?_, Nat.zero_lt_of_lt hmax⟩
    obtain rfl := Option.mem_some.mp hs
    rw [IsComplete, halg]
    dsimp only
    omega
  · exact ⟨fun s hs ↦ absurd hs (Option.not_mem_none s), not_le.mp hfull⟩

/-- A chunk that `segment_content_defined` starts a segment with. -/
def Cuts (cfg : Config) (c : Chunk) : Prop := fingerprintHead c.fp % cfg.segmentSize = 0

/-- With a maximum of one chunk, the chunk behind one that triggers a cut has to trigger one as well. -/
theorem isComplete_single (halg : cfg.segmentAlgorithm = .contentDefined) (hmin : cfg.segmentMin = 0)
    (hmax : cfg.segmentMax = 1) (htmp : chunkNum tmp ≤ 1) :
    (∀ s ∈ (splitStream cfg tmp cs).dropLast, IsComplete cfg s) ↔
      (chunkNum tmp = 1 → ∀ d ∈ (dataChunks cs).head?, Cuts cfg d) ∧
        (dataChunks cs).IsChain fun c d ↦ Cuts cfg c → Cuts cfg d := by
  have hcomplete : ∀ s, IsComplete cfg s ↔ chunkNum s ≤ 1 := by
    intro s
    rw [IsComplete, halg]
    dsimp only
    rw [hmin, hmax]
    exact and_iff_right (Nat.zero_le _)
  simp only [hcomplete]
  induction cs generalizing tmp with
  | nil => simp [splitStream, dataChunks]
  | cons c cs ih =>
    have happend := chunkNum_append tmp [c]
    rw [chunkNum_singleton] at happend
    rw [dropLast_splitStream]
    by_cases hc : c.isFileMarker
    · have hstep : segmenting cfg tmp c = (none, tmp ++ [c]) := by
        rw [segmenting, halg]
        exact if_pos hc
      rw [if_pos hc, Nat.add_zero] at happend
      rw [hstep, dataChunks_cons_marker hc, ← happend]
      exact ih (happend ▸ htmp)
    · rw [if_neg hc] at happend
      have hstep : segmenting cfg tmp c = if fingerprintHead c.fp % cfg.segmentSize = 0 then
          (some tmp, [c]) else (some (tmp ++ [c]), []) := by
        rw [segmenting, halg]
        dsimp only [segmentContentDefined]
        have hzero : ¬chunkNum tmp < cfg.segmentMin := hmin ▸ Nat.not_lt_zero _
        -- with a maximum of one every chunk ends a segment; a cut decides only which one it goes to
        have hfull : cfg.segmentMax ≤ chunkNum (tmp ++ [c]) := by
          rw [hmax, happend]
          exact Nat.le_add_left 1 _
        rw [if_neg hc, if_neg hzero, if_pos hfull]
      rw [dataChunks_cons_data (Bool.not_eq_true _ ▸ hc), List.isChain_cons, List.head?_cons]
      by_cases hcut : Cuts cfg c
      · rw [hstep.trans (if_pos hcut)]
        have hone : chunkNum [c] = 1 := by rw [chunkNum_singleton, if_neg hc]
        have ih := ih hone.le
        simp only [Option.toList_some, List.singleton_append, List.forall_mem_cons, Option.mem_some,
          forall_eq', hcut, implies_true, true_and, forall_const, htmp]
        refine ih.trans ?_
        rw [hone]
        exact and_congr_left' (forall_prop_of_true rfl)
      · rw [hstep.trans (if_neg hcut)]
        have ih := @ih [] (Nat.zero_le 1)
        simp only [Option.toList_some, List.singleton_append, List.forall_mem_cons, Option.mem_some,
          forall_eq', hcut, imp_false, false_imp_iff, implies_true, true_and]
        refine and_congr ?_ (ih.trans (and_iff_right fun h ↦ absurd h Nat.zero_ne_one))
        rw [happend]
        omega

end Complete

/-! ## The partition -/

namespace Segment

variable {cfg : Config} {stream : List Chunk}

theorem map_chunks_segments {cs : List Chunk} {tmp : Option Segment} (h : (tmp.getD new).IsCounted)
    {segs : List Segment} (hsegs : segments cfg tmp cs = some segs) :
    segs.map chunks = splitStream cfg (tmp.getD new).chunks cs ∧ ∀ s ∈ segs, s.IsCounted := by
  induction cs generalizing tmp segs with
  | nil =>
    have hend : segmenting cfg tmp none = some (some (tmp.getD new), some (tmp.getD new)) := by
      rw [segmenting]
      cases cfg.segmentAlgorithm <;> rfl
    rw [segments, hend] at hsegs
    obtain rfl := Option.some.inj hsegs
    exact ⟨rfl, fun s hs ↦ List.mem_singleton.mp hs ▸ h⟩
  | cons c cs ih =>
    rw [segments] at hsegs
    obtain ⟨r, hr, hsegs⟩ := Option.bind_eq_some_iff.mp hsegs
    obtain ⟨rest, hrest, hsegs⟩ := Option.bind_eq_some_iff.mp hsegs
    obtain rfl := Option.some.inj hsegs
    have hfollows := segmenting_follows h hr
    obtain ⟨hmap, hcounted⟩ := ih hfollows.kept hrest
    constructor
    · rw [splitStream, ← hfollows.eq, List.map_append, hmap]
      cases r.1 <;> rfl
    · intro s hs
      rcases List.mem_append.mp hs with hs | hs
      · exact hfollows.returned s (Option.mem_toList.mp hs)
      · exact hcounted s hs

/-- Without a divisor, a chunk is taken as long as the segment is too small. -/
theorem segmenting_undivided {tmp : Option Segment} (h : (tmp.getD new).IsCounted) {c : Chunk}
    {r : Outcome} (hr : segmenting cfg tmp (some c) = some r)
    (halg : cfg.segmentAlgorithm = .contentDefined) (hsize : cfg.segmentSize = 0) :
    (r.2.getD new).chunks = (tmp.getD new).chunks ++ [c] ∧
      (c.isFileMarker = true ∨ UniDedup.Node.chunkNum (tmp.getD new).chunks < cfg.segmentMin) := by
  have hgo : c.isFileMarker = true ∨
      UniDedup.Node.chunkNum (tmp.getD new).chunks < cfg.segmentMin := by
    by_contra hstop
    rw [not_or, not_lt, Bool.not_eq_true] at hstop
    have htrap := (segmenting_eq_none_iff h).mpr ⟨halg, hsize, hstop⟩
    rw [htrap] at hr
    cases hr
  refine ⟨?_, hgo⟩
  have heq := congrArg Prod.snd (segmenting_follows h hr).eq
  dsimp only at heq
  rw [heq, UniDedup.Node.segmenting, halg]
  dsimp only [segmentContentDefined]
  by_cases hc : c.isFileMarker
  · rw [if_pos hc]
  · rw [if_neg hc, if_pos (hgo.resolve_left hc)]

/-- The division traps where content-defined segmenting has no divisor and more chunks than the
minimum. -/
theorem isSome_segments {cs : List Chunk} {tmp : Option Segment} (h : (tmp.getD new).IsCounted) :
    (segments cfg tmp cs).isSome = true ↔ (cfg.segmentAlgorithm = .contentDefined →
      cfg.segmentSize = 0 → UniDedup.Node.chunkNum cs = 0 ∨
        UniDedup.Node.chunkNum (tmp.getD new).chunks + UniDedup.Node.chunkNum cs ≤ cfg.segmentMin) := by
  induction cs generalizing tmp with
  | nil =>
    have hend : segmenting cfg tmp none = some (some (tmp.getD new), some (tmp.getD new)) := by
      rw [segmenting]
      cases cfg.segmentAlgorithm <;> rfl
    rw [segments, hend]
    exact iff_of_true rfl fun _ _ ↦ .inl rfl
  | cons c cs ih =>
    rw [segments, chunkNum_cons]
    cases hr : segmenting cfg tmp (some c) with
    | none =>
      obtain ⟨halg, hsize, hc, hmin⟩ := (segmenting_eq_none_iff h).mp hr
      refine iff_of_false Bool.false_ne_true fun hfew ↦ ?_
      have hfew := hfew halg hsize
      rw [hc, if_neg Bool.false_ne_true] at hfew
      omega
    | some r =>
      have hsome : (do
          let rest ← segments cfg r.2 cs
          return r.1.toList ++ rest : Option (List Segment)).isSome = (segments cfg r.2 cs).isSome := by
        cases segments cfg r.2 cs <;> rfl
      refine (Bool.eq_iff_iff.mp hsome).trans ((ih (segmenting_follows h hr).kept).trans ?_)
      refine forall_congr' fun halg ↦ forall_congr' fun hsize ↦ ?_
      obtain ⟨hchunks, hgo⟩ := segmenting_undivided h hr halg hsize
      rw [hchunks, chunkNum_append, chunkNum_singleton]
      by_cases hc : c.isFileMarker
      · rw [if_pos hc]
        omega
      · have hmin := hgo.resolve_left hc
        rw [if_neg hc]
        omega

/-- What segmenting is to make of a stream. -/
structure IsPartition (cfg : Config) (stream : List Chunk) (segs : List Segment) : Prop where
  chunks : segs.flatMap chunks = stream
  chunkNum : ∀ s ∈ segs, s.IsCounted
  complete : ∀ s ∈ segs.dropLast, IsComplete cfg s.chunks

/-- The streams that content-defined segmenting copes with. -/
def Divisible (cfg : Config) (stream : List Chunk) : Prop :=
  (cfg.segmentSize = 0 → UniDedup.Node.chunkNum stream ≤ cfg.segmentMin) ∧
    (cfg.segmentMax = 1 → (dataChunks stream).IsChain fun c d ↦ Cuts cfg c → Cuts cfg d)

/-- **Segmenting is a partition**, for every method, with the exception of content-defined segmenting
without a divisor or with a maximum of one chunk. -/
theorem segments_isPartition_iff
    (hbounds : cfg.segmentAlgorithm = .contentDefined → cfg.segmentMin < cfg.segmentMax) :
    (∃ segs, segments cfg none stream = some segs ∧ IsPartition cfg stream segs) ↔
      (cfg.segmentAlgorithm = .contentDefined → Divisible cfg stream) := by
  have hnone : ((none : Option Segment).getD new).IsCounted := isCounted_new
  have hempty : UniDedup.Node.chunkNum [] ≤ 1 := Nat.zero_le 1
  have hpart : ∀ segs, segments cfg none stream = some segs → (IsPartition cfg stream segs ↔
      ∀ s ∈ (splitStream cfg [] stream).dropLast, IsComplete cfg s) := by
    intro segs hsegs
    obtain ⟨hmap, hcounted⟩ := map_chunks_segments hnone hsegs
    have hmap : segs.map chunks = splitStream cfg [] stream := hmap
    have hlast : segs.dropLast.map chunks = (splitStream cfg [] stream).dropLast := by
      rw [← hmap, List.map_dropLast]
    rw [← hlast, List.forall_mem_map]
    refine ⟨IsPartition.complete, fun hcomplete ↦ ⟨?_, hcounted, hcomplete⟩⟩
    rw [List.flatMap_def, hmap, flatten_splitStream, List.nil_append]
  have hsome := @isSome_segments cfg stream none hnone
  constructor
  · rintro ⟨segs, hsegs, hsplit⟩ halg
    have hfew := hsome.mp (Option.isSome_iff_exists.mpr ⟨segs, hsegs⟩) halg
    constructor
    · intro hsize
      have hfew := hfew hsize
      have hnil : UniDedup.Node.chunkNum ((none : Option Segment).getD new).chunks = 0 := rfl
      omega
    · intro hmax
      have hmin : cfg.segmentMin = 0 := by
        have := hbounds halg
        omega
      exact ((isComplete_single halg hmin hmax hempty).mp ((hpart segs hsegs).mp hsplit)).2
  · intro hdiv
    have hdef : (segments cfg none stream).isSome = true := hsome.mpr fun halg hsize ↦
      .inr ((Nat.zero_add _).trans_le ((hdiv halg).1 hsize))
    obtain ⟨segs, hsegs⟩ := Option.isSome_iff_exists.mp hdef
    refine ⟨segs, hsegs, (hpart segs hsegs).mpr ?_⟩
    cases halg : cfg.segmentAlgorithm with
    | fixed => exact isComplete_fixed halg
    | fileDefined => exact isComplete_fileDefined halg
    | contentDefined =>
      have hbounds := hbounds halg
      by_cases hmax : 1 < cfg.segmentMax
      · exact isComplete_contentDefined halg hbounds hmax (Nat.zero_lt_of_lt hbounds)
      · have hmax : cfg.segmentMax = 1 := by omega
        have hmin : cfg.segmentMin = 0 := by omega
        exact (isComplete_single halg hmin hmax hempty).mpr
          ⟨fun h ↦ absurd h Nat.zero_ne_one, (hdiv halg).2 hmax⟩

/-- Content-defined segments of one chunk, with an even divisor. -/
def singleConfig : Config :=
  { Config.start with segmentAlgorithm := .contentDefined, segmentSize := 2, segmentMin := 0, segmentMax := 1 }

/-- A normal chunk whose fingerprint has the same byte everywhere. -/
def filledChunk (b : UInt8) : Chunk := { Chunk.new .normal [] with fp := Fingerprint.fill b }

/-- Content-defined segments of one to three chunks. The stream has two chunks that trigger a cut; between them a segment
reaches the maximum. -/
theorem segments_isPartition_iff_cuts :
    let cfg := { singleConfig with segmentMin := 1, segmentMax := 3 }
    let cs := [filledChunk 1, filledChunk 2, filledChunk 1, filledChunk 1, filledChunk 1, filledChunk 2]
    let stream := Chunk.new .fileStart [97] :: cs ++ [Chunk.new .fileEnd []]
    let segs : List Segment := [⟨1, [Chunk.new .fileStart [97], filledChunk 1]⟩,
      ⟨3, [filledChunk 2, filledChunk 1, filledChunk 1]⟩, ⟨1, [filledChunk 1]⟩,
      ⟨1, [filledChunk 2, Chunk.new .fileEnd []]⟩]
    segments cfg none stream = some segs ∧ IsPartition cfg stream segs := by
  intro cfg cs stream segs
  have hdiv : Divisible cfg stream := ⟨fun h ↦ absurd h (by decide), fun h ↦ absurd h (by decide)⟩
  obtain ⟨segs', hsegs', hpart⟩ := (@segments_isPartition_iff cfg stream fun _ ↦ by decide).mpr fun _ ↦ hdiv
  have hrun : segments cfg none stream = some segs := by decide +kernel
  obtain rfl : segs = segs' := Option.some.inj (hrun.symm.trans hsegs')
  exact ⟨hrun, hpart⟩

/-- A chunk that triggers a cut, and one that does not. -/
theorem not_isPartition_single :
    ¬∃ segs, segments singleConfig none [filledChunk 2, filledChunk 1] = some segs ∧
      IsPartition singleConfig [filledChunk 2, filledChunk 1] segs := by
  rintro ⟨segs, hsegs, hpart⟩
  have hrun : segments singleConfig none [filledChunk 2, filledChunk 1] =
      some [⟨0, []⟩, ⟨2, [filledChunk 2, filledChunk 1]⟩, ⟨0, []⟩] := by decide +kernel
  obtain rfl := Option.some.inj (hrun.symm.trans hsegs)
  have hcomplete := hpart.complete _ (List.mem_cons_of_mem _ List.mem_cons_self)
  exact absurd hcomplete.2 (by decide)

end Segment

end UniDedup.Node
