import UniDedup.Lib.Transition
import UniDedup.Node.RewriteInts

/-!
# The rewriters, call by call

The rewrite thread runs one of four loops: `no_rewrite`, `cfl_rewrite`, `cbr_rewrite` or `cap_rewrite`. A step is the
arrival of a chunk, the end of the stream, or one call: of `rewrite_buffer_push`, of `rewrite_buffer_pop` with what
the algorithm does to the chunk it pops, or of one of the two sorts of `cap_segment_get_top`. The counters are the
`int`s of the source. A call may end in an assertion, and then there is no next state.

Whether `cfl_rewrite` and `cbr_rewrite` mark a chunk depends on utilities in floating point, so a call may decide it
either way. The same goes for whether the filter thread sees the mark that `no_rewrite` sets after it has passed a
chunk on.

## What is passed on

A rewriter holds the chunks of its buffer, and the chunk that it has taken and not yet pushed or passed on. Every
call keeps the order:

  `taken = done ++ held`, and `out` is `done` but for marks.

None of this rests on the accounts of the buffer: whatever its counters say, what is popped is the head of the
queue. The accounts decide whether an assertion ends the run, and whether a loop is left with a full buffer. So
`Passing` is proved of every run, and what needs bounds on the sizes comes after it.

## No call is repeated for ever

Between two chunks every call does some of a bounded `work`: a pop takes a chunk out of the buffer, and a push is
followed by at most one flush. Where no call ends in an assertion, the rewriter therefore gets to the next chunk, and
after the last one to its end.
-/

namespace UniDedup.Node

open Outcome Comparing

/-- Where a rewriter is between two calls. -/
inductive RewritePoint
  /-- At `sync_queue_pop`. -/
  | loop
  /-- `no_rewrite` has a chunk to pass on. -/
  | passing (c : Chunk)
  /-- Before `rewrite_buffer_push`. -/
  | pushing (c : Chunk)
  /-- `cfl_rewrite` empties the buffer before it pushes a chunk. -/
  | judge (c : Chunk)
  /-- `cbr_rewrite` looks at the head of the full buffer. -/
  | decide
  /-- Between the sorts of `cap_segment_get_top`. -/
  | sorted (final : Bool)
  /-- `cap_rewrite` empties the buffer. -/
  | flush (final : Bool)
  /-- The other two empty it at the end. -/
  | drain
  | done
deriving DecidableEq

def RewritePoint.Of (algorithm : RewriteAlgorithm) : RewritePoint → Prop
  | .loop => True
  | .passing _ => algorithm = .no
  | .pushing _ => algorithm ≠ .no
  | .judge _ => algorithm = .cfl
  | .decide => algorithm = .contextBased
  | .sorted _ => algorithm = .capping
  | .flush _ => algorithm = .capping
  | .drain => algorithm = .cfl ∨ algorithm = .contextBased
  | .done => True

/-- The chunk that was taken and is not in the buffer yet. -/
def RewritePoint.pending : RewritePoint → List Chunk
  | .passing c => [c]
  | .pushing c => [c]
  | .judge c => [c]
  | _ => []

/-- A rewriter with its buffer, the variables of `cfl_rewrite` and the containers of `cap_rewrite`. -/
structure Rewriter where
  buffer : IntBuffer
  point : RewritePoint
  lastId : ℤ
  bufferFull : Bool
  top : List ℤ
  /-- The chunks that came from `dedup_queue`. -/
  taken : List Chunk
  /-- The chunks pushed to `rewrite_queue`. -/
  out : List Chunk
  /-- The buffer when `cap_segment_get_top` last chose its containers. -/
  capped : List Chunk
  /-- The chunks pushed to `rewrite_queue` since then. -/
  flushed : List Chunk

namespace Rewriter

def init : Rewriter := ⟨.empty, .loop, temporaryId, false, [], [], [], [], []⟩

/-- The chunks taken and not yet passed on. -/
def held (s : Rewriter) : List Chunk := s.buffer.queue ++ s.point.pending

/-- `sync_queue_push` to `rewrite_queue`. -/
def pass (s : Rewriter) (c : Chunk) : Rewriter := { s with out := s.out ++ [c], flushed := s.flushed ++ [c] }

/-- Where the algorithm goes with a chunk of the dedup phase. -/
def takePoint (cfg : Config) (s : Rewriter) (c : Chunk) : RewritePoint :=
  match cfg.rewriteAlgorithm with
  | .no => .passing c
  | .cfl => if (s.lastId ≠ temporaryId && s.lastId ≠ c.id) || s.bufferFull then .judge c else .pushing c
  | .contextBased => .pushing c
  | .capping => .pushing c

def finished (cfg : Config) (s : Rewriter) : Rewriter :=
  match cfg.rewriteAlgorithm with
  | .no => { s with point := .done }
  | .cfl => { s with point := .drain }
  | .contextBased => { s with point := .drain }
  | .capping => { s with buffer := s.buffer.sortByLength, point := .sorted true }

def pushed (cfg : Config) (s : Rewriter) (c : Chunk) : Except RewriteAbort Rewriter := do
  let (buffer, full) ← s.buffer.push cfg c
  match cfg.rewriteAlgorithm with
  | .no => return { s with buffer := buffer, point := .loop }
  | .cfl => return { s with buffer := buffer, point := .loop, lastId := c.id, bufferFull := s.bufferFull || full }
  | .contextBased => return { s with buffer := buffer, point := if full then .decide else .loop }
  | .capping =>
    if full then return { s with buffer := buffer.sortByLength, point := .sorted false }
    else return { s with buffer := buffer, point := .loop }

/-- Pop a chunk, mark it and pass it on, or leave the loop that empties the buffer for `next`. -/
def popped (cfg : Config) (inherited : List ℤ) (mark : Chunk → Except RewriteAbort Chunk) (s next : Rewriter) :
    Except RewriteAbort Rewriter := do
  match ← s.buffer.pop cfg inherited with
  | none => return next
  | some (c, buffer) => do
    let d ← mark c
    return pass { s with buffer := buffer } d

/-- The marks of `cbr_rewrite` on the chunk at the head of the buffer and on its record. -/
def markHead (buf : IntBuffer) (c : Chunk) (queue : List Chunk) (outOfOrder recordFlag : Bool) :
    Except RewriteAbort IntBuffer :=
  if c.id = temporaryId then .ok buf
  else do
    check c.duplicate .notDuplicate
    match lookup gRecordCmpById ⟨c.id, 0, false⟩ buf.records with
    | none => .error .noRecord
    | some (before, r, behind) =>
      return { buf with
        queue := { c with outOfOrder := c.outOfOrder || outOfOrder } :: queue
        records := before ++ { r with outOfOrder := recordFlag } :: behind }

/-- `cbr_rewrite` at the head of the full buffer: a marker is popped, a chunk is decided and popped. -/
def decided (cfg : Config) (inherited : List ℤ) (s : Rewriter) (outOfOrder recordFlag : Bool) :
    Except RewriteAbort Rewriter :=
  match s.buffer.queue with
  | [] => .error .noDecision
  | c :: queue =>
    if c.isMarker then s.popped cfg inherited .ok s
    else do
      let buffer ← markHead s.buffer c queue outOfOrder recordFlag
      popped cfg inherited .ok { s with buffer := buffer, point := .loop } s

/-- What the end of `cfl_rewrite` and of `cbr_rewrite` does to a chunk. -/
def drainMark (cfg : Config) (outOfOrder : Bool) : Chunk → Except RewriteAbort Chunk :=
  match cfg.rewriteAlgorithm with
  | .cfl => cflMark outOfOrder
  | _ => .ok

/-- `cap_segment_get_top` chooses the containers, and sorts the records by id again. -/
def chosen (cfg : Config) (s : Rewriter) (final : Bool) : Rewriter :=
  { s with
    buffer := s.buffer.sortById
    point := .flush final
    top := (s.buffer.records.take cfg.cappingLevel).map IntRecord.cid
    capped := s.buffer.queue
    flushed := [] }

end Rewriter

/-- What happens next. -/
inductive RewriteLabel
  /-- A chunk comes from the dedup phase. -/
  | take (c : Chunk)
  | finish
  /-- The next call, with the flags that `cfl_rewrite` and `cbr_rewrite` set, and whether a mark of `no_rewrite` is
  too late to be seen. -/
  | call (outOfOrder recordFlag late : Bool)

namespace Rewriter

/-- The turn of a rewriter; `none` where the label does not apply. -/
def turn (cfg : Config) (inherited : List ℤ) (s : Rewriter) : RewriteLabel → Option (Except RewriteAbort Rewriter)
  | .take c =>
    if s.point = .loop then some (.ok { s with point := s.takePoint cfg c, taken := s.taken ++ [c] }) else none
  | .finish => if s.point = .loop then some (.ok (s.finished cfg)) else none
  | .call outOfOrder recordFlag late =>
    match s.point with
    | .loop => none
    | .passing c => some (.ok (pass { s with point := .loop } (noRewrite cfg inherited late c)))
    | .pushing c => some (s.pushed cfg c)
    | .judge c =>
      some (s.popped cfg inherited (cflMark outOfOrder) { s with point := .pushing c, bufferFull := false })
    | .decide => some (s.decided cfg inherited outOfOrder recordFlag)
    | .sorted final => some (.ok (s.chosen cfg final))
    | .flush final =>
      some (s.popped cfg inherited (capMark s.top final)
        { s with point := if final then .done else .loop, top := [] })
    | .drain => some (s.popped cfg inherited (drainMark cfg outOfOrder) { s with point := .done })
    | .done => none

def system (cfg : Config) (inherited : List ℤ) : Transition.System Rewriter RewriteLabel where
  init s := s = init
  next s l := (s.turn cfg inherited l).bind Except.toOption

end Rewriter

/-! ## What the calls do to the queue -/

namespace IntBuffer

variable {cfg : Config} {inherited : List ℤ} {buf buf' : IntBuffer} {c : Chunk}

theorem queue_push {full : Bool} (h : buf.push cfg c = .ok (buf', full)) : buf'.queue = buf.queue ++ [c] := by
  rw [push] at h
  split at h
  · obtain ⟨rfl, -⟩ := Prod.mk.inj (Except.ok.inj h)
    rfl
  · simp only [bind_eq_ok] at h
    obtain ⟨-, -, records, -, -, -, h⟩ := h
    obtain ⟨rfl, -⟩ := Prod.mk.inj (Except.ok.inj h)
    rfl

/-- What is popped is the head of the queue, with the mark of history-aware rewriting. -/
theorem pop_cases {r : Option (Chunk × IntBuffer)} (h : buf.pop cfg inherited = .ok r) :
    r = none ∧ buf.queue = [] ∨
      ∃ c buf', r = some (RewriteBuffer.popped cfg inherited c, buf') ∧ buf.queue = c :: buf'.queue := by
  rw [pop] at h
  split at h
  · next hq => exact .inl ⟨(Except.ok.inj h).symm, hq⟩
  · next c queue hq =>
    refine .inr ⟨c, ?_⟩
    by_cases hm : c.isMarker = true
    · rw [if_pos hm] at h
      have hstored : c.storedDuplicate = false := by simp [Chunk.storedDuplicate, hm]
      rw [RewriteBuffer.popped, hstored, Bool.false_and]
      exact ⟨_, (Except.ok.inj h).symm, hq⟩
    rw [if_neg hm] at h
    by_cases hdup : (c.duplicate && decide (c.id ≠ temporaryId)) = true
    · rw [if_pos hdup] at h
      simp only [bind_eq_ok] at h
      obtain ⟨records, -, h⟩ := h
      rw [Bool.and_eq_true, decide_eq_true_eq] at hdup
      have hstored : c.storedDuplicate = true :=
        Chunk.storedDuplicate_eq_true.mpr ⟨by simpa using hm, hdup⟩
      rw [RewriteBuffer.popped, hstored, Bool.true_and]
      exact ⟨_, (Except.ok.inj h).symm, hq⟩
    · rw [if_neg hdup] at h
      have hstored : c.storedDuplicate = false := by
        rw [Bool.eq_false_iff, Ne, Chunk.storedDuplicate_eq_true]
        exact fun hs ↦ hdup (by simpa using hs.2)
      rw [RewriteBuffer.popped, hstored, Bool.false_and]
      exact ⟨_, (Except.ok.inj h).symm, hq⟩

end IntBuffer

namespace Rewriter

variable {cfg : Config} {inherited : List ℤ} {s s' next : Rewriter} {c : Chunk}

theorem held_eq {l : List Chunk} (h : s.point.pending = l) : s.held = s.buffer.queue ++ l :=
  congrArg (s.buffer.queue ++ ·) h

/-- Emptying the buffer: the loop is left with an empty buffer, or its head is marked and passed on. -/
theorem popped_cases {mark : Chunk → Except RewriteAbort Chunk} (h : s.popped cfg inherited mark next = .ok s') :
    s' = next ∧ s.buffer.queue = [] ∨
      ∃ c d buffer, s.buffer.queue = c :: buffer.queue ∧ mark (RewriteBuffer.popped cfg inherited c) = .ok d ∧
        s' = pass { s with buffer := buffer } d := by
  simp only [popped, bind_eq_ok] at h
  obtain ⟨r, hpop, h⟩ := h
  obtain ⟨rfl, hq⟩ | ⟨c, buffer, rfl, hq⟩ := IntBuffer.pop_cases hpop
  · exact .inl ⟨(Except.ok.inj h).symm, hq⟩
  · simp only [bind_eq_ok] at h
    obtain ⟨d, hd, h⟩ := h
    exact .inr ⟨c, d, buffer, hq, hd, (Except.ok.inj h).symm⟩

/-- A push appends the chunk, and goes on to what the algorithm does with a full buffer. -/
theorem pushed_cases (halg : cfg.rewriteAlgorithm ≠ .no) (h : s.pushed cfg c = .ok s') :
    s'.buffer.queue = s.buffer.queue ++ [c] ∧ s'.taken = s.taken ∧ s'.out = s.out ∧ s'.capped = s.capped ∧
      s'.flushed = s.flushed ∧ (s'.point = .loop ∨ s'.point = .decide ∧ cfg.rewriteAlgorithm = .contextBased ∨
        s'.point = .sorted false ∧ cfg.rewriteAlgorithm = .capping) := by
  simp only [pushed, bind_eq_ok] at h
  obtain ⟨⟨buffer, full⟩, hpush, h⟩ := h
  have hq := IntBuffer.queue_push hpush
  cases hcase : cfg.rewriteAlgorithm with
  | no => exact absurd hcase halg
  | cfl =>
    rw [hcase] at h
    obtain rfl := Except.ok.inj h
    exact ⟨hq, rfl, rfl, rfl, rfl, .inl rfl⟩
  | contextBased =>
    rw [hcase] at h
    obtain rfl := Except.ok.inj h
    refine ⟨hq, rfl, rfl, rfl, rfl, ?_⟩
    cases full with
    | false => exact .inl rfl
    | true => exact .inr (.inl ⟨rfl, rfl⟩)
  | capping =>
    rw [hcase] at h
    cases full with
    | false =>
      obtain rfl := Except.ok.inj h
      exact ⟨hq, rfl, rfl, rfl, rfl, .inl rfl⟩
    | true =>
      obtain rfl := Except.ok.inj h
      exact ⟨hq, rfl, rfl, rfl, rfl, .inr (.inr ⟨rfl, rfl⟩)⟩

theorem markHead_cases {buf buf' : IntBuffer} {queue : List Chunk} (halg : cfg.rewriteAlgorithm ≠ .no)
    (hq : buf.queue = c :: queue) {outOfOrder recordFlag : Bool}
    (h : markHead buf c queue outOfOrder recordFlag = .ok buf') : ∃ d, buf'.queue = d :: queue ∧ c.Marks cfg d := by
  rw [markHead] at h
  split at h
  · obtain rfl := Except.ok.inj h
    exact ⟨c, hq, .refl cfg c⟩
  · simp only [bind_eq_ok] at h
    obtain ⟨-, -, h⟩ := h
    split at h
    · exact absurd h (by simp)
    · obtain rfl := Except.ok.inj h
      exact ⟨_, rfl, .setOutOfOrder halg c _⟩

/-- `cbr_rewrite` passes the head of the buffer on, marked or not, and is done with a chunk. -/
theorem decided_cases (halg : cfg.rewriteAlgorithm ≠ .no) {outOfOrder recordFlag : Bool}
    (h : s.decided cfg inherited outOfOrder recordFlag = .ok s') :
    ∃ c d, s.buffer.queue = c :: s'.buffer.queue ∧ c.Marks cfg d ∧ s'.taken = s.taken ∧ s'.out = s.out ++ [d] ∧
      (s'.point = s.point ∨ s'.point = .loop) := by
  rw [decided] at h
  split at h
  · exact absurd h (by simp)
  next c queue hq =>
  split at h
  · rcases popped_cases h with ⟨-, hempty⟩ | ⟨c', d, buffer, hq', hd, rfl⟩
    · rw [hq] at hempty
      exact absurd hempty (List.cons_ne_nil _ _)
    · obtain rfl := Except.ok.inj hd
      exact ⟨c', _, hq', RewriteBuffer.popped_marks cfg inherited c', rfl, rfl, .inl rfl⟩
  · simp only [bind_eq_ok] at h
    obtain ⟨buffer, hmark, h⟩ := h
    obtain ⟨d, hq₁, hd⟩ := markHead_cases halg hq hmark
    rcases popped_cases h with ⟨-, hempty⟩ | ⟨c', d', buffer', hq', hd', rfl⟩
    · exact absurd (hq₁.symm.trans hempty) (List.cons_ne_nil _ _)
    · obtain rfl := Except.ok.inj hd'
      obtain ⟨rfl, rfl⟩ := List.cons.inj (hq₁.symm.trans hq')
      exact ⟨c, _, hq, hd.trans (RewriteBuffer.popped_marks cfg inherited _), rfl, rfl, .inr rfl⟩

/-! ## The order of the stream -/

/-- **What every run keeps**, whatever the counters say. -/
structure Passing (cfg : Config) (s : Rewriter) : Prop where
  of : s.point.Of cfg.rewriteAlgorithm
  /-- Without rewriting nothing is ever buffered. -/
  unbuffered : cfg.rewriteAlgorithm = .no → s.buffer.queue = []
  emptied : s.point = .done → s.buffer.queue = []
  kept : ∃ done, s.taken = done ++ s.held ∧ Marked cfg done s.out

end Rewriter

/-- The calls that are left at a point with an empty buffer, at most. -/
def RewritePoint.rank : RewritePoint → ℕ
  | .loop => 0
  | .passing _ => 1
  | .pushing _ => 4
  | .judge _ => 5
  | .decide => 1
  | .sorted _ => 2
  | .flush _ => 1
  | .drain => 1
  | .done => 0

namespace Rewriter

/-- The calls that are left before the next chunk is taken, at most. -/
def work (s : Rewriter) : ℕ := if s.point.rank = 0 then 0 else s.buffer.queue.length + s.point.rank

variable {cfg : Config} {inherited : List ℤ} {s s' next : Rewriter} {c d : Chunk}

theorem work_of_rank {n : ℕ} (h : s.point.rank = n + 1) : s.work = s.buffer.queue.length + (n + 1) := by
  rw [work, h, if_neg (Nat.succ_ne_zero n)]

theorem passing_init (cfg : Config) : init.Passing cfg :=
  ⟨trivial, fun _ ↦ rfl, fun h ↦ absurd h (by decide), [], rfl, .nil⟩

theorem Passing.take (h : s.Passing cfg) (hpoint : s.point = .loop) (c : Chunk) :
    Passing cfg { s with point := s.takePoint cfg c, taken := s.taken ++ [c] } := by
  obtain ⟨done, htaken, hmarked⟩ := h.kept
  have hstart : (s.takePoint cfg c).pending = [c] ∧ (s.takePoint cfg c).Of cfg.rewriteAlgorithm ∧
      s.takePoint cfg c ≠ .done := by
    rw [takePoint]
    cases halg : cfg.rewriteAlgorithm with
    | no => exact ⟨rfl, rfl, by simp⟩
    | cfl =>
      dsimp only
      split_ifs
      · exact ⟨rfl, rfl, by simp⟩
      · exact ⟨rfl, by simp [RewritePoint.Of], by simp⟩
    | contextBased => exact ⟨rfl, by simp [RewritePoint.Of], by simp⟩
    | capping => exact ⟨rfl, by simp [RewritePoint.Of], by simp⟩
  refine ⟨hstart.2.1, h.unbuffered, fun hdone ↦ absurd hdone hstart.2.2, done, ?_, hmarked⟩
  rw [held_eq (s := { s with point := s.takePoint cfg c, taken := s.taken ++ [c] }) hstart.1]
  dsimp only
  rw [htaken, held_eq (l := []) (by rw [hpoint]; rfl), List.append_nil, List.append_assoc]

theorem Passing.finished (h : s.Passing cfg) (hpoint : s.point = .loop) : (s.finished cfg).Passing cfg := by
  obtain ⟨done, htaken, hmarked⟩ := h.kept
  rw [held_eq (l := []) (by rw [hpoint]; rfl)] at htaken
  rw [Rewriter.finished]
  cases halg : cfg.rewriteAlgorithm with
  | no => exact ⟨trivial, h.unbuffered, fun _ ↦ h.unbuffered halg, done, htaken, hmarked⟩
  | cfl => exact ⟨.inl halg, h.unbuffered, fun hdone ↦ absurd hdone (by simp), done, htaken, hmarked⟩
  | contextBased => exact ⟨.inr halg, h.unbuffered, fun hdone ↦ absurd hdone (by simp), done, htaken, hmarked⟩
  | capping => exact ⟨halg, h.unbuffered, fun hdone ↦ absurd hdone (by simp), done, htaken, hmarked⟩

theorem kept_cons {taken out rest : List Chunk} (h : ∃ done, taken = done ++ c :: rest ∧ Marked cfg done out)
    (hd : c.Marks cfg d) : ∃ done, taken = done ++ rest ∧ Marked cfg done (out ++ [d]) := by
  obtain ⟨done, rfl, hmarked⟩ := h
  exact ⟨done ++ [c], (List.append_assoc done [c] rest).symm, hmarked.append (.cons hd .nil)⟩

/-- **Popping where the buffer is emptied**: the head of the buffer is passed on, or the loop is left. -/
theorem Passing.emptying {mark : Chunk → Except RewriteAbort Chunk} {n : ℕ} (h : s.Passing cfg)
    (hpop : s.popped cfg inherited mark next = .ok s') (hrank : s.point.rank = n + 1)
    (hmark : ∀ c d, mark c = .ok d → c.Marks cfg d)
    (hnext : s.buffer.queue = [] →
      next.Passing cfg ∧ next.work < n + 1 ∧ next.taken = s.taken ∧ next.buffer = s.buffer) :
    s'.Passing cfg ∧ s'.work < s.work ∧ s'.taken = s.taken ∧ s'.buffer.queue <:+ s.buffer.queue := by
  rw [work_of_rank hrank]
  obtain ⟨rfl, hq⟩ | ⟨c, d, buffer, hq, hd, rfl⟩ := popped_cases hpop
  · obtain ⟨hpassing, hwork, htaken, hbuffer⟩ := hnext hq
    refine ⟨hpassing, ?_, htaken, hbuffer ▸ List.suffix_rfl⟩
    rw [hq]
    exact hwork.trans_le (Nat.le_add_left _ _)
  · have hpoint : (pass { s with buffer := buffer } d).point.rank = n + 1 := hrank
    have hmarks := (RewriteBuffer.popped_marks cfg inherited c).trans (hmark _ d hd)
    have hkept := h.kept
    rw [held, hq, List.cons_append] at hkept
    refine ⟨⟨h.of, fun hno ↦ ?_, fun hdone ↦ ?_, kept_cons hkept hmarks⟩, ?_, rfl, ?_⟩
    · rw [h.unbuffered hno] at hq
      exact absurd hq.symm (List.cons_ne_nil _ _)
    · rw [h.emptied hdone] at hq
      exact absurd hq.symm (List.cons_ne_nil _ _)
    · rw [work_of_rank hpoint, hq, List.length_cons]
      exact Nat.add_lt_add_right (Nat.lt_succ_self _) _
    · rw [hq]
      exact List.suffix_cons c _

theorem drainMark_cases (cfg : Config) (outOfOrder : Bool) :
    drainMark cfg outOfOrder = cflMark outOfOrder ∨ drainMark cfg outOfOrder = .ok := by
  unfold drainMark
  split
  · exact .inl rfl
  · exact .inr rfl

theorem drainMark_marks (halg : cfg.rewriteAlgorithm ≠ .no) {outOfOrder : Bool}
    (h : drainMark cfg outOfOrder c = .ok d) : c.Marks cfg d := by
  rcases drainMark_cases cfg outOfOrder with hmark | hmark
  · exact cflMark_marks halg (hmark ▸ h)
  · rw [hmark] at h
    obtain rfl := Except.ok.inj h
    exact .refl cfg c

theorem Passing.left (h : s.Passing cfg) (hq : s.buffer.queue = []) (hpending : next.point.pending = s.point.pending)
    (hof : next.point.Of cfg.rewriteAlgorithm) (hbuffer : next.buffer = s.buffer) (htaken : next.taken = s.taken)
    (hout : next.out = s.out) : next.Passing cfg := by
  obtain ⟨done, hkept, hmarked⟩ := h.kept
  refine ⟨hof, fun _ ↦ hbuffer ▸ hq, fun _ ↦ hbuffer ▸ hq, done, ?_, hout ▸ hmarked⟩
  rw [held, hpending, hbuffer, htaken]
  exact hkept

variable (inherited) in
theorem Passing.passed (h : s.Passing cfg) (hpoint : s.point = .passing c) (late : Bool) :
    let s' := pass { s with point := .loop } (noRewrite cfg inherited late c)
    s'.Passing cfg ∧ s'.work < s.work := by
  have hof := h.of
  rw [hpoint] at hof
  have hq := h.unbuffered hof
  have hkept := h.kept
  rw [held, hq, hpoint] at hkept
  refine ⟨⟨trivial, fun _ ↦ hq, fun _ ↦ hq, ?_⟩, ?_⟩
  · obtain ⟨done, htaken, hmarked⟩ := kept_cons hkept (noRewrite_marks cfg inherited late c)
    refine ⟨done, htaken.trans (congrArg (done ++ ·) ?_), hmarked⟩
    exact (List.append_eq_nil_iff.mpr ⟨hq, rfl⟩).symm
  · rw [work_of_rank (s := s) (n := 0) (by rw [hpoint]; rfl)]
    exact Nat.succ_pos _

theorem Passing.pushed (h : s.Passing cfg) (hpoint : s.point = .pushing c) (hpush : s.pushed cfg c = .ok s') :
    s'.Passing cfg ∧ s'.work < s.work ∧ s'.taken = s.taken ∧ s'.buffer.queue = s.buffer.queue ++ [c] := by
  have hof := h.of
  rw [hpoint] at hof
  obtain ⟨done, htaken, hmarked⟩ := h.kept
  obtain ⟨hq, htaken', hout', -, -, hpoint'⟩ := pushed_cases hof hpush
  have hheld : s.held = s'.buffer.queue := by rw [held, hpoint, hq]; rfl
  have hlength : s'.buffer.queue.length = s.buffer.queue.length + 1 := by rw [hq, List.length_append]; rfl
  have hrest : s'.point.pending = [] ∧ s'.point.Of cfg.rewriteAlgorithm ∧ s'.point ≠ .done ∧ s'.point.rank ≤ 2 := by
    obtain hpoint' | ⟨hpoint', halg⟩ | ⟨hpoint', halg⟩ := hpoint'
    · rw [hpoint']
      exact ⟨rfl, trivial, by simp, Nat.zero_le _⟩
    · rw [hpoint']
      exact ⟨rfl, halg, by simp, by decide⟩
    · rw [hpoint']
      exact ⟨rfl, halg, by simp, le_rfl⟩
  refine ⟨⟨hrest.2.1, fun hno ↦ absurd hno hof, fun hdone ↦ absurd hdone hrest.2.2.1, done, ?_, hout' ▸ hmarked⟩,
    ?_, htaken', hq⟩
  · rw [htaken', htaken, hheld, held, hrest.1, List.append_nil]
  · -- the queue has got longer by one, which the rank of a push pays for
    have hle := hrest.2.2.2
    rw [work_of_rank (s := s) (n := 3) (by rw [hpoint]; rfl), work, hlength]
    split_ifs <;> omega

theorem Passing.decided (h : s.Passing cfg) (hpoint : s.point = .decide) {outOfOrder recordFlag : Bool}
    (hdec : s.decided cfg inherited outOfOrder recordFlag = .ok s') :
    s'.Passing cfg ∧ s'.work < s.work ∧ s'.taken = s.taken ∧ s'.buffer.queue <:+ s.buffer.queue := by
  have hof := h.of
  rw [hpoint] at hof
  have hno : cfg.rewriteAlgorithm ≠ .no := by rw [hof]; decide
  obtain ⟨c, d, hq, hd, htaken', hout', hpoint'⟩ := decided_cases hno hdec
  have hrest : s'.point.pending = [] ∧ s'.point.Of cfg.rewriteAlgorithm ∧ s'.point ≠ .done ∧ s'.point.rank ≤ 1 := by
    rw [hpoint] at hpoint'
    obtain hpoint' | hpoint' := hpoint'
    · rw [hpoint']
      exact ⟨rfl, hof, by simp, le_rfl⟩
    · rw [hpoint']
      exact ⟨rfl, trivial, by simp, Nat.zero_le _⟩
  have hkept := h.kept
  rw [held, hq, hpoint, List.cons_append] at hkept
  refine ⟨⟨hrest.2.1, fun hno' ↦ absurd hno' hno, fun hdone ↦ absurd hdone hrest.2.2.1, ?_⟩, ?_, htaken', ?_⟩
  · rw [htaken', hout', held, hrest.1]
    exact kept_cons hkept hd
  · have hle := hrest.2.2.2
    rw [work_of_rank (s := s) (n := 0) (by rw [hpoint]; rfl), work, hq, List.length_cons]
    split_ifs <;> omega
  · rw [hq]
    exact List.suffix_cons c _

theorem Passing.chosen (h : s.Passing cfg) {final : Bool} (hpoint : s.point = .sorted final) :
    (s.chosen cfg final).Passing cfg ∧ (s.chosen cfg final).work < s.work := by
  have hof := h.of
  rw [hpoint] at hof
  obtain ⟨done, htaken, hmarked⟩ := h.kept
  refine ⟨⟨hof, fun hno ↦ absurd (hno.symm.trans hof) (by decide),
    fun hdone ↦ absurd hdone (by simp [Rewriter.chosen]), done, ?_, hmarked⟩, ?_⟩
  · rw [held, hpoint] at htaken
    exact htaken
  · rw [work_of_rank (s := s) (n := 1) (by rw [hpoint]; rfl), work_of_rank (n := 0) rfl]
    exact Nat.lt_succ_self _

/-- **Every call keeps the order, and leaves less work.** A call takes chunks from the head of the queue only, or
pushes the chunk that is pending. -/
theorem Passing.call (h : s.Passing cfg) {outOfOrder recordFlag late : Bool}
    (hturn : s.turn cfg inherited (.call outOfOrder recordFlag late) = some (.ok s')) :
    s'.Passing cfg ∧ s'.work < s.work ∧ s'.taken = s.taken ∧ (s'.buffer.queue <:+ s.buffer.queue ∨
      ∃ c, s.point = .pushing c ∧ s'.buffer.queue = s.buffer.queue ++ [c]) := by
  have hof := h.of
  simp only [Rewriter.turn] at hturn
  cases hpoint : s.point with
  | loop =>
    rw [hpoint] at hturn
    exact absurd hturn.symm (Option.some_ne_none _)
  | done =>
    rw [hpoint] at hturn
    exact absurd hturn.symm (Option.some_ne_none _)
  | passing c =>
    rw [hpoint] at hturn
    obtain rfl := Except.ok.inj (Option.some.inj hturn)
    obtain ⟨hpassing, hwork⟩ := h.passed inherited hpoint late
    exact ⟨hpassing, hwork, rfl, .inl List.suffix_rfl⟩
  | pushing c =>
    rw [hpoint] at hturn
    obtain ⟨hpassing, hwork, htaken, hq⟩ := h.pushed hpoint (Option.some.inj hturn)
    exact ⟨hpassing, hwork, htaken, .inr ⟨c, rfl, hq⟩⟩
  | judge c =>
    rw [hpoint] at hturn hof
    have hno : cfg.rewriteAlgorithm ≠ .no := by rw [hof]; decide
    dsimp only at hturn
    obtain ⟨h₁, h₂, h₃, h₄⟩ := h.emptying (n := 4) (Option.some.inj hturn) (by rw [hpoint]; rfl)
      (fun _ _ ↦ cflMark_marks hno) fun hq ↦ by
        refine ⟨h.left hq (by rw [hpoint]; rfl) hno rfl rfl rfl, ?_, rfl, rfl⟩
        rw [work_of_rank (n := 3) rfl, hq]
        decide
    exact ⟨h₁, h₂, h₃, .inl h₄⟩
  | decide =>
    rw [hpoint] at hturn
    obtain ⟨hpassing, hwork, htaken, hq⟩ := h.decided hpoint (Option.some.inj hturn)
    exact ⟨hpassing, hwork, htaken, .inl hq⟩
  | sorted final =>
    rw [hpoint] at hturn
    obtain rfl := Except.ok.inj (Option.some.inj hturn)
    obtain ⟨hpassing, hwork⟩ := h.chosen hpoint
    exact ⟨hpassing, hwork, rfl, .inl List.suffix_rfl⟩
  | flush final =>
    rw [hpoint] at hturn hof
    have hno : cfg.rewriteAlgorithm ≠ .no := by rw [hof]; decide
    dsimp only at hturn
    obtain ⟨h₁, h₂, h₃, h₄⟩ := h.emptying (n := 0) (Option.some.inj hturn) (by rw [hpoint]; rfl)
      (fun _ _ ↦ capMark_marks hno) fun hq ↦ by
        cases final with
        | true => exact ⟨h.left hq (by rw [hpoint]; rfl) trivial rfl rfl rfl, Nat.one_pos, rfl, rfl⟩
        | false => exact ⟨h.left hq (by rw [hpoint]; rfl) trivial rfl rfl rfl, Nat.one_pos, rfl, rfl⟩
    exact ⟨h₁, h₂, h₃, .inl h₄⟩
  | drain =>
    rw [hpoint] at hturn hof
    have hno : cfg.rewriteAlgorithm ≠ .no := by
      obtain halg | halg := hof
      · rw [halg]
        decide
      · rw [halg]
        decide
    dsimp only at hturn
    obtain ⟨h₁, h₂, h₃, h₄⟩ := h.emptying (n := 0) (Option.some.inj hturn) (by rw [hpoint]; rfl)
      (fun _ _ ↦ drainMark_marks hno) fun hq ↦
        ⟨h.left hq (by rw [hpoint]; rfl) trivial rfl rfl rfl, Nat.one_pos, rfl, rfl⟩
    exact ⟨h₁, h₂, h₃, .inl h₄⟩

theorem Passing.turn (h : s.Passing cfg) {l : RewriteLabel} (hturn : s.turn cfg inherited l = some (.ok s')) :
    s'.Passing cfg := by
  cases l with
  | take c =>
    rw [Rewriter.turn] at hturn
    split at hturn
    · next hpoint =>
      obtain rfl := Except.ok.inj (Option.some.inj hturn)
      exact h.take hpoint c
    · exact absurd hturn.symm (Option.some_ne_none _)
  | finish =>
    rw [Rewriter.turn] at hturn
    split at hturn
    · next hpoint =>
      obtain rfl := Except.ok.inj (Option.some.inj hturn)
      exact h.finished hpoint
    · exact absurd hturn.symm (Option.some_ne_none _)
  | call outOfOrder recordFlag late => exact (h.call hturn).1

theorem turn_of_next {l : RewriteLabel} (h : (system cfg inherited).next s l = some s') :
    s.turn cfg inherited l = some (.ok s') := by
  obtain ⟨r, hturn, hr⟩ := Option.bind_eq_some_iff.mp h
  rw [hturn, toOption_eq_some.mp hr]

theorem Passing.queue_turn (h : s.Passing cfg) {l : RewriteLabel} (hturn : s.turn cfg inherited l = some (.ok s')) :
    s'.buffer.queue <:+ s.buffer.queue ∨ ∃ c outOfOrder recordFlag late, s.point = .pushing c ∧
      l = .call outOfOrder recordFlag late ∧ s'.buffer.queue = s.buffer.queue ++ [c] := by
  cases l with
  | take c =>
    rw [Rewriter.turn] at hturn
    split at hturn
    · obtain rfl := Except.ok.inj (Option.some.inj hturn)
      exact .inl List.suffix_rfl
    · exact absurd hturn.symm (Option.some_ne_none _)
  | finish =>
    rw [Rewriter.turn] at hturn
    split at hturn
    · obtain rfl := Except.ok.inj (Option.some.inj hturn)
      left
      rw [Rewriter.finished]
      split <;> exact List.suffix_rfl
    · exact absurd hturn.symm (Option.some_ne_none _)
  | call outOfOrder recordFlag late =>
    obtain ⟨-, -, -, hq | ⟨c, hpoint, hq⟩⟩ := h.call hturn
    · exact .inl hq
    · exact .inr ⟨c, outOfOrder, recordFlag, late, hpoint, rfl, hq⟩

theorem Passing.taken_turn (h : s.Passing cfg) {l : RewriteLabel} (hturn : s.turn cfg inherited l = some (.ok s')) :
    s'.taken = s.taken ∨ ∃ c, l = .take c ∧ s'.taken = s.taken ++ [c] := by
  cases l with
  | take c =>
    rw [Rewriter.turn] at hturn
    split at hturn
    · obtain rfl := Except.ok.inj (Option.some.inj hturn)
      exact .inr ⟨c, rfl, rfl⟩
    · exact absurd hturn.symm (Option.some_ne_none _)
  | finish =>
    rw [Rewriter.turn] at hturn
    split at hturn
    · obtain rfl := Except.ok.inj (Option.some.inj hturn)
      left
      rw [Rewriter.finished]
      split <;> rfl
    · exact absurd hturn.symm (Option.some_ne_none _)
  | call outOfOrder recordFlag late => exact .inl (h.call hturn).2.2.1

/-- **The order holds in every run.** -/
theorem passing_of_reachable (h : (system cfg inherited).Reachable s) : s.Passing cfg := by
  refine h.invariant ?_ ?_
  · rintro s rfl
    exact passing_init cfg
  · exact fun s l s' hs hnext ↦ hs.turn (turn_of_next hnext)

/-- The states that are reached by the steps that `allow` lets happen. -/
abbrev Reach (cfg : Config) (inherited : List ℤ) (allow : Rewriter → RewriteLabel → Prop) : Rewriter → Prop :=
  (system cfg inherited).Reach allow

/-- The steps whose chunk, if it is the arrival of one, satisfies `P`. -/
def Taking (P : Chunk → Prop) (_ : Rewriter) : RewriteLabel → Prop
  | .take c => P c
  | .finish => True
  | .call _ _ _ => True

instance (P : Chunk → Prop) [DecidablePred P] (s : Rewriter) : DecidablePred (Taking P s)
  | .take c => inferInstanceAs (Decidable (P c))
  | .finish => isTrue trivial
  | .call _ _ _ => isTrue trivial

theorem forall_taken {P : Chunk → Prop} (h : Reach cfg inherited (Taking P) s) : ∀ c ∈ s.taken, P c := by
  refine (Transition.System.Reach.invariant (P := fun s ↦ s.Passing cfg ∧ ∀ c ∈ s.taken, P c) ?_ ?_ h).2
  · rintro s rfl
    exact ⟨passing_init cfg, fun _ hc ↦ absurd hc List.not_mem_nil⟩
  · rintro s l s' ⟨hpassing, hall⟩ hl hnext
    have hturn := turn_of_next hnext
    refine ⟨hpassing.turn hturn, ?_⟩
    rcases hpassing.taken_turn hturn with htaken | ⟨c, rfl, htaken⟩
    · rwa [htaken]
    · rw [htaken, List.forall_mem_append, List.forall_mem_singleton]
      exact ⟨hall, hl⟩

end Rewriter

end UniDedup.Node
