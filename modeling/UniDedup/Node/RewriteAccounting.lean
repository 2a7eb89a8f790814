import UniDedup.Node.RewriteRun
import UniDedup.Node.Rewriter

/-!
# The accounts of the rewrite buffer

The buffer counts its chunks, their total size and the size of the duplicates of each container, in `int`s. The
accounts are those of the buffer in numbers as long as nothing is too large for its `int`.

## What may wrap

`Sound` relates a rewriter to a buffer in numbers. It asks that the number of chunks and the size of the duplicates
of each container fit an `int`, and not that the total size of the buffer does: the total is only compared with a
threshold, so where it wraps, `cfl_rewrite` decides otherwise and nothing else happens. The records do matter. One
that comes to zero by wrapping is removed, and the next chunk of its container finds none.

So there are two conditions on a run, each about the chunk that is pushed: under `RecordsFit` no assertion fails, and
under `TotalFits`, which is the stronger, `num` and `size` are exact as well.

## The invariant

Between two calls the buffer is never over-full, as each rewriter makes room when a push says that the buffer is
full. Between the sorts of `cap_segment_get_top` the records are in the order of their sizes; at all other points
they are in that of their containers, each of which has one record.
-/

namespace UniDedup.Node

open Outcome Comparing

/-- Chunks are not empty, and container ids have 31 bits. -/
structure Chunk.Sized (c : Chunk) : Prop where
  size_pos : c.isMarker = false → 0 < c.size
  id31 : c.isMarker = false → c.id ≠ temporaryId → Id31 c.id

instance (c : Chunk) : Decidable c.Sized :=
  decidable_of_iff ((c.isMarker = false → 0 < c.size) ∧
    (c.isMarker = false → c.id ≠ temporaryId → 0 ≤ c.id ∧ c.id < 2 ^ 31)) ⟨fun h ↦ ⟨h.1, h.2⟩, fun h ↦ ⟨h.1, h.2⟩⟩

/-- A chunk that is about to be pushed satisfies `P`. -/
def RewritePoint.Pushes (P : Chunk → Prop) : RewritePoint → Prop
  | .pushing c => P c
  | _ => True

instance (P : Chunk → Prop) [DecidablePred P] : DecidablePred (RewritePoint.Pushes P)
  | .loop => isTrue trivial
  | .passing _ => isTrue trivial
  | .pushing c => inferInstanceAs (Decidable (P c))
  | .judge _ => isTrue trivial
  | .decide => isTrue trivial
  | .sorted _ => isTrue trivial
  | .flush _ => isTrue trivial
  | .drain => isTrue trivial
  | .done => isTrue trivial

theorem RewritePoint.Pushes.imp {P Q : Chunk → Prop} {p : RewritePoint} (h : p.Pushes P) (hPQ : ∀ c, P c → Q c) :
    p.Pushes Q := by
  cases p with
  | pushing c => exact hPQ c h
  | _ => trivial

/-- **The accounts of the buffer**, whatever the order of the records. -/
structure IntBuffer.Accounted (buf : IntBuffer) : Prop where
  num : buf.num = dataNum buf.queue
  size : buf.size = dataSize buf.queue
  nodup : (buf.records.map IntRecord.cid).Nodup
  recorded : ∀ id, id ∈ buf.records.map IntRecord.cid ↔ ∃ c ∈ buf.queue, c.storedDuplicate = true ∧ c.id = id
  exact : ∀ r ∈ buf.records, r.size = duplicateSize r.cid buf.queue

/-- Between the sorts of `cap_segment_get_top`. -/
def RewritePoint.isSorted : RewritePoint → Bool
  | .sorted _ => true
  | _ => false

namespace RewriteBuffer

/-- A buffer that is exact in numbers. All of its numbers but the total size fit their `int`s. -/
structure Bounded (cfg : Config) (buf : RewriteBuffer) : Prop where
  accounted : buf.Accounted
  sized : ∀ c ∈ buf.queue, c.Sized
  num_le : buf.num ≤ cfg.rewriteBufferSize
  size_lt : ∀ id, duplicateSize id buf.queue < 2 ^ 31

variable {cfg : Config} {inherited : List ℤ} {buf : RewriteBuffer} {c : Chunk}

theorem bounded_empty (cfg : Config) : Bounded cfg empty :=
  ⟨accounted_empty, fun _ hc ↦ absurd hc List.not_mem_nil, Nat.zero_le _, fun _ ↦ Nat.two_pow_pos 31⟩

theorem Bounded.num_eq_zero (h : buf.Bounded cfg) (hq : buf.queue = []) : buf.num = 0 := by
  rw [h.accounted.num, hq]
  rfl

theorem Bounded.fits (hint : cfg.rewriteBufferSize < 2 ^ 31) (h : buf.Bounded cfg) : buf.Fits where
  id c hc hstored := by
    obtain ⟨hm, -, hid⟩ := Chunk.storedDuplicate_eq_true.mp hstored
    exact (h.sized c hc).id31 hm hid
  num := h.num_le.trans_lt hint
  size := h.size_lt

/-- A push keeps the bounds, or ends in the assertion that a chunk with a container is a duplicate. -/
theorem Bounded.push (hint : cfg.rewriteBufferSize < 2 ^ 31) (h : buf.Bounded cfg)
    (hroom : buf.num < cfg.rewriteBufferSize) (hc : c.Sized)
    (hfits : c.storedDuplicate = true → duplicateSize c.id buf.queue + c.size < 2 ^ 31) :
    buf.toInt.push cfg c = .error .notDuplicate ∧ ¬c.Rewritable ∨ ∃ (buf' : RewriteBuffer) (full : Bool),
      buf.toInt.push cfg c = .ok (buf'.toInt, full) ∧
      buf'.Bounded cfg ∧ (full = false → buf'.num < cfg.rewriteBufferSize) ∧
        (full = true → buf'.num = cfg.rewriteBufferSize) := by
  have hnum : buf.num + 1 < 2 ^ 31 := (Nat.succ_le_of_lt hroom).trans_lt hint
  rw [h.accounted.push_toInt cfg (h.fits hint) hc.id31 (fun _ ↦ hnum) hfits]
  by_cases hdup : c.isMarker = false → c.id ≠ temporaryId → c.duplicate = true
  · obtain ⟨⟨buf', full⟩, hpush, hbuf'⟩ :=
      (h.accounted.push cfg ⟨hdup, hc.size_pos⟩ fun _ ↦ hroom).exists_ok
    obtain ⟨-, hnotfull, hle⟩ := counted_push h.accounted.num hpush
    have hq := queue_push hpush
    refine .inr ⟨buf', full, by rw [hpush]; rfl, ⟨hbuf', fun d hd ↦ ?_, ?_, fun id ↦ ?_⟩,
      fun hf ↦ hnotfull hf hroom, fun hf ↦ num_of_full h.accounted.num (hf ▸ hpush)⟩
    · rw [hq] at hd
      rcases List.mem_append.mp hd with hd | hd
      · exact h.sized d hd
      · exact List.mem_singleton.mp hd ▸ hc
    · cases full with
      | false => exact (hnotfull rfl hroom).le
      | true => exact (hle rfl).2
    · rw [hq, duplicateSize_append, duplicateSize_singleton]
      split_ifs with hstored
      · exact hstored.2 ▸ hfits hstored.1
      · exact h.size_lt id
  -- the assertion of the push comes before anything is counted
  · left
    have hnot : ¬c.Rewritable := fun hr ↦ hdup hr.duplicate
    push Not at hdup
    obtain ⟨hm, hid, hdup⟩ := hdup
    refine ⟨?_, hnot⟩
    rw [RewriteBuffer.push, if_neg (by simp [hm]), check, if_neg (by simp [hid, hdup])]
    rfl

variable (inherited) in
theorem Bounded.pop (hint : cfg.rewriteBufferSize < 2 ^ 31) (h : buf.Bounded cfg) {queue : List Chunk}
    (hq : buf.queue = c :: queue) :
    ∃ buf' : RewriteBuffer, buf.toInt.pop cfg inherited = .ok (some (popped cfg inherited c, buf'.toInt)) ∧
      buf'.Bounded cfg ∧ buf'.queue = queue := by
  obtain ⟨buf', hpop, hbuf', hqueue⟩ := h.accounted.pop cfg inherited hq
  refine ⟨buf', by rw [h.accounted.pop_toInt cfg inherited (h.fits hint), hpop]; rfl,
    ⟨hbuf', fun d hd ↦ h.sized d ?_, ?_, fun id ↦ ?_⟩, hqueue⟩
  · rw [hq]
    exact List.mem_cons_of_mem c (hqueue ▸ hd)
  · have hnum := h.accounted.num
    have hle := h.num_le
    rw [Counted, hq, dataNum_cons] at hnum
    rw [hbuf'.num, hqueue]
    split_ifs at hnum <;> omega
  · have hlt := h.size_lt id
    rw [hq, duplicateSize_cons] at hlt
    rw [hqueue]
    split_ifs at hlt <;> omega

/-- What is exact in numbers is exact in integers, if the total size is one. -/
theorem Accounted.toInt (h : buf.Accounted) (hlt : dataSize buf.queue < 2 ^ 31) {b : IntBuffer}
    (hqueue : b.queue = buf.queue) (hnum : b.num = buf.num) (hsize : b.size = int32 buf.size)
    (hperm : b.records.Perm buf.toInt.records) : b.Accounted where
  num := by
    rw [hnum, hqueue]
    exact congrArg Nat.cast h.num
  size := by
    have hbytes := h.size
    rw [hsize, hqueue, int32_eq] <;> omega
  nodup := by
    refine (hperm.map IntRecord.cid).nodup_iff.mpr ?_
    rw [RewriteBuffer.toInt, cid_toInt]
    exact h.sorted.imp ne_of_lt
  recorded id := by
    refine (hperm.map IntRecord.cid).mem_iff.trans ?_
    rw [RewriteBuffer.toInt, cid_toInt, hqueue]
    exact h.recorded id
  exact r hr := by
    obtain ⟨r', hr', rfl⟩ := List.mem_map.mp (hperm.subset hr)
    rw [hqueue]
    exact congrArg Nat.cast (h.exact r' hr')

end RewriteBuffer

/-! ## The rewriters -/

namespace Rewriter

variable {cfg : Config} {inherited : List ℤ} {s s' next : Rewriter} {buf : RewriteBuffer} {c : Chunk}
variable {l : RewriteLabel}

/-- A step with a chunk that is not empty, or a push after which the duplicates of each container total less than
`2 ^ 31` bytes. -/
def RecordsFit (s : Rewriter) : RewriteLabel → Prop
  | .take c => c.Sized
  | .finish => True
  | .call _ _ _ => s.point.Pushes fun c ↦
      c.storedDuplicate = true → duplicateSize c.id s.buffer.queue + c.size < 2 ^ 31

/-- The same of the chunks of the buffer together. -/
def TotalFits (s : Rewriter) : RewriteLabel → Prop
  | .take c => c.Sized
  | .finish => True
  | .call _ _ _ => s.point.Pushes fun c ↦ c.isMarker = false → dataSize s.buffer.queue + c.size < 2 ^ 31

instance (s : Rewriter) : DecidablePred s.RecordsFit
  | .take c => inferInstanceAs (Decidable c.Sized)
  | .finish => isTrue trivial
  | .call _ _ _ => inferInstanceAs (Decidable (s.point.Pushes fun c ↦
      c.storedDuplicate = true → duplicateSize c.id s.buffer.queue + c.size < 2 ^ 31))

instance (s : Rewriter) : DecidablePred s.TotalFits
  | .take c => inferInstanceAs (Decidable c.Sized)
  | .finish => isTrue trivial
  | .call _ _ _ => inferInstanceAs (Decidable (s.point.Pushes fun c ↦
      c.isMarker = false → dataSize s.buffer.queue + c.size < 2 ^ 31))

theorem TotalFits.recordsFit (h : s.TotalFits l) : s.RecordsFit l := by
  cases l with
  | take c => exact h
  | finish => trivial
  | call outOfOrder recordFlag late =>
    refine RewritePoint.Pushes.imp h fun c hc hstored ↦ ?_
    have hle := RewriteBuffer.duplicateSize_le_dataSize c.id s.buffer.queue
    exact (Nat.add_le_add_right hle _).trans_lt (hc (Chunk.storedDuplicate_eq_true.mp hstored).1)

/-- What holds at the points of a rewriter, given the number of buffered chunks. -/
def PointOk (cfg : Config) (s : Rewriter) (num : ℕ) : Prop :=
  match s.point with
  | .loop => s.bufferFull = false → num < cfg.rewriteBufferSize
  | .passing _ => s.bufferFull = false → num < cfg.rewriteBufferSize
  | .pushing c => s.bufferFull = false ∧ num < cfg.rewriteBufferSize ∧ c.Sized
  | .judge c => c.Sized
  | .decide => num = cfg.rewriteBufferSize
  | .sorted _ => True
  | .flush _ => True
  | .drain => True
  | .done => True

/-- **The invariant**: the buffer is one in numbers. -/
structure Sound (cfg : Config) (s : Rewriter) (buf : RewriteBuffer) : Prop where
  bounded : buf.Bounded cfg
  buffer : s.buffer = if s.point.isSorted then buf.toInt.sortByLength else buf.toInt
  point : s.PointOk cfg buf.num
  flag : cfg.rewriteAlgorithm ≠ .cfl → s.bufferFull = false

theorem Sound.queue (h : s.Sound cfg buf) : s.buffer.queue = buf.queue := by
  rw [h.buffer]
  split <;> rfl

theorem Sound.same (h : s.Sound cfg buf) (hsorted : s.point.isSorted = false) : s.buffer = buf.toInt := by
  rw [h.buffer, hsorted]
  rfl

theorem Sound.mk' (hbuf : buf.Bounded cfg) (hsorted : s.point.isSorted = false) (heq : s.buffer = buf.toInt)
    (hpoint : s.PointOk cfg buf.num) (hflag : cfg.rewriteAlgorithm ≠ .cfl → s.bufferFull = false) :
    s.Sound cfg buf :=
  ⟨hbuf, by rw [hsorted, heq]; rfl, hpoint, hflag⟩

theorem toInt_empty : RewriteBuffer.empty.toInt = .empty := by
  have hzero : int32 ((0 : ℕ) : ℤ) = 0 := by
    rw [int32_eq] <;> decide
  rw [RewriteBuffer.toInt, RewriteBuffer.empty]
  dsimp only
  rw [hzero]
  rfl

theorem sound_init (hpos : 0 < cfg.rewriteBufferSize) : init.Sound cfg .empty :=
  .mk' (RewriteBuffer.bounded_empty cfg) rfl toInt_empty.symm (fun _ ↦ hpos) fun _ ↦ rfl

theorem Sound.take (h : s.Sound cfg buf) (hpoint : s.point = .loop) (hc : c.Sized) :
    Sound cfg { s with point := s.takePoint cfg c, taken := s.taken ++ [c] } buf := by
  have hroom := h.point
  have heq := h.same (by rw [hpoint]; rfl)
  rw [PointOk, hpoint] at hroom
  have hready : (s.takePoint cfg c).isSorted = false ∧
      PointOk cfg { s with point := s.takePoint cfg c, taken := s.taken ++ [c] } buf.num := by
    cases halg : cfg.rewriteAlgorithm with
    | no =>
      simp only [PointOk, takePoint, halg]
      exact ⟨rfl, hroom⟩
    | cfl =>
      simp only [PointOk, takePoint, halg]
      split_ifs with hboundary
      · exact ⟨rfl, hc⟩
      · rw [Bool.or_eq_true, not_or] at hboundary
        have hflag : s.bufferFull = false := by simpa using hboundary.2
        exact ⟨rfl, hflag, hroom hflag, hc⟩
    | contextBased =>
      have hflag := h.flag (by simp [halg])
      simp only [PointOk, takePoint, halg]
      exact ⟨rfl, hflag, hroom hflag, hc⟩
    | capping =>
      have hflag := h.flag (by simp [halg])
      simp only [PointOk, takePoint, halg]
      exact ⟨rfl, hflag, hroom hflag, hc⟩
  exact .mk' h.bounded hready.1 heq hready.2 h.flag

theorem Sound.finished (h : s.Sound cfg buf) (hpoint : s.point = .loop) : (s.finished cfg).Sound cfg buf := by
  have heq := h.buffer
  rw [hpoint] at heq
  rw [Rewriter.finished]
  cases halg : cfg.rewriteAlgorithm with
  | no => exact ⟨h.bounded, heq, trivial, h.flag⟩
  | cfl => exact ⟨h.bounded, heq, trivial, h.flag⟩
  | contextBased => exact ⟨h.bounded, heq, trivial, h.flag⟩
  | capping => exact ⟨h.bounded, congrArg IntBuffer.sortByLength heq, trivial, h.flag⟩

/-- **A push.** -/
theorem Sound.pushed (hint : cfg.rewriteBufferSize < 2 ^ 31) (h : s.Sound cfg buf) (hpoint : s.point = .pushing c)
    (hno : cfg.rewriteAlgorithm ≠ .no)
    (hfits : c.storedDuplicate = true → duplicateSize c.id s.buffer.queue + c.size < 2 ^ 31) :
    s.pushed cfg c = .error .notDuplicate ∧ ¬c.Rewritable ∨
      ∃ s' buf', s.pushed cfg c = .ok s' ∧ s'.Sound cfg buf' := by
  have hready := h.point
  have heq := h.buffer
  rw [PointOk, hpoint] at hready
  rw [hpoint] at heq
  rw [h.queue] at hfits
  obtain ⟨hflag, hroom, hc⟩ := hready
  rw [Rewriter.pushed, heq]
  rcases h.bounded.push hint hroom hc hfits with ⟨herror, hnot⟩ | ⟨buf', full, hpush, hbuf', hlt, hfull⟩
  · refine .inl ⟨?_, hnot⟩
    show (buf.toInt.push cfg c >>= _) = _
    rw [herror]
    rfl
  right
  show ∃ s' buf', (buf.toInt.push cfg c >>= _) = _ ∧ _
  rw [hpush]
  cases halg : cfg.rewriteAlgorithm with
  | no => exact absurd halg hno
  | cfl =>
    refine ⟨_, buf', rfl, hbuf', rfl, fun hnotfull ↦ hlt ?_, fun hne ↦ absurd halg hne⟩
    simpa [hflag] using hnotfull
  | contextBased =>
    cases full with
    | false => exact ⟨_, buf', rfl, hbuf', rfl, fun _ ↦ hlt rfl, fun _ ↦ hflag⟩
    | true => exact ⟨_, buf', rfl, hbuf', rfl, hfull rfl, fun _ ↦ hflag⟩
  | capping =>
    cases full with
    | false => exact ⟨_, buf', rfl, hbuf', rfl, fun _ ↦ hlt rfl, fun _ ↦ hflag⟩
    | true => exact ⟨_, buf', rfl, hbuf', rfl, trivial, fun _ ↦ hflag⟩

/-- The second sort puts the records in order again, and the containers chosen have the largest totals. -/
theorem Sound.chosen (hint : cfg.rewriteBufferSize < 2 ^ 31) (h : s.Sound cfg buf) {final : Bool}
    (hpoint : s.point = .sorted final) :
    (s.chosen cfg final).Sound cfg buf ∧ (s.chosen cfg final).top = capTop cfg buf := by
  have heq := h.buffer
  rw [hpoint] at heq
  have hfits := h.bounded.fits hint
  refine ⟨⟨h.bounded, ?_, trivial, h.flag⟩, ?_⟩
  · show s.buffer.sortById = buf.toInt
    rw [heq]
    exact h.bounded.accounted.sortById_toInt hfits
  · show (s.buffer.records.take cfg.cappingLevel).map IntRecord.cid = _
    rw [heq]
    exact h.bounded.accounted.capTop_eq hfits

variable (inherited) in
/-- Popping from the buffer: its head is marked and passed on, or it is empty. -/
theorem Sound.popped (mark : Chunk → Except RewriteAbort Chunk) (hint : cfg.rewriteBufferSize < 2 ^ 31)
    (h : s.Sound cfg buf) (hsorted : s.point.isSorted = false) (next : Rewriter)
    (hmark : ∀ c ∈ buf.queue, ∃ d, mark (RewriteBuffer.popped cfg inherited c) = .ok d) :
    s.popped cfg inherited mark next = .ok next ∧ buf = .empty ∨
      ∃ (c d : Chunk) (buf' : RewriteBuffer), buf.queue = c :: buf'.queue ∧ buf'.Bounded cfg ∧
        s.popped cfg inherited mark next = .ok (pass { s with buffer := buf'.toInt } d) := by
  rw [Rewriter.popped, h.same hsorted]
  rcases hq : buf.queue with _ | ⟨c, queue⟩
  · refine .inl ⟨?_, h.bounded.accounted.eq_empty hq⟩
    have hpop : buf.toInt.pop cfg inherited = .ok none := by
      rw [h.bounded.accounted.pop_toInt cfg inherited (h.bounded.fits hint), RewriteBuffer.pop_nil hq]
      rfl
    rw [hpop]
    rfl
  · obtain ⟨buf', hpop, hbuf', hqueue⟩ := h.bounded.pop inherited hint hq
    obtain ⟨d, hd⟩ := hmark c (hq ▸ List.mem_cons_self)
    refine .inr ⟨c, d, buf', by rw [hqueue], hbuf', ?_⟩
    rw [hpop]
    show (mark _ >>= _) = _
    rw [hd]
    rfl

theorem markHead_spec (hint : cfg.rewriteBufferSize < 2 ^ 31) (halg : cfg.rewriteAlgorithm ≠ .no)
    (h : buf.Bounded cfg) {queue : List Chunk} (hq : buf.queue = c :: queue) (hm : c.isMarker = false)
    (outOfOrder recordFlag : Bool) :
    ∃ (buf' : RewriteBuffer) (d : Chunk), markHead buf.toInt c queue outOfOrder recordFlag = .ok buf'.toInt ∧
      buf'.Bounded cfg ∧ buf'.queue = d :: queue ∧ d.isMarker = false := by
  rw [markHead]
  split
  · exact ⟨buf, c, rfl, h, hq, hm⟩
  next hid =>
  have hc : c.Rewritable := h.accounted.rewritable c (hq ▸ List.mem_cons_self)
  have hsized := h.sized c (hq ▸ List.mem_cons_self)
  have hstored := hc.storedDuplicate hm hid
  have hmem : c.id ∈ buf.records.map ContainerRecord.cid :=
    (h.accounted.recorded c.id).mpr ⟨c, hq ▸ List.mem_cons_self, hstored, rfl⟩
  rcases lookup_toInt (h.accounted.id31 (h.fits hint)) (hsized.id31 hm hid) with
    ⟨-, hnot⟩ | ⟨before, r, behind, hrecords, hcid, hsome⟩
  · exact absurd hmem hnot
  have hlookup : lookup gRecordCmpById ⟨c.id, 0, false⟩ buf.toInt.records =
      some (before.map ContainerRecord.toInt, r.toInt, behind.map ContainerRecord.toInt) := hsome
  -- the record of the container gets the flag, and no other record does
  have hmap : buf.records.map (fun r' ↦ if r'.cid = c.id then { r' with outOfOrder := recordFlag } else r') =
      before ++ { r with outOfOrder := recordFlag } :: behind := by
    have hsorted := h.accounted.sorted
    rw [hrecords] at hsorted ⊢
    obtain ⟨hbefore, hbehind⟩ := cid_ne hsorted
    rw [hcid] at hbefore hbehind
    rw [List.map_append, List.map_cons, map_of_ne hbefore, map_of_ne hbehind, if_pos hcid]
  have hmarks : c.Marks cfg { c with outOfOrder := c.outOfOrder || outOfOrder } := .setOutOfOrder halg c _
  have hacc := h.accounted.mark hq hmarks
    (f := fun r' ↦ if r'.cid = c.id then { r' with outOfOrder := recordFlag } else r') fun r' ↦ by
      split_ifs <;> exact ⟨rfl, rfl⟩
  rw [hmap] at hacc
  refine ⟨_, _, ?_, ⟨hacc, fun d hd ↦ ?_, h.num_le, fun id ↦ ?_⟩, rfl, hm⟩
  · rw [check, if_pos (hc.duplicate hm hid), hlookup]
    simp only [RewriteBuffer.toInt, List.map_append, List.map_cons]
    rfl
  · rcases List.mem_cons.mp hd with rfl | hd
    · exact ⟨hsized.size_pos, hsized.id31⟩
    · exact h.sized d (hq ▸ List.mem_cons_of_mem c hd)
  · have hlt := h.size_lt id
    rw [hq, duplicateSize_cons, ← hmarks.storedDuplicate, ← hmarks.id, ← hmarks.size] at hlt
    rwa [duplicateSize_cons]

theorem Sound.decided (hpos : 0 < cfg.rewriteBufferSize) (hint : cfg.rewriteBufferSize < 2 ^ 31)
    (h : s.Sound cfg buf) (hpoint : s.point = .decide) (halg : cfg.rewriteAlgorithm = .contextBased)
    (outOfOrder recordFlag : Bool) :
    ∃ s' buf', s.decided cfg inherited outOfOrder recordFlag = .ok s' ∧ s'.Sound cfg buf' := by
  have hnum := h.point
  rw [PointOk, hpoint] at hnum
  have hflag := h.flag (by simp [halg])
  have hsame := h.same (by rw [hpoint]; rfl)
  rw [Rewriter.decided, h.queue]
  rcases hq : buf.queue with _ | ⟨c, queue⟩
  · rw [h.bounded.num_eq_zero hq] at hnum
    exact absurd hnum hpos.ne
  dsimp only
  by_cases hm : c.isMarker = true
  · rw [if_pos hm]
    rcases h.popped inherited .ok hint (by rw [hpoint]; rfl) s fun _ _ ↦ ⟨_, rfl⟩ with
      ⟨-, rfl⟩ | ⟨c', d, buf', hq', hbuf', hpop⟩
    · exact absurd hq.symm (List.cons_ne_nil _ _)
    · refine ⟨_, buf', hpop, .mk' hbuf' (by rw [pass, hpoint]; rfl) rfl ?_ fun _ ↦ hflag⟩
      -- a marker does not count
      rw [hq] at hq'
      obtain ⟨rfl, rfl⟩ := List.cons.inj hq'
      rw [h.bounded.accounted.num, hq, dataNum_cons, if_pos hm] at hnum
      simp only [PointOk, pass, hpoint]
      rw [hbuf'.accounted.num]
      exact hnum
  · have hm' : c.isMarker = false := by simpa using hm
    obtain ⟨buf₁, d, hmark, hbuf₁, hq₁, hd⟩ :=
      markHead_spec hint (by simp [halg]) h.bounded hq hm' outOfOrder recordFlag
    obtain ⟨buf', hpop, hbuf', hqueue'⟩ := hbuf₁.pop inherited hint hq₁
    rw [if_neg hm, hsame, hmark]
    refine ⟨pass { s with buffer := buf'.toInt, point := .loop } (RewriteBuffer.popped cfg inherited d), buf', ?_,
      .mk' hbuf' rfl rfl ?_ fun _ ↦ hflag⟩
    · show Rewriter.popped cfg inherited .ok { s with buffer := buf₁.toInt, point := .loop } s = _
      rw [Rewriter.popped]
      dsimp only
      rw [hpop]
      rfl
    · have hle := hbuf₁.num_le
      rw [hbuf₁.accounted.num, hq₁, dataNum_cons, if_neg (by simp [hd])] at hle
      intro _
      rw [hbuf'.accounted.num, hqueue']
      exact hle

/-- Popping where the buffer is emptied: the loop goes on, or it is left. -/
theorem Sound.emptying {mark : Chunk → Except RewriteAbort Chunk} (hint : cfg.rewriteBufferSize < 2 ^ 31)
    (h : s.Sound cfg buf) (hsorted : s.point.isSorted = false)
    (hmark : ∀ c ∈ buf.queue, ∃ d, mark (RewriteBuffer.popped cfg inherited c) = .ok d)
    (hstay : ∀ num num', s.PointOk cfg num → s.PointOk cfg num')
    (hnext : buf = .empty → next.Sound cfg .empty) :
    ∃ s' buf', s.popped cfg inherited mark next = .ok s' ∧ s'.Sound cfg buf' := by
  rcases h.popped inherited mark hint hsorted next hmark with ⟨hpop, hempty⟩ | ⟨c, d, buf', -, hbuf', hpop⟩
  · exact ⟨next, .empty, hpop, hnext hempty⟩
  · exact ⟨pass { s with buffer := buf'.toInt } d, buf', hpop,
      .mk' hbuf' hsorted rfl (hstay _ _ h.point) h.flag⟩

theorem Sound.left (h : s.Sound cfg buf) (hsorted : s.point.isSorted = false) (hempty : buf = .empty)
    (hbuffer : next.buffer = s.buffer) (hnext : next.point.isSorted = false) (hpoint : next.PointOk cfg 0)
    (hflag : cfg.rewriteAlgorithm ≠ .cfl → next.bufferFull = false) : next.Sound cfg .empty := by
  refine .mk' (hempty ▸ h.bounded) hnext ?_ hpoint hflag
  rw [hbuffer, h.same hsorted, hempty]

theorem drainMark_total (h : c.Rewritable) (outOfOrder : Bool) : ∃ d, drainMark cfg outOfOrder c = .ok d := by
  rcases drainMark_cases cfg outOfOrder with hmark | hmark
  · exact hmark ▸ cflMark_total h outOfOrder
  · exact hmark ▸ ⟨c, rfl⟩

/-- **Every call keeps the invariant**, or ends in the assertion that a chunk with a container is a duplicate. -/
theorem Sound.call (hpos : 0 < cfg.rewriteBufferSize) (hint : cfg.rewriteBufferSize < 2 ^ 31) (h : s.Sound cfg buf)
    (hof : s.point.Of cfg.rewriteAlgorithm) {outOfOrder recordFlag late : Bool}
    (hl : s.RecordsFit (.call outOfOrder recordFlag late)) {r : Except RewriteAbort Rewriter}
    (hturn : s.turn cfg inherited (.call outOfOrder recordFlag late) = some r) :
    r = .error .notDuplicate ∧ (∃ c, s.point = .pushing c ∧ ¬c.Rewritable) ∨
      ∃ s' buf', r = .ok s' ∧ s'.Sound cfg buf' := by
  have hpointOk := h.point
  have hrewritable : ∀ c ∈ buf.queue, (RewriteBuffer.popped cfg inherited c).Rewritable := fun c hc ↦
    (h.bounded.accounted.rewritable c hc).marks (RewriteBuffer.popped_marks cfg inherited c)
  simp only [Rewriter.turn] at hturn
  rw [PointOk] at hpointOk
  cases hpoint : s.point with
  | loop =>
    rw [hpoint] at hturn
    exact absurd hturn.symm (Option.some_ne_none r)
  | done =>
    rw [hpoint] at hturn
    exact absurd hturn.symm (Option.some_ne_none r)
  | passing c =>
    rw [hpoint] at hturn hpointOk
    obtain rfl := Option.some.inj hturn
    exact .inr ⟨_, buf, rfl, .mk' h.bounded rfl (h.same (by rw [hpoint]; rfl)) hpointOk h.flag⟩
  | pushing c =>
    rw [hpoint] at hturn hof
    rw [RecordsFit, hpoint] at hl
    obtain rfl := Option.some.inj hturn
    rcases h.pushed hint hpoint hof hl with ⟨herror, hnot⟩ | hok
    · exact .inl ⟨herror, c, rfl, hnot⟩
    · exact .inr hok
  | judge c =>
    rw [hpoint] at hturn hpointOk
    have hsorted : s.point.isSorted = false := by rw [hpoint]; rfl
    obtain rfl := Option.some.inj hturn
    refine .inr (h.emptying hint hsorted (fun c hc ↦ cflMark_total (hrewritable c hc) _) ?_ fun hempty ↦
      h.left hsorted hempty rfl rfl ⟨rfl, hpos, hpointOk⟩ fun _ ↦ rfl)
    simp only [PointOk, hpoint]
    exact fun _ _ hok ↦ hok
  | decide =>
    rw [hpoint] at hturn hof
    obtain rfl := Option.some.inj hturn
    exact .inr (h.decided hpos hint hpoint hof outOfOrder recordFlag)
  | sorted final =>
    rw [hpoint] at hturn
    exact .inr ⟨_, buf, (Option.some.inj hturn).symm, (h.chosen hint hpoint).1⟩
  | flush final =>
    rw [hpoint] at hturn hof
    have hsorted : s.point.isSorted = false := by rw [hpoint]; rfl
    have hflag := h.flag (by rw [hof]; decide)
    obtain rfl := Option.some.inj hturn
    refine .inr (h.emptying hint hsorted (fun c _ ↦ capMark_total _ _ _) ?_ fun hempty ↦ ?_)
    · simp only [PointOk, hpoint]
      exact fun _ _ hok ↦ hok
    · cases final with
      | true => exact h.left hsorted hempty rfl rfl trivial fun _ ↦ hflag
      | false => exact h.left hsorted hempty rfl rfl (fun _ ↦ hpos) fun _ ↦ hflag
  | drain =>
    rw [hpoint] at hturn
    have hsorted : s.point.isSorted = false := by rw [hpoint]; rfl
    obtain rfl := Option.some.inj hturn
    refine .inr (h.emptying hint hsorted (fun c hc ↦ drainMark_total (hrewritable c hc) _) ?_ fun hempty ↦
      h.left hsorted hempty rfl rfl trivial h.flag)
    simp only [PointOk, hpoint]
    exact fun _ _ hok ↦ hok

/-- **Every turn keeps the invariant**, or ends in that assertion. -/
theorem Sound.turn (hpos : 0 < cfg.rewriteBufferSize) (hint : cfg.rewriteBufferSize < 2 ^ 31) (h : s.Sound cfg buf)
    (hof : s.point.Of cfg.rewriteAlgorithm) (hl : s.RecordsFit l) {r : Except RewriteAbort Rewriter}
    (hturn : s.turn cfg inherited l = some r) :
    r = .error .notDuplicate ∧ (∃ c, s.point = .pushing c ∧ ¬c.Rewritable) ∨
      ∃ s' buf', r = .ok s' ∧ s'.Sound cfg buf' := by
  cases l with
  | take c =>
    rw [Rewriter.turn] at hturn
    split at hturn
    · next hpoint => exact .inr ⟨_, buf, (Option.some.inj hturn).symm, h.take hpoint hl⟩
    · exact absurd hturn.symm (Option.some_ne_none r)
  | finish =>
    rw [Rewriter.turn] at hturn
    split at hturn
    · next hpoint => exact .inr ⟨_, buf, (Option.some.inj hturn).symm, h.finished hpoint⟩
    · exact absurd hturn.symm (Option.some_ne_none r)
  | call outOfOrder recordFlag late => exact h.call hpos hint hof hl hturn

/-- **The buffer is one in numbers** wherever a run gets to whose records fit their `int`s. -/
theorem sound_of_reach (hpos : 0 < cfg.rewriteBufferSize) (hint : cfg.rewriteBufferSize < 2 ^ 31)
    (h : Reach cfg inherited RecordsFit s) : ∃ buf, s.Sound cfg buf := by
  refine (Transition.System.Reach.invariant (P := fun s ↦ s.Passing cfg ∧ ∃ buf, s.Sound cfg buf) ?_ ?_ h).2
  · rintro s rfl
    exact ⟨passing_init cfg, _, sound_init hpos⟩
  · rintro s l s' ⟨hpassing, buf, hbuf⟩ hl hnext
    have hturn := turn_of_next hnext
    refine ⟨hpassing.turn hturn, ?_⟩
    rcases hbuf.turn hpos hint hpassing.of hl hturn with ⟨herror, -⟩ | ⟨s₁, buf₁, heq, hsound⟩
    · exact absurd herror (by simp)
    · rw [Except.ok.inj heq]
      exact ⟨buf₁, hsound⟩

theorem dataSize_lt_of_reach (h : Reach cfg inherited TotalFits s) : dataSize s.buffer.queue < 2 ^ 31 := by
  refine (Transition.System.Reach.invariant
    (P := fun s ↦ s.Passing cfg ∧ dataSize s.buffer.queue < 2 ^ 31) ?_ ?_ h).2
  · rintro s rfl
    exact ⟨passing_init cfg, Nat.two_pow_pos 31⟩
  · rintro s l s' ⟨hpassing, hlt⟩ hl hnext
    have hturn := turn_of_next hnext
    refine ⟨hpassing.turn hturn, ?_⟩
    rcases hpassing.queue_turn hturn with ⟨before, hq⟩ | ⟨c, outOfOrder, recordFlag, late, hpoint, rfl, hq⟩
    · rw [← hq, dataSize_append] at hlt
      exact (Nat.le_add_left _ _).trans_lt hlt
    · rw [TotalFits, hpoint] at hl
      rw [hq, dataSize_append, dataSize_cons]
      split_ifs with hm
      · exact hlt
      · exact hl (by simpa using hm)

/-- **The accounts of the rewrite buffer are exact** after every call of the rewriters, and the records are in order
except between the two sorts of capping. Of the assertions only the one that a chunk with a container is a duplicate
can fail. -/
theorem rewriter_accounted (hpos : 0 < cfg.rewriteBufferSize) (hint : cfg.rewriteBufferSize < 2 ^ 31)
    (h : Reach cfg inherited TotalFits s) :
    s.buffer.Accounted ∧
      (s.point.isSorted = false → (s.buffer.records.map IntRecord.cid).Pairwise (· < ·)) ∧
      ∀ l e, s.TotalFits l → s.turn cfg inherited l = some (.error e) → e = .notDuplicate := by
  obtain ⟨buf, hbuf⟩ := sound_of_reach hpos hint (h.mono fun _ _ ↦ TotalFits.recordsFit)
  have hof := (passing_of_reachable h.reachable).of
  have hsize := dataSize_lt_of_reach h
  rw [hbuf.queue] at hsize
  refine ⟨?_, fun hsorted ↦ ?_, fun l e hl hturn ↦ ?_⟩
  · rw [hbuf.buffer]
    split
    · rw [IntBuffer.sortByLength]
      exact hbuf.bounded.accounted.toInt hsize rfl rfl (by rw [RewriteBuffer.toInt]) (perm_sort _ _)
    · exact hbuf.bounded.accounted.toInt hsize rfl rfl (by rw [RewriteBuffer.toInt]) (.refl _)
  · rw [hbuf.same hsorted, RewriteBuffer.toInt, cid_toInt]
    exact hbuf.bounded.accounted.sorted
  · rcases hbuf.turn hpos hint hof hl.recordsFit hturn with ⟨herror, -⟩ | ⟨s', buf', hok, -⟩
    · exact Except.error.inj herror
    · exact absurd hok (by simp)

/-- Four duplicates in two containers, in a buffer of three chunks: the first is decided and passed on, and the
fourth is counted in its record. -/
theorem rewriter_accounted_duplicates :
    ∃ s, Reach { Config.start with rewriteAlgorithm := .contextBased, rewriteBufferSize := 3 } [] TotalFits s ∧
      s.buffer.records = [⟨7, 5, false⟩, ⟨9, 1, true⟩] ∧ s.buffer.Accounted ∧
      (s.buffer.records.map IntRecord.cid).Pairwise (· < ·) := by
  have hinit : Reach { Config.start with rewriteAlgorithm := .contextBased, rewriteBufferSize := 3 } [] TotalFits
      init := .init rfl
  obtain ⟨s, hs, hend⟩ := hinit.exists_of_runIf
    [.take { Chunk.new .normal [1, 2] with duplicate := true, id := 7 }, .call false false false,
      .take { Chunk.new .normal [3] with duplicate := true, id := 9 }, .call false false false,
      .take { Chunk.new .normal [4, 5, 6] with duplicate := true, id := 7 }, .call false false false,
      .call true false false,
      .take { Chunk.new .normal [7, 8] with duplicate := true, id := 7 }, .call false false false]
    (p := fun s ↦ decide (s.buffer.records = [⟨7, 5, false⟩, ⟨9, 1, true⟩] ∧ s.point.isSorted = false)) (by decide)
  rw [decide_eq_true_eq] at hend
  obtain ⟨haccounted, hsorted, -⟩ := rewriter_accounted (by decide) (by decide) hs
  exact ⟨s, hs, hend.1, haccounted, hsorted hend.2⟩

/-! ## Where the accounts go wrong -/

theorem Reach.take {P : Chunk → Prop} (h : Reach cfg inherited (Taking P) s) (hpoint : s.point = .loop) (hc : P c) :
    Reach cfg inherited (Taking P) { s with point := s.takePoint cfg c, taken := s.taken ++ [c] } := by
  refine Transition.System.Reach.step h (l := .take c) hc ?_
  show Option.bind (if s.point = .loop then _ else none) _ = _
  rw [if_pos hpoint]
  rfl

theorem Reach.call {P : Chunk → Prop} (h : Reach cfg inherited (Taking P) s) (outOfOrder recordFlag late : Bool)
    (hturn : s.turn cfg inherited (.call outOfOrder recordFlag late) = some (.ok s')) :
    Reach cfg inherited (Taking P) s' :=
  Transition.System.Reach.step h (l := .call outOfOrder recordFlag late) trivial (by
    show Option.bind (s.turn cfg inherited _) _ = _
    rw [hturn]
    rfl)

/-- The buffer after `n` pushes of the same duplicate. -/
def copies (c : Chunk) (n : ℕ) : IntBuffer :=
  ⟨List.replicate n c, if n = 0 then [] else [⟨c.id, int32 (n * c.size), true⟩], n, int32 (n * c.size)⟩

theorem int32_mul_succ (n k : ℕ) : int32 (int32 (n * k) + k) = int32 ((n + 1 : ℕ) * k) := by
  rw [int32_add, Int.natCast_succ, Int.add_mul, Int.one_mul]

theorem pushRecord_copies (hstored : c.storedDuplicate = true) (hlt : c.size < 2 ^ 31) (n : ℕ) :
    IntBuffer.pushRecord (copies c n).records c = .ok (copies c (n + 1)).records := by
  obtain ⟨-, -, hid⟩ := Chunk.storedDuplicate_eq_true.mp hstored
  have hcmp : gRecordCmpById ⟨c.id, int32 (n * c.size), true⟩ ⟨c.id, 0, false⟩ = 0 := by
    rw [gRecordCmpById, Int.sub_self, int32_eq] <;> decide
  rw [IntBuffer.pushRecord, if_neg hid]
  simp only [copies, if_neg (Nat.succ_ne_zero n)]
  by_cases hn : n = 0
  · subst hn
    have hone : int32 ((0 + 1 : ℕ) * c.size) = c.size := by
      rw [Nat.zero_add]
      rw [Int.natCast_one, Int.one_mul, int32_eq] <;> omega
    rw [if_pos rfl, hone]
    rfl
  · rw [if_neg hn]
    simp only [lookup, if_pos hcmp, check, int32_mul_succ, List.nil_append]
    rfl

theorem push_copies {n : ℕ} (hstored : c.storedDuplicate = true) (hlt : c.size < 2 ^ 31)
    (hn : n + 1 ≤ cfg.rewriteBufferSize) (hint : n + 1 < 2 ^ 31) :
    (copies c n).push cfg c = .ok (copies c (n + 1), decide (cfg.rewriteBufferSize ≤ n + 1)) := by
  obtain ⟨hm, hdup, hid⟩ := Chunk.storedDuplicate_eq_true.mp hstored
  have hnum : int32 ((copies c n).num + 1) = (n + 1 : ℕ) := by
    rw [int32_eq] <;> simp only [copies] <;> omega
  have hsize : int32 ((copies c n).size + c.size) = int32 ((n + 1 : ℕ) * c.size) := by
    rw [copies, int32_mul_succ]
  have hcheck : cfg.rewriteBufferSize ≤ n + 1 → ((n + 1 : ℕ) : ℤ) = cfg.rewriteBufferSize := by omega
  rw [IntBuffer.push, if_neg (by simp [hm]), check, if_pos (.inr hdup), pushRecord_copies hstored hlt, hnum, hsize]
  simp only [check, Int.ofNat_le, if_pos hcheck]
  rw [copies, copies, List.replicate_succ']
  rfl

/-- Capping after `n` chunks in a buffer that they do not fill. -/
def filling (c : Chunk) (n : ℕ) : Rewriter :=
  ⟨copies c n, .loop, temporaryId, false, [], List.replicate n c, [], [], []⟩

variable (inherited) in
theorem reach_filling {n : ℕ} {P : Chunk → Prop} (halg : cfg.rewriteAlgorithm = .capping) (hc : P c)
    (hstored : c.storedDuplicate = true) (hlt : c.size < 2 ^ 31) (hn : n < cfg.rewriteBufferSize) (hint : n < 2 ^ 31) :
    Reach cfg inherited (Taking P) (filling c n) := by
  induction n with
  | zero =>
    have hzero : int32 ((0 : ℕ) * c.size) = 0 := by
      rw [Int.natCast_zero, Int.zero_mul, int32_eq] <;> decide
    have hcopies : copies c 0 = .empty := by
      rw [copies, hzero]
      rfl
    exact .init (by rw [filling, hcopies]; rfl)
  | succ n ih =>
    have hpushed : pushed cfg ⟨copies c n, .pushing c, temporaryId, false, [], List.replicate n c ++ [c], [], [], []⟩ c =
        .ok (filling c (n + 1)) := by
      rw [pushed]
      dsimp only
      rw [push_copies hstored hlt hn.le hint, halg, decide_eq_false (by omega), ← List.replicate_succ']
      rfl
    have htake := (ih (by omega) (by omega)).take rfl hc
    rw [takePoint, halg] at htake
    exact htake.call false false false (congrArg some hpushed)

theorem dataSize_replicate (n : ℕ) (hm : c.isMarker = false) : dataSize (List.replicate n c) = n * c.size := by
  induction n with
  | zero => exact (Nat.zero_mul _).symm
  | succ n ih =>
    rw [List.replicate_succ, dataSize_cons, if_neg (by simp [hm]), ih, Nat.succ_mul, Nat.add_comm]

/-- A duplicate of 64 KiB in a container. -/
def duplicate64 (id : ℤ) : Chunk := { Chunk.new .normal (List.replicate 65536 0) with duplicate := true, id := id }

theorem size_duplicate64 (id : ℤ) : (duplicate64 id).size = 65536 := List.length_replicate

theorem sized_duplicate64 : (duplicate64 0).Sized :=
  ⟨fun _ ↦ by rw [size_duplicate64]; decide, fun _ _ ↦ ⟨by decide, by decide⟩⟩

/-- Capping with a buffer of `size` chunks. -/
def capping (size level : ℕ) : Config :=
  { Config.start with rewriteAlgorithm := .capping, rewriteBufferSize := size, cappingLevel := level }

/-- Two ways in which a configuration breaks the accounts. A buffer of size zero is over-full with its first
chunk. In one of 65536 chunks of 64 KiB the total size is below zero when half of them are there. -/
theorem not_accounted :
    (∃ s, Reach (capping 0 1) [] (Taking Chunk.Sized) s ∧
        s.turn (capping 0 1) [] (.call false false false) = some (.error .bufferNum)) ∧
      ∃ s, Reach (capping 65536 1) [] (Taking Chunk.Sized) s ∧ s.buffer.size = -2 ^ 31 ∧
        dataSize s.buffer.queue = 2 ^ 31 := by
  constructor
  · exact ⟨_, Reach.take (c := .new .normal [1]) (.init rfl) rfl (by decide), rfl⟩
  · refine ⟨filling (duplicate64 0) 32768, ?_, ?_, ?_⟩
    · exact reach_filling [] rfl sized_duplicate64 rfl (by rw [size_duplicate64]; decide) (by decide) (by decide)
    · rw [filling, copies, size_duplicate64]
      decide
    · rw [filling, copies, dataSize_replicate _ rfl, size_duplicate64]
      decide

end Rewriter

end UniDedup.Node
