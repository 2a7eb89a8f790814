import UniDedup.Chunking.Phase

/-!
# The chunking phase of the client

`chunk_thread` gets the blocks the reader has read, in order, and hands over the chunks. It looks ahead:
a chunk is cut when the buffer holds at least the largest chunk size, or when there are no more blocks.
-/

namespace UniDedup.Client

open UniDedup.Chunking

/-- `start_chunk_phase` of the client. The window of asymmetric extremum chunking is computed in floating
point from the average size and is a parameter. -/
def startChunkPhase (aeInit : ℕ → ℕ) (conf : Config) : Option Phase :=
  let s := conf.sizes
  match conf.algorithm with
  | .rabin => do
    let avg ← roundAvg s.avg
    return ⟨rabinChunkData { s with avg := avg }, s.max⟩
  | .normalizedRabin => do
    let avg ← roundAvg s.avg
    return ⟨normalizedRabinChunkData { s with avg := avg }, s.max⟩
  | .tttd => do
    let avg ← roundAvg s.avg
    return ⟨tttdChunkData { s with avg := avg }, s.max⟩
  | .fixed => some ⟨fixedChunkData s, s.avg⟩
  | .file => some ⟨fixedChunkData { s with avg := 4194304 - 32768 }, 4194304 - 32768⟩
  | .ae => some ⟨aeChunkData (aeInit s.avg) s.max, s.max⟩

/-- The inner loop of `chunk_thread`: blocks are added while the buffer holds less than the largest chunk.
The flag says that `c` is null, as it is when the queue has ended. -/
def refill (maxSize : ℕ) : LeftBuf → Bool → List Bytes → Option (LeftBuf × Bool × List Bytes)
  | b, cNull, [] => if b.leftlen < maxSize then some (b.compact, true, []) else some (b, cNull, [])
  | b, cNull, block :: q =>
    if b.leftlen < maxSize then
      -- the asserts on `c->data` and `c->size`
      if block = [] then none
      else do
        let b ← b.compact.push block
        refill maxSize b false q
    else some (b, cNull, block :: q)

/-- The outer loop of `chunk_thread`, for at most as many iterations as the fuel says. -/
def chunkLoop (ph : Phase) : ℕ → LeftBuf → Bool → List Bytes → Option (List Bytes)
  | 0, _, _, _ => none
  | fuel + 1, b, cNull, q => do
    let (b, cNull, q) ← refill ph.maxSize b cNull q
    if b.leftlen = 0 ∧ cNull then return []
    let chunkSize := ph.chunking b.live
    -- `assert(chunk_size != 0)`
    if chunkSize = 0 then none
    else do
      let nc := b.live.take chunkSize
      let b ← b.advance chunkSize
      return nc :: (← chunkLoop ph fuel b cNull q)

/-- `chunk_thread`: the chunks it makes of the blocks of a file. Every iteration but the last takes a byte
from the file. -/
def chunkThread (ph : Phase) (blocks : List Bytes) : Option (List Bytes) :=
  chunkLoop ph (blocks.flatten.length + 1) (.new (defaultBlockSize + ph.maxSize)) true blocks

/-- The chunk phase on the blocks of a file. Without a block the thread ends at once and touches nothing. Otherwise it
needs `leftbuf`, whose size is an `int`; and the first thing a content-defined algorithm reads is the byte before place
`chunk_min_size`, which with a minimum of zero lies before `leftbuf`. -/
def chunkPhase (aeInit : ℕ → ℕ) (conf : Config) (blocks : List Bytes) : Option (List Bytes) := do
  let ph ← startChunkPhase aeInit conf
  if blocks ≠ [] ∧ (2 ^ 31 ≤ defaultBlockSize + ph.maxSize ∨
      0 < ph.maxSize ∧ conf.sizes.min = 0 ∧ conf.algorithm.ContentDefined) then none
  else chunkThread ph blocks

/-! ## The chunks of a file -/

/-- What the reader hands over: blocks that are neither empty nor too long. -/
def Blocks (q : List Bytes) : Prop := ∀ block ∈ q, block ≠ [] ∧ block.length ≤ defaultBlockSize

section Thread

variable {ph : Phase} {b : LeftBuf} {cNull : Bool} {q : List Bytes} {maxSize : ℕ}

/-- After the inner loop the buffer holds the largest chunk, or the queue has ended. -/
theorem refill_spec (cNull : Bool) (hmem : b.mem.length = defaultBlockSize + maxSize) (hq : Blocks q) :
    ∃ b' cNull' q', refill maxSize b cNull q = some (b', cNull', q') ∧
      b'.mem.length = defaultBlockSize + maxSize ∧ Blocks q' ∧
      b'.live ++ q'.flatten = b.live ++ q.flatten ∧
      (maxSize ≤ b'.live.length ∨ q' = [] ∧ cNull' = true) := by
  induction q generalizing b cNull with
  | nil =>
    by_cases hfull : b.leftlen < maxSize
    · exact ⟨b.compact, true, [], if_pos hfull, by rw [b.length_mem_compact, hmem], hq,
        by rw [b.live_compact], .inr ⟨rfl, rfl⟩⟩
    · exact ⟨b, cNull, [], if_neg hfull, hmem, hq, rfl, .inl (by rw [b.length_live]; omega)⟩
  | cons block q ih =>
    by_cases hfull : b.leftlen < maxSize
    · obtain ⟨hne, hlen⟩ := hq block List.mem_cons_self
      have hroom : b.compact.leftlen + block.length ≤ b.compact.mem.length := by
        rw [b.leftlen_compact, b.length_mem_compact, hmem]
        omega
      obtain ⟨b₁, hpush, hlive, -, hmem₁⟩ := b.compact.push_spec b.leftoff_compact hroom
      rw [b.length_mem_compact, hmem] at hmem₁
      obtain ⟨b', cNull', q', hrefill, hmem', hq', hbytes, hend⟩ :=
        ih false hmem₁ fun x hx ↦ hq x (List.mem_cons_of_mem block hx)
      refine ⟨b', cNull', q', ?_, hmem', hq', ?_, hend⟩
      · rw [refill, if_pos hfull, if_neg hne, hpush]
        exact hrefill
      · rw [hbytes, hlive, b.live_compact, List.flatten_cons, List.append_assoc]
    · exact ⟨b, cNull, block :: q, if_neg hfull, hmem, hq, rfl, .inl (by rw [b.length_live]; omega)⟩

/-- The outer loop cuts what is in the buffer and what is still to come. -/
theorem chunkLoop_cut (hph : ph.Takes) (hmem : b.mem.length = defaultBlockSize + ph.maxSize) (hq : Blocks q)
    {fuel : ℕ} (hfuel : (b.live ++ q.flatten).length < fuel) :
    ∃ chunks, chunkLoop ph fuel b cNull q = some chunks ∧
      Cut ph.chunking ph.maxSize (b.live ++ q.flatten) chunks := by
  induction fuel generalizing b cNull q with
  | zero => exact absurd hfuel (Nat.not_lt_zero _)
  | succ fuel ih =>
    obtain ⟨b', cNull', q', hrefill, hmem', hq', hbytes, hend⟩ := refill_spec cNull hmem hq
    have hmax := hph.max_pos
    rw [← hbytes] at hfuel ⊢
    rw [chunkLoop, hrefill]
    simp only [Option.bind_eq_bind, Option.bind_some]
    by_cases hnil : b'.live = []
    · -- nothing is left in the buffer, so the queue has ended
      have hlen : b'.leftlen = 0 := b'.live_eq_nil_iff.mp hnil
      obtain ⟨rfl, rfl⟩ := hend.resolve_left (by rw [b'.length_live, hlen]; omega)
      rw [if_pos ⟨hlen, rfl⟩, hnil]
      exact ⟨[], rfl, .nil⟩
    · have hlen : b'.leftlen ≠ 0 := fun h ↦ hnil (b'.live_eq_nil_iff.mpr h)
      have hpos := hph.pos _ hnil
      have hle := hph.le_length b'.live
      obtain ⟨b₁, hadvance, hlive, hmem₁⟩ := b'.advance_spec hle
      have hrest : (b₁.live ++ q'.flatten).length < fuel := by
        rw [List.length_append] at hfuel
        rw [hlive, List.length_append, List.length_drop]
        omega
      obtain ⟨chunks, hloop, hcut⟩ := @ih b₁ cNull' q' (hmem₁.trans hmem') hq' hrest
      rw [hlive] at hcut
      refine ⟨b'.live.take (ph.chunking b'.live) :: chunks, ?_, .cons rfl hnil ?_ hcut⟩
      · rw [if_neg fun h ↦ hlen h.1, if_neg hpos.ne', hadvance, Option.bind_some, hloop]
        rfl
      · exact hend.imp id fun h ↦ by rw [h.1, List.flatten_nil]

/-- The chunks of a file are cut from buffers that hold the largest chunk, or all that is left. -/
theorem chunkThread_cut (hph : ph.Takes) (hq : Blocks q) :
    ∃ chunks, chunkThread ph q = some chunks ∧ Cut ph.chunking ph.maxSize q.flatten chunks :=
  chunkLoop_cut hph (List.length_replicate ..) hq (Nat.lt_succ_self _)

/-- **The chunks of a file depend on its content only**, not on the blocks it was read in. -/
theorem chunkThread_eq {C : Cutter UInt8} (hC : ph.Cuts C) (hq : Blocks q) :
    chunkThread ph q = some (C.chunks q.flatten) := by
  obtain ⟨chunks, hthread, hcut⟩ := chunkThread_cut hC.takes hq
  rw [hthread, hC.chunks_eq hcut]

/-- A thread ends at once where there is no block, or no chunk may have a byte. -/
theorem chunkThread_eq_nil (h : q = [] ∨ ph.maxSize = 0) : chunkThread ph q = some [] := by
  have hrefill : ∃ b' q', refill ph.maxSize (.new (defaultBlockSize + ph.maxSize)) true q = some (b', true, q') ∧
      b'.leftlen = 0 := by
    cases q with
    | nil =>
      rw [refill]
      split
      · exact ⟨_, _, rfl, rfl⟩
      · exact ⟨_, _, rfl, rfl⟩
    | cons block q =>
      have hzero : ph.maxSize = 0 := h.resolve_left (List.cons_ne_nil block q)
      exact ⟨_, _, by rw [refill, if_neg (by rw [hzero]; exact Nat.not_lt_zero _)], rfl⟩
  obtain ⟨b', q', hrefill, hlen⟩ := hrefill
  rw [chunkThread, chunkLoop, hrefill, Option.bind_eq_bind, Option.bind_some]
  exact if_pos ⟨hlen, rfl⟩

end Thread

end UniDedup.Client
