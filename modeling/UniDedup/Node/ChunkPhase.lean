import Mathlib.Algebra.GroupWithZero.Nat
import UniDedup.Chunking.Phase
import UniDedup.Node.Container

/-!
# The chunking phase of a node

`chunk_thread` of the node gets files: a start marker with the name, blocks, an end marker. It cuts the
blocks of each file into chunks. The buffer is empty at the end of each file, so no chunk crosses it; as
in the client, a chunk is cut when the buffer holds at least the largest chunk size or the file has ended.
-/

namespace UniDedup.Node

open UniDedup.Chunking

/-- `start_chunk_phase` of a node, with its asserts. The window of asymmetric extremum chunking is computed
in floating point from the average size and is a parameter. -/
def startChunkPhase (aeInit : ℕ → ℕ) (conf : Chunking.Config) : Option Phase :=
  let s := conf.sizes
  let largest := containerSize - containerMetaSize
  match conf.algorithm with
  | .rabin => do
    let avg ← roundAvg s.avg
    guard (s.min ≤ avg ∧ avg ≤ s.max ∧ s.max ≤ largest)
    return ⟨rabinChunkData { s with avg := avg }, s.max⟩
  | .normalizedRabin => do
    let avg ← roundAvg s.avg
    guard (s.min ≤ avg ∧ avg ≤ s.max ∧ s.max ≤ largest)
    return ⟨normalizedRabinChunkData { s with avg := avg }, s.max⟩
  | .tttd => do
    let avg ← roundAvg s.avg
    guard (s.min ≤ avg ∧ avg ≤ s.max ∧ s.max ≤ largest)
    return ⟨tttdChunkData { s with avg := avg }, s.max⟩
  | .fixed => do
    guard (s.avg ≤ largest)
    return ⟨fixedChunkData s, s.avg⟩
  | .file => some ⟨fixedChunkData { s with avg := largest }, largest⟩
  | .ae => do
    guard (s.avg ≤ s.max ∧ s.max ≤ largest)
    return ⟨aeChunkData (aeInit s.avg) s.max, s.max⟩

/-- The refilling loop of `chunk_thread` when `c == NULL`: blocks are added while the buffer holds less than
the largest chunk, until the end marker is popped. -/
def refillNull (maxSize : ℕ) : LeftBuf → List Chunk → Option (LeftBuf × Option Chunk × List Chunk)
  | b, [] => if b.leftlen < maxSize then none else some (b, none, [])
  | b, c :: q =>
    if b.leftlen < maxSize then
      if c.kind = .fileEnd then some (b, some c, q)
      else do
        let b ← b.compact.push c.data
        refillNull maxSize b q
    else some (b, none, c :: q)

/-- The refilling loop of `chunk_thread`. -/
def refill (maxSize : ℕ) (b : LeftBuf) (c : Option Chunk) (q : List Chunk) :
    Option (LeftBuf × Option Chunk × List Chunk) :=
  if c.isNone then refillNull maxSize b q else some (b, c, q)

/-- The loop of `chunk_thread` that cuts a file, for at most as many iterations as the fuel says. The
result is the chunks, the buffer, the end marker and the rest of the queue. -/
def chunkFile (ph : Phase) :
    ℕ → LeftBuf → Option Chunk → List Chunk → Option (List Chunk × LeftBuf × Chunk × List Chunk)
  | 0, _, _, _ => none
  | fuel + 1, b, c, q => do
    let (b, c, q) ← refill ph.maxSize b c q
    if b.leftlen = 0 then
      -- `assert(c)`
      let fileEnd ← c
      return ([], b, fileEnd, q)
    else do
      let chunkSize := ph.chunking b.live
      let nc := Chunk.new .normal (b.live.take chunkSize)
      let b ← b.advance chunkSize
      -- `zeros`, which the chunk is compared with, has `chunk_max_size` bytes
      guard (chunkSize ≤ ph.maxSize)
      let (cs, b, fileEnd, q) ← chunkFile ph fuel b c q
      return (nc :: cs, b, fileEnd, q)

/-- What `chunk_thread` does with the chunk behind a start marker. The buffer is empty, so the first block
goes to its front. -/
def firstBlock (b : LeftBuf) (c : Chunk) : Option (LeftBuf × Option Chunk) :=
  if c.kind = .fileEnd then some (b, some c) else (b.push c.data).map fun b ↦ (b, none)

/-- The outer loop of `chunk_thread`, for at most as many files as the fuel says. -/
def chunkFiles (ph : Phase) : ℕ → LeftBuf → List Chunk → Option (List Chunk)
  | _, _, [] => some []
  | 0, _, _ :: _ => none
  | _ + 1, _, [_] => none
  | fuel + 1, b, fileStart :: c :: q => do
    guard (fileStart.kind = .fileStart)
    let (b, c) ← firstBlock b c
    let (cs, b, fileEnd, q) ← chunkFile ph (b.leftlen + (q.map Chunk.size).sum + 1) b c q
    return fileStart :: cs ++ fileEnd :: (← chunkFiles ph fuel b.rewind q)

/-- `chunk_thread`: the chunks and markers it makes of those in `read_queue`. -/
def chunkThread (ph : Phase) (q : List Chunk) : Option (List Chunk) :=
  chunkFiles ph q.length (.new (defaultBlockSize + ph.maxSize)) q

/-- What the read phase pushes for a file that was read in these blocks. -/
def readFile (name : Bytes) (blocks : List Bytes) : List Chunk :=
  Chunk.new .fileStart name :: blocks.map (Chunk.new .normal) ++ [Chunk.new .fileEnd []]

/-- `sha1_thread`: chunks of data get their fingerprints. -/
def hashPhase (sha1 : Bytes → Fingerprint) (cs : List Chunk) : List Chunk :=
  cs.map fun c ↦ if c.isFileMarker then c else { c with fp := sha1 c.data }

/-! ## The chunks of a file -/

section Thread

variable {ph : Phase} {b : LeftBuf} {blocks : List Bytes} {fileEnd : Chunk} {rest : List Chunk}
  {maxSize : ℕ}

/-- What the thread still has to read of a file: blocks and the end marker, or nothing, when the end marker
is in `c`. -/
def Pending (blocks : List Bytes) (fileEnd : Chunk) (rest : List Chunk) (c : Option Chunk)
    (q : List Chunk) : Prop :=
  c = none ∧ q = blocks.map (Chunk.new .normal) ++ fileEnd :: rest ∨
    c = some fileEnd ∧ q = rest ∧ blocks = []

/-- After the refilling loop the buffer holds the largest chunk, or the end marker has been read. -/
theorem refillNull_spec (hmem : b.mem.length = defaultBlockSize + maxSize)
    (hblocks : ∀ block ∈ blocks, block.length ≤ defaultBlockSize) (hend : fileEnd.kind = .fileEnd) :
    ∃ b' blocks' c q,
      refillNull maxSize b (blocks.map (Chunk.new .normal) ++ fileEnd :: rest) = some (b', c, q) ∧
      Pending blocks' fileEnd rest c q ∧ b'.mem.length = defaultBlockSize + maxSize ∧
      (∀ block ∈ blocks', block.length ≤ defaultBlockSize) ∧
      b'.live ++ blocks'.flatten = b.live ++ blocks.flatten ∧
      (maxSize ≤ b'.live.length ∨ c = some fileEnd) := by
  induction blocks generalizing b with
  | nil =>
    by_cases hfull : b.leftlen < maxSize
    · refine ⟨b, [], some fileEnd, rest, ?_, .inr ⟨rfl, rfl, rfl⟩, hmem, hblocks, rfl, .inr rfl⟩
      show refillNull maxSize b (fileEnd :: rest) = _
      rw [refillNull, if_pos hfull, if_pos hend]
    · refine ⟨b, [], none, fileEnd :: rest, if_neg hfull, .inl ⟨rfl, rfl⟩, hmem, hblocks, rfl, .inl ?_⟩
      rw [b.length_live]
      omega
  | cons block blocks ih =>
    by_cases hfull : b.leftlen < maxSize
    · have hroom : b.compact.leftlen + block.length ≤ b.compact.mem.length := by
        have hlen := hblocks block List.mem_cons_self
        rw [b.leftlen_compact, b.length_mem_compact, hmem]
        omega
      obtain ⟨b₁, hpush, hlive, -, hmem₁⟩ := b.compact.push_spec b.leftoff_compact hroom
      rw [b.length_mem_compact, hmem] at hmem₁
      obtain ⟨b', blocks', c, q, hrefill, hpending, hmem', hblocks', hbytes, hfill⟩ :=
        ih hmem₁ fun x hx ↦ hblocks x (List.mem_cons_of_mem block hx)
      refine ⟨b', blocks', c, q, ?_, hpending, hmem', hblocks', ?_, hfill⟩
      · rw [List.map_cons, List.cons_append, refillNull, if_pos hfull, if_neg Kind.noConfusion]
        show (b.compact.push block).bind _ = _
        rw [hpush]
        exact hrefill
      · rw [hbytes, hlive, b.live_compact, List.flatten_cons, List.append_assoc]
    · refine ⟨b, block :: blocks, none, _, if_neg hfull, .inl ⟨rfl, rfl⟩, hmem, hblocks, rfl, .inl ?_⟩
      rw [b.length_live]
      omega

theorem refill_spec {c : Option Chunk} {q : List Chunk}
    (hmem : b.mem.length = defaultBlockSize + maxSize)
    (hblocks : ∀ block ∈ blocks, block.length ≤ defaultBlockSize) (hend : fileEnd.kind = .fileEnd)
    (hpending : Pending blocks fileEnd rest c q) :
    ∃ b' blocks' c' q',
      refill maxSize b c q = some (b', c', q') ∧
      Pending blocks' fileEnd rest c' q' ∧ b'.mem.length = defaultBlockSize + maxSize ∧
      (∀ block ∈ blocks', block.length ≤ defaultBlockSize) ∧
      b'.live ++ blocks'.flatten = b.live ++ blocks.flatten ∧
      (maxSize ≤ b'.live.length ∨ c' = some fileEnd) := by
  rcases hpending with ⟨rfl, rfl⟩ | ⟨rfl, rfl, rfl⟩
  · exact refillNull_spec hmem hblocks hend
  · exact ⟨b, [], some fileEnd, q, rfl, .inr ⟨rfl, rfl, rfl⟩, hmem, hblocks, rfl, .inr rfl⟩

/-- The loop over a file cuts what is in the buffer and what is still to come. -/
theorem chunkFile_cut (rest : List Chunk) (hph : ph.Takes) (hle : ∀ x, ph.chunking x ≤ ph.maxSize)
    {c : Option Chunk} {q : List Chunk} (hmem : b.mem.length = defaultBlockSize + ph.maxSize)
    (hblocks : ∀ block ∈ blocks, block.length ≤ defaultBlockSize) (hend : fileEnd.kind = .fileEnd)
    (hpending : Pending blocks fileEnd rest c q) {fuel : ℕ}
    (hfuel : (b.live ++ blocks.flatten).length < fuel) :
    ∃ chunks b', chunkFile ph fuel b c q = some (chunks.map (Chunk.new .normal), b', fileEnd, rest) ∧
      Cut ph.chunking ph.maxSize (b.live ++ blocks.flatten) chunks ∧
      b'.leftlen = 0 ∧ b'.mem.length = defaultBlockSize + ph.maxSize := by
  induction fuel generalizing b c q blocks with
  | zero => exact absurd hfuel (Nat.not_lt_zero _)
  | succ fuel ih =>
    obtain ⟨b', blocks', c', q', hrefill, hpending', hmem', hblocks', hbytes, hfill⟩ :=
      refill_spec hmem hblocks hend hpending
    have hmax := hph.max_pos
    rw [← hbytes] at hfuel ⊢
    rw [chunkFile, hrefill]
    simp only [Option.bind_eq_bind, Option.bind_some]
    -- when the end marker has been read, all of the file is in the buffer
    have hall : c' = some fileEnd → q' = rest ∧ blocks' = [] := by
      rintro rfl
      rcases hpending' with ⟨h, -⟩ | ⟨-, h⟩
      · exact absurd h (Option.some_ne_none _)
      · exact h
    by_cases hnil : b'.live = []
    · have hlen : b'.leftlen = 0 := b'.live_eq_nil_iff.mp hnil
      have hc : c' = some fileEnd := hfill.resolve_left (by rw [b'.length_live, hlen]; omega)
      obtain ⟨rfl, rfl⟩ := hall hc
      rw [if_pos hlen, hc, hnil]
      exact ⟨[], b', rfl, .nil, hlen, hmem'⟩
    · have hlen : b'.leftlen ≠ 0 := fun h ↦ hnil (b'.live_eq_nil_iff.mpr h)
      obtain ⟨b₁, hadvance, hlive, hmem₁⟩ := b'.advance_spec (hph.le_length b'.live)
      have hrest : (b₁.live ++ blocks'.flatten).length < fuel := by
        have hpos := hph.pos _ hnil
        have hle := hph.le_length b'.live
        rw [List.length_append] at hfuel
        rw [hlive, List.length_append, List.length_drop]
        omega
      obtain ⟨chunks, b₂, hfile, hcut, hlen₂, hmem₂⟩ := ih (hmem₁.trans hmem') hblocks' hpending' hrest
      rw [hlive] at hcut
      refine ⟨b'.live.take (ph.chunking b'.live) :: chunks, b₂, ?_, .cons rfl hnil ?_ hcut, hlen₂, hmem₂⟩
      · rw [if_neg hlen, hadvance, Option.bind_some]
        simp only [guard, if_pos (hle _), hfile]
        rfl
      · exact hfill.imp id fun h ↦ by rw [(hall h).2, List.flatten_nil]

theorem chunkFiles_of_chunkFile {fuel : ℕ} {fileStart c : Chunk} {q cs : List Chunk} {b' b'' : LeftBuf}
    {c' : Option Chunk} (hstart : fileStart.kind = .fileStart)
    (hfirst : firstBlock b c = some (b', c'))
    (hfile : chunkFile ph (b'.leftlen + (q.map Chunk.size).sum + 1) b' c' q = some (cs, b'', fileEnd, rest)) :
    chunkFiles ph (fuel + 1) b (fileStart :: c :: q) =
      (chunkFiles ph fuel b''.rewind rest).map (fileStart :: cs ++ fileEnd :: ·) := by
  rw [chunkFiles, hfirst]
  simp only [guard, if_pos hstart, Option.bind_eq_bind, Option.bind_some, hfile]
  cases chunkFiles ph fuel b''.rewind rest <;> rfl

theorem sum_size_blocks (blocks : List Bytes) (rest : List Chunk) :
    blocks.flatten.length ≤ ((blocks.map (Chunk.new .normal) ++ Chunk.new .fileEnd [] :: rest).map Chunk.size).sum := by
  induction blocks with
  | nil => exact Nat.zero_le _
  | cons block blocks ih =>
    rw [List.map_cons, List.cons_append, List.map_cons, List.sum_cons, List.flatten_cons, List.length_append]
    exact Nat.add_le_add_left ih _

/-- What the thread hands over for a file that it cuts into these chunks. -/
def chunkedFile (name : Bytes) (chunks : List Bytes) : List Chunk :=
  Chunk.new .fileStart name :: chunks.map (Chunk.new .normal) ++ [Chunk.new .fileEnd []]

theorem chunkFiles_readFile_append (hph : ph.Takes) (hle : ∀ x, ph.chunking x ≤ ph.maxSize) (name : Bytes)
    (rest : List Chunk) (hmem : b.mem.length = defaultBlockSize + ph.maxSize) (hlen : b.leftlen = 0)
    (hoff : b.leftoff = 0) (hblocks : ∀ block ∈ blocks, block.length ≤ defaultBlockSize) (fuel : ℕ) :
    ∃ chunks b', b'.mem.length = defaultBlockSize + ph.maxSize ∧ b'.leftlen = 0 ∧ b'.leftoff = 0 ∧
      Cut ph.chunking ph.maxSize blocks.flatten chunks ∧
      chunkFiles ph (fuel + 1) b (readFile name blocks ++ rest) =
        (chunkFiles ph fuel b' rest).map (chunkedFile name chunks ++ ·) := by
  have hend : (Chunk.new .fileEnd []).kind = .fileEnd := rfl
  have hnil : b.live = [] := b.live_eq_nil_iff.mpr hlen
  have hout : ∀ (chunks : List Bytes) (out : Option (List Chunk)),
      out.map (fun o ↦ Chunk.new .fileStart name :: chunks.map (Chunk.new .normal) ++ Chunk.new .fileEnd [] :: o) =
        out.map (chunkedFile name chunks ++ ·) := by
    intro chunks out
    cases out <;> simp [chunkedFile]
  cases blocks with
  | nil =>
    have hfuel : (b.live ++ ([] : List Bytes).flatten).length < b.leftlen + (rest.map Chunk.size).sum + 1 := by
      rw [hnil]
      exact Nat.succ_pos _
    obtain ⟨chunks, b', hfile, hcut, hlen', hmem'⟩ := chunkFile_cut rest hph hle hmem hblocks hend
      (.inr ⟨rfl, rfl, rfl⟩) hfuel
    rw [hnil] at hcut
    refine ⟨chunks, b'.rewind, hmem', hlen', rfl, hcut, ?_⟩
    have hfirst : firstBlock b (Chunk.new .fileEnd []) = some (b, some (Chunk.new .fileEnd [])) := if_pos rfl
    exact (chunkFiles_of_chunkFile rfl hfirst hfile).trans (hout chunks _)
  | cons block blocks =>
    have hroom : b.leftlen + block.length ≤ b.mem.length := by
      rw [hmem, hlen, Nat.zero_add]
      exact (hblocks block List.mem_cons_self).trans (Nat.le_add_right ..)
    obtain ⟨b₁, hpush, hlive, -, hmem₁⟩ := b.push_spec hoff hroom
    rw [hnil, List.nil_append] at hlive
    have hfuel : (b₁.live ++ blocks.flatten).length < b₁.leftlen +
        ((blocks.map (Chunk.new .normal) ++ Chunk.new .fileEnd [] :: rest).map Chunk.size).sum + 1 := by
      have hsum := sum_size_blocks blocks rest
      rw [List.length_append, b₁.length_live]
      omega
    obtain ⟨chunks, b', hfile, hcut, hlen', hmem'⟩ := chunkFile_cut rest hph hle (hmem₁.trans hmem)
      (fun x hx ↦ hblocks x (List.mem_cons_of_mem block hx)) hend (.inl ⟨rfl, rfl⟩) hfuel
    rw [hlive] at hcut
    refine ⟨chunks, b'.rewind, hmem', hlen', rfl, hcut, Eq.trans ?_ (hout chunks _)⟩
    have hqueue : readFile name (block :: blocks) ++ rest = Chunk.new .fileStart name :: Chunk.new .normal block ::
        (blocks.map (Chunk.new .normal) ++ Chunk.new .fileEnd [] :: rest) := by
      simp [readFile]
    rw [hqueue]
    refine chunkFiles_of_chunkFile rfl ?_ hfile
    rw [firstBlock, if_neg Kind.noConfusion]
    exact congrArg (Option.map fun b ↦ (b, none)) hpush

/-- The chunks of a file are cut from buffers that hold the largest chunk, or all that is left. The buffer is
empty between two files. -/
theorem chunkFiles_cut (hph : ph.Takes) (hle : ∀ x, ph.chunking x ≤ ph.maxSize) {files : List (Bytes × List Bytes)}
    (hfiles : ∀ f ∈ files, ∀ block ∈ f.2, block.length ≤ defaultBlockSize)
    (hmem : b.mem.length = defaultBlockSize + ph.maxSize) (hlen : b.leftlen = 0) (hoff : b.leftoff = 0) {fuel : ℕ}
    (hfuel : files.length ≤ fuel) :
    ∃ chunks, List.Forall₂ (fun f cs ↦ Cut ph.chunking ph.maxSize f.2.flatten cs) files chunks ∧
      chunkFiles ph fuel b (files.flatMap fun f ↦ readFile f.1 f.2) =
        some (List.zipWith (fun f cs ↦ chunkedFile f.1 cs) files chunks).flatten := by
  induction files generalizing b fuel with
  | nil => exact ⟨[], .nil, by cases fuel <;> rfl⟩
  | cons f files ih =>
    obtain ⟨fuel, rfl⟩ := Nat.exists_eq_add_of_le' (Nat.lt_of_lt_of_le (Nat.succ_pos _) hfuel)
    obtain ⟨cs, b', hmem', hlen', hoff', hcut, hfile⟩ := chunkFiles_readFile_append hph hle f.1
      (files.flatMap fun f ↦ readFile f.1 f.2) hmem hlen hoff (hfiles f List.mem_cons_self) fuel
    obtain ⟨chunks, hall, hrest⟩ := ih (fun g hg ↦ hfiles g (List.mem_cons_of_mem f hg)) hmem' hlen' hoff'
      (Nat.le_of_succ_le_succ hfuel)
    refine ⟨cs :: chunks, .cons hcut hall, ?_⟩
    rw [List.flatMap_cons, hfile, hrest]
    rfl

theorem chunkThread_cut (hph : ph.Takes) (hle : ∀ x, ph.chunking x ≤ ph.maxSize) {files : List (Bytes × List Bytes)}
    (hfiles : ∀ f ∈ files, ∀ block ∈ f.2, block.length ≤ defaultBlockSize) :
    ∃ chunks, List.Forall₂ (fun f cs ↦ Cut ph.chunking ph.maxSize f.2.flatten cs) files chunks ∧
      chunkThread ph (files.flatMap fun f ↦ readFile f.1 f.2) =
        some (List.zipWith (fun f cs ↦ chunkedFile f.1 cs) files chunks).flatten := by
  refine chunkFiles_cut hph hle hfiles (List.length_replicate ..) rfl rfl ?_
  induction files with
  | nil => exact Nat.zero_le _
  | cons f files ih =>
    have hrest := ih fun g hg ↦ hfiles g (List.mem_cons_of_mem f hg)
    rw [List.flatMap_cons, List.length_append, List.length_cons]
    have hpos : 0 < (readFile f.1 f.2).length := by
      rw [readFile, List.cons_append]
      exact Nat.succ_pos _
    omega

/-- **The thread cuts a file by its content**, whatever blocks it was read in. -/
theorem chunkThread_readFile {C : Cutter UInt8} (hC : ph.Cuts C) (name : Bytes)
    (hblocks : ∀ block ∈ blocks, block.length ≤ defaultBlockSize) :
    chunkThread ph (readFile name blocks) =
      some (Chunk.new .fileStart name :: (C.chunks blocks.flatten).map (Chunk.new .normal) ++
        [Chunk.new .fileEnd []]) := by
  have hfiles : ∀ f ∈ [(name, blocks)], ∀ block ∈ f.2, block.length ≤ defaultBlockSize := by
    intro f hf
    rw [List.mem_singleton.mp hf]
    exact hblocks
  obtain ⟨chunks, hall, hthread⟩ := chunkThread_cut hC.takes (fun x ↦ hC.1 ▸ hC.2 ▸ C.le_max x) hfiles
  rw [List.flatMap_singleton] at hthread
  cases hall with
  | @cons _ chunks _ _ hcut hnil =>
    cases hnil
    rw [hthread, hC.chunks_eq hcut]
    exact congrArg some (List.append_nil _)

end Thread

theorem hashPhase_file (sha1 : Bytes → Fingerprint) (name : Bytes) (chunks : List Bytes) :
    hashPhase sha1 (Chunk.new .fileStart name :: chunks.map (Chunk.new .normal) ++ [Chunk.new .fileEnd []]) =
      File.stream sha1 ⟨name, chunks⟩ := by
  simp only [hashPhase, File.stream, List.map_append, List.map_cons, List.map_map]
  rfl

end UniDedup.Node
