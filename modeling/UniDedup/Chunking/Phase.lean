import UniDedup.Chunking.Rabin

/-!
# What the chunking phases of both programs share

Client and node read blocks into a buffer `leftbuf` and cut chunks from its front. The buffer has room
for one block more than the largest chunk; the locals `leftoff` and `leftlen` say which part of it is in
use. Its place in memory matters: what is left is moved to the front before a block is added.

`Phase` is what `start_chunk_phase` leaves behind: the chunking function and the largest chunk size, the
sizes of the configuration already filled in.
-/

namespace UniDedup.Chunking

def defaultBlockSize : ℕ := 1048576

/-- The chunking algorithms, the values of `chunk_algorithm`. -/
inductive ChunkAlgorithm
  /-- `CHUNK_FIXED`. -/
  | fixed
  /-- `CHUNK_RABIN`. -/
  | rabin
  /-- `CHUNK_NORMALIZED_RABIN`. -/
  | normalizedRabin
  /-- `CHUNK_FILE`. -/
  | file
  /-- `CHUNK_AE`. -/
  | ae
  /-- `CHUNK_TTTD`. -/
  | tttd
deriving DecidableEq

/-- The algorithms whose loop starts at `chunk_min_size` and looks for a break. -/
def ChunkAlgorithm.ContentDefined (alg : ChunkAlgorithm) : Prop :=
  alg = .rabin ∨ alg = .normalizedRabin ∨ alg = .tttd

instance (alg : ChunkAlgorithm) : Decidable alg.ContentDefined := inferInstanceAs (Decidable (_ ∨ _ ∨ _))

/-- The configuration of chunking, the same fields in both programs. -/
structure Config where
  /-- `chunk_algorithm`. -/
  algorithm : ChunkAlgorithm
  sizes : Sizes

/-- `start_chunk_phase` rounds the average size down to a power of two: the bits are counted by shifting
them out, and `1` is shifted left by one less. For zero this is a shift by `-1`, which is undefined. -/
def roundAvg (avg : ℕ) : Option ℕ := if avg = 0 then none else some (1 <<< (avg.size - 1))

/-- What the chunk threads run with. -/
structure Phase where
  chunking : Bytes → ℕ
  /-- `chunk_max_size`. -/
  maxSize : ℕ

/-! ## The buffer -/

/-- `memcpy` and `memmove` of `src` to `dst + off`. -/
def memcpy (dst : Bytes) (off : ℕ) (src : Bytes) : Bytes :=
  dst.take off ++ (src ++ dst.drop (off + src.length))

theorem length_memcpy {dst src : Bytes} {off : ℕ} (h : off + src.length ≤ dst.length) :
    (memcpy dst off src).length = dst.length := by
  simp only [memcpy, List.length_append, List.length_take, List.length_drop]
  omega

/-- `leftbuf` with the part of it that is in use. -/
structure LeftBuf where
  mem : Bytes
  leftoff : ℕ
  leftlen : ℕ
  /-- The part in use is inside the memory. -/
  bounds : leftoff + leftlen ≤ mem.length

namespace LeftBuf

/-- The buffer when a thread starts. The initial contents do not matter. -/
def new (capacity : ℕ) : LeftBuf where
  mem := List.replicate capacity 0
  leftoff := 0
  leftlen := 0
  bounds := Nat.zero_le _

variable (b : LeftBuf)

/-- The `leftlen` bytes at `leftbuf + leftoff`. -/
def live : Bytes := (b.mem.drop b.leftoff).take b.leftlen

@[simp] theorem length_live : b.live.length = b.leftlen := by
  have hbounds := b.bounds
  rw [live, List.length_take, List.length_drop]
  omega

theorem live_eq_nil_iff : b.live = [] ↔ b.leftlen = 0 := by
  rw [← List.length_eq_zero_iff, length_live]

/-- `memmove(leftbuf, leftbuf + leftoff, leftlen)`, after which `leftoff` is zero. -/
def compact : LeftBuf where
  mem := memcpy b.mem 0 b.live
  leftoff := 0
  leftlen := b.leftlen
  bounds := by
    have hbounds := b.bounds
    have hroom : 0 + b.live.length ≤ b.mem.length := by
      rw [length_live]
      omega
    rw [length_memcpy hroom]
    omega

@[simp] theorem leftoff_compact : b.compact.leftoff = 0 := rfl

@[simp] theorem leftlen_compact : b.compact.leftlen = b.leftlen := rfl

@[simp] theorem length_mem_compact : b.compact.mem.length = b.mem.length := by
  have hbounds := b.bounds
  exact length_memcpy (by rw [length_live]; omega)

@[simp] theorem live_compact : b.compact.live = b.live := by
  show ((memcpy b.mem 0 b.live).drop 0).take b.leftlen = b.live
  rw [List.drop_zero, memcpy, List.take_zero, List.nil_append, ← b.length_live, List.take_left]

/-- `memcpy(leftbuf + leftlen, data, size)`, where the memory has room for it. -/
def push (data : Bytes) : Option LeftBuf :=
  if h : b.leftoff + (b.leftlen + data.length) ≤ b.mem.length then
    some
      { mem := memcpy b.mem b.leftlen data
        leftoff := b.leftoff
        leftlen := b.leftlen + data.length
        bounds := by
          rw [length_memcpy (by omega)]
          exact h }
  else none

theorem push_spec {data : Bytes} (hoff : b.leftoff = 0)
    (hroom : b.leftlen + data.length ≤ b.mem.length) :
    ∃ b', b.push data = some b' ∧ b'.live = b.live ++ data ∧ b'.leftoff = 0 ∧
      b'.mem.length = b.mem.length := by
  have hroom' : b.leftoff + (b.leftlen + data.length) ≤ b.mem.length := by
    rw [hoff, Nat.zero_add]
    exact hroom
  refine ⟨_, dif_pos hroom', ?_, hoff, length_memcpy (by omega)⟩
  have hlive : b.live = b.mem.take b.leftlen := by
    rw [live, hoff, List.drop_zero]
  have hsplit : memcpy b.mem b.leftlen data =
      (b.live ++ data) ++ b.mem.drop (b.leftlen + data.length) := by
    rw [memcpy, hlive, List.append_assoc]
  show ((memcpy b.mem b.leftlen data).drop b.leftoff).take (b.leftlen + data.length) = _
  rw [hoff, List.drop_zero, hsplit]
  refine List.take_left' ?_
  rw [List.length_append, length_live]

/-- A chunk of `n` bytes is taken from the front. -/
def advance (n : ℕ) : Option LeftBuf :=
  if h : n ≤ b.leftlen then
    some
      { mem := b.mem
        leftoff := b.leftoff + n
        leftlen := b.leftlen - n
        bounds := by have := b.bounds; omega }
  else none

theorem advance_spec {n : ℕ} (h : n ≤ b.live.length) :
    ∃ b', b.advance n = some b' ∧ b'.live = b.live.drop n ∧ b'.mem.length = b.mem.length := by
  rw [length_live] at h
  refine ⟨_, dif_pos h, ?_, rfl⟩
  show ((b.mem.drop (b.leftoff + n)).take (b.leftlen - n)) = _
  rw [live, List.drop_take, List.drop_drop]

/-- `leftoff = 0` at the end of a file. -/
def rewind : LeftBuf where
  mem := b.mem
  leftoff := 0
  leftlen := b.leftlen
  bounds := by have := b.bounds; omega

end LeftBuf

/-! ## Phases that cut -/

/-- The chunking function takes a part of the buffer, and something of a buffer that is not empty. -/
structure Phase.Takes (ph : Phase) : Prop where
  pos : ∀ x, x ≠ [] → 0 < ph.chunking x
  le_length : ∀ x, ph.chunking x ≤ x.length
  max_pos : 0 < ph.maxSize

/-- The chunking function of a phase is a cutter, for chunks of at most the maximum size. -/
def Phase.Cuts (ph : Phase) (C : Cutter UInt8) : Prop :=
  ph.chunking = C.size ∧ ph.maxSize = C.max

theorem Phase.Cuts.takes {ph : Phase} {C : Cutter UInt8} (hC : ph.Cuts C) : ph.Takes where
  pos _ hx := hC.1 ▸ C.pos hx
  le_length x := hC.1 ▸ C.le_length x
  max_pos := hC.2 ▸ C.max_pos 0

theorem Phase.Cuts.chunks_eq {ph : Phase} {C : Cutter UInt8} (hC : ph.Cuts C) {x : Bytes} {chunks : List Bytes}
    (h : Cut ph.chunking ph.maxSize x chunks) : C.chunks x = chunks := by
  rw [hC.1, hC.2] at h
  exact Cutter.chunks_eq_of_cut h

end UniDedup.Chunking
