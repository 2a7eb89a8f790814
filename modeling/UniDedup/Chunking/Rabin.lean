import UniDedup.Basic
import UniDedup.Lib.Chunker
import Mathlib.Data.List.GetD
import Mathlib.Data.Nat.Size

/-!
# The chunking functions

Both programs cut a file into chunks by the same functions. Rabin chunking slides a window of 48 bytes
over the data, keeps the remainder of its polynomial over the field of two elements, and breaks where
the low bits of the remainder have a fixed value. The tables that keep the remainder up to date are
computed from the polynomial `FINGERPRINT_PT`, bit by bit on 64-bit words.

A chunking function gets a buffer and returns the size of its first chunk. `rabinChunkData`,
`normalizedRabinChunkData` and `fixedChunkData` are cutters in the sense of `UniDedup.Cutter`: the loop
stops at the end of the chunk and has read nothing behind it. The other two functions, `tttdChunkData`
and `aeChunkData`, may go back to an earlier break or look ahead.
-/

namespace UniDedup.Chunking

/-! ## Polynomials in 64-bit words -/

/-- `bytemsb`: the number of bits of a byte. The source lists the 256 values. -/
def bytemsb (b : ℕ) : ℕ := b.size

/-- `fls32`: the number of bits of a word of 32 bits. -/
def fls32 (v : BitVec 32) : ℕ :=
  if v &&& 0xffff0000#32 ≠ 0 then
    if v &&& 0xff000000#32 ≠ 0 then 24 + bytemsb (v >>> 24).toNat
    else 16 + bytemsb (v >>> 16).toNat
  else if v &&& 0x0000ff00#32 ≠ 0 then 8 + bytemsb (v >>> 8).toNat
  else bytemsb v.toNat

def fls64 (v : BitVec 64) : ℕ :=
  let h := (v >>> 32).setWidth 32
  if h ≠ 0 then 32 + fls32 h else fls32 (v.setWidth 32)

/-- Is bit `i` of a word set? -/
def hasBit (v : BitVec 64) (i : ℕ) : Bool := v &&& (1#64 <<< i) ≠ 0

/-- One iteration of the first loop of `polymod`, on the two halves. -/
def polymodHigh (d : BitVec 64) (n : BitVec 64 × BitVec 64) (i : ℕ) : BitVec 64 × BitVec 64 :=
  if hasBit n.1 i then (n.1 ^^^ (d >>> (63 - i)), n.2 ^^^ (d <<< (i + 1))) else n

/-- One iteration of the second loop of `polymod`. -/
def polymodLow (d nl : BitVec 64) (i : ℕ) : BitVec 64 :=
  if hasBit nl i then nl ^^^ (d >>> (63 - i)) else nl

/-- `polymod`: the remainder of a polynomial of 128 bits. -/
def polymod (nh nl d : BitVec 64) : BitVec 64 :=
  let k := fls64 d - 1
  let d := d <<< (63 - k)
  let nl :=
    if nh ≠ 0 then
      let nh := if hasBit nh 63 then nh ^^^ d else nh
      ((List.range 63).reverse.foldl (polymodHigh d) (nh, nl)).2
    else nl
  ((List.range' k (64 - k)).reverse.foldl (polymodLow d) nl)

/-- One iteration of the loop of `polymult`. -/
def polymultStep (x y : BitVec 64) (p : BitVec 64 × BitVec 64) (i : ℕ) : BitVec 64 × BitVec 64 :=
  if hasBit x i then (p.1 ^^^ (y >>> (64 - i)), p.2 ^^^ (y <<< i)) else p

/-- `polymult`: the product, its high half first. -/
def polymult (x y : BitVec 64) : BitVec 64 × BitVec 64 :=
  (List.range' 1 63).foldl (polymultStep x y) (0, if hasBit x 0 then y else 0)

/-- `polymmult`: the product modulo `d`. -/
def polymmult (x y d : BitVec 64) : BitVec 64 :=
  let p := polymult x y
  polymod p.1 p.2 d

/-! ## The tables -/

/-- `FINGERPRINT_PT`, the value of `poly`. -/
def fingerprintPt : BitVec 64 := 0xbfe6b8a5bf378d83#64

/-- `size`: the number of bytes of the window. -/
def windowSize : ℕ := 48

/-- `xshift` in `calcT`. -/
def xshift : ℕ := fls64 fingerprintPt - 1

def shift : ℕ := xshift - 8

/-- The table `T`, as `calcT` fills it. -/
def tableT (j : ℕ) : BitVec 64 :=
  let T1 := polymod 0 (1#64 <<< xshift) fingerprintPt
  polymmult (.ofNat 64 j) T1 fingerprintPt ||| (BitVec.ofNat 64 j <<< xshift)

def append8 (p : BitVec 64) (m : BitVec 8) : BitVec 64 :=
  ((p <<< 8) ||| m.setWidth 64) ^^^ tableT (p >>> shift).toNat

/-- `sizeshift` in `window_init`: a byte that is `size - 1` bytes behind. -/
def sizeshift : BitVec 64 := (List.range (windowSize - 1)).foldl (fun p _ ↦ append8 p 0) 1

/-- The table `U`, as `window_init` fills it. -/
def tableU (i : ℕ) : BitVec 64 := polymmult (.ofNat 64 i) sizeshift fingerprintPt

/-! ## The window -/

/-- The locals that `SLIDE` updates. -/
structure Window where
  fp : BitVec 64
  /-- The place in `buf` of the last byte. -/
  bufPos : ℤ
  /-- The window. The array has 128 places, of which `size` are used. -/
  buf : List (BitVec 8)

/-- The locals of a chunking function when its loop starts. -/
def Window.init : Window := ⟨0, -1, List.replicate 128 0⟩

def Window.slide (w : Window) (m : BitVec 8) : Window :=
  let bufPos := if w.bufPos + 1 ≥ windowSize then 0 else w.bufPos + 1
  let om := w.buf.getD bufPos.toNat 0
  let fp := w.fp ^^^ tableU om.toNat
  let x := fp >>> shift
  ⟨((fp <<< 8) ||| m.setWidth 64) ^^^ tableT x.toNat, bufPos, w.buf.set bufPos.toNat m⟩

/-- `p[i]`. -/
def byteAt (p : Bytes) (i : ℕ) : BitVec 8 := (p.getD i 0).toBitVec

/-! ## The chunking functions -/

def breakmarkValue : BitVec 64 := 0x78

/-- The sizes of the configuration of both programs: natural numbers, well below the range of `int`. -/
structure Sizes where
  /-- `chunk_min_size`. -/
  min : ℕ
  /-- `chunk_avg_size`. -/
  avg : ℕ
  /-- `chunk_max_size`. -/
  max : ℕ
deriving DecidableEq

/-- The loop of the Rabin chunking functions, with `count` iterations left: stop at a break. -/
def scan (isBreak : ℕ → BitVec 64 → Bool) (p : Bytes) : (count i : ℕ) → Window → ℕ
  | 0, i, _ => i
  | count + 1, i, w =>
    let w := w.slide (byteAt p (i - 1))
    if isBreak i w.fp then i else scan isBreak p count (i + 1) w

/-- What `rabin_chunk_data` and `normalized_rabin_chunk_data` have in common: short buffers are one
chunk, otherwise the loop runs from the minimum to the maximum or the end of the buffer. -/
def contentChunkData (isBreak : ℕ → BitVec 64 → Bool) (s : Sizes) (p : Bytes) : ℕ :=
  if p.length ≤ s.min then p.length
  else
    let last := if p.length > s.max then s.max else p.length
    scan isBreak p (last - s.min) s.min .init

/-- `rabin_chunk_data`. The mask is `rabin_mask`, set by `chunkAlg_init`. -/
def rabinChunkData (s : Sizes) : Bytes → ℕ :=
  let rabinMask := BitVec.ofNat 64 s.avg - 1
  contentChunkData (fun _ fp ↦ fp &&& rabinMask = breakmarkValue) s

/-- `normalized_rabin_chunk_data`. The masks are signed and are extended to 64 bits. -/
def normalizedRabinChunkData (s : Sizes) : Bytes → ℕ :=
  let smallMask := BitVec.ofNat 64 (s.avg * 2) - 1
  let largeMask := BitVec.ofNat 64 (s.avg / 2) - 1
  contentChunkData (fun i fp ↦
    if i < s.avg then fp &&& smallMask = breakmarkValue else fp &&& largeMask = breakmarkValue) s

/-- The loop of `tttd_chunk_data`. The backup break `m` is zero as long as there is none. -/
def scanTttd (backMask rabinMask : BitVec 64) (p : Bytes) : (count i m : ℕ) → Window → ℕ
  | 0, i, m, _ => if m ≠ 0 then m else i
  | count + 1, i, m, w =>
    let w := w.slide (byteAt p (i - 1))
    if w.fp &&& backMask = breakmarkValue then
      if w.fp &&& rabinMask = breakmarkValue then i
      else scanTttd backMask rabinMask p count (i + 1) i w
    else scanTttd backMask rabinMask p count (i + 1) m w

def tttdChunkData (s : Sizes) (p : Bytes) : ℕ :=
  if p.length ≤ s.min then p.length
  else
    let last := if p.length > s.max then s.max else p.length
    scanTttd (.ofNat 64 (s.avg / 2) - 1) (.ofNat 64 s.avg - 1) p (last - s.min) s.min 0 .init

def fixedChunkData (s : Sizes) (p : Bytes) : ℕ := if s.avg > p.length then p.length else s.avg

/-- The eight bytes at `p + i` in the order `my_memcmp` compares them. -/
def wordAt (p : Bytes) (i : ℕ) : ℕ := ((p.drop i).take 8).foldl (fun n b ↦ n * 256 + b.toNat) 0

/-- The loop of `ae_chunk_data`: `curr` and `max`, as distances from `p`. -/
def aeScan (window maxSize : ℕ) (p : Bytes) : (count curr max : ℕ) → ℕ
  | 0, _, _ => p.length
  | count + 1, curr, max =>
    if wordAt p curr ≤ wordAt p max then aeScan window maxSize p count (curr + 1) curr
    else if curr = max + window ∨ curr = maxSize then curr
    else aeScan window maxSize p count (curr + 1) max

/-- `ae_chunk_data`, where `window` is `window_size`. -/
def aeChunkData (window maxSize : ℕ) (p : Bytes) : ℕ :=
  if p.length ≤ window + 8 then p.length else aeScan window maxSize p (p.length - 8) 1 0

/-! ## The content-defined functions are cutters -/

theorem byteAt_append {x : Bytes} (y : Bytes) {i : ℕ} (hi : i < x.length) :
    byteAt (x ++ y) i = byteAt x i := by
  rw [byteAt, byteAt, List.getD_append _ _ _ _ hi]

section Scan

variable {isBreak : ℕ → BitVec 64 → Bool} {p x y : Bytes} {count count' i : ℕ} {w : Window}

theorem le_scan : i ≤ scan isBreak p count i w := by
  induction count generalizing i w with
  | zero => exact le_rfl
  | succ count ih =>
    rw [scan]
    split
    · exact le_rfl
    · exact (Nat.le_succ i).trans ih

theorem scan_le : scan isBreak p count i w ≤ i + count := by
  induction count generalizing i w with
  | zero => exact le_rfl
  | succ count ih =>
    rw [scan]
    split
    · exact Nat.le_add_right ..
    · refine ih.trans_eq ?_
      omega

/-- A loop that ends in the prefix `x` has read nothing behind it. The loop over `x` alone has as many
iterations, or it runs to the end of `x`. -/
theorem scan_append (hi : 0 < i) (hx : i + count ≤ x.length) (hle : count ≤ count')
    (hcount : count = count' ∨ i + count = x.length)
    (hscan : scan isBreak (x ++ y) count' i w ≤ x.length) :
    scan isBreak x count i w = scan isBreak (x ++ y) count' i w := by
  induction count generalizing count' i w with
  | zero =>
    rcases hcount with rfl | hend
    · rfl
    · have hlow : i ≤ scan isBreak (x ++ y) count' i w := le_scan
      rw [scan]
      omega
  | succ count ih =>
    obtain ⟨count', rfl⟩ := Nat.exists_eq_add_of_lt hle
    have hbyte : byteAt (x ++ y) (i - 1) = byteAt x (i - 1) := byteAt_append y (by omega)
    rw [scan] at hscan
    rw [scan, scan]
    simp only [hbyte] at hscan ⊢
    by_cases hbreak : isBreak i (w.slide (byteAt x (i - 1))).fp
    · rw [if_pos hbreak, if_pos hbreak]
    · rw [if_neg hbreak] at hscan
      rw [if_neg hbreak, if_neg hbreak]
      exact ih (Nat.succ_pos i) (by omega) (by omega) (by omega) hscan

end Scan

section Content

variable (isBreak : ℕ → BitVec 64 → Bool) {s : Sizes}

theorem le_contentChunkData {p : Bytes} (hp : s.min < p.length) :
    s.min ≤ contentChunkData isBreak s p := by
  rw [contentChunkData, if_neg (not_le.mpr hp)]
  exact le_scan

private theorem contentChunkData_le (p : Bytes) :
    contentChunkData isBreak s p ≤ p.length ∧ (s.min ≤ s.max → contentChunkData isBreak s p ≤ s.max) := by
  by_cases hp : p.length ≤ s.min
  · rw [contentChunkData, if_pos hp]
    exact ⟨le_rfl, hp.trans⟩
  · rw [contentChunkData, if_neg hp]
    dsimp only
    generalize hlast : (if p.length > s.max then s.max else p.length) = last
    have hscan : scan isBreak p (last - s.min) s.min .init ≤ s.min + (last - s.min) := scan_le
    split_ifs at hlast <;> omega

theorem contentChunkData_le_length (p : Bytes) : contentChunkData isBreak s p ≤ p.length :=
  (contentChunkData_le isBreak p).1

theorem contentChunkData_pos (hmin : 0 < s.min) {p : Bytes} (hp : p ≠ []) : 0 < contentChunkData isBreak s p := by
  by_cases hle : p.length ≤ s.min
  · rw [contentChunkData, if_pos hle]
    exact List.length_pos_iff.mpr hp
  · exact hmin.trans_le (le_contentChunkData isBreak (not_le.mp hle))

private theorem contentChunkData_append (hmin : 0 < s.min) (hmax : s.min ≤ s.max) (x y : Bytes)
    (h : contentChunkData isBreak s (x ++ y) ≤ x.length) :
    contentChunkData isBreak s x = contentChunkData isBreak s (x ++ y) := by
  have hlength : (x ++ y).length = x.length + y.length := List.length_append
  by_cases hxy : (x ++ y).length ≤ s.min
  · -- the whole sequence is one chunk
    rw [contentChunkData, if_pos hxy] at h
    rw [List.eq_nil_of_length_eq_zero (l := y) (by omega), List.append_nil]
  by_cases hx : x.length ≤ s.min
  · -- the break is at the minimum, the end of the prefix
    have hlow := le_contentChunkData isBreak (not_le.mp hxy)
    rw [contentChunkData, if_pos hx]
    omega
  · rw [contentChunkData, if_neg hxy] at h
    rw [contentChunkData, contentChunkData, if_neg hx, if_neg hxy]
    refine scan_append hmin ?_ ?_ ?_ h
    all_goals split_ifs <;> omega

/-- The content-defined chunking functions look at nothing behind their break. -/
def contentCutter (hmin : 0 < s.min) (hmax : s.min ≤ s.max) : Cutter UInt8 where
  size := contentChunkData isBreak s
  max := s.max
  pos := contentChunkData_pos isBreak hmin
  le_length := contentChunkData_le_length isBreak
  le_max p := (contentChunkData_le isBreak p).2 hmax
  size_append := contentChunkData_append isBreak hmin hmax

end Content

def fixedCutter {s : Sizes} (havg : 0 < s.avg) : Cutter UInt8 where
  size := fixedChunkData s
  max := s.avg
  pos {p} hp := by
    have hlength := List.length_pos_iff.mpr hp
    rw [fixedChunkData]
    split_ifs <;> assumption
  le_length p := by
    rw [fixedChunkData]
    split_ifs <;> omega
  le_max p := by
    rw [fixedChunkData]
    split_ifs <;> omega
  size_append x y h := by
    rw [fixedChunkData, List.length_append] at h
    rw [fixedChunkData, fixedChunkData, List.length_append]
    split_ifs at h ⊢ <;> omega

end UniDedup.Chunking
