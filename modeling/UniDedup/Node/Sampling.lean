import Mathlib.Data.List.Dedup
import UniDedup.Lib.Outcome
import UniDedup.Node.Chunk

/-!
# Segmenting and sampling

The dedup phase groups the chunks of a stream into segments; the index represents a segment, or a
container, by a few features, the leading bytes of some of its fingerprints. Each segmenting method is
a step function on the segment being assembled, and each sampling method maps a list of chunks to a
set of keys.

When a method selects nothing, a key of `0x00` or `0xff` bytes stands in. Uniform sampling counts the
file markers along with the chunks, so it also samples their zero fingerprints.
-/

namespace UniDedup.Node

open Outcome

/-! ## Segmenting -/

/-- `segment_fixed` on a chunk: the segment that is complete, if any, and the one being assembled. -/
def segmentFixed (cfg : Config) (tmp : List Chunk) (c : Chunk) : Option (List Chunk) × List Chunk :=
  let tmp := tmp ++ [c]
  if c.isFileMarker then (none, tmp)
  else if chunkNum tmp = cfg.segmentSize then (some tmp, [])
  else (none, tmp)

/-- `segment_file_defined` on a chunk. -/
def segmentFileDefined (tmp : List Chunk) (c : Chunk) : Option (List Chunk) × List Chunk :=
  let tmp := tmp ++ [c]
  if c.kind = .fileEnd then (some tmp, []) else (none, tmp)

/-- `segment_content_defined` on a chunk. -/
def segmentContentDefined (cfg : Config) (tmp : List Chunk) (c : Chunk) :
    Option (List Chunk) × List Chunk :=
  if c.isFileMarker then (none, tmp ++ [c])
  else if chunkNum tmp < cfg.segmentMin then (none, tmp ++ [c])
  else if fingerprintHead c.fp % cfg.segmentSize = 0 then (some tmp, [c])
  else if cfg.segmentMax ≤ chunkNum (tmp ++ [c]) then (some (tmp ++ [c]), [])
  else (none, tmp ++ [c])

/-- `segmenting` on a chunk; at the end of the stream all methods return the segment being
assembled. -/
def segmenting (cfg : Config) (tmp : List Chunk) (c : Chunk) : Option (List Chunk) × List Chunk :=
  match cfg.segmentAlgorithm with
  | .fixed => segmentFixed cfg tmp c
  | .fileDefined => segmentFileDefined tmp c
  | .contentDefined => segmentContentDefined cfg tmp c

theorem segmenting_append {cfg : Config} {tmp tmp' : List Chunk} {c : Chunk}
    {out : Option (List Chunk)} (h : segmenting cfg tmp c = (out, tmp')) :
    out.getD [] ++ tmp' = tmp ++ [c] := by
  have hfixed : ∀ r, segmentFixed cfg tmp c = r → r.1.getD [] ++ r.2 = tmp ++ [c] := by
    rintro r rfl
    unfold segmentFixed
    dsimp only
    split_ifs <;> simp
  have hfile : ∀ r, segmentFileDefined tmp c = r → r.1.getD [] ++ r.2 = tmp ++ [c] := by
    rintro r rfl
    unfold segmentFileDefined
    dsimp only
    split_ifs <;> simp
  have hcontent : ∀ r, segmentContentDefined cfg tmp c = r → r.1.getD [] ++ r.2 = tmp ++ [c] := by
    rintro r rfl
    unfold segmentContentDefined
    split_ifs <;> simp
  unfold segmenting at h
  split at h
  · exact hfixed _ h
  · exact hfile _ h
  · exact hcontent _ h

theorem chunkNum_of_segmenting {cfg : Config} (hfixed : cfg.segmentAlgorithm = .fixed)
    {tmp tmp' s : List Chunk} {c : Chunk} (h : segmenting cfg tmp c = (some s, tmp')) :
    chunkNum s = cfg.segmentSize := by
  simp only [segmenting, hfixed, segmentFixed] at h
  split_ifs at h with hm hsize <;> cases h
  exact hsize

/-! ## Keys -/

/-- A key of the index. -/
abbrev Key := List UInt8

/-- The key of a fingerprint: its first `index_key_size` bytes. -/
def keyOf (cfg : Config) (fp : Fingerprint) : Key := fp.toList.take cfg.keySize

/-- The set of keys of a list of fingerprints. -/
def keysOf (cfg : Config) (fps : List Fingerprint) : List Key := (fps.map (keyOf cfg)).dedup

/-- The feature that stands in where no other is selected. -/
def fallbackKey (cfg : Config) (b : UInt8) : Key := List.replicate cfg.keySize b

theorem mem_keysOf {cfg : Config} {fps : List Fingerprint} {k : Key} :
    k ∈ keysOf cfg fps ↔ ∃ fp ∈ fps, keyOf cfg fp = k := by simp [keysOf]

theorem keysOf_nodup (cfg : Config) (fps : List Fingerprint) : (keysOf cfg fps).Nodup :=
  List.nodup_dedup _

/-! ## Sampling -/

/-- The number of features min-sampling selects. -/
def featureNum (ratio chunkNum : ℕ) : ℕ :=
  if ratio ≠ 0 ∧ ratio < chunkNum then
    if ratio < chunkNum % ratio * 2 then chunkNum / ratio + 1 else chunkNum / ratio
  else 1

theorem featureNum_pos (ratio n : ℕ) : 0 < featureNum ratio n := by
  unfold featureNum
  split_ifs with h h'
  · exact Nat.succ_pos _
  · exact Nat.div_pos h.2.le (Nat.pos_of_ne_zero h.1)
  · exact Nat.one_pos

/-- Insert a candidate behind all that are not larger. -/
def insertCandidate (x : Fingerprint × Fingerprint) :
    List (Fingerprint × Fingerprint) → List (Fingerprint × Fingerprint)
  | [] => [x]
  | y :: l => if Fingerprint.cmp x.1 y.1 = .lt then x :: y :: l else y :: insertCandidate x l

/-- One round of the selection of the `num` smallest: the first component is compared, the second is
the fingerprint the feature is taken from. -/
def selectCandidate (num : ℕ) (candidates : List (Fingerprint × Fingerprint))
    (x : Fingerprint × Fingerprint) : List (Fingerprint × Fingerprint) :=
  let smaller := candidates.getLast?.any fun y ↦ Fingerprint.cmp x.1 y.1 = .lt
  if candidates.length < num ∨ smaller then
    let candidates := insertCandidate x candidates
    if num < candidates.length then candidates.dropLast else candidates
  else candidates

/-- The fingerprints of the chunks that are not file markers. -/
def dataFps (chunks : List Chunk) : List Fingerprint :=
  (chunks.filter fun c ↦ !c.isFileMarker).map Chunk.fp

/-- The candidates of `index_sampling_min`: every fingerprint stands for itself. -/
def minCandidates (fps : List Fingerprint) : List (Fingerprint × Fingerprint) :=
  fps.map fun fp ↦ (fp, fp)

/-- The candidates of `index_sampling_optimized_min`: a fingerprint stands for the one eight chunks
before it, or for the first one. -/
def optimizedMinCandidates (fps : List Fingerprint) : List (Fingerprint × Fingerprint) :=
  fps.zipIdx.map fun (fp, i) ↦ (fp, (fps[i - 8]?).getD fp)

/-- `index_sampling_min` and `index_sampling_optimized_min`. -/
def samplingMin (cfg : Config) (candidates : List Fingerprint → List (Fingerprint × Fingerprint))
    (chunks : List Chunk) (chunkNum : ℕ) : List Key :=
  let num := featureNum cfg.samplingRatio (if chunkNum = 0 then chunks.length else chunkNum)
  let selected := (candidates (dataFps chunks)).foldl (selectCandidate num) []
  if selected = [] then [fallbackKey cfg 0xff] else keysOf cfg (selected.map Prod.snd)

/-- The fingerprints `index_sampling_random` selects. -/
def randomFps (cfg : Config) (chunks : List Chunk) : List Fingerprint :=
  (dataFps chunks).filter fun fp ↦ fingerprintHead fp % cfg.samplingRatio = 0

/-- The chunks, or markers, `index_sampling_uniform` selects. -/
def uniformChunks (cfg : Config) (chunks : List Chunk) : List Chunk :=
  (chunks.zipIdx.filter fun p ↦ p.2 % cfg.samplingRatio = 0).map Prod.fst

/-- The assertions of the sampling methods. -/
inductive SamplingAbort
  /-- `assert(destor.index_sampling_method[1] != 0)`. -/
  | ratio
  /-- `assert(chunk_num == 0)`. -/
  | chunkNum
deriving DecidableEq

def sampling (cfg : Config) (chunks : List Chunk) (chunkNum : ℕ) :
    Except SamplingAbort (List Key) :=
  match cfg.samplingMethod with
  | .min => .ok (samplingMin cfg minCandidates chunks chunkNum)
  | .optimizedMin => .ok (samplingMin cfg optimizedMinCandidates chunks chunkNum)
  | .random => do
    check (cfg.samplingRatio ≠ 0) .ratio
    let fps := randomFps cfg chunks
    return if fps = [] then [fallbackKey cfg 0x00] else keysOf cfg fps
  | .uniform => do
    check (cfg.samplingRatio ≠ 0) .ratio
    let fps := (uniformChunks cfg chunks).map Chunk.fp
    if fps = [] then
      check (chunkNum = 0) .chunkNum
      return [fallbackKey cfg 0x00]
    return keysOf cfg fps

end UniDedup.Node
