import UniDedup.Basic
import Mathlib.Data.List.Basic

/-!
# Assembling a file

The client pops the chunks of a file from a queue, copies them behind each other to the assembly area and writes the
area to the output file when the next chunk does not fit any more.

The chunk that did not fit is copied to the start of the area, but it is not counted in the offset, so the chunk
after it is copied over it; and what is in the area when the queue ends is not written. So a file that has any
bytes at all is never assembled completely (`doAssemble_eq_flatten_iff`).
-/

namespace UniDedup.Client

def assembleBufferLen : ℕ := 30 * 4194304

/-- The local variables of `do_assemble`, and what has been passed to `write`. -/
structure Assembly where
  assemblyArea : ℕ → UInt8
  offset : ℕ
  written : Bytes

/-- `memcpy` to a place of the area. -/
def copyToArea (area : ℕ → UInt8) (offset : ℕ) (data : Bytes) (i : ℕ) : UInt8 :=
  if offset ≤ i then data[i - offset]?.getD (area i) else area i

/-- One round of the loop of `do_assemble`. -/
def assembleChunk (s : Assembly) (data : Bytes) : Assembly :=
  if s.offset + data.length < assembleBufferLen then
    { s with
      assemblyArea := copyToArea s.assemblyArea s.offset data
      offset := s.offset + data.length }
  else
    { assemblyArea := copyToArea s.assemblyArea 0 data
      offset := 0
      written := s.written ++ (List.range s.offset).map s.assemblyArea }

/-- `do_assemble`: the bytes it writes, for the chunks that it pops. -/
def doAssemble (chunks : List Bytes) : Bytes :=
  (chunks.foldl assembleChunk ⟨fun i ↦ if i = 0 then 48 else 0, 0, []⟩).written

/-! ## What is written -/

/-- The bytes that are written from now on, when `buffered` is in the area: whole areas, each without the chunk
that did not fit. -/
def flushed (buffered : Bytes) : List Bytes → Bytes
  | [] => []
  | data :: chunks =>
    if buffered.length + data.length < assembleBufferLen then flushed (buffered ++ data) chunks
    else buffered ++ flushed [] chunks

theorem map_copyToArea (area : ℕ → UInt8) (offset : ℕ) (data : Bytes) :
    (List.range (offset + data.length)).map (copyToArea area offset data) =
      (List.range offset).map area ++ data := by
  rw [List.range_add, List.map_append, List.map_map]
  congr 1
  · refine List.map_congr_left fun i hi ↦ ?_
    rw [copyToArea, if_neg (Nat.not_le.mpr (List.mem_range.mp hi))]
  · refine List.ext_getElem (by simp) fun i hi hi' ↦ ?_
    simp [copyToArea, hi']

theorem written_foldl (chunks : List Bytes) (s : Assembly) :
    (chunks.foldl assembleChunk s).written =
      s.written ++ flushed ((List.range s.offset).map s.assemblyArea) chunks := by
  induction chunks generalizing s with
  | nil => exact (List.append_nil _).symm
  | cons data chunks ih =>
    have hlen : ((List.range s.offset).map s.assemblyArea).length = s.offset := by
      rw [List.length_map, List.length_range]
    rw [List.foldl_cons, ih, flushed, hlen]
    by_cases hfit : s.offset + data.length < assembleBufferLen
    · rw [assembleChunk, if_pos hfit, if_pos hfit]
      dsimp only
      rw [map_copyToArea]
    · rw [assembleChunk, if_neg hfit, if_neg hfit]
      dsimp only
      rw [List.append_assoc]
      rfl

theorem doAssemble_eq (chunks : List Bytes) : doAssemble chunks = flushed [] chunks :=
  written_foldl chunks _

/-! ## What is lost -/

/-- No more is written than there is, and where all of it is written there was nothing to write. -/
theorem length_flushed {chunks : List Bytes} (buffered : Bytes) (hbuf : buffered.length < assembleBufferLen)
    (h : ∀ data ∈ chunks, data.length < assembleBufferLen) :
    (flushed buffered chunks).length ≤ (buffered ++ chunks.flatten).length ∧
      ((flushed buffered chunks).length = (buffered ++ chunks.flatten).length →
        buffered ++ chunks.flatten = []) := by
  induction chunks generalizing buffered with
  | nil =>
    rw [flushed, List.flatten_nil, List.append_nil]
    exact ⟨Nat.zero_le _, fun hlen ↦ List.eq_nil_of_length_eq_zero hlen.symm⟩
  | cons data chunks ih =>
    have hrest : ∀ data ∈ chunks, data.length < assembleBufferLen := fun d hd ↦ h d (List.mem_cons_of_mem data hd)
    rw [flushed, List.flatten_cons, ← List.append_assoc]
    split_ifs with hfit
    · exact ih _ (by rw [List.length_append]; exact hfit) hrest
    · -- the chunk that does not fit is lost, and it is not empty
      have hle := (ih [] (by decide) hrest).1
      simp only [List.length_append, List.nil_append] at hle hfit ⊢
      have hlt : (buffered.length + (flushed [] chunks).length) <
          buffered.length + data.length + chunks.flatten.length := by omega
      exact ⟨hlt.le, fun heq ↦ absurd heq hlt.ne⟩

/-- **Assembling.** The file is written as it is only where it has no bytes. -/
theorem doAssemble_eq_flatten_iff {chunks : List Bytes} (h : ∀ data ∈ chunks, data.length < assembleBufferLen) :
    doAssemble chunks = chunks.flatten ↔ chunks.flatten = [] := by
  obtain ⟨hle, heq⟩ := length_flushed [] (by decide) h
  rw [doAssemble_eq]
  rw [List.nil_append] at hle heq
  refine ⟨fun hsame ↦ heq (congrArg List.length hsame), fun hnil ↦ ?_⟩
  rw [hnil] at hle ⊢
  exact List.eq_nil_of_length_eq_zero (Nat.le_zero.mp hle)

/-- A file of one byte is not assembled. -/
theorem doAssemble_oneByte : doAssemble [[7]] = ([[7]] : List Bytes).flatten ↔ ([[7]] : List Bytes).flatten = [] :=
  doAssemble_eq_flatten_iff fun data hdata ↦ by
    rw [List.mem_singleton.mp hdata]
    decide

/-- Of a file of three bytes in two chunks nothing is written. -/
theorem doAssemble_twoChunks : doAssemble [[1, 2], [3]] ≠ [[1, 2], [3]].flatten := by
  decide

end UniDedup.Client
