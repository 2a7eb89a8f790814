import UniDedup.Chunking.LookAhead

/-!
# The maximum of asymmetric extremum chunking

`ae_chunk_data` looks for the smallest eight bytes and cuts when `window_size` bytes have passed without smaller or
equal ones. The maximum is tested in the same place as the window: only after the comparison, and only when the
bytes at `curr` are larger. A scan that finds something smaller or equal at the maximum runs past it, and then nothing
stops it but the window.

`Stops` says of a position, in terms of the buffer, that the loop ends there if it gets that far.
-/

namespace UniDedup.Chunking

section Stops

variable {window maxSize count curr max q : ℕ} {p : Bytes}

/-- `m` is the last place of the smallest eight bytes before `q`. -/
structure LastMin (p : Bytes) (m q : ℕ) : Prop where
  lt : m < q
  le_before : ∀ j < m, wordAt p m ≤ wordAt p j
  lt_behind : ∀ j, m < j → j < q → wordAt p m < wordAt p j

/-- The eight bytes at `q` are larger than the smallest ones before, and `q` is `window` behind those or is the
maximum. -/
def Stops (window maxSize : ℕ) (p : Bytes) (q : ℕ) : Prop :=
  ∃ m, LastMin p m q ∧ wordAt p m < wordAt p q ∧ (q = m + window ∨ q = maxSize)

theorem LastMin.unique {m m' : ℕ} (h : LastMin p m q) (h' : LastMin p m' q) : m = m' := by
  rcases Nat.lt_trichotomy m m' with hlt | heq | hlt
  · exact absurd (h.lt_behind m' hlt h'.lt) (not_lt.mpr (h'.le_before m hlt))
  · exact heq
  · exact absurd (h'.lt_behind m hlt h.lt) (not_lt.mpr (h.le_before m' hlt))

theorem LastMin.next {m : ℕ} (h : LastMin p m q) :
    LastMin p (if wordAt p q ≤ wordAt p m then q else m) (q + 1) := by
  split_ifs with hle
  · refine ⟨q.lt_succ_self, fun j hj ↦ hle.trans ?_, fun j hj hj' ↦ absurd hj (by omega)⟩
    rcases Nat.lt_trichotomy j m with hlt | rfl | hlt
    · exact h.le_before j hlt
    · exact le_rfl
    · exact (h.lt_behind j hlt hj).le
  · refine ⟨h.lt.trans q.lt_succ_self, h.le_before, fun j hj hj' ↦ ?_⟩
    rcases Nat.lt_succ_iff_lt_or_eq.mp hj' with hlt | rfl
    · exact h.lt_behind j hj hlt
    · exact not_le.mp hle

/-- **Where the loop ends**: at the first position from `curr` on that stops it, or at the end of the buffer. -/
theorem aeScan_spec (h : LastMin p max curr) :
    (aeScan window maxSize p count curr max = p.length ∨
      aeScan window maxSize p count curr max < curr + count ∧
        Stops window maxSize p (aeScan window maxSize p count curr max)) ∧
      ∀ q, curr ≤ q → q < curr + count → Stops window maxSize p q → aeScan window maxSize p count curr max ≤ q := by
  induction count generalizing curr max with
  | zero => exact ⟨.inl rfl, fun q hq hq' ↦ absurd hq (by omega)⟩
  | succ count ih =>
    have hnext := h.next
    have hcount : curr + 1 + count = curr + (count + 1) := by omega
    -- a position that does not stop the loop is left behind
    have hskip : ∀ max', LastMin p max' (curr + 1) → ¬Stops window maxSize p curr →
        (aeScan window maxSize p count (curr + 1) max' = p.length ∨
          aeScan window maxSize p count (curr + 1) max' < curr + (count + 1) ∧
            Stops window maxSize p (aeScan window maxSize p count (curr + 1) max')) ∧
          ∀ q, curr ≤ q → q < curr + (count + 1) → Stops window maxSize p q →
            aeScan window maxSize p count (curr + 1) max' ≤ q := by
      intro max' hmax' hstop
      obtain ⟨hend, hfirst⟩ := ih hmax'
      rw [hcount] at hend hfirst
      refine ⟨hend, fun q hq hlt hq' ↦ hfirst q (Nat.lt_of_le_of_ne hq ?_) hlt hq'⟩
      rintro rfl
      exact hstop hq'
    rw [aeScan]
    by_cases hle : wordAt p curr ≤ wordAt p max
    · rw [if_pos hle] at hnext ⊢
      refine hskip curr hnext ?_
      rintro ⟨m, hm, hlt, -⟩
      obtain rfl := hm.unique h
      exact absurd hlt (not_lt.mpr hle)
    · rw [if_neg hle] at hnext ⊢
      by_cases hcut : curr = max + window ∨ curr = maxSize
      · rw [if_pos hcut]
        exact ⟨.inr ⟨by omega, max, h, not_le.mp hle, hcut⟩, fun q hq _ _ ↦ hq⟩
      · rw [if_neg hcut]
        refine hskip max hnext ?_
        rintro ⟨m, hm, -, hcut'⟩
        obtain rfl := hm.unique h
        exact hcut hcut'

theorem lastMin_zero (p : Bytes) : LastMin p 0 1 :=
  ⟨Nat.one_pos, fun _ hj ↦ absurd hj (Nat.not_lt_zero _), fun _ hj hj' ↦ absurd hj (by omega)⟩

/-- **When a chunk is within the maximum**: when the buffer is, or when some position up to the maximum stops the loop. -/
theorem aeChunkData_le_iff (hp : p ≠ []) :
    1 ≤ aeChunkData window maxSize p ∧ aeChunkData window maxSize p ≤ min p.length maxSize ↔
      p.length ≤ maxSize ∨
        window + 8 < p.length ∧ ∃ q ≤ maxSize, q + 8 ≤ p.length ∧ Stops window maxSize p q := by
  have hbounds : 1 ≤ aeChunkData window maxSize p ∧ aeChunkData window maxSize p ≤ p.length := aeChunkData_bounds hp
  obtain ⟨hpos, hle⟩ := hbounds
  have hmin : 1 ≤ aeChunkData window maxSize p ∧ aeChunkData window maxSize p ≤ min p.length maxSize ↔
      aeChunkData window maxSize p ≤ maxSize := by
    rw [le_min_iff]
    exact ⟨fun h ↦ h.2.2, fun h ↦ ⟨hpos, hle, h⟩⟩
  rw [hmin]
  by_cases hshort : p.length ≤ window + 8
  · have hall : aeChunkData window maxSize p = p.length := if_pos hshort
    rw [hall]
    exact ⟨.inl, fun h ↦ h.resolve_right fun h ↦ absurd h.1 (not_lt.mpr hshort)⟩
  · have hscan : aeChunkData window maxSize p = aeScan window maxSize p (p.length - 8) 1 0 := if_neg hshort
    have hspec := @aeScan_spec window maxSize (p.length - 8) _ _ _ (lastMin_zero p)
    rw [← hscan] at hspec
    obtain ⟨hend, hfirst⟩ := hspec
    constructor
    · intro hmax
      rcases hend with hend | ⟨hlt, hstops⟩
      · exact .inl (hend ▸ hmax)
      · exact .inr ⟨not_le.mp hshort, _, hmax, by omega, hstops⟩
    · rintro (hmax | ⟨-, q, hq, hq', hstops⟩)
      · exact hle.trans hmax
      · have hone : 1 ≤ q := by
          obtain ⟨m, hm, -⟩ := hstops
          exact Nat.one_le_of_lt hm.lt
        exact (hfirst q hone (by omega) hstops).trans hq

/-- **When asymmetric extremum chunking respects the maximum**: for buffers within the maximum, and for those in which
some position up to the maximum stops the loop. Then the chunk is no larger than `zeros`, which has `chunk_max_size`
bytes, and fits a container if the maximum does. -/
theorem ae_within_max_iff (hp : p ≠ []) :
    (1 ≤ aeChunkData window maxSize p ∧ aeChunkData window maxSize p ≤ min p.length maxSize ↔
      p.length ≤ maxSize ∨
        window + 8 < p.length ∧ ∃ q ≤ maxSize, q + 8 ≤ p.length ∧ Stops window maxSize p q) ∧
    (aeChunkData window maxSize p ≤ min p.length maxSize → aeChunkData window maxSize p ≤ maxSize ∧
      (maxSize ≤ Node.containerSize - Node.containerMetaSize →
        aeChunkData window maxSize p ≤ Node.containerSize - Node.containerMetaSize)) := by
  refine ⟨aeChunkData_le_iff hp, fun h ↦ ?_⟩
  have hle := h.trans (min_le_right ..)
  exact ⟨hle, hle.trans⟩

/-- A buffer of 18 bytes with a window of five and a maximum of seven. The smallest eight bytes before place 7 are
those at place 3; the window would end at place 8, the maximum stops the loop before. -/
theorem ae_within_max_iff_maximum :
    let p : Bytes := [5, 4, 3, 2, 9, 9, 9, 9, 9, 9, 9, 9, 9, 9, 9, 9, 9, 9]
    1 ≤ aeChunkData 5 7 p ∧ aeChunkData 5 7 p ≤ min p.length 7 := by
  intro p
  have hbehind : ∀ j < 7, 3 < j → wordAt p 3 < wordAt p j := by decide
  have hmin : LastMin p 3 7 := ⟨by decide, by decide, fun j hj hj' ↦ hbehind j hj' hj⟩
  exact ((@ae_within_max_iff 5 7 p (List.cons_ne_nil _ _)).1).mpr
    (.inr ⟨by decide, 7, le_rfl, by decide, 3, hmin, by decide, .inr rfl⟩)

end Stops

/-! ## Zeros -/

section Zeros

variable {window maxSize n : ℕ}

theorem wordAt_replicate (n i : ℕ) : wordAt (List.replicate n 0) i = 0 := by
  have hzero : ∀ m : ℕ, (List.replicate m (0 : UInt8)).foldl (fun n b ↦ n * 256 + b.toNat) 0 = 0 := by
    intro m
    induction m with
    | zero => rfl
    | succ m ih => exact ih
  rw [wordAt, List.drop_replicate, List.take_replicate]
  exact hzero _

theorem aeChunkData_replicate (window maxSize n : ℕ) : aeChunkData window maxSize (List.replicate n 0) = n := by
  have hstops : ∀ q, ¬Stops window maxSize (List.replicate n 0) q := by
    rintro q ⟨m, -, hlt, -⟩
    rw [wordAt_replicate, wordAt_replicate] at hlt
    exact absurd hlt (lt_irrefl 0)
  rw [aeChunkData]
  split_ifs
  · exact List.length_replicate
  · have hspec := @aeScan_spec window maxSize ((List.replicate n (0 : UInt8)).length - 8) _ _ _
      (lastMin_zero (List.replicate n 0))
    rcases hspec.1 with hend | ⟨-, hstop⟩
    · exact hend.trans List.length_replicate
    · exact absurd hstop (hstops _)

/-- A node reads behind `zeros` when the first block of a file is one of zeros above the maximum. -/
theorem node_chunkThread_zeros (hn : maxSize < n) (hblock : n ≤ defaultBlockSize) (name : Bytes) :
    Node.chunkThread ⟨aeChunkData window maxSize, maxSize⟩ (Node.readFile name [List.replicate n 0]) = none := by
  have hroom : (LeftBuf.new (defaultBlockSize + maxSize)).leftlen + (List.replicate n (0 : UInt8)).length ≤
      (LeftBuf.new (defaultBlockSize + maxSize)).mem.length := by
    simp only [LeftBuf.new, List.length_replicate]
    omega
  obtain ⟨b, hpush, hlive, -, -⟩ := LeftBuf.push_spec _ rfl hroom
  have hlive : b.live = List.replicate n 0 := hlive
  have hlen : b.leftlen = n := by
    rw [← b.length_live, hlive, List.length_replicate]
  have hchunk : aeChunkData window maxSize b.live = n := by
    rw [hlive, aeChunkData_replicate]
  obtain ⟨b', hadvance, -, -⟩ := b.advance_spec (n := n) (by rw [b.length_live, hlen])
  have hfirst : Node.firstBlock (LeftBuf.new (defaultBlockSize + maxSize))
      (Node.Chunk.new .normal (List.replicate n 0)) = some (b, none) := by
    rw [Node.firstBlock, if_neg Node.Kind.noConfusion]
    exact congrArg (Option.map fun b ↦ (b, none)) hpush
  have hrefill : Node.refill maxSize b none [Node.Chunk.new .fileEnd []] =
      some (b, none, [Node.Chunk.new .fileEnd []]) := by
    rw [Node.refill, if_pos Option.isNone_none, Node.refillNull, if_neg (by omega)]
  have hfile : ∀ fuel, Node.chunkFile ⟨aeChunkData window maxSize, maxSize⟩ fuel b none
      [Node.Chunk.new .fileEnd []] = none := by
    intro fuel
    cases fuel with
    | zero => rfl
    | succ fuel =>
      rw [Node.chunkFile, hrefill]
      simp only [Option.bind_eq_bind, Option.bind_some, hlen, if_neg (Nat.ne_of_gt (Nat.zero_lt_of_lt hn)), hchunk,
        hadvance, guard, if_neg (not_le.mpr hn)]
      rfl
  have hstart : (Node.Chunk.new .fileStart name).kind = .fileStart := rfl
  have hqueue : Node.readFile name [List.replicate n 0] =
      [Node.Chunk.new .fileStart name, Node.Chunk.new .normal (List.replicate n 0), Node.Chunk.new .fileEnd []] := rfl
  rw [Node.chunkThread, hqueue, List.length_cons, Node.chunkFiles, hfirst]
  simp only [guard, if_pos hstart, Option.bind_eq_bind, Option.bind_some, hfile]
  rfl

end Zeros

/-- A buffer of 100000 zeros, with the default sizes: the chunk is above the maximum, and a node that finds them in the
first block of a file reads behind `zeros`. -/
theorem not_ae_within_max_zeros :
    ¬aeChunkData 4767 65536 (List.replicate 100000 0) ≤ min (List.replicate 100000 (0 : UInt8)).length 65536 ∧
      Node.chunkThread ⟨aeChunkData 4767 65536, 65536⟩ (Node.readFile [102] [List.replicate 100000 0]) = none := by
  refine ⟨?_, node_chunkThread_zeros (by decide) (by decide) _⟩
  rw [aeChunkData_replicate, List.length_replicate]
  decide

end UniDedup.Chunking
