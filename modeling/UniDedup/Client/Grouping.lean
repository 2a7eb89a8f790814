import UniDedup.Client.Routing
import UniDedup.Lib.Least
import UniDedup.Lib.Slices

/-!
# The fingerprints that stand for a group

A group is routed by the fingerprint of one of its chunks, the *delegate*, or by the smallest
fingerprints of its *sample units*, runs of `DEFAULT_SAMPLE_UNIT_SIZE` chunks. `split2Groups` computes both
for a full group in one place and for the last, shorter group in another.

For the sample units the two places differ only in when a unit is pushed, and they agree. For the
delegate the second one lacks a `< 0`: there the delegate is not the smallest fingerprint but the one of the last
chunk.
-/

namespace UniDedup

namespace Fingerprint

/-- The smallest fingerprint of a list, `0xff…ff` for none. -/
def least (fps : List Fingerprint) : Fingerprint := fps.foldl (keepLess cmp) (fill 255)

theorem least_spec {fps : List Fingerprint} (h : fps ≠ []) : Least cmp fps (least fps) :=
  least_foldl_top (fun _ hfp ↦ eq_fill_of_cmp_ne_lt hfp) h

theorem least_concat (fps : List Fingerprint) (fp : Fingerprint) :
    least (fps ++ [fp]) = keepLess cmp (least fps) fp := by
  rw [least, List.foldl_append]
  rfl

end Fingerprint

namespace Client

open Routing

/-! ## The delegate -/

section Delegate

variable {cs : List Chunk}

theorem delegateOfFull_eq (cs : List Chunk) : delegateOfFull cs = Fingerprint.least (cs.map Chunk.fp) := by
  rw [Fingerprint.least, List.foldl_map]
  rfl

theorem delegateOfLast_concat (cs : List Chunk) (c : Chunk) : delegateOfLast (cs ++ [c]) = c.fp := by
  rw [delegateOfLast, List.foldl_append, List.foldl_cons, List.foldl_nil]
  split_ifs with heq
  · rfl
  · exact (Fingerprint.eq_of_cmp_eq (not_not.mp heq)).symm

theorem split2Groups_of_length_le (filename : Name) (route : Client.Routing) (hne : cs ≠ [])
    (hle : cs.length ≤ defaultGroupSize) :
    (split2Groups filename route cs)[0]? = some (groupOf filename route cs 0) ∧ groupRun cs 0 = cs := by
  have hpos : 0 < groupNum cs.length := by
    have hlength := List.length_pos_iff.mpr hne
    simp only [groupNum, defaultGroupSize]
    omega
  constructor
  · rw [split2Groups_eq, List.getElem?_map, List.getElem?_range hpos]
    rfl
  · rw [groupRun, Nat.zero_mul, List.drop_zero, List.take_of_length_le hle]

/-- The SHA-1 digest of `a`. -/
def digestA : Bytes :=
  [0x86, 0xf7, 0xe4, 0x37, 0xfa, 0xa5, 0xa7, 0xfc, 0xe1, 0x5d, 0x1d, 0xdc, 0xb9, 0xea, 0xea, 0xea,
    0x37, 0x76, 0x67, 0xb8]

theorem length_digestA : digestA.length = fpLength := rfl

/-- The SHA-1 digest of `b`. -/
def digestB : Bytes :=
  [0xe9, 0xd7, 0x1f, 0x5e, 0xe7, 0xc9, 0x2d, 0x6d, 0xc9, 0xe9, 0x2f, 0xfd, 0xad, 0x17, 0xb8, 0xbd,
    0x49, 0x41, 0x8f, 0x98]

theorem length_digestB : digestB.length = fpLength := rfl

/-- The chunk `a` with its SHA-1 digest. -/
def chunkA : Chunk := ⟨⟨digestA, length_digestA⟩, [97]⟩

/-- The chunk `b` with its SHA-1 digest. -/
def chunkB : Chunk := ⟨⟨digestB, length_digestB⟩, [98]⟩

/-- **Which groups are routed by their smallest fingerprint**: those that have `DEFAULT_GROUP_SIZE` chunks,
and those whose last chunk has the smallest one. -/
theorem delegate_least_iff {filename : Name} {route : Client.Routing} {chunks : List Chunk} {i : ℕ} {g : Group}
    (hg : (split2Groups filename route chunks)[i]? = some g) :
    Least Fingerprint.cmp ((groupRun chunks i).map Chunk.fp) g.delegate ↔
      (groupRun chunks i).length = defaultGroupSize ∨
        ∃ c, (groupRun chunks i).getLast? = some c ∧
          ∀ c' ∈ groupRun chunks i, (Fingerprint.cmp c.fp c'.fp).isLE := by
  rw [split2Groups_eq, List.getElem?_map] at hg
  obtain ⟨i', hi', rfl⟩ := Option.map_eq_some_iff.mp hg
  obtain ⟨hi, rfl⟩ := List.getElem?_eq_some_iff.mp hi'
  rw [List.getElem_range]
  rw [List.length_range] at hi
  have hne := (groupRun_split hi).1
  change Least _ _ (groupDelegate (groupRun chunks i)) ↔ _
  rw [groupDelegate]
  split_ifs with hfull
  · rw [delegateOfFull_eq]
    exact iff_of_true (Fingerprint.least_spec (by simpa using hne)) (.inl hfull)
  · rw [or_iff_right hfull]
    obtain ⟨cs, c, hrun⟩ := (List.eq_nil_or_concat' _).resolve_left hne
    rw [hrun, delegateOfLast_concat, List.getLast?_concat]
    constructor
    · intro h
      refine ⟨c, rfl, fun c' hc' ↦ h.isLE c'.fp (List.mem_map_of_mem hc')⟩
    · rintro ⟨c', hc', hle⟩
      obtain rfl := Option.some.inj hc'
      refine ⟨by simp, fun fp hfp ↦ ?_⟩
      obtain ⟨c', hc', rfl⟩ := List.mem_map.mp hfp
      exact hle c' hc'

/-- The smallest fingerprint last, in the short group of the file `ba`; and first, in a full group. -/
theorem delegate_least_iff_ba :
    Least Fingerprint.cmp ([chunkB, chunkA].map Chunk.fp)
        (groupOf ['f'] (fun _ _ _ ↦ 0) [chunkB, chunkA] 0).delegate ∧
      Least Fingerprint.cmp ((chunkA :: List.replicate 1023 chunkB).map Chunk.fp)
        (groupOf ['f'] (fun _ _ _ ↦ 0) (chunkA :: List.replicate 1023 chunkB) 0).delegate := by
  have hlength : (chunkA :: List.replicate 1023 chunkB).length = defaultGroupSize := by
    rw [List.length_cons, List.length_replicate]
    rfl
  obtain ⟨hba, hbaRun⟩ := split2Groups_of_length_le ['f'] (fun _ _ _ ↦ 0) (List.cons_ne_nil chunkB [chunkA])
    (by decide)
  obtain ⟨hfull, hfullRun⟩ := split2Groups_of_length_le ['f'] (fun _ _ _ ↦ 0)
    (List.cons_ne_nil chunkA (List.replicate 1023 chunkB)) hlength.le
  constructor
  · refine hbaRun ▸ (delegate_least_iff hba).mpr (.inr ⟨chunkA, rfl, fun c hc ↦ ?_⟩)
    rw [hbaRun] at hc
    rcases List.mem_pair.mp hc with rfl | rfl
    · exact (by decide : (Fingerprint.cmp chunkA.fp chunkB.fp).isLE)
    · exact (by decide : (Fingerprint.cmp chunkA.fp chunkA.fp).isLE)
  · have hleast := (delegate_least_iff hfull).mpr (.inl (by rw [hfullRun, hlength]))
    rw [hfullRun] at hleast
    exact hleast

/-- The file `ab` in chunks of one byte: its group is routed by the fingerprint of `b`, the larger one. -/
theorem not_least_delegate_ab :
    (split2Groups ['f'] (fun _ _ _ ↦ 0) [chunkA, chunkB])[0]? = some (newGroup ['f'] 0 chunkB.fp 0 [97, 98]) ∧
      groupRun [chunkA, chunkB] 0 = [chunkA, chunkB] ∧
      ¬Least Fingerprint.cmp ([chunkA, chunkB].map Chunk.fp) chunkB.fp := by
  refine ⟨by decide, by decide, fun h ↦ ?_⟩
  exact absurd (h.isLE chunkA.fp (List.mem_map_of_mem List.mem_cons_self)) (by decide)

end Delegate

/-! ## The sample units

The loop is described by the prefix of the chunks it has seen: the units pushed so far, and the open one
when there is one, are those of the runs of the prefix. -/

section Units

variable {cs : List Chunk} {c : Chunk}

def unitOf (run : List Chunk) : SampleUnit :=
  ⟨Fingerprint.least (run.map Chunk.fp), (run.map fun c ↦ c.data.length).sum⟩

theorem unitOf_concat (run : List Chunk) (c : Chunk) :
    unitOf (run ++ [c]) =
      ⟨if Fingerprint.cmp c.fp (unitOf run).feature = .lt then c.fp else (unitOf run).feature,
        (unitOf run).size + c.data.length⟩ := by
  rw [unitOf, List.map_append, List.map_append, List.map_singleton, List.map_singleton, Fingerprint.least_concat,
    List.sum_append, List.sum_singleton]
  rfl

/-- The chunks of the `u`-th sample unit. -/
def unitRun (cs : List Chunk) (u : ℕ) : List Chunk := Slices.piece defaultSampleUnitSize u cs

/-- The number of runs of `DEFAULT_SAMPLE_UNIT_SIZE` that `n` chunks start. -/
def unitNum (n : ℕ) : ℕ := (n + (defaultSampleUnitSize - 1)) / defaultSampleUnitSize

/-- What the loop has after the chunks `cs` of a group of `groupCnt`. -/
structure Units (groupCnt : ℕ) (last : Bool) (cs : List Chunk) (st : ℕ × SampleUnit × List SampleUnit) :
    Prop where
  index : st.1 = cs.length
  current : cs.length % defaultSampleUnitSize ≠ 0 → st.2.1 = unitOf (unitRun cs (cs.length / defaultSampleUnitSize))
  units : st.2.2 = (List.range (if last ∧ cs.length = groupCnt then unitNum cs.length
    else cs.length / defaultSampleUnitSize)).map fun u ↦ unitOf (unitRun cs u)

theorem Units.step {groupCnt : ℕ} {last : Bool} {st : ℕ × SampleUnit × List SampleUnit}
    (h : Units groupCnt last cs st) (hlt : cs.length < groupCnt) (c : Chunk) :
    Units groupCnt last (cs ++ [c]) (sampleStep groupCnt last st c) := by
  obtain ⟨i, su, units⟩ := st
  obtain ⟨rfl, hcurrent, hunits⟩ := h
  have hlength : (cs ++ [c]).length = cs.length + 1 := by
    rw [List.length_append, List.length_singleton]
  have hlo : cs.length / defaultSampleUnitSize * defaultSampleUnitSize ≤ cs.length := Nat.div_mul_le_self ..
  have hhi : cs.length + 1 ≤ (cs.length / defaultSampleUnitSize + 1) * defaultSampleUnitSize := by
    simp only [defaultSampleUnitSize]
    omega
  have hrun : unitRun (cs ++ [c]) (cs.length / defaultSampleUnitSize) =
      unitRun cs (cs.length / defaultSampleUnitSize) ++ [c] :=
    Slices.piece_append_open hlo (by rw [hlength]; exact hhi)
  have hclosed : ∀ u ∈ List.range (cs.length / defaultSampleUnitSize),
      unitOf (unitRun cs u) = unitOf (unitRun (cs ++ [c]) u) := by
    intro u hu
    have hle := Nat.mul_le_mul_right defaultSampleUnitSize (Nat.succ_le_of_lt (List.mem_range.mp hu))
    rw [unitRun, unitRun, Slices.piece_append (hle.trans hlo)]
  -- the open unit is that of the open run, which is empty when the loop resets it
  have hopen : (if cs.length % defaultSampleUnitSize = 0 then (⟨Fingerprint.fill 255, 0⟩ : SampleUnit) else su) =
      unitOf (unitRun cs (cs.length / defaultSampleUnitSize)) := by
    split_ifs with hzero
    · have hnil : unitRun cs (cs.length / defaultSampleUnitSize) = [] := by
        rw [unitRun, Slices.piece, List.drop_eq_nil_of_le, List.take_nil]
        rw [Nat.div_mul_cancel (Nat.dvd_of_mod_eq_zero hzero)]
      rw [hnil]
      rfl
    · exact hcurrent hzero
  rw [if_neg fun hfull ↦ hlt.ne hfull.2] at hunits
  rw [sampleStep]
  simp only [hopen]
  rw [← unitOf_concat, ← hrun]
  dsimp only at hunits
  by_cases hpush : (cs.length + 1) % defaultSampleUnitSize = 0 ∨ last ∧ cs.length + 1 = groupCnt
  · have hnum : (if last ∧ (cs ++ [c]).length = groupCnt then unitNum (cs ++ [c]).length
        else (cs ++ [c]).length / defaultSampleUnitSize) = cs.length / defaultSampleUnitSize + 1 := by
      rw [hlength]
      rcases hpush with hzero | hfull
      · simp only [unitNum, defaultSampleUnitSize] at *
        split_ifs <;> omega
      · rw [if_pos hfull]
        simp only [unitNum, defaultSampleUnitSize] at *
        omega
    rw [if_pos hpush]
    refine ⟨hlength.symm, fun hne ↦ ?_, ?_⟩
    · have hdiv : (cs ++ [c]).length / defaultSampleUnitSize = cs.length / defaultSampleUnitSize := by
        rw [hlength] at hne ⊢
        simp only [defaultSampleUnitSize] at *
        omega
      rw [hdiv]
    · rw [hnum, List.range_succ, List.map_append, ← List.map_congr_left hclosed, hunits, List.map_singleton]
  · have hdiv : (cs ++ [c]).length / defaultSampleUnitSize = cs.length / defaultSampleUnitSize := by
      rw [hlength]
      simp only [defaultSampleUnitSize] at *
      omega
    rw [if_neg hpush]
    refine ⟨hlength.symm, fun _ ↦ by rw [hdiv], ?_⟩
    rw [if_neg fun hfull ↦ hpush (.inr (hlength ▸ hfull)), hdiv, ← List.map_congr_left hclosed, hunits]

/-- **The sample units of a group are those of its runs**, in order. -/
theorem sampleUnitList_eq {cs : List Chunk} (hcs : cs ≠ []) :
    sampleUnitList cs = (List.range (unitNum cs.length)).map fun u ↦ unitOf (unitRun cs u) := by
  have hloop : ∀ as bs : List Chunk, as ++ bs = cs → Units cs.length (cs.length ≠ defaultGroupSize) as
      (as.foldl (sampleStep cs.length (cs.length ≠ defaultGroupSize)) (0, ⟨Fingerprint.fill 255, 0⟩, [])) := by
    intro as
    induction as using List.reverseRecOn with
    | nil =>
      refine fun bs _ ↦ ⟨rfl, fun h ↦ absurd rfl h, ?_⟩
      rw [if_neg fun h ↦ hcs (List.length_eq_zero_iff.mp h.2.symm)]
      rfl
    | append_singleton as c ih =>
      intro bs hbs
      rw [List.foldl_append]
      refine (ih (c :: bs) (by rw [← hbs, List.append_assoc]; rfl)).step ?_ c
      rw [← hbs, List.append_assoc, List.length_append, List.length_append, List.length_singleton]
      omega
  rw [sampleUnitList, (hloop cs [] (List.append_nil cs)).units]
  by_cases hfull : cs.length = defaultGroupSize
  · rw [hfull]
    rfl
  · rw [if_pos ⟨decide_eq_true hfull, rfl⟩]

theorem unitRun_ne_nil {cs : List Chunk} {u : ℕ} (hu : u < unitNum cs.length) : unitRun cs u ≠ [] := by
  refine List.ne_nil_of_length_pos ?_
  rw [unitRun, Slices.piece, List.length_take, List.length_drop]
  simp only [unitNum, defaultSampleUnitSize] at *
  omega

theorem flatMap_unitRun (cs : List Chunk) : (List.range (unitNum cs.length)).flatMap (unitRun cs) = cs := by
  refine (Slices.take_flatMap_piece ..).trans (List.take_of_length_le ?_)
  simp only [unitNum, defaultSampleUnitSize]
  omega

theorem chunksData_length (cs : List Chunk) : (chunksData cs).length = (cs.map fun c ↦ c.data.length).sum :=
  List.length_flatMap

private theorem sum_flatMap_range (f : ℕ → List Chunk) (n : ℕ) :
    (((List.range n).flatMap f).map fun c ↦ c.data.length).sum =
      ((List.range n).map fun u ↦ ((f u).map fun c ↦ c.data.length).sum).sum := by
  induction n with
  | zero => rfl
  | succ n ih =>
    rw [List.range_succ, List.flatMap_append, List.flatMap_singleton, List.map_append, List.map_append, List.sum_append,
      List.sum_append, ih, List.map_singleton, List.sum_singleton]

/-- **The sample units partition a group.** For every group of a file, the `u`-th unit has the smallest
fingerprint and the total size of the `u`-th run of `DEFAULT_SAMPLE_UNIT_SIZE` chunks; the runs make up the
group, and the sizes add up to its size. -/
theorem sampleUnitList_partition {filename : Name} {route : Client.Routing} {chunks : List Chunk} {i : ℕ} {g : Group}
    (hg : (split2Groups filename route chunks)[i]? = some g) :
    let run := groupRun chunks i
    let units := sampleUnitList run
    1 ≤ run.length ∧ units.length = (run.length + (defaultSampleUnitSize - 1)) / defaultSampleUnitSize ∧
      (∀ u su, units[u]? = some su →
        Least Fingerprint.cmp ((unitRun run u).map Chunk.fp) su.feature ∧
          su.size = ((unitRun run u).map fun c ↦ c.data.length).sum) ∧
      (List.range units.length).flatMap (unitRun run) = run ∧
      (units.map SampleUnit.size).sum = g.data.length := by
  rw [split2Groups_eq, List.getElem?_map] at hg
  obtain ⟨i', hi', rfl⟩ := Option.map_eq_some_iff.mp hg
  obtain ⟨hi, rfl⟩ := List.getElem?_eq_some_iff.mp hi'
  rw [List.getElem_range]
  rw [List.length_range] at hi
  have hne := (groupRun_split hi).1
  intro run units
  have hunits : units = (List.range (unitNum run.length)).map fun u ↦ unitOf (unitRun run u) := sampleUnitList_eq hne
  have hlength : units.length = unitNum run.length := by
    rw [hunits, List.length_map, List.length_range]
  refine ⟨List.length_pos_iff.mpr hne, hlength, fun u su hu ↦ ?_, ?_, ?_⟩
  · rw [hunits, List.getElem?_map] at hu
    obtain ⟨u', hu', rfl⟩ := Option.map_eq_some_iff.mp hu
    obtain ⟨hlt, rfl⟩ := List.getElem?_eq_some_iff.mp hu'
    rw [List.getElem_range]
    rw [List.length_range] at hlt
    exact ⟨Fingerprint.least_spec (by simpa using unitRun_ne_nil hlt), rfl⟩
  · rw [hlength]
    exact flatMap_unitRun run
  · have hsizes : units.map SampleUnit.size = (List.range (unitNum run.length)).map fun u ↦
        ((unitRun run u).map fun c ↦ c.data.length).sum := by
      rw [hunits, List.map_map]
      rfl
    change _ = (chunksData run).length
    rw [hsizes, ← sum_flatMap_range, flatMap_unitRun, chunksData_length]

/-- A group of 129 chunks: the second sample unit starts behind the first 128 chunks. -/
theorem sampleUnitList_partition_two :
    let first := List.replicate 100 chunkB ++ chunkA :: List.replicate 27 chunkB
    ∃ su su', sampleUnitList (first ++ [chunkB]) = [su, su'] ∧
      Least Fingerprint.cmp (first.map Chunk.fp) su.feature ∧ su.size = 128 ∧
      Least Fingerprint.cmp [chunkB.fp] su'.feature ∧ su'.size = 1 := by
  intro first
  have hfirst : first.length = 128 := by
    rw [List.length_append, List.length_replicate, List.length_cons, List.length_replicate]
  have hlength : (first ++ [chunkB]).length = 129 := by rw [List.length_append, hfirst]; rfl
  obtain ⟨hgroup, hrun⟩ := split2Groups_of_length_le ['f'] (fun _ _ _ ↦ 0)
    (List.append_ne_nil_of_right_ne_nil first (List.cons_ne_nil chunkB [])) (hlength.trans_le (by decide))
  obtain ⟨-, hnum, hunits, -, -⟩ := sampleUnitList_partition hgroup
  rw [hrun] at hnum hunits
  obtain ⟨su, su', hpair⟩ := List.length_eq_two.mp (hnum.trans (by rw [hlength]; rfl))
  have hzero : unitRun (first ++ [chunkB]) 0 = first := by
    rw [unitRun, Slices.piece, Nat.zero_mul, List.drop_zero]
    exact List.take_left' hfirst
  have hone : unitRun (first ++ [chunkB]) 1 = [chunkB] := by
    rw [unitRun, Slices.piece, Nat.one_mul]
    exact congrArg (List.take _) (List.drop_left' hfirst)
  obtain ⟨hleast, hsize⟩ := hunits 0 su (by rw [hpair]; rfl)
  obtain ⟨hleast', hsize'⟩ := hunits 1 su' (by rw [hpair]; rfl)
  rw [hzero] at hleast hsize
  rw [hone] at hleast' hsize'
  refine ⟨su, su', hpair, hleast, hsize.trans ?_, hleast', hsize'⟩
  rw [List.map_append, List.map_cons, List.map_replicate, List.map_replicate, List.sum_append, List.sum_cons,
    List.sum_replicate, List.sum_replicate]
  rfl

end Units

end Client

end UniDedup
