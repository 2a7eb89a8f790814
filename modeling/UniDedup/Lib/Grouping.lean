import Mathlib.Data.List.Dedup
import Mathlib.Data.List.Nodup
import Mathlib.Data.List.Sort
import UniDedup.Lib.Slices

/-!
# Lists in groups

A list comes apart by a key of its members, and comes back from its groups in another order. Sorted numbers that are whole
blocks come back from the first number of each block.
-/

namespace Grouping

theorem flatMap_filter_perm {α κ : Type*} [DecidableEq κ] (g : α → κ) (l : List α) {ks : List κ} (hks : ks.Nodup) :
    (ks.flatMap fun k ↦ l.filter (g · = k)).Perm (l.filter (g · ∈ ks)) := by
  induction ks with
  | nil =>
    rw [List.flatMap_nil, List.filter_eq_nil_iff.mpr fun x _ ↦ by simp]
  | cons k ks ih =>
    obtain ⟨hk, hks'⟩ := List.nodup_cons.mp hks
    have hsplit := List.filter_append_perm (g · = k) (l.filter (g · ∈ k :: ks))
    rw [List.flatMap_cons]
    refine (List.Perm.trans ?_ hsplit)
    have hfirst : (l.filter (g · ∈ k :: ks)).filter (g · = k) = l.filter (g · = k) := by
      rw [List.filter_filter]
      refine List.filter_congr fun x _ ↦ ?_
      by_cases hx : g x = k <;> simp [hx]
    have hrest : (l.filter (g · ∈ k :: ks)).filter (fun x ↦ !decide (g x = k)) = l.filter (g · ∈ ks) := by
      rw [List.filter_filter]
      refine List.filter_congr fun x _ ↦ ?_
      by_cases hx : g x = k
      · simp [hx, hk]
      · simp [hx]
    rw [hfirst, hrest]
    exact (ih hks').append_left _

/-- Sorted sub-packets that are whole blocks come back from the first of each. -/
theorem flatMap_blocks {w : ℕ} (hw : 0 < w) {hs : List ℕ} (hsorted : hs.Pairwise (· < ·))
    (hwhole : ∀ h ∈ hs, ∀ j, j / w = h / w → j ∈ hs) :
    ((List.range (hs.length / w)).flatMap fun i ↦ (List.range w).map fun j ↦ hs.getD (i * w) 0 / w * w + j) = hs := by
  let sids := (hs.map (· / w)).dedup
  let block (i : ℕ) := (List.range w).map (sids.getD i 0 * w + ·)
  have hsids : sids.Pairwise (· < ·) := by
    have hle : (hs.map (· / w)).Pairwise (· ≤ ·) := by
      rw [List.pairwise_map]
      exact hsorted.imp fun h ↦ Nat.div_le_div_right h.le
    exact ((hle.sublist (List.dedup_sublist _)).and (List.nodup_dedup _)).imp fun h ↦ lt_of_le_of_ne h.1 h.2
  have hget : ∀ i (hi : i < sids.length), sids.getD i 0 = sids[i] := fun i hi ↦ by
    rw [List.getD_eq_getElem?_getD, List.getElem?_eq_getElem hi, Option.getD_some]
  have hmem_block : ∀ i j, j ∈ block i ↔ j / w = sids.getD i 0 := by
    intro i j
    rw [List.mem_map]
    constructor
    · rintro ⟨r, hr, rfl⟩
      rw [Nat.mul_comm, Nat.mul_add_div hw, Nat.div_eq_of_lt (List.mem_range.mp hr), Nat.add_zero]
    · rintro heq
      exact ⟨j % w, List.mem_range.mpr (Nat.mod_lt j hw), by rw [← heq, Nat.mul_comm, Nat.div_add_mod]⟩
  -- The blocks, one after the other, are sorted, and they are the sub-packets.
  have hblocks : (List.range sids.length).flatMap block = hs := by
    refine List.Pairwise.eq_of_mem_iff (r := (· < ·)) (List.pairwise_flatMap.mpr ⟨fun i _ ↦ ?_, ?_⟩) hsorted fun j ↦ ?_
    · rw [List.pairwise_map]
      exact List.pairwise_lt_range.imp fun h ↦ Nat.add_lt_add_left h _
    · refine List.pairwise_lt_range.imp_of_mem fun {i i'} hi hi' hlt x hx y hy ↦ ?_
      rw [hmem_block, hget i (List.mem_range.mp hi)] at hx
      rw [hmem_block, hget i' (List.mem_range.mp hi')] at hy
      have hsid := List.pairwise_iff_getElem.mp hsids i i' (List.mem_range.mp hi) (List.mem_range.mp hi') hlt
      rw [← hx, ← hy] at hsid
      exact lt_of_not_ge fun hge ↦ absurd (Nat.div_le_div_right (c := w) hge) (Nat.not_le.mpr hsid)
    · rw [List.mem_flatMap]
      constructor
      · rintro ⟨i, hi, hj⟩
        rw [hmem_block, hget i (List.mem_range.mp hi)] at hj
        obtain ⟨h, hh, heq⟩ := List.mem_map.mp (List.mem_dedup.mp (List.getElem_mem (List.mem_range.mp hi)))
        exact hwhole h hh j (hj.trans heq.symm)
      · intro hj
        obtain ⟨i, hi, heq⟩ := List.mem_iff_getElem.mp (List.mem_dedup.mpr (List.mem_map_of_mem (f := (· / w)) hj))
        exact ⟨i, List.mem_range.mpr hi, by rw [hmem_block, hget i hi]; exact heq.symm⟩
  have hlength : ∀ i < sids.length, (block i).length = w := fun i _ ↦ by rw [List.length_map, List.length_range]
  have hlen : hs.length = sids.length * w := by
    rw [← hblocks, List.flatMap_def, Slices.length_flatten_of_forall (n := w), List.length_map, List.length_range]
    intro p hp
    obtain ⟨i, hi, rfl⟩ := List.mem_map.mp hp
    exact hlength i (List.mem_range.mp hi)
  have hfirst : ∀ i < sids.length, hs.getD (i * w) 0 / w = sids.getD i 0 := by
    intro i hi
    have hat := Slices.getElem?_flatMap_range hlength hi hw
    rw [hblocks, Nat.add_zero] at hat
    rw [List.getD_eq_getElem?_getD, hat, List.getElem?_map, List.getElem?_range hw, Option.map_some, Option.getD_some,
      Nat.add_zero, Nat.mul_div_cancel _ hw]
  rw [hlen, Nat.mul_div_cancel _ hw]
  refine Eq.trans ?_ hblocks
  exact List.flatMap_congr fun i hi ↦ by rw [hfirst i (List.mem_range.mp hi)]

end Grouping
