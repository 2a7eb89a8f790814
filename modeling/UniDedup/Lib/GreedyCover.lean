import Mathlib.Data.Finset.Card
import Mathlib.Data.Finset.Union

/-!
# Greedy covers

Sets are chosen one by one, each time one that covers as many elements as possible that are not covered
yet; of several such sets the one with the largest index.
-/

namespace UniDedup

variable {ι κ : Type*} [DecidableEq κ]

/-- The number of elements that the set at `i` adds to those covered. -/
def gain (S : ι → Finset κ) (covered : Finset κ) (i : ι) : ℕ := (S i \ covered).card

/-- The set at `i` is chosen rather than the one at `j`. -/
def Outdoes [LE ι] (S : ι → Finset κ) (covered : Finset κ) (i j : ι) : Prop :=
  gain S covered j < gain S covered i ∨ gain S covered j = gain S covered i ∧ j ≤ i

variable [DecidableEq ι] [LE ι]

/-- The sets are chosen greedily, with some elements covered beforehand. -/
structure IsGreedyCover (S : ι → Finset κ) (candidates : Finset ι) (covered : Finset κ)
    (chosen : List ι) : Prop where
  nodup : chosen.Nodup
  mem : ∀ i ∈ chosen, i ∈ candidates
  outdoes : ∀ before i after, chosen = before ++ i :: after → ∀ j ∈ candidates, j ∉ before →
    Outdoes S (covered ∪ before.toFinset.biUnion S) i j

variable {S : ι → Finset κ} {candidates : Finset ι} {covered : Finset κ} {chosen : List ι} {i : ι}

theorem isGreedyCover_nil : IsGreedyCover S candidates covered [] where
  nodup := List.nodup_nil
  mem _ h := absurd h List.not_mem_nil
  outdoes before i after h := by simp at h

/-- **A choice**, and those after it. -/
theorem IsGreedyCover.cons (hi : i ∈ candidates) (hbest : ∀ j ∈ candidates, Outdoes S covered i j)
    (h : IsGreedyCover S (candidates.erase i) (covered ∪ S i) chosen) :
    IsGreedyCover S candidates covered (i :: chosen) where
  nodup := List.nodup_cons.mpr ⟨fun hmem ↦ Finset.notMem_erase i candidates (h.mem i hmem), h.nodup⟩
  mem := List.forall_mem_cons.mpr ⟨hi, fun j hj ↦ Finset.mem_of_mem_erase (h.mem j hj)⟩
  outdoes := by
    rintro (_ | ⟨j, before⟩) i' after heq k hk hbefore
    · obtain ⟨rfl, rfl⟩ := List.cons.inj heq
      simpa using hbest k hk
    · obtain ⟨rfl, rfl⟩ := List.cons.inj heq
      rw [List.mem_cons, not_or] at hbefore
      have hout := h.outdoes before i' after rfl k (Finset.mem_erase.mpr ⟨hbefore.1, hk⟩) hbefore.2
      rwa [List.toFinset_cons, Finset.biUnion_insert, ← Finset.union_assoc]

end UniDedup
