import Mathlib.Data.List.Nodup
import Mathlib.Data.List.Sort
import Mathlib.Order.Basic

/-!
# Sequences ordered by a comparison

A sequence is searched, extended and sorted by a function that compares two elements: its result is negative,
zero or positive. Such a function need not be an order, and when it is not, neither is a sequence sorted by it.
On elements whose comparison is that of their keys, the operations are those of lists ordered by the keys.
-/

namespace UniDedup.Comparing

variable {α β : Type*} (cmp : α → α → ℤ)

/-- The first element that compares equal to `x`, with the elements before it and behind it. -/
def lookup (x : α) : List α → Option (List α × α × List α)
  | [] => none
  | a :: l => if cmp a x = 0 then some ([], a, l) else (lookup x l).map fun (b, r, s) ↦ (a :: b, r, s)

/-- Insert an element before the first one that is greater. -/
def insertSorted (x : α) (l : List α) : List α := l.orderedInsert (fun a b ↦ 0 < cmp b a) x

/-- Sort the elements; equal ones keep their order. -/
def sort (l : List α) : List α := l.insertionSort fun a b ↦ cmp a b ≤ 0

variable {cmp} {x : α} {l : List α}

theorem lookup_eq_some {b s : List α} {r : α} (h : lookup cmp x l = some (b, r, s)) :
    l = b ++ r :: s ∧ cmp r x = 0 := by
  induction l generalizing b with
  | nil => exact absurd h.symm (Option.some_ne_none _)
  | cons a l ih =>
    rw [lookup] at h
    split at h
    · next ha =>
      obtain ⟨rfl, hrs⟩ := Prod.mk.inj (Option.some.inj h)
      obtain ⟨rfl, rfl⟩ := Prod.mk.inj hrs
      exact ⟨rfl, ha⟩
    · obtain ⟨⟨b', r', s'⟩, hl, heq⟩ := Option.map_eq_some_iff.mp h
      obtain ⟨rfl, hrs⟩ := Prod.mk.inj heq
      obtain ⟨rfl, rfl⟩ := Prod.mk.inj hrs
      obtain ⟨rfl, hr⟩ := ih hl
      exact ⟨rfl, hr⟩

theorem lookup_eq_none : lookup cmp x l = none ↔ ∀ a ∈ l, cmp a x ≠ 0 := by
  induction l with
  | nil => exact iff_of_true rfl fun a ha ↦ absurd ha List.not_mem_nil
  | cons a l ih =>
    rw [lookup, List.forall_mem_cons]
    split
    · next ha => exact iff_of_false (Option.some_ne_none _) fun h ↦ h.1 ha
    · next ha =>
      rw [Option.map_eq_none_iff, ih]
      exact (and_iff_right ha).symm

theorem perm_sort (cmp : α → α → ℤ) (l : List α) : (sort cmp l).Perm l := List.perm_insertionSort _ l

/-! ## Comparing by keys -/

section Keys

variable [LinearOrder β] {key : α → β}

/-- The elements compare as their keys do. -/
structure Represents (cmp : α → α → ℤ) (key : α → β) (a b : α) : Prop where
  eq_zero : cmp a b = 0 ↔ key a = key b
  neg : cmp a b < 0 ↔ key a < key b

theorem Represents.nonpos {a b : α} (h : Represents cmp key a b) : cmp a b ≤ 0 ↔ key a ≤ key b := by
  rw [le_iff_lt_or_eq, le_iff_lt_or_eq, h.neg, h.eq_zero]

theorem Represents.pos {a b : α} (h : Represents cmp key a b) : 0 < cmp a b ↔ key b < key a := by
  rw [← not_le, ← not_le, h.nonpos]

theorem orderedInsert_congr {r s : α → α → Prop} [DecidableRel r] [DecidableRel s] (h : ∀ b ∈ l, r x b ↔ s x b) :
    l.orderedInsert r x = l.orderedInsert s x := by
  induction l with
  | nil => rfl
  | cons b l ih =>
    rw [List.forall_mem_cons] at h
    rw [List.orderedInsert, List.orderedInsert, ih h.2]
    exact if_congr h.1 rfl rfl

variable (key) in
theorem insertSorted_eq (hx : ∀ b ∈ l, Represents cmp key b x) (hnot : key x ∉ l.map key) :
    insertSorted cmp x l = l.orderedInsert (fun a b ↦ key a ≤ key b) x := by
  refine orderedInsert_congr fun b hb ↦ ?_
  have hne : key x ≠ key b := fun heq ↦ hnot (heq ▸ List.mem_map_of_mem hb)
  rw [(hx b hb).pos]
  exact ⟨le_of_lt, fun hle ↦ lt_of_le_of_ne hle hne⟩

theorem pairwise_sort (h : ∀ a ∈ l, ∀ b ∈ l, Represents cmp key a b) :
    (sort cmp l).Pairwise fun a b ↦ key a ≤ key b := by
  have hsort : ∀ l' : List α, (∀ a ∈ l', a ∈ l) →
      l'.insertionSort (fun a b ↦ cmp a b ≤ 0) = l'.insertionSort fun a b ↦ key a ≤ key b := by
    intro l' hl'
    induction l' with
    | nil => rfl
    | cons a l' ih =>
      rw [List.forall_mem_cons] at hl'
      rw [List.insertionSort_cons, List.insertionSort_cons, ih hl'.2]
      refine orderedInsert_congr fun b hb ↦ (h a hl'.1 b ?_).nonpos
      exact hl'.2 b ((List.mem_insertionSort _).mp hb)
  rw [sort, hsort l fun _ ha ↦ ha]
  have htotal : Std.Total fun a b ↦ key a ≤ key b := ⟨fun a b ↦ le_total (key a) (key b)⟩
  have htrans : IsTrans α fun a b ↦ key a ≤ key b := ⟨fun _ _ _ hab hbc ↦ hab.trans hbc⟩
  exact List.pairwise_insertionSort _ l

variable (key) in
/-- **Sorting restores a sequence with distinct keys**, however it was put in disorder. -/
theorem sort_eq_of_perm {l' : List α} (h : ∀ a ∈ l, ∀ b ∈ l, Represents cmp key a b)
    (hsorted : l.Pairwise fun a b ↦ key a < key b) (hperm : l'.Perm l) : sort cmp l' = l := by
  have hle : (sort cmp l').Pairwise fun a b ↦ key a ≤ key b :=
    pairwise_sort fun a ha b hb ↦ h a (hperm.subset ha) b (hperm.subset hb)
  refine ((perm_sort cmp l').trans hperm).eq_of_pairwise (fun a b ha hb hab hba ↦ ?_) hle
    (hsorted.imp le_of_lt)
  -- elements with the same key are the same
  have hnodup : (l.map key).Nodup := List.pairwise_map.mpr (hsorted.imp ne_of_lt)
  have hsub : ∀ {a}, a ∈ sort cmp l' → a ∈ l := fun ha ↦ ((perm_sort cmp l').trans hperm).subset ha
  exact List.inj_on_of_nodup_map hnodup (hsub ha) hb (le_antisymm hab hba)

end Keys

end UniDedup.Comparing
