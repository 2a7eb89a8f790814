import Mathlib.Data.List.Basic
import Mathlib.Data.List.Pairwise
import Mathlib.Data.List.Perm.Basic

/-!
# The smallest elements a loop keeps

A loop runs over a list and keeps its smallest elements so far in a sorted list of bounded length. An
element is looked at only if there is room or if it is smaller than the largest one kept; it is inserted
behind all that are not larger, and if there is one too many now, the last one is dropped.

The loop keeps what a stable insertion sort of the whole list has in front: of equal elements the
earliest.
-/

namespace UniDedup

variable {α β γ : Type*}

section Loop

variable (cmp : β → β → Ordering) (key : α → β)

/-- Insert an element behind all that are not larger. -/
def insertBehind (x : α) : List α → List α
  | [] => [x]
  | y :: l => if cmp (key x) (key y) = .lt then x :: y :: l else y :: insertBehind x l

def keepSmallest (num : ℕ) (kept : List α) (x : α) : List α :=
  let smaller := kept.getLast?.any fun y ↦ cmp (key x) (key y) = .lt
  if kept.length < num ∨ smaller then
    let kept := insertBehind cmp key x kept
    if num < kept.length then kept.dropLast else kept
  else kept

/-- One element stands before another in a sorted list: it is smaller, or it is not larger and came
first. -/
def Precedes (first : α → α → Prop) (x y : α) : Prop :=
  cmp (key x) (key y) = .lt ∨ (cmp (key x) (key y)).isLE = true ∧ first x y

/-- The list is made of the `num` elements kept and the rest, which none of those exceeds. -/
structure AreSmallest (first : α → α → Prop) (num : ℕ) (l kept rest : List α) : Prop where
  perm : (kept ++ rest).Perm l
  length : kept.length = min num l.length
  precedes : ∀ x ∈ kept, ∀ y ∈ rest, Precedes cmp key first x y

end Loop

section

variable {cmp : β → β → Ordering} {key : α → β} {first : α → α → Prop} {num : ℕ} {x y z : α} {l : List α}

theorem Precedes.isLE (h : Precedes cmp key first x y) : (cmp (key x) (key y)).isLE = true := by
  rcases h with hlt | ⟨hle, -⟩
  · rw [hlt]
    rfl
  · exact hle

theorem insertBehind_perm : (insertBehind cmp key x l).Perm (x :: l) := by
  induction l with
  | nil => exact List.Perm.refl _
  | cons y l ih =>
    rw [insertBehind]
    split_ifs
    · exact List.Perm.refl _
    · exact (ih.cons y).trans (List.Perm.swap x y l)

theorem length_insertBehind : (insertBehind cmp key x l).length = l.length + 1 :=
  insertBehind_perm.length_eq

/-- What is inserted into the rest of a list does not matter for its front. -/
theorem take_insertBehind :
    (insertBehind cmp key x l).take num = (insertBehind cmp key x (l.take num)).take num := by
  induction l generalizing num with
  | nil => rw [List.take_nil]
  | cons y l ih =>
    cases num with
    | zero => rw [List.take_zero, List.take_zero]
    | succ num =>
      rw [List.take_succ_cons, insertBehind, insertBehind]
      split_ifs
      · cases num with
        | zero => rfl
        | succ num => simp [List.take_take]
      · rw [List.take_succ_cons, List.take_succ_cons, ih]

theorem insertBehind_of_forall (h : ∀ y ∈ l, cmp (key x) (key y) ≠ .lt) :
    insertBehind cmp key x l = l ++ [x] := by
  induction l with
  | nil => rfl
  | cons y l ih =>
    rw [List.forall_mem_cons] at h
    rw [insertBehind, if_neg h.1, ih h.2, List.cons_append]

variable [Std.TransCmp cmp]

theorem isLE_of_not_lt (h : cmp (key x) (key y) ≠ .lt) : (cmp (key y) (key x)).isLE = true := by
  rw [← Std.OrientedCmp.isGE_iff_isLE]
  cases hcmp : cmp (key x) (key y) with
  | lt => exact absurd hcmp h
  | eq => rfl
  | gt => rfl

theorem pairwise_insertBehind (hl : l.Pairwise (Precedes cmp key first)) (hx : ∀ y ∈ l, first y x) :
    (insertBehind cmp key x l).Pairwise (Precedes cmp key first) := by
  induction l with
  | nil => exact List.pairwise_singleton _ _
  | cons y l ih =>
    rw [List.pairwise_cons] at hl
    rw [List.forall_mem_cons] at hx
    rw [insertBehind]
    split_ifs with hlt
    · refine List.pairwise_cons.mpr ⟨?_, List.pairwise_cons.mpr hl⟩
      refine List.forall_mem_cons.mpr ⟨.inl hlt, fun z hz ↦ .inl ?_⟩
      exact Std.TransCmp.lt_of_lt_of_isLE hlt (hl.1 z hz).isLE
    · refine List.pairwise_cons.mpr ⟨fun z hz ↦ ?_, ih hl.2 hx.2⟩
      rcases List.mem_cons.mp (insertBehind_perm.mem_iff.mp hz) with rfl | hz
      · exact .inr ⟨isLE_of_not_lt hlt, hx.1⟩
      · exact hl.1 z hz

/-- **A turn of the loop** on the front of a sorted list. -/
theorem keepSmallest_take (hl : l.Pairwise (Precedes cmp key first)) :
    keepSmallest cmp key num (l.take num) x = (insertBehind cmp key x l).take num := by
  rw [keepSmallest, take_insertBehind]
  dsimp only
  by_cases hroom : (l.take num).length < num
  · rw [if_pos (.inl hroom), length_insertBehind, if_neg (Nat.not_lt.mpr hroom)]
    refine (List.take_of_length_le ?_).symm
    rw [length_insertBehind]
    exact hroom
  have hlen : (l.take num).length = num :=
    Nat.le_antisymm (List.length_take_le num l) (Nat.not_lt.mp hroom)
  by_cases hsmaller : ((l.take num).getLast?.any fun y ↦ cmp (key x) (key y) = .lt) = true
  · rw [if_pos (.inr hsmaller), length_insertBehind, if_pos (by omega), List.dropLast_eq_take,
      length_insertBehind, hlen, Nat.add_sub_cancel]
  · have hend : ∀ y ∈ l.take num, cmp (key x) (key y) ≠ .lt := by
      intro y hy hlt
      refine hsmaller ?_
      obtain ⟨front, last, hfront⟩ := (List.eq_nil_or_concat (l.take num)).resolve_left
        (List.ne_nil_of_mem hy)
      have hsorted := hl.sublist (List.take_sublist num l)
      rw [List.concat_eq_append] at hfront
      rw [hfront, List.pairwise_append] at hsorted
      rw [hfront] at hy ⊢
      rw [List.getLast?_concat, Option.any_some, decide_eq_true_eq]
      rcases List.mem_append.mp hy with hy | hy
      · exact Std.TransCmp.lt_of_lt_of_isLE hlt
          (hsorted.2.2 y hy last (List.mem_singleton_self last)).isLE
      · rwa [List.mem_singleton.mp hy] at hlt
    rw [if_neg (not_or.mpr ⟨hroom, hsmaller⟩), insertBehind_of_forall hend,
      List.take_append_of_le_length (Nat.le_of_eq hlen.symm), List.take_of_length_le (Nat.le_of_eq hlen)]

theorem foldl_keepSmallest {done l : List α} (hdone : done.Pairwise (Precedes cmp key first))
    (hl : l.Pairwise first) (hfirst : ∀ y ∈ done, ∀ x ∈ l, first y x) :
    ∃ sorted : List α, sorted.Perm (done ++ l) ∧ sorted.Pairwise (Precedes cmp key first) ∧
      l.foldl (keepSmallest cmp key num) (done.take num) = sorted.take num := by
  induction l generalizing done with
  | nil => exact ⟨done, by rw [List.append_nil], hdone, rfl⟩
  | cons x l ih =>
    rw [List.pairwise_cons] at hl
    have hnext : ∀ y ∈ insertBehind cmp key x done, ∀ z ∈ l, first y z := by
      intro y hy z hz
      rcases List.mem_cons.mp (insertBehind_perm.mem_iff.mp hy) with rfl | hy
      · exact hl.1 z hz
      · exact hfirst y hy z (List.mem_cons_of_mem x hz)
    obtain ⟨sorted, hperm, hsorted, hkept⟩ :=
      ih (pairwise_insertBehind hdone fun y hy ↦ hfirst y hy x List.mem_cons_self) hl.2 hnext
    refine ⟨sorted, hperm.trans ?_, hsorted, ?_⟩
    · exact (insertBehind_perm.append_right l).trans List.perm_middle.symm
    · rw [List.foldl_cons, keepSmallest_take hdone, hkept]

/-- **The loop ends with the smallest elements.** -/
theorem areSmallest_foldl (hl : l.Pairwise first) :
    ∃ rest, AreSmallest cmp key first num l (l.foldl (keepSmallest cmp key num) []) rest := by
  obtain ⟨sorted, hperm, hsorted, hkept⟩ := @foldl_keepSmallest _ _ cmp key first num _ [] l
    List.Pairwise.nil hl fun y hy ↦ absurd hy List.not_mem_nil
  rw [List.take_nil] at hkept
  rw [hkept]
  refine ⟨sorted.drop num, ?_, ?_, ?_⟩
  · rw [List.take_append_drop]
    exact hperm
  · rw [List.length_take, hperm.length_eq, List.nil_append]
  · rw [← List.take_append_drop num sorted, List.pairwise_append] at hsorted
    exact hsorted.2.2

/-- Where equal keys are equal elements, the order of the list does not matter. -/
theorem foldl_keepSmallest_perm (hinj : ∀ x y, cmp (key x) (key y) = .eq → x = y) {l' : List α}
    (h : l.Perm l') :
    l.foldl (keepSmallest cmp key num) [] = l'.foldl (keepSmallest cmp key num) [] := by
  have hany : ∀ l : List α, l.Pairwise fun _ _ ↦ True := fun l ↦ List.pairwise_of_forall fun _ _ ↦ trivial
  obtain ⟨sorted, hperm, hsorted, hkept⟩ := @foldl_keepSmallest _ _ cmp key _ num _ [] l
    List.Pairwise.nil (hany l) fun y hy ↦ absurd hy List.not_mem_nil
  obtain ⟨sorted', hperm', hsorted', hkept'⟩ := @foldl_keepSmallest _ _ cmp key _ num _ [] l'
    List.Pairwise.nil (hany l') fun y hy ↦ absurd hy List.not_mem_nil
  rw [List.take_nil] at hkept hkept'
  rw [List.nil_append] at hperm hperm'
  have hsame : sorted = sorted' := by
    refine (hperm.trans (h.trans hperm'.symm)).eq_of_pairwise (fun x y _ _ hxy hyx ↦ ?_) hsorted hsorted'
    exact hinj x y (Std.OrientedCmp.isLE_antisymm hxy.isLE hyx.isLE)
  rw [hkept, hkept', hsame]

omit [Std.TransCmp cmp] in
variable (cmp key num) in
theorem foldl_keepSmallest_map (f : γ → α) (l kept : List γ) :
    (l.foldl (keepSmallest cmp (key ∘ f) num) kept).map f =
      (l.map f).foldl (keepSmallest cmp key num) (kept.map f) := by
  have hinsert : ∀ x (kept : List γ), (insertBehind cmp (key ∘ f) x kept).map f =
      insertBehind cmp key (f x) (kept.map f) := by
    intro x kept
    induction kept with
    | nil => rfl
    | cons y kept ih =>
      rw [List.map_cons, insertBehind, insertBehind, apply_ite (List.map f), List.map_cons,
        List.map_cons, List.map_cons, ih]
      rfl
  induction l generalizing kept with
  | nil => rfl
  | cons x l ih =>
    rw [List.foldl_cons, List.map_cons, List.foldl_cons, ih]
    congr 1
    simp only [keepSmallest, apply_ite (List.map f), List.map_dropLast, hinsert, List.length_map,
      List.getLast?_map, Option.any_map, length_insertBehind]
    rfl

end

end UniDedup
