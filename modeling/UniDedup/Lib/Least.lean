import Mathlib.Data.List.Basic
import Mathlib.Data.List.Induction

/-!
# The least element a loop keeps

A loop that runs over a list and keeps the smaller of what it has and what it sees ends with a least
element. If it starts from an element that is above all others, that one is forgotten as soon as the
list has an entry.
-/

namespace UniDedup

variable {α : Type*}

/-- `m` is a least entry of the list. -/
structure Least (cmp : α → α → Ordering) (l : List α) (m : α) : Prop where
  mem : m ∈ l
  isLE : ∀ x ∈ l, (cmp m x).isLE

/-- The smaller of two elements, the one at hand if neither is. -/
def keepLess (cmp : α → α → Ordering) (m x : α) : α := if cmp x m = .lt then x else m

section

variable {cmp : α → α → Ordering} [Std.TransCmp cmp] {l : List α} {m : α}

omit [Std.TransCmp cmp] in
theorem keepLess_eq_or (m x : α) : keepLess cmp m x = m ∨ keepLess cmp m x = x := by
  rw [keepLess]
  split_ifs
  exacts [.inr rfl, .inl rfl]

theorem keepLess_isLE_left (m x : α) : (cmp (keepLess cmp m x) m).isLE := by
  rw [keepLess]
  split_ifs with hlt
  · rw [hlt]
    rfl
  · exact Std.ReflCmp.isLE_rfl

theorem keepLess_isLE_right (m x : α) : (cmp (keepLess cmp m x) x).isLE := by
  rw [keepLess]
  split_ifs with hlt
  · exact Std.ReflCmp.isLE_rfl
  · rw [← Std.OrientedCmp.isGE_iff_isLE]
    cases h : cmp x m with
    | lt => exact absurd h hlt
    | eq => rfl
    | gt => rfl

/-- **The loop ends with a least element** of the list and what it started from. -/
theorem least_foldl (m : α) (l : List α) : Least cmp (m :: l) (l.foldl (keepLess cmp) m) := by
  induction l generalizing m with
  | nil =>
    refine ⟨List.mem_cons_self, fun x hx ↦ ?_⟩
    rw [List.mem_singleton.mp hx]
    exact Std.ReflCmp.isLE_rfl
  | cons x l ih =>
    have hrest := ih (keepLess cmp m x)
    have hfirst : (cmp (l.foldl (keepLess cmp) (keepLess cmp m x)) (keepLess cmp m x)).isLE :=
      hrest.isLE _ List.mem_cons_self
    rw [List.foldl_cons]
    constructor
    · rcases List.mem_cons.mp hrest.mem with h | h
      · rw [h]
        rcases @keepLess_eq_or _ cmp m x with h | h <;> rw [h] <;> simp
      · exact List.mem_cons_of_mem _ (List.mem_cons_of_mem _ h)
    · intro y hy
      rcases List.mem_cons.mp hy with rfl | hy
      · exact Std.TransCmp.isLE_trans hfirst (keepLess_isLE_left y x)
      · rcases List.mem_cons.mp hy with rfl | hy
        · exact Std.TransCmp.isLE_trans hfirst (keepLess_isLE_right m y)
        · exact hrest.isLE y (List.mem_cons_of_mem _ hy)

omit [Std.TransCmp cmp] in
theorem keepLess_top {top : α} (htop : ∀ x, cmp x top ≠ .lt → x = top) (x : α) :
    keepLess cmp top x = x := by
  rw [keepLess]
  split_ifs with hlt
  · rfl
  · exact (htop x hlt).symm

theorem least_foldl_top {top : α} (htop : ∀ x, cmp x top ≠ .lt → x = top) (hl : l ≠ []) :
    Least cmp l (l.foldl (keepLess cmp) top) := by
  obtain ⟨x, l, rfl⟩ := List.exists_cons_of_ne_nil hl
  rw [List.foldl_cons, keepLess_top htop]
  exact least_foldl x l

end

end UniDedup
