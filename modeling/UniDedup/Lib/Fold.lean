import Mathlib.Data.List.Basic
import Mathlib.Data.List.Forall2
import Mathlib.Data.List.Induction
import Mathlib.Data.List.Range

/-!
# Partial folds

A loop whose rounds may fail is a fold in `Option`: it fails where a round fails, and what every round keeps
holds at the end.
-/

namespace Fold

variable {α σ : Type*}

theorem foldlM_eq_none {f : σ → α → Option σ} {a : α} {xs : List α} (ha : a ∈ xs)
    (h : ∀ s, f s a = none) (s : σ) : xs.foldlM f s = none := by
  induction xs generalizing s with
  | nil => exact absurd ha List.not_mem_nil
  | cons b xs ih =>
    rw [List.foldlM_cons, Option.bind_eq_bind, Option.bind_eq_none_iff]
    intro s' hs'
    rcases List.mem_cons.mp ha with rfl | ha
    · exact absurd ((h s).symm.trans hs') (Option.some_ne_none _).symm
    · exact ih ha s'

theorem foldlM_invariant {f : σ → α → Option σ} {I : σ → Prop} {xs : List α}
    (hf : ∀ a ∈ xs, ∀ s s', I s → f s a = some s' → I s') {s s' : σ} (h : I s) (hs : xs.foldlM f s = some s') :
    I s' := by
  induction xs generalizing s with
  | nil => exact Option.some.inj hs ▸ h
  | cons a xs ih =>
    rw [List.foldlM_cons] at hs
    obtain ⟨s₁, hs₁, hs⟩ := Option.bind_eq_some_iff.mp hs
    exact ih (fun b hb ↦ hf b (List.mem_cons_of_mem a hb)) (hf a List.mem_cons_self s s₁ h hs₁) hs

theorem foldlM_eq_foldl {f : σ → α → Option σ} {g : σ → α → σ} {xs : List α}
    (h : ∀ a ∈ xs, ∀ s, f s a = some (g s a)) (s : σ) : xs.foldlM f s = some (xs.foldl g s) := by
  induction xs generalizing s with
  | nil => rfl
  | cons a xs ih =>
    rw [List.foldlM_cons, h a List.mem_cons_self, Option.bind_eq_bind, Option.bind_some, List.foldl_cons]
    exact ih (fun b hb ↦ h b (List.mem_cons_of_mem a hb)) _

theorem mapM_iff_forall₂ {β : Type*} {f : α → Option β} {xs : List α} {ys : List β} :
    xs.mapM f = some ys ↔ List.Forall₂ (fun x y ↦ f x = some y) xs ys := by
  induction xs generalizing ys with
  | nil => simp [eq_comm]
  | cons x xs ih =>
    rw [List.mapM_cons, Option.bind_eq_bind, Option.bind_eq_some_iff, List.forall₂_cons_left_iff]
    constructor
    · rintro ⟨y, hy, h⟩
      obtain ⟨ys', hys, heq⟩ := Option.bind_eq_some_iff.mp h
      exact ⟨y, ys', hy, ih.mp hys, (Option.some_inj.mp heq).symm⟩
    · rintro ⟨y, ys', hy, hys, rfl⟩
      exact ⟨y, hy, Option.bind_eq_some_iff.mpr ⟨ys', ih.mpr hys, rfl⟩⟩

theorem mapM_eq_map {β : Type*} {f : α → Option β} {g : α → β} {xs : List α} (h : ∀ a ∈ xs, f a = some (g a)) :
    xs.mapM f = some (xs.map g) := by
  induction xs with
  | nil => rfl
  | cons a xs ih =>
    rw [List.mapM_cons, h a List.mem_cons_self, ih fun b hb ↦ h b (List.mem_cons_of_mem a hb)]
    rfl

theorem mapM_congr {β : Type*} {f g : α → Option β} {xs : List α} (h : ∀ a ∈ xs, f a = g a) :
    xs.mapM f = xs.mapM g := by
  induction xs with
  | nil => rfl
  | cons a xs ih =>
    rw [List.mapM_cons, List.mapM_cons, h a List.mem_cons_self, ih fun b hb ↦ h b (List.mem_cons_of_mem a hb)]

theorem mapM_range_succ {β : Type*} (f : ℕ → Option β) (n : ℕ) :
    (List.range (n + 1)).mapM f = ((List.range n).mapM f).bind fun ys ↦ (f n).map (ys ++ [·]) := by
  rw [List.range_succ, List.mapM_append, List.mapM_cons, List.mapM_nil]
  cases (List.range n).mapM f with
  | none => rfl
  | some ys => cases f n <;> rfl

theorem length_of_mapM {β : Type*} {f : α → Option β} {xs : List α} {ys : List β} (h : xs.mapM f = some ys) :
    ys.length = xs.length := by
  induction xs generalizing ys with
  | nil => exact Option.some.inj h ▸ rfl
  | cons a xs ih =>
    rw [List.mapM_cons] at h
    obtain ⟨y, -, h⟩ := Option.bind_eq_some_iff.mp h
    obtain ⟨ys', hys', h⟩ := Option.bind_eq_some_iff.mp h
    rw [← Option.some.inj h, List.length_cons, List.length_cons, ih hys']

theorem getElem?_of_mapM {β : Type*} {f : α → Option β} {xs : List α} {ys : List β} (h : xs.mapM f = some ys) {i : ℕ}
    {y : β} (hy : ys[i]? = some y) : ∃ a, xs[i]? = some a ∧ f a = some y := by
  induction xs generalizing ys i with
  | nil =>
    rw [← Option.some.inj h] at hy
    exact absurd hy.symm (Option.some_ne_none y)
  | cons a xs ih =>
    rw [List.mapM_cons] at h
    obtain ⟨y', hy', h⟩ := Option.bind_eq_some_iff.mp h
    obtain ⟨ys', hys', h⟩ := Option.bind_eq_some_iff.mp h
    rw [← Option.some.inj h] at hy
    cases i with
    | zero => exact ⟨a, rfl, hy'.trans hy⟩
    | succ i => exact ih hys' hy

theorem of_mem_zip_mapM {β : Type*} {f : α → Option β} {xs : List α} {ys : List β} (h : xs.mapM f = some ys) {a : α}
    {y : β} (hy : (a, y) ∈ xs.zip ys) : f a = some y := by
  induction xs generalizing ys with
  | nil => exact absurd hy List.not_mem_nil
  | cons b xs ih =>
    rw [List.mapM_cons] at h
    obtain ⟨y', hy', h⟩ := Option.bind_eq_some_iff.mp h
    obtain ⟨ys', hys', h⟩ := Option.bind_eq_some_iff.mp h
    rw [← Option.some.inj h, List.zip_cons_cons] at hy
    rcases List.mem_cons.mp hy with heq | hy
    · obtain ⟨rfl, rfl⟩ := Prod.mk.inj heq
      exact hy'
    · exact ih hys' hy

theorem of_mem_mapM {β : Type*} {f : α → Option β} {xs : List α} {ys : List β} (h : xs.mapM f = some ys) {y : β}
    (hy : y ∈ ys) : ∃ a ∈ xs, f a = some y := by
  induction xs generalizing ys with
  | nil => exact absurd (Option.some.inj h ▸ hy) List.not_mem_nil
  | cons a xs ih =>
    rw [List.mapM_cons] at h
    obtain ⟨y', hy', h⟩ := Option.bind_eq_some_iff.mp h
    obtain ⟨ys', hys', h⟩ := Option.bind_eq_some_iff.mp h
    rw [← Option.some.inj h] at hy
    rcases List.mem_cons.mp hy with rfl | hy
    · exact ⟨a, List.mem_cons_self, hy'⟩
    · obtain ⟨b, hb, heq⟩ := ih hys' hy
      exact ⟨b, List.mem_cons_of_mem a hb, heq⟩

theorem exists_of_mapM {β : Type*} {f : α → Option β} {xs : List α} {ys : List β} (h : xs.mapM f = some ys) {a : α}
    (ha : a ∈ xs) : ∃ y ∈ ys, f a = some y := by
  induction xs generalizing ys with
  | nil => exact absurd ha List.not_mem_nil
  | cons b xs ih =>
    rw [List.mapM_cons] at h
    obtain ⟨y', hy', h⟩ := Option.bind_eq_some_iff.mp h
    obtain ⟨ys', hys', h⟩ := Option.bind_eq_some_iff.mp h
    rw [← Option.some.inj h]
    rcases List.mem_cons.mp ha with rfl | ha
    · exact ⟨y', List.mem_cons_self, hy'⟩
    · obtain ⟨y, hmem, hy⟩ := ih hys' ha
      exact ⟨y, List.mem_cons_of_mem y' hmem, hy⟩

theorem mem_of_mapM {β : Type*} {f : α → Option β} {xs : List α} {ys : List β} (h : xs.mapM f = some ys) {a : α}
    {y : β} (ha : a ∈ xs) (hy : f a = some y) : y ∈ ys := by
  obtain ⟨y', hmem, hy'⟩ := exists_of_mapM h ha
  exact Option.some.inj (hy.symm.trans hy') ▸ hmem

/-- A loop over a range of numbers, with an invariant that speaks of the number of rounds. -/
theorem foldlM_range'_invariant {f : σ → ℕ → Option σ} {I : ℕ → σ → Prop} {k m : ℕ}
    (hf : ∀ i < m, ∀ s s', I i s → f s (k + i) = some s' → I (i + 1) s') {s s' : σ} (h : I 0 s)
    (hs : (List.range' k m).foldlM f s = some s') : I m s' := by
  induction m generalizing s' with
  | zero => exact Option.some.inj hs ▸ h
  | succ m ih =>
    rw [List.range'_1_concat, List.foldlM_append] at hs
    obtain ⟨s₁, hs₁, hs⟩ := Option.bind_eq_some_iff.mp hs
    rw [List.foldlM_cons] at hs
    obtain ⟨s₂, hs₂, hs⟩ := Option.bind_eq_some_iff.mp hs
    have hI := hf m m.lt_succ_self s₁ s₂ (ih (fun i hi ↦ hf i (hi.trans m.lt_succ_self)) hs₁) hs₂
    exact Option.some.inj hs ▸ hI

/-- A loop over the numbers below a bound, with an invariant that speaks of the number of rounds. -/
theorem foldlM_range_invariant {f : σ → ℕ → Option σ} {I : ℕ → σ → Prop} {n : ℕ}
    (hf : ∀ i < n, ∀ s s', I i s → f s i = some s' → I (i + 1) s') {s s' : σ} (h : I 0 s)
    (hs : (List.range n).foldlM f s = some s') : I n s' := by
  rw [List.range_eq_range'] at hs
  exact foldlM_range'_invariant (fun i hi s s' hI hstep ↦ hf i hi s s' hI (i.zero_add ▸ hstep)) h hs

/-! ## The states in which a loop comes to its elements -/

/-- The loop comes to an element in a state. -/
def Visits (f : σ → α → Option σ) (xs : List α) (s : σ) (a : α) (s' : σ) : Prop :=
  ∃ ys zs, xs = ys ++ a :: zs ∧ ys.foldlM f s = some s'

/-- What the rounds before it keep holds when the loop comes to a number. -/
theorem Visits.range'_invariant {f : σ → ℕ → Option σ} {I : ℕ → σ → Prop} {k m a : ℕ} {s s' : σ}
    (hv : Visits f (List.range' k m) s a s')
    (hf : ∀ i < m, ∀ s s', I i s → f s (k + i) = some s' → I (i + 1) s') (h : I 0 s) :
    ∃ i < m, a = k + i ∧ I i s' := by
  obtain ⟨ys, zs, heq, hs⟩ := hv
  obtain ⟨i, hi, hys, hzs⟩ := List.range'_eq_append_iff.mp heq
  obtain ⟨ha, hpos, -⟩ := List.range'_eq_cons_iff.mp hzs.symm
  rw [Nat.mul_one] at ha
  rw [hys] at hs
  have hlt : i < m := Nat.lt_of_sub_pos hpos
  exact ⟨i, hlt, ha.symm, foldlM_range'_invariant (fun j hj ↦ hf j (hj.trans hlt)) h hs⟩

theorem Visits.range_invariant {f : σ → ℕ → Option σ} {I : ℕ → σ → Prop} {n i : ℕ} {s s' : σ}
    (hv : Visits f (List.range n) s i s')
    (hf : ∀ i < n, ∀ s s', I i s → f s i = some s' → I (i + 1) s') (h : I 0 s) : i < n ∧ I i s' := by
  rw [List.range_eq_range'] at hv
  obtain ⟨j, hj, rfl, hI⟩ :=
    hv.range'_invariant (fun i hi s s' hI hstep ↦ hf i hi s s' hI (i.zero_add ▸ hstep)) h
  exact ⟨(j.zero_add).symm ▸ hj, (j.zero_add).symm ▸ hI⟩

end Fold
