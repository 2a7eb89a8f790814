import Mathlib.Data.List.Forall2

/-!
# Related lists

Two lists are related pointwise when they have the same length and related elements at each position
(`List.Forall₂`). The lemmas here carry a position, or an element, of one list over to the other.
-/

namespace List.Forall₂

universe u v

variable {α : Type u} {β : Type v} {R : α → β → Prop} {l : List α} {l' : List β}

theorem exists_right (h : ∀ a ∈ l, ∃ b, R a b) : ∃ l', Forall₂ R l l' := by
  induction l with
  | nil => exact ⟨[], .nil⟩
  | cons a l ih =>
    obtain ⟨b, hb⟩ := h a mem_cons_self
    obtain ⟨l', hl'⟩ := ih fun a' ha' ↦ h a' (mem_cons_of_mem a ha')
    exact ⟨b :: l', .cons hb hl'⟩

theorem exists_of_mem_right (h : Forall₂ R l l') {b : β} (hb : b ∈ l') : ∃ a ∈ l, R a b := by
  induction h with
  | nil => cases hb
  | @cons a b' _ _ hab _ ih =>
    rcases mem_cons.mp hb with rfl | hb
    · exact ⟨a, mem_cons_self, hab⟩
    · obtain ⟨a', ha', hab'⟩ := ih hb
      exact ⟨a', mem_cons_of_mem _ ha', hab'⟩

theorem exists_of_mem_left (h : Forall₂ R l l') {a : α} (ha : a ∈ l) : ∃ b ∈ l', R a b :=
  exists_of_mem_right (R := fun b a ↦ R a b) h.flip ha

/-- A property that the relation carries over holds of the second list when it holds of the first. -/
theorem forall_right {P : α → Prop} {Q : β → Prop} (h : Forall₂ R l l')
    (hR : ∀ a b, R a b → P a → Q b) (hP : ∀ a ∈ l, P a) : ∀ b ∈ l', Q b := by
  intro b hb
  obtain ⟨a, ha, hab⟩ := h.exists_of_mem_right hb
  exact hR a b hab (hP a ha)

theorem forall_iff {P : α → Prop} {Q : β → Prop} (h : Forall₂ R l l')
    (hR : ∀ a ∈ l, ∀ b, R a b → (Q b ↔ P a)) : (∀ b ∈ l', Q b) ↔ ∀ a ∈ l, P a := by
  constructor
  · intro hQ a ha
    obtain ⟨b, hb, hab⟩ := h.exists_of_mem_left ha
    exact (hR a ha b hab).mp (hQ b hb)
  · intro hP b hb
    obtain ⟨a, ha, hab⟩ := h.exists_of_mem_right hb
    exact (hR a ha b hab).mpr (hP a ha)

theorem split_right {pre post : List β} {b : β} (h : Forall₂ R l (pre ++ b :: post)) :
    ∃ pre' a post', l = pre' ++ a :: post' ∧ Forall₂ R pre' pre ∧ R a b ∧ Forall₂ R post' post := by
  induction pre generalizing l with
  | nil =>
    obtain ⟨a, post', hab, hpost, rfl⟩ := forall₂_cons_right_iff.mp h
    exact ⟨[], a, post', rfl, .nil, hab, hpost⟩
  | cons b' pre ih =>
    obtain ⟨a', rest, hab', hrest, rfl⟩ := forall₂_cons_right_iff.mp h
    obtain ⟨pre', a, post', rfl, hpre, hab, hpost⟩ := ih hrest
    exact ⟨a' :: pre', a, post', rfl, .cons hab' hpre, hab, hpost⟩

theorem comp {γ : Type u} {S : β → γ → Prop} {T : α → γ → Prop}
    (hT : ∀ a b c, R a b → S b c → T a c) {l'' : List γ} (h : Forall₂ R l l')
    (h' : Forall₂ S l' l'') : Forall₂ T l l'' := by
  induction h generalizing l'' with
  | nil =>
    cases h'
    exact .nil
  | cons hab _ ih =>
    obtain _ | ⟨hbc, h'⟩ := h'
    exact .cons (hT _ _ _ hab hbc) (ih h')

end List.Forall₂
