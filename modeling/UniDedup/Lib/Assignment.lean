import Mathlib.Data.List.AList
import UniDedup.Lib.Toposort

/-!
# Values in an order

The members of a list get values one after the other, each from the values of those it depends on. In a list where these
come before it, a member can count on them, and what is good about a value when it is given stays so.
-/

namespace UniDedup.Toposort

variable {α β : Type*} {children : α → List α}

theorem ChildrenFirst.below {sorted l₁ l₂ : List α} {p c : α} (h : ChildrenFirst children sorted)
    (hsplit : sorted = l₁ ++ p :: l₂) (hc : Relation.TransGen (fun c p ↦ c ∈ children p) c p) : c ∈ l₁ := by
  induction hc generalizing l₁ l₂ with
  | single hc => exact h l₁ _ l₂ hsplit _ hc
  | @tail b p _ hb ih =>
    obtain ⟨m₁, m₂, rfl⟩ := List.append_of_mem (h l₁ _ l₂ hsplit _ hb)
    have hsplit' : sorted = m₁ ++ b :: (m₂ ++ p :: l₂) := by rw [hsplit, List.append_assoc, List.cons_append]
    exact List.mem_append_left _ (ih hsplit')

variable [DecidableEq α]

/-- Give the members of a list values, one after the other. -/
def assign (choose : AList (fun _ : α ↦ β) → α → Option β) (sorted : List α) : Option (AList fun _ : α ↦ β) :=
  sorted.foldlM (fun m a ↦ (choose m a).map fun b ↦ if a ∈ m then m else m.insert a b) ∅

/-- **Values in the order.** When a member can get a good value as soon as those it depends on have theirs, and a value
stays good as long as theirs stay, then all members get good values. -/
theorem exists_assign {choose : AList (fun _ : α ↦ β) → α → Option β} {good : (α → Option β) → α → β → Prop}
    {sorted : List α} (hfirst : ChildrenFirst children sorted) (hnodup : sorted.Nodup)
    (hchoose : ∀ m, ∀ a ∈ sorted, (∀ c ∈ children a, c ∈ m) → ∃ b, choose m a = some b ∧ good m.lookup a b)
    (hgood : ∀ f f' a b, (∀ c ∈ children a, f' c = f c) → good f a b → good f' a b) :
    ∃ m, assign choose sorted = some m ∧ (∀ a, a ∈ m ↔ a ∈ sorted) ∧
      ∀ a ∈ sorted, ∃ b, m.lookup a = some b ∧ good m.lookup a b := by
  suffices hprefix : ∀ l₁ l₂, sorted = l₁ ++ l₂ → ∃ m, assign choose l₁ = some m ∧ (∀ a, a ∈ m ↔ a ∈ l₁) ∧
      ∀ a ∈ l₁, ∃ b, m.lookup a = some b ∧ good m.lookup a b from hprefix sorted [] (List.append_nil _).symm
  intro l₁
  induction l₁ using List.reverseRecOn with
  | nil => exact fun _ _ ↦ ⟨∅, rfl, fun a ↦ iff_of_false (AList.notMem_empty a) List.not_mem_nil,
      fun a ha ↦ absurd ha List.not_mem_nil⟩
  | append_singleton l₁ a ih =>
    intro l₂ hsplit
    rw [List.append_assoc, List.singleton_append] at hsplit
    obtain ⟨m, hm, hmem, hall⟩ := ih (a :: l₂) hsplit
    have hnot : a ∉ l₁ := by
      rw [hsplit] at hnodup
      exact fun ha ↦ (List.nodup_append.mp hnodup).2.2 a ha a List.mem_cons_self rfl
    obtain ⟨b, hb, hgb⟩ := hchoose m a (hsplit ▸ List.mem_append_right _ List.mem_cons_self)
      fun c hc ↦ (hmem c).mpr (hfirst l₁ a l₂ hsplit c hc)
    -- The values of those that come before stay.
    have hkeep : ∀ c ∈ l₁, (m.insert a b).lookup c = m.lookup c := fun c hc ↦
      AList.lookup_insert_ne fun hca ↦ hnot (hca ▸ hc)
    refine ⟨m.insert a b, ?_, fun c ↦ ?_, fun c hc ↦ ?_⟩
    · have hnew : a ∉ m := fun ha ↦ hnot ((hmem a).mp ha)
      rw [assign] at hm ⊢
      rw [List.foldlM_append, hm, Option.bind_eq_bind, Option.bind_some, List.foldlM_cons, hb, Option.map_some,
        if_neg hnew]
      rfl
    · rw [AList.mem_insert, hmem, List.mem_append, List.mem_singleton, or_comm]
    · rcases List.mem_append.mp hc with hc | hc
      · obtain ⟨b', hb', hgood'⟩ := hall c hc
        refine ⟨b', by rw [hkeep c hc, hb'], hgood _ _ c b' (fun d hd ↦ hkeep d ?_) hgood'⟩
        obtain ⟨m₁, m₂, rfl⟩ := List.append_of_mem hc
        refine List.mem_append_left _ (hfirst m₁ c (m₂ ++ a :: l₂) ?_ d hd)
        rw [hsplit, List.append_assoc, List.cons_append]
      · rw [List.mem_singleton.mp hc]
        refine ⟨b, AList.lookup_insert m, hgood _ _ a b (fun d hd ↦ hkeep d ?_) hgb⟩
        exact hfirst l₁ a l₂ hsplit d hd

end UniDedup.Toposort
