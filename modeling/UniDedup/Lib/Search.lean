import Mathlib.Data.List.Basic
import Mathlib.Data.List.Infix

/-!
# The first occurrence of a pattern

Searching a text for a pattern gives the first position at which it occurs. A text that is made of a part, the
pattern and a rest is taken apart again by such a search exactly where the pattern does not occur earlier, and
that depends on the first part only.
-/

namespace Search

variable {α : Type*} {pat l r : List α} {p : ℕ}

theorem prefix_append_iff (h : pat.length ≤ l.length) : pat <+: l ++ r ↔ pat <+: l :=
  ⟨fun hpre ↦ List.prefix_of_prefix_length_le hpre (List.prefix_append l r) h,
    fun hpre ↦ hpre.trans (List.prefix_append l r)⟩

/-- A pattern starts in a part of itself where that part can be taken off. -/
theorem prefix_append_self_iff : pat <+: l ++ pat ↔
    pat <+: l ∨ l.length < pat.length ∧ l <+: pat ∧ pat.drop l.length <+: pat := by
  rcases le_or_gt pat.length l.length with hle | hlt
  · rw [prefix_append_iff hle]
    exact ⟨.inl, fun h ↦ h.resolve_right fun h ↦ absurd h.1 hle.not_gt⟩
  · constructor
    · intro h
      have hl : l <+: pat := List.prefix_of_prefix_length_le (List.prefix_append l pat) h hlt.le
      refine .inr ⟨hlt, hl, ?_⟩
      obtain ⟨t, rfl⟩ := hl
      rw [List.drop_left]
      exact (List.prefix_append_right_inj l).mp h
    · rintro (h | ⟨-, ⟨t, ht⟩, hdrop⟩)
      · exact h.trans (List.prefix_append l pat)
      · rw [← ht, List.drop_left] at hdrop
        conv_lhs => rw [← ht]
        rw [← ht]
        exact (List.prefix_append_right_inj l).mpr hdrop

variable [DecidableEq α]

/-- The first position at which a pattern occurs. -/
def find (pat : List α) : List α → Option ℕ
  | [] => if pat = [] then some 0 else none
  | a :: l => if pat <+: a :: l then some 0 else (find pat l).map (· + 1)

theorem find_eq_some_iff : find pat l = some p ↔
    p ≤ l.length ∧ pat <+: l.drop p ∧ ∀ q < p, ¬pat <+: l.drop q := by
  induction l generalizing p with
  | nil =>
    rw [find]
    split_ifs with hpat
    · subst hpat
      rw [Option.some_inj, List.length_nil, Nat.le_zero]
      refine ⟨fun h ↦ ⟨h.symm, List.nil_prefix, fun q hq ↦ ?_⟩, fun h ↦ h.1.symm⟩
      exact absurd (h ▸ hq) (Nat.not_lt_zero q)
    · simp [hpat]
  | cons a l ih =>
    rw [find]
    split_ifs with hpre
    · rw [Option.some_inj]
      constructor
      · rintro rfl
        exact ⟨Nat.zero_le _, hpre, fun q hq ↦ absurd hq (Nat.not_lt_zero q)⟩
      · rintro ⟨-, -, hfirst⟩
        by_contra hne
        exact hfirst 0 (Nat.pos_of_ne_zero fun h ↦ hne h.symm) hpre
    · rw [Option.map_eq_some_iff]
      constructor
      · rintro ⟨q, hq, rfl⟩
        obtain ⟨hle, hocc, hfirst⟩ := ih.mp hq
        refine ⟨Nat.succ_le_succ hle, hocc, fun j hj ↦ ?_⟩
        cases j with
        | zero => exact hpre
        | succ j => exact hfirst j (Nat.lt_of_succ_lt_succ hj)
      · rintro ⟨hle, hocc, hfirst⟩
        cases p with
        | zero => exact absurd hocc hpre
        | succ p =>
          refine ⟨p, ih.mpr ⟨Nat.le_of_succ_le_succ hle, hocc, fun q hq ↦ ?_⟩, rfl⟩
          exact hfirst (q + 1) (Nat.succ_lt_succ hq)

theorem find_eq_none_iff : find pat l = none ↔ ¬pat <:+: l := by
  induction l with
  | nil =>
    rw [find]
    split_ifs with hpat
    · simp [hpat]
    · simp [hpat]
  | cons a l ih =>
    rw [find]
    split_ifs with hpre
    · exact iff_of_false not_false fun h ↦ h hpre.isInfix
    · rw [Option.map_eq_none_iff, ih, List.infix_cons_iff, not_or]
      exact ⟨fun h ↦ ⟨hpre, h⟩, fun h ↦ h.2⟩

theorem isSome_find : (find pat l).isSome ↔ pat <:+: l := by
  rw [Option.isSome_iff_ne_none, ne_eq, find_eq_none_iff, not_not]

/-- An occurrence of a pattern that is not empty starts before the end. -/
theorem lt_of_find (hpat : pat ≠ []) (h : find pat l = some p) : p < l.length := by
  obtain ⟨hle, hocc, -⟩ := find_eq_some_iff.mp h
  refine lt_of_le_of_ne hle fun heq ↦ hpat ?_
  rw [heq, List.drop_length] at hocc
  exact List.prefix_nil.mp hocc

theorem exists_find_of_prefix {q : ℕ} (h : pat <+: l.drop q) : ∃ p ≤ q, find pat l = some p := by
  have hsome : (find pat l).isSome := isSome_find.mpr (h.isInfix.trans (List.drop_suffix q l).isInfix)
  obtain ⟨p, hp⟩ := Option.isSome_iff_exists.mp hsome
  refine ⟨p, ?_, hp⟩
  by_contra hlt
  exact (find_eq_some_iff.mp hp).2.2 q (not_le.mp hlt) h

theorem find_singleton_of_notMem {a : α} (h : a ∉ l) : find [a] l = none := by
  rw [find_eq_none_iff]
  exact fun hocc ↦ h (hocc.subset List.mem_cons_self)

theorem find_singleton_append {a : α} (h : a ∉ l) (r : List α) : find [a] (l ++ a :: r) = some l.length := by
  rw [find_eq_some_iff, List.drop_left, List.length_append]
  refine ⟨Nat.le_add_right _ _, List.prefix_append [a] r, fun q hq hocc ↦ h ?_⟩
  rw [List.drop_append_of_le_length hq.le, List.drop_eq_getElem_cons hq, List.cons_append, List.cons_prefix_cons] at hocc
  rw [hocc.1]
  exact List.getElem_mem hq

/-- Whether a pattern occurs before its place depends on what stands in front of it. -/
theorem find_append_iff (l r : List α) :
    find pat (l ++ pat ++ r) = some l.length ↔ find pat (l ++ pat) = some l.length := by
  have hocc : ∀ q ≤ l.length, pat <+: (l ++ pat ++ r).drop q ↔ pat <+: (l ++ pat).drop q := by
    intro q hq
    have hlen : q ≤ (l ++ pat).length := by
      rw [List.length_append]
      exact hq.trans (Nat.le_add_right _ _)
    rw [List.drop_append_of_le_length hlen]
    refine prefix_append_iff ?_
    rw [List.length_drop, List.length_append]
    omega
  rw [find_eq_some_iff, find_eq_some_iff, hocc _ le_rfl]
  refine and_congr ?_ (and_congr_right fun _ ↦ forall₂_congr fun q hq ↦ not_congr (hocc q hq.le))
  rw [List.length_append, List.length_append]
  omega

/-- A pattern at the end is the first one where it neither occurs in what stands in front of it nor reaches into it. -/
theorem find_append_self_iff (hpat : pat ≠ []) (l : List α) : find pat (l ++ pat) = some l.length ↔
    ¬pat <:+: l ∧ ∀ u, u ≠ [] → u <:+ l → u.length < pat.length → u <+: pat → ¬pat.drop u.length <+: pat := by
  have hdrop : ∀ q ≤ l.length, (l ++ pat).drop q = l.drop q ++ pat := fun q hq ↦ List.drop_append_of_le_length hq
  rw [find_eq_some_iff]
  constructor
  · rintro ⟨-, -, hfirst⟩
    refine ⟨fun hcontains ↦ ?_, fun u hne hu hlt hpre hrest ↦ ?_⟩
    · obtain ⟨s, t, rfl⟩ := hcontains
      have hpos := List.length_pos_of_ne_nil hpat
      refine hfirst s.length ?_ ?_
      · rw [List.length_append, List.length_append]
        omega
      · rw [List.append_assoc, List.append_assoc, List.drop_left]
        exact List.prefix_append _ _
    · obtain ⟨s, rfl⟩ := hu
      refine hfirst s.length ?_ ?_
      · have hpos := List.length_pos_of_ne_nil hne
        rw [List.length_append]
        omega
      · rw [List.append_assoc, List.drop_left]
        exact prefix_append_self_iff.mpr (.inr ⟨hlt, hpre, hrest⟩)
  · rintro ⟨hcontains, hborder⟩
    refine ⟨by simp, by rw [List.drop_left], fun q hq h ↦ ?_⟩
    rw [hdrop q hq.le] at h
    rcases prefix_append_self_iff.mp h with h | ⟨hlt, hpre, hrest⟩
    · exact hcontains (h.isInfix.trans (List.drop_suffix q l).isInfix)
    · refine hborder _ (fun hnil ↦ ?_) (List.drop_suffix q l) hlt hpre hrest
      exact absurd (List.drop_eq_nil_iff.mp hnil) hq.not_ge

end Search
