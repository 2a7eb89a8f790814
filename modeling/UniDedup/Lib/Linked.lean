import Mathlib.Data.List.Nodup
import Mathlib.Logic.Function.Basic

/-!
# Linked lists in memory

Cells lie at addresses, and each holds the address of the next one. A queue keeps the addresses of the first and of
the last cell, so that a cell can be put behind the last one without a walk through the list. Both have to be kept
right when the list becomes empty and when it is no longer empty.

A list in memory is described by its cells in order, each with its address (`Listed`).
-/

namespace Linked

/-- A cell of a list. -/
structure Cell (α : Type*) where
  next : Option ℕ
  data : α

/-- The cells that were allocated and not freed. -/
abbrev Memory (α : Type*) := ℕ → Option (Cell α)

variable {α : Type*}

/-- From `p` on, the links lead through the given cells to `q`. -/
def Segment (m : Memory α) : Option ℕ → List (ℕ × α) → Option ℕ → Prop
  | p, [], q => p = q
  | p, (a, x) :: l, q => p = some a ∧ ∃ next, m a = some ⟨next, x⟩ ∧ Segment m next l q

variable {m m' : Memory α} {p q first last : Option ℕ} {a : ℕ} {x : α} {l l' : List (ℕ × α)}

theorem segment_append : Segment m p (l ++ l') q ↔ ∃ r, Segment m p l r ∧ Segment m r l' q := by
  induction l generalizing p with
  | nil =>
    constructor
    · exact fun h ↦ ⟨p, rfl, h⟩
    · rintro ⟨r, rfl, h⟩
      exact h
  | cons c l ih =>
    constructor
    · rintro ⟨hp, next, hcell, hrest⟩
      obtain ⟨r, hl, hl'⟩ := ih.mp hrest
      exact ⟨r, ⟨hp, next, hcell, hl⟩, hl'⟩
    · rintro ⟨r, ⟨hp, next, hcell, hl⟩, hl'⟩
      exact ⟨hp, next, hcell, ih.mpr ⟨r, hl, hl'⟩⟩

theorem segment_concat : Segment m p (l ++ [(a, x)]) q ↔ Segment m p l (some a) ∧ m a = some ⟨q, x⟩ := by
  rw [segment_append]
  constructor
  · rintro ⟨r, hl, rfl, next, hcell, rfl⟩
    exact ⟨hl, hcell⟩
  · rintro ⟨hl, hcell⟩
    exact ⟨some a, hl, rfl, q, hcell, rfl⟩

theorem Segment.congr (h : Segment m p l q) (hm : ∀ a ∈ l.map Prod.fst, m' a = m a) : Segment m' p l q := by
  induction l generalizing p with
  | nil => exact h
  | cons c l ih =>
    obtain ⟨hp, next, hcell, hrest⟩ := h
    rw [List.map_cons, List.forall_mem_cons] at hm
    exact ⟨hp, next, hm.1.trans hcell, ih hrest hm.2⟩

theorem Segment.ne_none (h : Segment m p l q) (ha : a ∈ l.map Prod.fst) : m a ≠ none := by
  induction l generalizing p with
  | nil => exact absurd ha List.not_mem_nil
  | cons c l ih =>
    obtain ⟨-, next, hcell, hrest⟩ := h
    rw [List.map_cons, List.mem_cons] at ha
    rcases ha with rfl | ha
    · rw [hcell]
      exact Option.some_ne_none _
    · exact ih hrest ha

/-- A list between its first and its last cell; there are no other cells in the memory. -/
structure Listed (m : Memory α) (first last : Option ℕ) (l : List (ℕ × α)) : Prop where
  segment : Segment m first l none
  last_eq : last = l.getLast?.map Prod.fst
  nodup : (l.map Prod.fst).Nodup
  mem_of_ne_none : ∀ a, m a ≠ none → a ∈ l.map Prod.fst

theorem listed_nil : Listed (fun _ ↦ none : Memory α) none none [] where
  segment := rfl
  last_eq := rfl
  nodup := List.nodup_nil
  mem_of_ne_none _ h := absurd rfl h

namespace Listed

theorem notMem (h : Listed m first last l) (ha : m a = none) : a ∉ l.map Prod.fst :=
  fun hmem ↦ h.segment.ne_none hmem ha

theorem push_nil (h : Listed m first last []) (a : ℕ) (x : α) :
    first = none ∧ Listed (Function.update m a (some ⟨none, x⟩)) (some a) (some a) [(a, x)] := by
  refine ⟨h.segment, ⟨rfl, none, Function.update_self .., rfl⟩, rfl, List.nodup_singleton a, fun b hb ↦ ?_⟩
  by_contra hne
  rw [List.map_singleton, List.mem_singleton] at hne
  rw [Function.update_of_ne hne] at hb
  exact absurd (h.mem_of_ne_none b hb) List.not_mem_nil

theorem push_concat {b : ℕ} {y : α} (h : Listed m first last (l ++ [(b, y)])) (ha : m a = none) (x : α) :
    first ≠ none ∧ last = some b ∧ m b = some ⟨none, y⟩ ∧
      Listed (Function.update (Function.update m a (some ⟨none, x⟩)) b (some ⟨some a, y⟩)) first (some a)
        (l ++ [(b, y)] ++ [(a, x)]) := by
  obtain ⟨hl, hb⟩ := segment_concat.mp h.segment
  have hab : a ≠ b := by
    rintro rfl
    exact absurd (ha.symm.trans hb) nofun
  have hnot := h.notMem ha
  have hnodup := h.nodup
  rw [List.map_append, List.map_singleton, List.nodup_append_comm, List.singleton_append, List.nodup_cons] at hnodup
  rw [List.map_append, List.map_singleton, List.mem_append, List.mem_singleton, not_or] at hnot
  -- The new cell and the last one are the only ones that change, and neither is in front of the last one.
  have hsame : ∀ c ∈ l.map Prod.fst,
      Function.update (Function.update m a (some ⟨none, x⟩)) b (some ⟨some a, y⟩) c = m c := by
    intro c hc
    rw [Function.update_of_ne (ne_of_mem_of_not_mem hc hnodup.1),
      Function.update_of_ne (ne_of_mem_of_not_mem hc hnot.1)]
  refine ⟨?_, ?_, hb, ⟨?_, ?_, ?_, fun c hc ↦ ?_⟩⟩
  · rintro rfl
    rcases l with _ | ⟨c, l⟩
    · exact absurd hl nofun
    · exact absurd hl.1 nofun
  · rw [h.last_eq, List.getLast?_concat, Option.map_some]
  · refine segment_concat.mpr ⟨segment_concat.mpr ⟨hl.congr hsame, Function.update_self ..⟩, ?_⟩
    rw [Function.update_of_ne hab, Function.update_self]
  · rw [List.getLast?_concat, Option.map_some]
  · rw [List.map_append, List.map_singleton, List.nodup_append_comm, List.singleton_append, List.nodup_cons]
    exact ⟨h.notMem ha, h.nodup⟩
  · rw [List.map_append, List.map_singleton, List.mem_append, List.mem_singleton]
    by_cases hca : c = a
    · exact .inr hca
    · refine .inl (h.mem_of_ne_none c ?_)
      by_cases hcb : c = b
      · rw [hcb, hb]
        exact Option.some_ne_none _
      · rwa [Function.update_of_ne hcb, Function.update_of_ne hca] at hc

/-- The first cell is taken out. Where it was the last one as well, there is no last one any more. -/
theorem pop (h : Listed m first last ((a, x) :: l)) : first = some a ∧ ∃ next, m a = some ⟨next, x⟩ ∧
    Listed (Function.update m a none) next (if last = some a then none else last) l := by
  obtain ⟨hfirst, next, hcell, hrest⟩ := h.segment
  have hnodup := h.nodup
  rw [List.map_cons, List.nodup_cons] at hnodup
  refine ⟨hfirst, next, hcell, ⟨hrest.congr fun b hb ↦ ?_, ?_, hnodup.2, fun b hb ↦ ?_⟩⟩
  · exact Function.update_of_ne (ne_of_mem_of_not_mem hb hnodup.1) _ _
  · rw [h.last_eq]
    rcases List.eq_nil_or_concat' l with rfl | ⟨l, c, rfl⟩
    · rw [List.getLast?_singleton, Option.map_some, if_pos rfl, List.getLast?_nil, Option.map_none]
    · have hc : c.1 ∈ (l ++ [c]).map Prod.fst := List.mem_map_of_mem List.mem_concat_self
      rw [← List.cons_append, List.getLast?_concat, List.getLast?_concat, Option.map_some, if_neg]
      exact fun heq ↦ hnodup.1 (Option.some.inj heq ▸ hc)
  · have hba : b ≠ a := by
      rintro rfl
      exact hb (Function.update_self ..)
    rw [Function.update_of_ne hba] at hb
    exact (List.mem_cons.mp (h.mem_of_ne_none b hb)).resolve_left hba

end Listed

end Linked
