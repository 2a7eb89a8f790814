import Mathlib.Data.Set.Card
import UniDedup.Lib.Lru

/-!
# Least recently used

What a least-recently-used cache is for says nothing about queues: it holds elements, each with the time of its last
use, a search takes the last used element that fits and counts as a use of it, and an element is dropped because all
others have been used since.

The queue of a cache is these elements in the order of their last uses (`InOrder`). So taking an element from the
middle of the queue and putting it to the front keeps the order, the first element that fits is the last used one, and
the last that fits is the least recently used one.
-/

namespace Lru

variable {α : Type*}

/-- The elements of a cache, each with the time of its last use. -/
abbrev Uses (α : Type*) := Set (ℕ × α)

namespace Uses

variable (S : Uses α) (p : α → Bool) (t : ℕ)

/-- The last used of the elements that satisfy `p`. -/
structure Latest (x : ℕ × α) : Prop where
  mem : x ∈ S
  sat : p x.2 = true
  le : ∀ y ∈ S, p y.2 = true → y.1 ≤ x.1

/-- The least recently used of the elements that satisfy `p`. -/
structure Earliest (x : ℕ × α) : Prop where
  mem : x ∈ S
  sat : p x.2 = true
  le : ∀ y ∈ S, p y.2 = true → x.1 ≤ y.1

/-- A search at time `t`, which uses what it finds. -/
def Found (r : Option α) (S' : Uses α) : Prop :=
  (r = none ∧ S' = S ∧ ∀ x ∈ S, p x.2 = false) ∨
    ∃ x, S.Latest p x ∧ r = some x.2 ∧ S' = insert (t, x.2) (S \ {x})

def Seen (r : Option α) (S' : Uses α) : Prop :=
  S' = S ∧ ((r = none ∧ ∀ x ∈ S, p x.2 = false) ∨ ∃ x, S.Latest p x ∧ r = some x.2)

/-- A new element at time `t`, and the element that is dropped for it where there are `n` already. -/
def Inserted (n : ℕ) (a : α) (r : Option α) (S' : Uses α) : Prop :=
  (S.ncard < n ∧ r = none ∧ S' = insert (t, a) S) ∨
    S.ncard = n ∧ ∃ x, S.Earliest (fun _ ↦ true) x ∧ r = some x.2 ∧ S' = insert (t, a) (S \ {x})

/-- An element that satisfies `p` is dropped. -/
def Kicked (r : Option α) (S' : Uses α) : Prop :=
  (r = none ∧ S' = S ∧ ∀ x ∈ S, p x.2 = false) ∨ ∃ x, S.Earliest p x ∧ r = some x.2 ∧ S' = S \ {x}

end Uses

/-- The elements in the order of their last uses, the last used one first, before time `t`. -/
def InOrder (t : ℕ) (S : Uses α) (elems : List α) : Prop :=
  ∃ l : List (ℕ × α), l.map Prod.snd = elems ∧ (∀ x, x ∈ S ↔ x ∈ l) ∧ l.Pairwise (fun x y ↦ y.1 < x.1) ∧
    ∀ x ∈ l, x.1 < t

namespace InOrder

variable {S : Uses α} {elems l₁ l₂ : List α} {a : α} {p : α → Bool} {t : ℕ}

theorem nil : InOrder 0 (∅ : Uses α) [] :=
  ⟨[], rfl, fun _ ↦ by simp, .nil, fun _ hx ↦ absurd hx List.not_mem_nil⟩

theorem succ (h : InOrder t S elems) : InOrder (t + 1) S elems := by
  obtain ⟨l, hmap, hmem, hsorted, hlt⟩ := h
  exact ⟨l, hmap, hmem, hsorted, fun x hx ↦ (hlt x hx).trans t.lt_succ_self⟩

theorem cons (h : InOrder t S elems) (a : α) : InOrder (t + 1) (insert (t, a) S) (a :: elems) := by
  obtain ⟨l, rfl, hmem, hsorted, hlt⟩ := h
  refine ⟨(t, a) :: l, rfl, fun x ↦ ?_, hsorted.cons hlt, fun x hx ↦ ?_⟩
  · rw [Set.mem_insert_iff, List.mem_cons, hmem]
  · rcases List.mem_cons.mp hx with rfl | hx
    · exact t.lt_succ_self
    · exact (hlt x hx).trans t.lt_succ_self

theorem mem_iff (h : InOrder t S elems) (b : α) : b ∈ elems ↔ ∃ x ∈ S, x.2 = b := by
  obtain ⟨l, rfl, hmem, -, -⟩ := h
  rw [List.mem_map]
  exact exists_congr fun x ↦ and_congr_left fun _ ↦ (hmem x).symm

theorem ncard_eq (h : InOrder t S elems) : S.ncard = elems.length := by
  classical
  obtain ⟨l, rfl, hmem, hsorted, -⟩ := h
  have hnodup : l.Nodup := hsorted.imp fun hlt heq ↦ absurd (heq ▸ hlt) (lt_irrefl _)
  have hS : S = (l.toFinset : Set (ℕ × α)) := Set.ext fun x ↦ by rw [hmem, Finset.mem_coe, List.mem_toFinset]
  rw [hS, Set.ncard_coe_finset, List.toFinset_card_of_nodup hnodup, List.length_map]

/-- **An element is taken out**: what is in front of it was used later, what is behind it was used before. -/
theorem split (h : InOrder t S (l₁ ++ a :: l₂)) : ∃ x ∈ S, x.2 = a ∧ InOrder t (S \ {x}) (l₁ ++ l₂) ∧
    ∀ y ∈ S, y = x ∨ y.2 ∈ l₁ ∧ x.1 < y.1 ∨ y.2 ∈ l₂ ∧ y.1 < x.1 := by
  obtain ⟨l, hmap, hmem, hsorted, hlt⟩ := h
  obtain ⟨m₁, m, rfl, rfl, hm⟩ := List.map_eq_append_iff.mp hmap
  obtain ⟨x, m₂, rfl, rfl, rfl⟩ := List.map_eq_cons_iff.mp hm
  obtain ⟨hsorted₁, hsorted₂, hcross⟩ := List.pairwise_append.mp hsorted
  obtain ⟨hx, hsorted₂⟩ := List.pairwise_cons.mp hsorted₂
  refine ⟨x, (hmem x).mpr (by simp), rfl, ⟨m₁ ++ m₂, List.map_append, fun y ↦ ?_, ?_, fun y hy ↦ ?_⟩, fun y hy ↦ ?_⟩
  · rw [Set.mem_sdiff, Set.mem_singleton_iff, hmem, List.mem_append, List.mem_append, List.mem_cons]
    constructor
    · rintro ⟨hy | rfl | hy, hne⟩
      · exact .inl hy
      · exact absurd rfl hne
      · exact .inr hy
    · rintro (hy | hy)
      · refine ⟨.inl hy, ?_⟩
        rintro rfl
        exact lt_irrefl _ (hcross y hy y List.mem_cons_self)
      · refine ⟨.inr (.inr hy), ?_⟩
        rintro rfl
        exact lt_irrefl _ (hx y hy)
  · exact List.pairwise_append.mpr ⟨hsorted₁, hsorted₂, fun y hy z hz ↦ hcross y hy z (List.mem_cons_of_mem x hz)⟩
  · refine hlt y ?_
    rcases List.mem_append.mp hy with hy | hy
    · exact List.mem_append_left _ hy
    · exact List.mem_append_right _ (List.mem_cons_of_mem x hy)
  · rcases List.mem_append.mp ((hmem y).mp hy) with hy | hy
    · exact .inr (.inl ⟨List.mem_map_of_mem hy, hcross y hy x List.mem_cons_self⟩)
    · rcases List.mem_cons.mp hy with rfl | hy
      · exact .inl rfl
      · exact .inr (.inr ⟨List.mem_map_of_mem hy, hx y hy⟩)

theorem latest (h : InOrder t S (l₁ ++ a :: l₂)) (hfirst : ∀ b ∈ l₁, p b = false) (ha : p a = true) :
    ∃ x, S.Latest p x ∧ x.2 = a ∧ InOrder t (S \ {x}) (l₁ ++ l₂) := by
  obtain ⟨x, hx, rfl, hrest, hsplit⟩ := h.split
  refine ⟨x, ⟨hx, ha, fun y hy hp ↦ ?_⟩, rfl, hrest⟩
  rcases hsplit y hy with rfl | ⟨hl₁, -⟩ | ⟨-, hlt⟩
  · exact le_rfl
  · rw [hfirst _ hl₁] at hp
    exact absurd hp Bool.false_ne_true
  · exact hlt.le

theorem earliest (h : InOrder t S (l₁ ++ a :: l₂)) (hlast : ∀ b ∈ l₂, p b = false) (ha : p a = true) :
    ∃ x, S.Earliest p x ∧ x.2 = a ∧ InOrder t (S \ {x}) (l₁ ++ l₂) := by
  obtain ⟨x, hx, rfl, hrest, hsplit⟩ := h.split
  refine ⟨x, ⟨hx, ha, fun y hy hp ↦ ?_⟩, rfl, hrest⟩
  rcases hsplit y hy with rfl | ⟨-, hlt⟩ | ⟨hl₂, -⟩
  · exact le_rfl
  · exact hlt.le
  · rw [hlast _ hl₂] at hp
    exact absurd hp Bool.false_ne_true

theorem forall_eq_false (h : InOrder t S elems) (hp : ∀ b ∈ elems, p b = false) : ∀ x ∈ S, p x.2 = false :=
  fun x hx ↦ hp x.2 ((h.mem_iff x.2).mpr ⟨x, hx, rfl⟩)

/-! ## The operations -/

variable {c : Cache α}

/-- **A search** uses the last used element that fits. -/
theorem lookup (h : InOrder t S c.elems) (p : α → Bool) :
    ∃ S', S.Found p t (c.lookup p).1 S' ∧ InOrder (t + 1) S' (c.lookup p).2.elems := by
  rw [Cache.lookup]
  cases he : Cache.extract p c.elems with
  | none => exact ⟨S, .inl ⟨rfl, rfl, h.forall_eq_false (Cache.extract_eq_none.mp he)⟩, h.succ⟩
  | some r =>
    obtain ⟨a, l⟩ := r
    obtain ⟨l₁, l₂, heq, rfl, ha, hfirst⟩ := Cache.extract_split he
    obtain ⟨x, hx, rfl, hrest⟩ := (heq ▸ h).latest hfirst ha
    exact ⟨_, .inr ⟨x, hx, rfl, rfl⟩, hrest.cons x.2⟩

theorem lookupWithoutUpdate (h : InOrder t S c.elems) (p : α → Bool) :
    S.Seen p (c.lookupWithoutUpdate p) S := by
  refine ⟨rfl, ?_⟩
  rw [Cache.lookupWithoutUpdate]
  cases he : Cache.extract p c.elems with
  | none =>
    have hnone := Cache.extract_eq_none.mp he
    refine .inl ⟨?_, h.forall_eq_false hnone⟩
    rw [List.find?_eq_none]
    exact fun a ha ↦ by rw [hnone a ha]; exact Bool.false_ne_true
  | some r =>
    obtain ⟨a, l⟩ := r
    obtain ⟨l₁, l₂, heq, -, ha, hfirst⟩ := Cache.extract_split he
    obtain ⟨x, hx, rfl, -⟩ := (heq ▸ h).latest hfirst ha
    exact .inr ⟨x, hx, Cache.find?_of_extract he⟩

/-- **A new element** drops the least recently used one where the cache is full, and no other. -/
theorem insert (h : InOrder t S c.elems) (hmax : 0 < c.maxSize) (hle : c.elems.length ≤ c.maxSize) (a : α) :
    ∃ S', S.Inserted t c.maxSize a c.victim S' ∧ InOrder (t + 1) S' (c.insert a).elems := by
  rw [Cache.victim, Cache.insert]
  split_ifs with hfull
  · obtain ⟨init, b, heq⟩ := (List.eq_nil_or_concat' c.elems).resolve_left fun hnil ↦ by
      rw [hnil, List.length_nil] at hfull
      omega
    have hlast : ∀ d ∈ ([] : List α), (fun _ ↦ true) d = false := fun d hd ↦ absurd hd List.not_mem_nil
    have hncard := h.ncard_eq
    rw [heq] at h
    obtain ⟨x, hx, rfl, hrest⟩ := h.earliest hlast rfl
    rw [heq, List.getLast?_concat, List.dropLast_concat]
    rw [List.append_nil] at hrest
    exact ⟨_, .inr ⟨hncard.trans hfull.2, x, hx, rfl, rfl⟩, hrest.cons a⟩
  · refine ⟨_, .inl ⟨?_, rfl, rfl⟩, h.cons a⟩
    rw [h.ncard_eq]
    exact lt_of_le_of_ne hle fun heq ↦ hfull ⟨hmax, heq⟩

/-- **The element that is kicked** is the least recently used of those that fit. -/
theorem kicks (h : InOrder t S c.elems) (p : α → Bool) :
    ∃ S', S.Kicked p (c.elems.reverse.find? p) S' ∧ InOrder (t + 1) S' (c.kicks p).elems := by
  rw [Cache.kicks]
  cases he : Cache.extract p c.elems.reverse with
  | none =>
    have hnone : ∀ b ∈ c.elems, p b = false := fun b hb ↦
      Cache.extract_eq_none.mp he b (List.mem_reverse.mpr hb)
    refine ⟨S, .inl ⟨?_, rfl, h.forall_eq_false hnone⟩, h.succ⟩
    rw [List.find?_eq_none]
    exact fun a ha ↦ by rw [hnone a (List.mem_reverse.mp ha)]; exact Bool.false_ne_true
  | some r =>
    obtain ⟨a, l⟩ := r
    obtain ⟨l₁, l₂, heq, rfl, ha, hfirst⟩ := Cache.extract_split he
    have helems : c.elems = l₂.reverse ++ a :: l₁.reverse := by
      rw [← List.reverse_reverse c.elems, heq]
      simp
    rw [helems] at h
    obtain ⟨x, hx, rfl, hrest⟩ := h.earliest (fun b hb ↦ hfirst b (List.mem_reverse.mp hb)) ha
    refine ⟨_, .inr ⟨x, hx, Cache.find?_of_extract he, rfl⟩, ?_⟩
    dsimp only
    rw [List.reverse_append]
    exact hrest.succ

end InOrder

end Lru
