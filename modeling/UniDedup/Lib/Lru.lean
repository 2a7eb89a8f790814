import Mathlib.Data.List.Basic

/-!
# Least-recently-used caches

A cache is its queue of elements, the most recently used first, with a bound on its length; the bound
`0` stands for an unbounded cache. An element is found by a condition rather than by a key, so the
same cache can be searched in several ways. Searching moves the element found to the front, inserting
into a full cache drops the last element.

Nothing here depends on what the elements are: the facts used elsewhere are that no operation makes
up an element, and that an element just found or inserted is at the front.
-/

namespace Lru

universe u

variable {α : Type u}

/-- A cache of elements of type `α`. -/
structure Cache (α : Type u) where
  /-- The bound on the number of elements, or `0` for none. -/
  maxSize : ℕ
  /-- The elements, the most recently used first. -/
  elems : List α
deriving Repr, DecidableEq

namespace Cache

def new (size : ℕ) : Cache α := ⟨size, []⟩

/-- Take the first element that satisfies `p` out of a list. -/
def extract (p : α → Bool) : List α → Option (α × List α)
  | [] => none
  | a :: l => if p a then some (a, l) else (extract p l).map fun (b, l') ↦ (b, a :: l')

/-- Find an element and move it to the front. -/
def lookup (c : Cache α) (p : α → Bool) : Option α × Cache α :=
  match extract p c.elems with
  | some (a, l) => (some a, { c with elems := a :: l })
  | none => (none, c)

/-- Find an element and leave the queue as it is. -/
def lookupWithoutUpdate (c : Cache α) (p : α → Bool) : Option α := c.elems.find? p

/-- Put an element at the front, dropping the last one where the cache is full. -/
def insert (c : Cache α) (a : α) : Cache α :=
  if 0 < c.maxSize ∧ c.elems.length = c.maxSize then { c with elems := a :: c.elems.dropLast }
  else { c with elems := a :: c.elems }

/-- Drop the least recently used of the elements that satisfy `p`. -/
def kicks (c : Cache α) (p : α → Bool) : Cache α :=
  match extract p c.elems.reverse with
  | some (_, l) => { c with elems := l.reverse }
  | none => c

/-- The element that makes room for a new one. -/
def victim (c : Cache α) : Option α :=
  if 0 < c.maxSize ∧ c.elems.length = c.maxSize then c.elems.getLast? else none

/-- Is there no room for a further element? -/
def isFull (c : Cache α) : Bool := c.maxSize ≤ c.elems.length

/-! ## What the operations keep -/

theorem extract_eq_none {p : α → Bool} : ∀ {l : List α}, extract p l = none ↔ ∀ a ∈ l, p a = false
  | [] => by simp [extract]
  | a :: l => by
    cases hp : p a <;> simp [extract, hp, extract_eq_none (l := l)]

theorem extract_perm {p : α → Bool} : ∀ {l : List α} {a : α} {l' : List α},
    extract p l = some (a, l') → (a :: l').Perm l ∧ p a = true
  | [], _, _, h => by simp [extract] at h
  | b :: l, a, l', h => by
    cases hp : p b with
    | true =>
      simp only [extract, hp, if_true, Option.some.injEq, Prod.mk.injEq] at h
      obtain ⟨rfl, rfl⟩ := h
      exact ⟨.refl _, hp⟩
    | false =>
      simp only [extract, hp, Bool.false_eq_true, if_false, Option.map_eq_some_iff,
        Prod.mk.injEq, Prod.exists] at h
      obtain ⟨a', l'', hrec, rfl, rfl⟩ := h
      obtain ⟨hperm, hpa⟩ := extract_perm hrec
      exact ⟨(List.Perm.swap b a' l'').trans (hperm.cons b), hpa⟩

theorem extract_split {p : α → Bool} : ∀ {l : List α} {a : α} {l' : List α}, extract p l = some (a, l') →
    ∃ l₁ l₂, l = l₁ ++ a :: l₂ ∧ l' = l₁ ++ l₂ ∧ p a = true ∧ ∀ b ∈ l₁, p b = false
  | [], _, _, h => by simp [extract] at h
  | b :: l, a, l', h => by
    cases hp : p b with
    | true =>
      simp only [extract, hp, if_true, Option.some.injEq, Prod.mk.injEq] at h
      obtain ⟨rfl, rfl⟩ := h
      exact ⟨[], l, rfl, rfl, hp, fun _ hmem ↦ absurd hmem List.not_mem_nil⟩
    | false =>
      simp only [extract, hp, Bool.false_eq_true, if_false, Option.map_eq_some_iff,
        Prod.mk.injEq, Prod.exists] at h
      obtain ⟨a', l'', hrec, rfl, rfl⟩ := h
      obtain ⟨l₁, l₂, rfl, rfl, ha, hfirst⟩ := extract_split hrec
      refine ⟨b :: l₁, l₂, rfl, rfl, ha, fun c hc ↦ ?_⟩
      rcases List.mem_cons.mp hc with rfl | hc
      · exact hp
      · exact hfirst c hc

theorem find?_of_extract {p : α → Bool} : ∀ {l : List α} {a : α} {l' : List α},
    extract p l = some (a, l') → l.find? p = some a
  | [], _, _, h => by simp [extract] at h
  | b :: l, a, l', h => by
    cases hp : p b with
    | true =>
      simp only [extract, hp, if_true, Option.some.injEq, Prod.mk.injEq] at h
      rw [List.find?_cons_of_pos hp, h.1]
    | false =>
      simp only [extract, hp, Bool.false_eq_true, if_false, Option.map_eq_some_iff,
        Prod.mk.injEq, Prod.exists] at h
      obtain ⟨a', l'', hrec, rfl, rfl⟩ := h
      rw [List.find?_cons_of_neg (by simp [hp])]
      exact find?_of_extract hrec

theorem kicks_perm {c : Cache α} {p : α → Bool} {a : α} (h : c.elems.reverse.find? p = some a) :
    (a :: (c.kicks p).elems).Perm c.elems := by
  unfold kicks
  cases he : extract p c.elems.reverse with
  | none =>
    rw [extract_eq_none] at he
    have hpa := List.find?_some h
    rw [he a (List.mem_of_find?_eq_some h)] at hpa
    cases hpa
  | some r =>
    obtain ⟨b, l⟩ := r
    rw [find?_of_extract he] at h
    obtain rfl := Option.some.inj h
    exact (((List.reverse_perm l).cons b).trans (extract_perm he).1).trans (List.reverse_perm c.elems)

@[simp] theorem maxSize_kicks (c : Cache α) (p : α → Bool) : (c.kicks p).maxSize = c.maxSize := by
  unfold kicks
  cases extract p c.elems.reverse <;> rfl

theorem insert_of_length_lt {c : Cache α} {a : α} (h : c.elems.length < c.maxSize) :
    c.insert a = { c with elems := a :: c.elems } := if_neg fun hfull ↦ Nat.ne_of_lt h hfull.2

theorem mem_of_lookup {c : Cache α} {p : α → Bool} {a : α} (h : (c.lookup p).1 = some a) :
    a ∈ c.elems ∧ p a = true := by
  unfold lookup at h
  cases he : extract p c.elems with
  | none => simp [he] at h
  | some r =>
    obtain ⟨b, l⟩ := r
    obtain ⟨hperm, hp⟩ := extract_perm he
    simp only [he, Option.some.injEq] at h
    subst h
    exact ⟨hperm.subset List.mem_cons_self, hp⟩

theorem lookup_eq_none {c : Cache α} {p : α → Bool} :
    (c.lookup p).1 = none ↔ ∀ a ∈ c.elems, p a = false := by
  rw [← extract_eq_none]
  unfold lookup
  cases he : extract p c.elems <;> simp

theorem lookup_perm (c : Cache α) (p : α → Bool) : (c.lookup p).2.elems.Perm c.elems := by
  unfold lookup
  cases he : extract p c.elems with
  | none => exact .refl _
  | some r =>
    obtain ⟨b, l⟩ := r
    exact (extract_perm he).1

@[simp] theorem maxSize_lookup (c : Cache α) (p : α → Bool) :
    (c.lookup p).2.maxSize = c.maxSize := by
  unfold lookup
  cases extract p c.elems <;> rfl

@[simp] theorem maxSize_insert (c : Cache α) (a : α) : (c.insert a).maxSize = c.maxSize := by
  unfold insert
  split_ifs <;> rfl

theorem mem_insert_self (c : Cache α) (a : α) : a ∈ (c.insert a).elems := by
  unfold insert
  split_ifs <;> exact List.mem_cons_self

theorem mem_of_mem_insert {c : Cache α} {a b : α} (h : b ∈ (c.insert a).elems) :
    b = a ∨ b ∈ c.elems := by
  unfold insert at h
  split_ifs at h
  · rcases List.mem_cons.mp h with rfl | h
    · exact .inl rfl
    · exact .inr (List.dropLast_subset _ h)
  · exact List.mem_cons.mp h

theorem forall_lookup {c : Cache α} {p : α → Bool} {P : α → Prop} (h : ∀ a ∈ c.elems, P a) :
    ∀ a ∈ (c.lookup p).2.elems, P a :=
  fun a ha ↦ h a ((c.lookup_perm p).subset ha)

theorem forall_insert {c : Cache α} {a : α} {P : α → Prop} (h : ∀ b ∈ c.elems, P b) (ha : P a) :
    ∀ b ∈ (c.insert a).elems, P b := by
  intro b hb
  rcases mem_of_mem_insert hb with rfl | hb
  · exact ha
  · exact h b hb

end Cache

end Lru
