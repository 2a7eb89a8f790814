import UniDedup.Lib.Recency

/-!
# The LRU cache of the node

`lru_cache.c` keeps a list of elements and, next to it, their number. An operation that takes an element out of the
list or puts one in has to count it; a search that moves an element to the front has not.

On a cache with a bound the counter is always the length of the list and never above the bound, and the list holds
the elements in the order of their last uses. So what the operations find and drop is what a least-recently-used cache
should find and drop (`LruCache.lruCache_behaves`).
-/

namespace UniDedup.Node

open Lru

/-- `struct lruCache`, without the functions of its elements. -/
structure LruCache (α : Type*) where
  elemQueue : List α
  /-- Less than zero for an infinite cache. -/
  maxSize : ℤ
  size : ℤ
  hitCount : ℕ
  missCount : ℕ

namespace LruCache

variable {α : Type*}

/-- `new_lru_cache`. -/
def new (size : ℤ) : LruCache α := ⟨[], size, 0, 0, 0⟩

variable (c : LruCache α)

/-- `lru_cache_lookup`: the element that is found. -/
def lookup (hitElem : α → Bool) : LruCache α × Option α :=
  match Cache.extract hitElem c.elemQueue with
  | some (elem, queue) => ({ c with elemQueue := elem :: queue, hitCount := c.hitCount + 1 }, some elem)
  | none => ({ c with missCount := c.missCount + 1 }, none)

/-- `lru_cache_lookup_without_update`. -/
def lookupWithoutUpdate (hitElem : α → Bool) : Option α := c.elemQueue.find? hitElem

/-- `lru_cache_hits`, which counts neither a hit nor a miss. -/
def hits (hit : α → Bool) : LruCache α × Option α :=
  match Cache.extract hit c.elemQueue with
  | some (elem, queue) => ({ c with elemQueue := elem :: queue }, some elem)
  | none => (c, none)

/-- `lru_cache_insert`: the victim that is freed. `none` where the last element of an empty list is read. -/
def insert (data : α) : Option (LruCache α × Option α) :=
  if 0 < c.maxSize ∧ c.size = c.maxSize then
    c.elemQueue.getLast?.map fun victim ↦
      ({ c with elemQueue := data :: c.elemQueue.dropLast, size := c.size - 1 + 1 }, some victim)
  else some ({ c with elemQueue := data :: c.elemQueue, size := c.size + 1 }, none)

/-- `lru_cache_kicks`: the element that is freed. -/
def kicks (func : α → Bool) : LruCache α × Option α :=
  match Cache.extract func c.elemQueue.reverse with
  | some (elem, queue) => ({ c with elemQueue := queue.reverse, size := c.size - 1 }, some elem)
  | none => (c, none)

/-- `lru_cache_is_full`. -/
def isFull : Bool := if c.maxSize < 0 then false else decide (c.maxSize ≤ c.size)

/-! ## The queue without the counters -/

def toCache : Cache α := ⟨c.maxSize.toNat, c.elemQueue⟩

/-- The number of elements is right and within the bound. -/
structure Counted : Prop where
  pos : 0 < c.maxSize
  size_eq : c.size = c.elemQueue.length
  size_le : c.size ≤ c.maxSize

variable {c} {data : α} {p : α → Bool}

theorem elems_toCache : c.toCache.elems = c.elemQueue := rfl

theorem lookup_toCache : (c.lookup p).1.toCache = (c.toCache.lookup p).2 ∧ (c.lookup p).2 = (c.toCache.lookup p).1 := by
  rw [lookup, Cache.lookup, elems_toCache]
  cases Cache.extract p c.elemQueue <;> exact ⟨rfl, rfl⟩

theorem hits_toCache : (c.hits p).1.toCache = (c.toCache.lookup p).2 ∧ (c.hits p).2 = (c.toCache.lookup p).1 := by
  rw [hits, Cache.lookup, elems_toCache]
  cases Cache.extract p c.elemQueue <;> exact ⟨rfl, rfl⟩

theorem kicks_toCache : (c.kicks p).1.toCache = c.toCache.kicks p ∧ (c.kicks p).2 = c.elemQueue.reverse.find? p := by
  rw [kicks, Cache.kicks, elems_toCache]
  cases he : Cache.extract p c.elemQueue.reverse with
  | none =>
    refine ⟨rfl, (List.find?_eq_none.mpr fun a ha ↦ ?_).symm⟩
    rw [Cache.extract_eq_none.mp he a ha]
    exact Bool.false_ne_true
  | some r => exact ⟨rfl, (Cache.find?_of_extract he).symm⟩

namespace Counted

variable (h : c.Counted)

include h

theorem congr {c' : LruCache α} (hlen : c'.elemQueue.length = c.elemQueue.length) (hsize : c'.size = c.size)
    (hmax : c'.maxSize = c.maxSize) : c'.Counted where
  pos := hmax ▸ h.pos
  size_eq := by rw [hsize, h.size_eq, hlen]
  size_le := by
    rw [hsize, hmax]
    exact h.size_le

theorem lookup : (c.lookup p).1.Counted ∧ (c.lookup p).1.maxSize = c.maxSize := by
  have hlen := (c.toCache.lookup_perm p).length_eq
  rw [← lookup_toCache.1] at hlen
  have hfields : (c.lookup p).1.size = c.size ∧ (c.lookup p).1.maxSize = c.maxSize := by
    rw [LruCache.lookup]
    cases Cache.extract p c.elemQueue <;> exact ⟨rfl, rfl⟩
  exact ⟨h.congr hlen hfields.1 hfields.2, hfields.2⟩

theorem hits : (c.hits p).1.Counted ∧ (c.hits p).1.maxSize = c.maxSize := by
  have hlen := (c.toCache.lookup_perm p).length_eq
  rw [← hits_toCache.1] at hlen
  have hfields : (c.hits p).1.size = c.size ∧ (c.hits p).1.maxSize = c.maxSize := by
    rw [LruCache.hits]
    cases Cache.extract p c.elemQueue <;> exact ⟨rfl, rfl⟩
  exact ⟨h.congr hlen hfields.1 hfields.2, hfields.2⟩

theorem insert (data : α) : ∃ c', c.insert data = some (c', c.toCache.victim) ∧ c'.Counted ∧
    c'.maxSize = c.maxSize ∧ c'.toCache = c.toCache.insert data := by
  have hpos := h.pos
  have hsize := h.size_eq
  have hle := h.size_le
  have hfull : (0 < c.maxSize ∧ c.size = c.maxSize) ↔
      (0 < c.toCache.maxSize ∧ c.toCache.elems.length = c.toCache.maxSize) := by
    rw [toCache]
    dsimp only
    omega
  rw [LruCache.insert, Cache.victim, Cache.insert]
  by_cases hcond : 0 < c.maxSize ∧ c.size = c.maxSize
  · rw [if_pos hcond, if_pos (hfull.mp hcond), if_pos (hfull.mp hcond)]
    have hne : c.elemQueue ≠ [] := by
      intro hnil
      rw [hnil, List.length_nil] at hsize
      omega
    have hlast := List.getLast?_eq_some_getLast hne
    refine ⟨{ c with elemQueue := data :: c.elemQueue.dropLast, size := c.size - 1 + 1 }, ?_, ⟨hpos, ?_, ?_⟩, rfl, rfl⟩
    · rw [hlast, Option.map_some]
      exact congrArg some (Prod.ext rfl hlast.symm)
    · have hposlen := List.length_pos_of_ne_nil hne
      rw [List.length_cons, List.length_dropLast]
      dsimp only
      omega
    · dsimp only
      omega
  · rw [if_neg hcond, if_neg (mt hfull.mpr hcond), if_neg (mt hfull.mpr hcond)]
    refine ⟨_, rfl, ⟨hpos, ?_, ?_⟩, rfl, rfl⟩
    · rw [List.length_cons]
      dsimp only
      omega
    · dsimp only
      omega

theorem kicks : (c.kicks p).1.Counted ∧ (c.kicks p).1.maxSize = c.maxSize := by
  have hsize := h.size_eq
  have hle := h.size_le
  rw [LruCache.kicks]
  cases he : Cache.extract p c.elemQueue.reverse with
  | none => exact ⟨h, rfl⟩
  | some r =>
    obtain ⟨elem, queue⟩ := r
    have hlen := (Cache.extract_perm he).1.length_eq
    rw [List.length_cons, List.length_reverse] at hlen
    refine ⟨⟨h.pos, ?_, ?_⟩, rfl⟩
    · rw [List.length_reverse]
      dsimp only
      omega
    · dsimp only
      omega

end Counted

/-! ## Sequences of operations -/

/-- A call, with the condition that is passed to it or the element. -/
inductive Call (α : Type*)
  | lookup (hitElem : α → Bool)
  | lookupWithoutUpdate (hitElem : α → Bool)
  | hits (hit : α → Bool)
  | insert (data : α)
  | kicks (func : α → Bool)

/-- A call with the element it returns or frees. -/
def call (c : LruCache α) : Call α → Option (LruCache α × Option α)
  | .lookup hitElem => some (c.lookup hitElem)
  | .lookupWithoutUpdate hitElem => some (c, c.lookupWithoutUpdate hitElem)
  | .hits hit => some (c.hits hit)
  | .insert data => c.insert data
  | .kicks func => some (c.kicks func)

/-- What a call at time `t` should do to the elements of a cache for `n` elements and to their last uses. -/
def Due (n t : ℕ) (S : Uses α) : Call α → Option α → Uses α → Prop
  | .lookup hitElem => S.Found hitElem t
  | .lookupWithoutUpdate hitElem => S.Seen hitElem
  | .hits hit => S.Found hit t
  | .insert data => S.Inserted t n data
  | .kicks func => S.Kicked func

/-- The counter is right, the bound is kept, and the list is in the order of the last uses. -/
structure Proper (maxSize : ℤ) (t : ℕ) (S : Uses α) (c : LruCache α) : Prop where
  maxSize_eq : c.maxSize = maxSize
  size_eq : c.size = c.elemQueue.length
  size_le : c.size ≤ maxSize
  inOrder : InOrder t S c.elemQueue

/-- The calls return, each does what it should, and the cache is proper before and after each of them. -/
def Behaves (maxSize : ℤ) (t : ℕ) (S : Uses α) (c : LruCache α) : List (Call α) → Prop
  | [] => Proper maxSize t S c
  | l :: calls => Proper maxSize t S c ∧ ∃ c' r S',
      c.call l = some (c', r) ∧ Due maxSize.toNat t S l r S' ∧ Behaves maxSize (t + 1) S' c' calls

/-- **One call.** -/
theorem Proper.call {maxSize : ℤ} (hmax : 0 < maxSize) {t : ℕ} {S : Uses α} (h : Proper maxSize t S c) (l : Call α) :
    ∃ c' r S', c.call l = some (c', r) ∧ Due maxSize.toNat t S l r S' ∧ Proper maxSize (t + 1) S' c' := by
  obtain rfl := h.maxSize_eq
  have hcounted : c.Counted := ⟨hmax, h.size_eq, h.size_le⟩
  have hproper : ∀ {c' : LruCache α} {S'}, c'.Counted → c'.maxSize = c.maxSize → InOrder (t + 1) S' c'.toCache.elems →
      Proper c.maxSize (t + 1) S' c' := fun hc hmax hS ↦ ⟨hmax, hc.size_eq, hmax ▸ hc.size_le, hS⟩
  have horder : InOrder t S c.toCache.elems := h.inOrder
  cases l with
  | lookup hitElem =>
    obtain ⟨S', hfound, hS⟩ := horder.lookup hitElem
    obtain ⟨hcache, hr⟩ := lookup_toCache (c := c) (p := hitElem)
    rw [← hr] at hfound
    rw [← hcache] at hS
    exact ⟨_, _, S', rfl, hfound, hproper hcounted.lookup.1 hcounted.lookup.2 hS⟩
  | lookupWithoutUpdate hitElem =>
    exact ⟨c, _, S, rfl, horder.lookupWithoutUpdate hitElem, hproper hcounted rfl horder.succ⟩
  | hits hit =>
    obtain ⟨S', hfound, hS⟩ := horder.lookup hit
    obtain ⟨hcache, hr⟩ := hits_toCache (c := c) (p := hit)
    rw [← hr] at hfound
    rw [← hcache] at hS
    exact ⟨_, _, S', rfl, hfound, hproper hcounted.hits.1 hcounted.hits.2 hS⟩
  | insert data =>
    obtain ⟨c', hcall, hc', hmax', hcache⟩ := hcounted.insert data
    have hpos : 0 < c.toCache.maxSize := Int.lt_toNat.mpr hmax
    have hle : c.toCache.elems.length ≤ c.toCache.maxSize := by
      have := hcounted.size_eq
      have := hcounted.size_le
      rw [elems_toCache]
      exact Int.le_toNat hmax.le |>.mpr (by omega)
    obtain ⟨S', hinserted, hS⟩ := horder.insert hpos hle data
    rw [← hcache] at hS
    exact ⟨c', _, S', hcall, hinserted, hproper hc' hmax' hS⟩
  | kicks func =>
    obtain ⟨S', hkicked, hS⟩ := horder.kicks func
    obtain ⟨hcache, hr⟩ := kicks_toCache (c := c) (p := func)
    rw [elems_toCache, ← hr] at hkicked
    rw [← hcache] at hS
    exact ⟨_, _, S', rfl, hkicked, hproper hcounted.kicks.1 hcounted.kicks.2 hS⟩

theorem Proper.behaves {maxSize : ℤ} (hmax : 0 < maxSize) {t : ℕ} {S : Uses α} (h : Proper maxSize t S c)
    (calls : List (Call α)) : Behaves maxSize t S c calls := by
  induction calls generalizing t S c with
  | nil => exact h
  | cons l calls ih =>
    obtain ⟨c', r, S', hcall, hdue, hproper⟩ := h.call hmax l
    exact ⟨h, c', r, S', hcall, hdue, ih hproper⟩

/-- **The LRU cache.** Every sequence of calls on a new cache with a bound. -/
theorem lruCache_behaves {maxSize : ℤ} (hmax : 0 < maxSize) (calls : List (Call α)) :
    Behaves maxSize 0 ∅ (new maxSize) calls :=
  Proper.behaves hmax ⟨rfl, rfl, hmax.le, .nil⟩ calls

/-- Two elements in a cache for one. -/
theorem lruCache_behaves_one : Behaves 1 0 ∅ (new 1) [.insert 'a', .lookup (· = 'a'), .insert 'b', .kicks (· = 'a')] :=
  lruCache_behaves Int.one_pos _

end LruCache

end UniDedup.Node
