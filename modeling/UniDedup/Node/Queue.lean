import Mathlib.Algebra.Order.Ring.Int
import UniDedup.Lib.Linked
import UniDedup.Lib.Loop
import UniDedup.Lib.Outcome

/-!
# The queue of the node

`queue.c` is a linked list with pointers to its first and its last element and a counter. The elements are cells that
are allocated by a push and freed by a pop, and what they hold is a pointer of the caller, which may be null.

The pointers, the counter and the cells belong together as `Queue.Holds` says: from `first` on the links lead through
the elements to a null pointer, `last` is the last of them or null, `elem_num` is their number, and nothing else is
allocated. Each function keeps this and does to the elements what a queue does. It follows no null pointer and none to
a freed element, and leaves the range of an `int` only when it counts the element number `2 ^ 31`.
-/

namespace UniDedup.Node

open Linked Loop Outcome

variable {α : Type}

/-- `queue_ele_t`. What it holds is a pointer, null where it is `none`. -/
abbrev QueueEle (α : Type) := Cell (Option α)

/-- `Queue`, with the elements that were allocated and not freed. -/
structure Queue (α : Type) where
  first : Option ℕ
  last : Option ℕ
  elemNum : ℤ
  eles : Memory (Option α)

/-- What a function of the queue must not do. -/
inductive QueueFault
  | null
  /-- It follows a pointer to an element that was freed. -/
  | dangling
  /-- It counts past the largest `int`. -/
  | overflow
deriving DecidableEq

namespace Queue

/-- `queue_new`. -/
def new : Queue α := ⟨none, none, 0, fun _ ↦ none⟩

variable (q : Queue α)

def ele (item : Option ℕ) : Except QueueFault (ℕ × QueueEle α) := do
  let a ← getOr item .null
  let ele ← getOr (q.eles a) .dangling
  return (a, ele)

/-- The element at `a` is linked to the end. -/
def append (a : ℕ) : Except QueueFault (Queue α) :=
  if q.first = none then .ok { q with first := some a }
  else do
    let (b, lastEle) ← q.ele q.last
    return { q with eles := Function.update q.eles b (some { lastEle with next := some a }) }

/-- `queue_push`, with what `malloc` returns. When there is no memory the element is dropped. -/
def push (element : Option α) (item : Option ℕ) : Except QueueFault (Queue α) :=
  match item with
  | none => .ok q
  | some a => do
    let q' ← Queue.append { q with eles := Function.update q.eles a (some ⟨none, element⟩) } a
    check (q'.elemNum + 1 < 2 ^ 31) .overflow
    return { q' with last := some a, elemNum := q'.elemNum + 1 }

/-- `queue_pop`. -/
def pop : Except QueueFault (Queue α × Option α) :=
  if q.elemNum = 0 then .ok (q, none)
  else do
    let (a, item) ← q.ele q.first
    return (⟨item.next, if q.last = some a then none else q.last, q.elemNum - 1, Function.update q.eles a none⟩,
      item.data)

/-- `queue_top`. -/
def top : Except QueueFault (Option α) :=
  if q.elemNum = 0 then .ok none
  else do
    let (_, item) ← q.ele q.first
    return item.data

/-- `queue_size`. -/
def size : ℤ := q.elemNum

/-- A round of the loop of `queue_find`. -/
def findRound (hit : Option α → Bool) (item : Option ℕ) : Option ℕ ⊕ Except QueueFault (Option α) :=
  match q.ele item with
  | .error e => .inr (.error e)
  | .ok (_, item) =>
    if hit item.data then .inr (.ok item.data)
    else if item.next = none then .inr (.ok none)
    else .inl item.next

/-- `queue_find`, in at most `fuel` rounds. -/
def find (hit : Option α → Bool) (fuel : ℕ) : Option (Except QueueFault (Option α)) :=
  if q.elemNum = 0 then some (.ok none) else run (q.findRound hit) fuel q.first

/-! ## What the queue holds -/

/-- The pointers and the counter belong to the elements, which are given with their addresses. -/
structure Holds (l : List (ℕ × Option α)) : Prop where
  listed : Listed q.eles q.first q.last l
  elemNum_eq : q.elemNum = l.length

variable {q} {q' : Queue α} {l : List (ℕ × Option α)} {a : ℕ} {x r : Option α}

theorem ele_eq {item : QueueEle α} (h : q.eles a = some item) : q.ele (some a) = .ok (a, item) :=
  bind_eq_ok.mpr ⟨a, rfl, bind_eq_ok.mpr ⟨item, getOr_eq_ok.mpr h, rfl⟩⟩

theorem holds_new : (new : Queue α).Holds [] := ⟨listed_nil, rfl⟩

namespace Holds

theorem size_eq (h : q.Holds l) : q.size = l.length := h.elemNum_eq

theorem elemNum_eq_zero_iff (h : q.Holds l) : q.elemNum = 0 ↔ l = [] := by
  rw [h.elemNum_eq, Nat.cast_eq_zero, List.length_eq_zero_iff]

theorem append (h : q.Holds l) (ha : q.eles a = none) (x : Option α) :
    ∃ first eles, Queue.append { q with eles := Function.update q.eles a (some ⟨none, x⟩) } a =
      .ok ⟨first, q.last, q.elemNum, eles⟩ ∧ Listed eles first (some a) (l ++ [(a, x)]) := by
  rcases List.eq_nil_or_concat' l with rfl | ⟨l, ⟨b, y⟩, rfl⟩
  · obtain ⟨hfirst, hlisted⟩ := h.listed.push_nil a x
    refine ⟨some a, _, ?_, hlisted⟩
    rw [Queue.append, if_pos hfirst]
  · obtain ⟨hfirst, hlast, hb, hlisted⟩ := h.listed.push_concat ha x
    have hba : b ≠ a := by
      rintro rfl
      exact absurd (ha.symm.trans hb) nofun
    refine ⟨q.first, _, ?_, hlisted⟩
    rw [Queue.append, if_neg hfirst]
    refine bind_eq_ok.mpr ⟨(b, ⟨none, y⟩), ?_, rfl⟩
    rw [hlast]
    exact ele_eq ((Function.update_of_ne hba _ _).trans hb)

/-- **A push** puts the new element at the end. -/
theorem push (h : q.Holds l) (ha : q.eles a = none) (x : Option α) (hlt : l.length + 1 < 2 ^ 31) :
    ∃ q', q.push x (some a) = .ok q' ∧ q'.Holds (l ++ [(a, x)]) := by
  obtain ⟨first, eles, happend, hlisted⟩ := h.append ha x
  refine ⟨⟨first, some a, q.elemNum + 1, eles⟩, ?_, hlisted, ?_⟩
  · refine bind_eq_ok.mpr ⟨_, happend, bind_eq_ok.mpr ⟨⟨⟩, check_eq_ok.mpr ?_, rfl⟩⟩
    rw [h.elemNum_eq]
    exact_mod_cast hlt
  · rw [h.elemNum_eq, List.length_append, List.length_singleton, Nat.cast_add, Nat.cast_one]

theorem push_eq_error (h : q.Holds l) (ha : q.eles a = none) (x : Option α) (hle : 2 ^ 31 ≤ l.length + 1) :
    q.push x (some a) = .error .overflow := by
  obtain ⟨first, eles, happend, -⟩ := h.append ha x
  have hcheck : check (q.elemNum + 1 < 2 ^ 31) QueueFault.overflow = .error .overflow := by
    rw [check, if_neg]
    rw [h.elemNum_eq, not_lt]
    exact_mod_cast hle
  rw [Queue.push, happend]
  show (check (q.elemNum + 1 < 2 ^ 31) QueueFault.overflow >>= _) = _
  rw [hcheck]
  rfl

/-- **A pop** takes the first element. -/
theorem pop (h : q.Holds ((a, x) :: l)) : ∃ q', q.pop = .ok (q', x) ∧ q'.Holds l := by
  obtain ⟨hfirst, next, hcell, hlisted⟩ := h.listed.pop
  have hne : q.elemNum ≠ 0 := fun h0 ↦ List.cons_ne_nil _ _ (h.elemNum_eq_zero_iff.mp h0)
  refine ⟨⟨next, _, q.elemNum - 1, _⟩, ?_, hlisted, ?_⟩
  · rw [Queue.pop, if_neg hne, hfirst, ele_eq hcell]
    rfl
  · show q.elemNum - 1 = l.length
    rw [h.elemNum_eq, List.length_cons, Nat.cast_add, Nat.cast_one, add_sub_cancel_right]

/-- **The top** is the first element. -/
theorem top (h : q.Holds ((a, x) :: l)) : q.top = .ok x := by
  obtain ⟨hfirst, next, hcell, -⟩ := h.listed.pop
  have hne : q.elemNum ≠ 0 := fun h0 ↦ List.cons_ne_nil _ _ (h.elemNum_eq_zero_iff.mp h0)
  rw [Queue.top, if_neg hne, hfirst, ele_eq hcell]
  rfl

end Holds

/-- The search from an element on ends after as many rounds as there are elements left. -/
theorem run_findRound (hit : Option α → Bool) {p : Option ℕ} (hne : l ≠ []) (h : Segment q.eles p l none) {fuel : ℕ}
    (hfuel : l.length ≤ fuel) :
    run (q.findRound hit) fuel p = some (.ok ((l.map Prod.snd).find? hit).join) := by
  induction l generalizing p fuel with
  | nil => exact absurd rfl hne
  | cons c l ih =>
    obtain ⟨a, x⟩ := c
    obtain ⟨rfl, next, hcell, hrest⟩ := h
    obtain ⟨fuel, rfl⟩ := Nat.exists_eq_add_of_le' (Nat.succ_le_of_lt (Nat.lt_of_lt_of_le (Nat.succ_pos _) hfuel))
    have hround : q.findRound hit (some a) =
        if hit x then .inr (.ok x) else if next = none then .inr (.ok none) else .inl next := by
      rw [findRound, ele_eq hcell]
    rw [List.map_cons, List.find?_cons]
    by_cases hx : hit x
    · rw [if_pos hx] at hround
      rw [run_done hround, hx]
      rfl
    · rw [if_neg hx] at hround
      rw [Bool.not_eq_true] at hx
      rw [hx]
      rcases l with _ | ⟨c, l⟩
      · obtain rfl : next = none := hrest
        rw [if_pos rfl] at hround
        exact run_done hround fuel
      · have hnext : next ≠ none := by
          rw [hrest.1]
          exact Option.some_ne_none _
        rw [if_neg hnext] at hround
        rw [run_next hround]
        exact ih (List.cons_ne_nil _ _) hrest (Nat.le_of_succ_le_succ hfuel)

/-- **A search** returns the first element that is hit, or a null pointer. -/
theorem Holds.find (h : q.Holds l) (hit : Option α → Bool) {fuel : ℕ} (hfuel : l.length ≤ fuel) :
    q.find hit fuel = some (.ok ((l.map Prod.snd).find? hit).join) := by
  rw [Queue.find]
  rcases l with _ | ⟨c, l⟩
  · rw [if_pos (h.elemNum_eq_zero_iff.mpr rfl)]
    rfl
  · rw [if_neg fun h0 ↦ List.cons_ne_nil _ _ (h.elemNum_eq_zero_iff.mp h0)]
    exact run_findRound hit (List.cons_ne_nil _ _) h.listed.segment hfuel

theorem Holds.eq_of_find (h : q.Holds l) {hit : Option α → Bool} {fuel : ℕ} {r : Except QueueFault (Option α)}
    (hr : q.find hit fuel = some r) : r = .ok ((l.map Prod.snd).find? hit).join := by
  have hfind := h.find hit le_rfl
  rw [Queue.find] at hr hfind
  split_ifs at hr hfind with h0
  · exact Option.some.inj (hr.symm.trans hfind)
  · exact Returns.unique ⟨fuel, hr⟩ ⟨l.length, hfind⟩

end Queue

end UniDedup.Node
