import Mathlib.Data.ENat.Basic
import Mathlib.Data.List.Infix

/-!
# Channels

A channel hands values on in the order in which they are put into it. It may have a capacity, and it can be closed,
after which those who take values are told to stop once it is empty. Values may still be put into a closed channel: a
party that was waiting for room when it was closed goes on.

The history of a channel is the list of what has happened on it, and all of its guarantees are about the history. What
was taken is what was put, as far as the channel is empty (`Run.puts_eq`); and when someone is told to stop, the
channel had been closed and everything put into it until then had been taken (`Run.stop`).
-/

namespace Channel

variable {α : Type*}

/-- What happens on a channel. -/
inductive Event (α : Type*)
  | put (x : α)
  | take (x : α)
  | close
  /-- Someone who wants a value is told that there will be none. -/
  | stop

/-- The values in the channel, the oldest first. -/
structure State (α : Type*) where
  queued : List α
  closed : Bool

/-- A step on a channel for at most `capacity` values. -/
inductive Step (capacity : ℕ∞) : State α → Event α → State α → Prop
  | put {l : List α} {c : Bool} {x : α} (h : (l.length : ℕ∞) < capacity) :
    Step capacity ⟨l, c⟩ (.put x) ⟨l ++ [x], c⟩
  | take {l : List α} {c : Bool} {x : α} : Step capacity ⟨x :: l, c⟩ (.take x) ⟨l, c⟩
  | close {l : List α} {c : Bool} : Step capacity ⟨l, c⟩ .close ⟨l, true⟩
  | stop : Step capacity ⟨[], true⟩ .stop ⟨[], true⟩

/-- The histories of a channel that was empty at first, with its state at the end. -/
inductive Run (capacity : ℕ∞) : List (Event α) → State α → Prop
  | nil : Run capacity [] ⟨[], false⟩
  | concat {es : List (Event α)} {e : Event α} {s s' : State α} (h : Run capacity es s) (hs : Step capacity s e s') :
    Run capacity (es ++ [e]) s'

/-- The values that were put into the channel. -/
def puts (es : List (Event α)) : List α :=
  es.filterMap fun
    | .put x => some x
    | _ => none

def takes (es : List (Event α)) : List α :=
  es.filterMap fun
    | .take x => some x
    | _ => none

section Projections

variable (es es' : List (Event α)) (x : α)

@[simp] theorem puts_append : puts (es ++ es') = puts es ++ puts es' := List.filterMap_append

@[simp] theorem takes_append : takes (es ++ es') = takes es ++ takes es' := List.filterMap_append

@[simp] theorem puts_put : puts [Event.put x] = [x] := rfl

@[simp] theorem puts_take : puts [Event.take x] = [] := rfl

@[simp] theorem puts_close : puts [Event.close (α := α)] = [] := rfl

@[simp] theorem puts_stop : puts [Event.stop (α := α)] = [] := rfl

@[simp] theorem takes_put : takes [Event.put x] = [] := rfl

@[simp] theorem takes_take : takes [Event.take x] = [x] := rfl

@[simp] theorem takes_close : takes [Event.close (α := α)] = [] := rfl

@[simp] theorem takes_stop : takes [Event.stop (α := α)] = [] := rfl

end Projections

namespace Run

variable {capacity : ℕ∞} {es pre post : List (Event α)} {e : Event α} {s : State α}

/-- **No loss, no duplicate, no overtaking.** What was put is what was taken, followed by what is in the channel. -/
theorem puts_eq (h : Run capacity es s) : puts es = takes es ++ s.queued := by
  induction h with
  | nil => rfl
  | concat _ hs ih =>
    rw [puts_append, takes_append, ih]
    rcases hs with _ | _ | _ | _ <;> simp

theorem takes_prefix (h : Run capacity es s) : takes es <+: puts es := by
  rw [h.puts_eq]
  exact List.prefix_append _ _

theorem queued_eq (h : Run capacity es s) : s.queued = (puts es).drop (takes es).length := by
  rw [h.puts_eq, List.drop_left]

/-- **The capacity is kept.** -/
theorem length_le (h : Run capacity es s) : (s.queued.length : ℕ∞) ≤ capacity := by
  induction h with
  | nil => exact zero_le
  | concat _ hs ih =>
    rcases hs with hlt | _ | _ | _
    · rw [List.length_append, List.length_singleton, Nat.cast_add, Nat.cast_one]
      exact Order.add_one_le_of_lt hlt
    · refine le_trans ?_ ih
      rw [List.length_cons]
      exact_mod_cast Nat.le_succ _
    · exact ih
    · exact ih

theorem closed_iff (h : Run capacity es s) : s.closed = true ↔ .close ∈ es := by
  induction h with
  | nil => simp
  | concat _ hs ih =>
    rw [List.mem_append, List.mem_singleton, ← ih]
    rcases hs with _ | _ | _ | _ <;> simp

theorem of_append (h : Run capacity (pre ++ post) s) : ∃ t, Run capacity pre t := by
  induction post using List.reverseRecOn generalizing s with
  | nil => exact ⟨s, by rwa [List.append_nil] at h⟩
  | append_singleton post e ih =>
    rw [← List.append_assoc] at h
    generalize hes : pre ++ post ++ [e] = es at h
    rcases h with _ | ⟨h, -⟩
    · exact absurd hes (by simp)
    · obtain ⟨rfl, -⟩ := List.append_inj' hes rfl
      exact ih h

theorem step (h : Run capacity (pre ++ e :: post) s) : ∃ t t', Run capacity pre t ∧ Step capacity t e t' := by
  rw [List.append_cons] at h
  obtain ⟨t', h⟩ := h.of_append
  generalize hes : pre ++ [e] = es at h
  rcases h with _ | ⟨h, hs⟩
  · exact absurd hes (by simp)
  · obtain ⟨rfl, hlast⟩ := List.append_inj' hes rfl
    obtain rfl := List.singleton_inj.mp hlast
    exact ⟨_, t', h, hs⟩

/-- **No early end.** -/
theorem stop (h : Run capacity (pre ++ .stop :: post) s) : .close ∈ pre ∧ takes pre = puts pre := by
  obtain ⟨t, t', ht, hs⟩ := h.step
  rcases hs with _ | _ | _ | _
  refine ⟨ht.closed_iff.mp rfl, ?_⟩
  rw [ht.puts_eq, List.append_nil]

end Run

end Channel
