import Mathlib.Algebra.BigOperators.Group.Finset.Basic
import Mathlib.Algebra.Order.BigOperators.Group.Finset
import Mathlib.Data.Finset.Max
import Mathlib.Data.Fintype.Card
import UniDedup.Lib.Transition

/-!
# Workers that wait for each other

Jobs are delivered one after the other, each into the queue of its place. Every place has a fixed number of workers; a worker
takes the first job of the queue and keeps it until it is finished. A job is finished once the keys it needs have been given
by jobs that are finished, so a job that waits keeps a worker from the job it waits for when that one is behind it.

A *jam* is a set of jobs of which each waits for the set, or has as many of the set in front of it in its queue as there are
workers. The workers can come to a deadlock exactly if there is a jam (`deadlocks_iff`): in a jam no job is the first one to
be finished, and the jobs a deadlock leaves are a jam. When every job comes after those it waits for there is none
(`not_jams_of_sorted`).
-/

namespace Workers

open Transition

/-- Jobs, numbered in the order in which they are delivered. -/
structure Work (α κ : Type*) where
  num : ℕ
  place : ℕ → α
  needs : ℕ → List κ
  gives : ℕ → List κ

/-- The jobs that are delivered, those in the queues, those that the workers have taken, and those that are finished. -/
structure State (α : Type*) (T : ℕ) where
  delivered : ℕ
  queue : α → List ℕ
  worker : α → Fin T → Option ℕ
  finished : List ℕ

inductive Label (α : Type*) (T : ℕ)
  | deliver
  | take (a : α) (t : Fin T)
  | finish (a : α) (t : Fin T)

variable {α κ : Type*} {T : ℕ}

namespace Work

section Definitions

variable (W : Work α κ)

/-- All keys that the job needs have been given. -/
def Ready (s : State α T) (i : ℕ) : Prop := ∀ k ∈ W.needs i, ∃ j ∈ s.finished, k ∈ W.gives j

instance [DecidableEq κ] (s : State α T) (i : ℕ) : Decidable (W.Ready s i) :=
  inferInstanceAs (Decidable (∀ k ∈ W.needs i, ∃ j ∈ s.finished, k ∈ W.gives j))

variable [DecidableEq α]

/-- The next job is put into the queue of its place. -/
def deliver (s : State α T) : State α T :=
  { s with
    delivered := s.delivered + 1
    queue := Function.update s.queue (W.place s.delivered) (s.queue (W.place s.delivered) ++ [s.delivered]) }

/-- A worker takes the job from the front of a queue. -/
def take (s : State α T) (a : α) (t : Fin T) (i : ℕ) (rest : List ℕ) : State α T :=
  { s with
    queue := Function.update s.queue a rest
    worker := Function.update s.worker a (Function.update (s.worker a) t (some i)) }

def finish (s : State α T) (a : α) (t : Fin T) (i : ℕ) : State α T :=
  { s with
    worker := Function.update s.worker a (Function.update (s.worker a) t none)
    finished := i :: s.finished }

def next [DecidableEq κ] (s : State α T) : Label α T → Option (State α T)
  | .deliver => if s.delivered < W.num then some (W.deliver s) else none
  | .take a t =>
    match s.worker a t, s.queue a with
    | none, i :: rest => some (take s a t i rest)
    | _, _ => none
  | .finish a t =>
    match s.worker a t with
    | some i => if W.Ready s i then some (finish s a t i) else none
    | none => none

def start : State α T := ⟨0, fun _ ↦ [], fun _ _ ↦ none, []⟩

def system [DecidableEq κ] (T : ℕ) : System (State α T) (Label α T) := ⟨fun s ↦ s = start, W.next⟩

/-- A job is not finished, and no step is possible: every worker waits. -/
def Deadlocked [DecidableEq κ] (s : State α T) : Prop := (∃ i < W.num, i ∉ s.finished) ∧ ∀ l, W.next s l = none

/-- The job needs a key that only jobs of the set give. -/
def Waits (J : Finset ℕ) (i : ℕ) : Prop := ∃ k ∈ W.needs i, ∀ j < W.num, k ∈ W.gives j → j ∈ J

/-- The jobs of the set that are in front of a job in its queue. -/
def ahead (J : Finset ℕ) (i : ℕ) : Finset ℕ := J.filter fun j ↦ j < i ∧ W.place j = W.place i

/-- Jobs that keep each other from being finished. -/
structure Jam (T : ℕ) (J : Finset ℕ) : Prop where
  nonempty : J.Nonempty
  lt_num : ∀ i ∈ J, i < W.num
  stays : ∀ i ∈ J, W.Waits J i ∨ T ≤ (W.ahead J i).card

def Jams (T : ℕ) : Prop := ∃ J, W.Jam T J

end Definitions

variable {W : Work α κ} {s s' : State α T}

theorem next_cases [DecidableEq α] [DecidableEq κ] {l : Label α T} (h : W.next s l = some s') :
    (s.delivered < W.num ∧ s' = W.deliver s) ∨
      (∃ a t i rest, s.worker a t = none ∧ s.queue a = i :: rest ∧ s' = take s a t i rest) ∨
      ∃ a t i, s.worker a t = some i ∧ W.Ready s i ∧ s' = finish s a t i := by
  cases l with
  | deliver =>
    rw [next] at h
    split_ifs at h with hlt
    exact .inl ⟨hlt, (Option.some.inj h).symm⟩
  | take a t =>
    rw [next] at h
    split at h
    · next i rest hworker hqueue => exact .inr (.inl ⟨a, t, i, rest, hworker, hqueue, (Option.some.inj h).symm⟩)
    · cases h
  | finish a t =>
    rw [next] at h
    split at h
    · next i hworker =>
      split_ifs at h with hready
      exact .inr (.inr ⟨a, t, i, hworker, hready, (Option.some.inj h).symm⟩)
    · cases h

/-! ## Where a job is -/

variable (W) in
/-- A delivered job is in the queue of its place, with a worker there, or finished, and a queue keeps the order. -/
structure Inv (s : State α T) : Prop where
  le_num : s.delivered ≤ W.num
  sorted : ∀ a, (s.queue a).Pairwise (· < ·)
  queued : ∀ a, ∀ i ∈ s.queue a, W.place i = a ∧ i < s.delivered ∧ i ∉ s.finished
  running : ∀ a t i, s.worker a t = some i →
    W.place i = a ∧ i < s.delivered ∧ i ∉ s.finished ∧ ∀ j ∈ s.queue a, i < j
  apart : ∀ a t t' i, s.worker a t = some i → s.worker a t' = some i → t = t'
  finished : ∀ i ∈ s.finished, i < s.delivered
  somewhere : ∀ i < s.delivered,
    i ∈ s.queue (W.place i) ∨ (∃ t, s.worker (W.place i) t = some i) ∨ i ∈ s.finished

theorem inv_start : W.Inv (start : State α T) where
  le_num := Nat.zero_le _
  sorted _ := .nil
  queued _ _ h := absurd h List.not_mem_nil
  running _ _ _ h := nomatch h
  apart _ _ _ _ h := nomatch h
  finished _ h := absurd h List.not_mem_nil
  somewhere _ h := absurd h (Nat.not_lt_zero _)

section Steps

variable [DecidableEq α] {a : α} {t : Fin T} {i : ℕ} {rest : List ℕ}

theorem queue_deliver (b : α) :
    (W.deliver s).queue b = if b = W.place s.delivered then s.queue b ++ [s.delivered] else s.queue b := by
  by_cases h : b = W.place s.delivered
  · subst h
    rw [if_pos rfl]
    exact Function.update_self ..
  · rw [if_neg h]
    exact Function.update_of_ne h ..

theorem queue_take (b : α) : (take s a t i rest).queue b = if b = a then rest else s.queue b := by
  by_cases h : b = a
  · subst h
    rw [if_pos rfl]
    exact Function.update_self ..
  · rw [if_neg h]
    exact Function.update_of_ne h ..

theorem update_worker (b : α) (u : Fin T) (v : Option ℕ) :
    Function.update s.worker a (Function.update (s.worker a) t v) b u = if b = a ∧ u = t then v else s.worker b u := by
  by_cases h : b = a
  · subst h
    rw [Function.update_self]
    by_cases hu : u = t
    · subst hu
      rw [Function.update_self, if_pos ⟨rfl, rfl⟩]
    · rw [Function.update_of_ne hu, if_neg fun h ↦ hu h.2]
  · rw [Function.update_of_ne h, if_neg fun h' ↦ h h'.1]

theorem Inv.deliver (h : W.Inv s) (hlt : s.delivered < W.num) : W.Inv (W.deliver s) where
  le_num := hlt
  sorted b := by
    rw [queue_deliver]
    split_ifs with hb
    · refine List.pairwise_append.mpr ⟨h.sorted b, List.pairwise_singleton _ _, fun j hj k hk ↦ ?_⟩
      rw [List.mem_singleton.mp hk]
      exact (h.queued b j hj).2.1
    · exact h.sorted b
  queued b j hj := by
    rw [queue_deliver] at hj
    have hmem : j ∈ s.queue b ∨ b = W.place s.delivered ∧ j = s.delivered := by
      split_ifs at hj with hb
      · exact (List.mem_append.mp hj).imp_right fun hj ↦ ⟨hb, List.mem_singleton.mp hj⟩
      · exact .inl hj
    rcases hmem with hj | ⟨rfl, rfl⟩
    · obtain ⟨hplace, hlt, hnot⟩ := h.queued b j hj
      exact ⟨hplace, Nat.lt_succ_of_lt hlt, hnot⟩
    · exact ⟨rfl, Nat.lt_succ_self _, fun hfin ↦ absurd (h.finished _ hfin) (lt_irrefl _)⟩
  running b u j hj := by
    obtain ⟨hplace, hlt, hnot, hbefore⟩ := h.running b u j hj
    refine ⟨hplace, Nat.lt_succ_of_lt hlt, hnot, fun k hk ↦ ?_⟩
    rw [queue_deliver] at hk
    split_ifs at hk
    · rcases List.mem_append.mp hk with hk | hk
      · exact hbefore k hk
      · exact (List.mem_singleton.mp hk).symm ▸ hlt
    · exact hbefore k hk
  apart := h.apart
  finished j hj := Nat.lt_succ_of_lt (h.finished j hj)
  somewhere j hj := by
    rw [queue_deliver]
    rcases Nat.lt_succ_iff_lt_or_eq.mp hj with hj | rfl
    · refine (h.somewhere j hj).imp_left fun hmem ↦ ?_
      split_ifs
      · exact List.mem_append_left _ hmem
      · exact hmem
    · rw [if_pos rfl]
      exact .inl (List.mem_append_right _ (List.mem_singleton_self _))

theorem Inv.take (h : W.Inv s) (hworker : s.worker a t = none) (hqueue : s.queue a = i :: rest) :
    W.Inv (take s a t i rest) := by
  have hsorted := h.sorted a
  rw [hqueue] at hsorted
  obtain ⟨hfirst, hrest⟩ := List.pairwise_cons.mp hsorted
  obtain ⟨hplace, hlt, hnot⟩ := h.queued a i (hqueue ▸ List.mem_cons_self)
  have hsub : ∀ b, ∀ j ∈ (Work.take s a t i rest).queue b, j ∈ s.queue b := by
    intro b j hj
    rw [queue_take] at hj
    split_ifs at hj with hb
    · rw [hb, hqueue]
      exact List.mem_cons_of_mem i hj
    · exact hj
  -- a job that runs is the one that is taken or ran before
  have hruns : ∀ b u j, (Work.take s a t i rest).worker b u = some j →
      (b = a ∧ u = t ∧ j = i) ∨ s.worker b u = some j := by
    intro b u j hj
    change Function.update s.worker a (Function.update (s.worker a) t (some i)) b u = some j at hj
    rw [update_worker] at hj
    split_ifs at hj with hb
    · exact .inl ⟨hb.1, hb.2, (Option.some.inj hj).symm⟩
    · exact .inr hj
  -- the job was in the queue, so no worker had it
  have hfresh : ∀ u, s.worker a u ≠ some i := fun u hu ↦
    absurd ((h.running a u i hu).2.2.2 i (hqueue ▸ List.mem_cons_self)) (lt_irrefl i)
  constructor
  · exact h.le_num
  · intro b
    rw [queue_take]
    split_ifs
    · exact hrest
    · exact h.sorted b
  · exact fun b j hj ↦ h.queued b j (hsub b j hj)
  · intro b u j hj
    rcases hruns b u j hj with ⟨rfl, rfl, rfl⟩ | hj
    · refine ⟨hplace, hlt, hnot, fun k hk ↦ hfirst k ?_⟩
      rwa [queue_take, if_pos rfl] at hk
    · obtain ⟨hplace, hlt, hnot, hbefore⟩ := h.running b u j hj
      exact ⟨hplace, hlt, hnot, fun k hk ↦ hbefore k (hsub b k hk)⟩
  · intro b u u' j hj hj'
    rcases hruns b u j hj with ⟨rfl, rfl, rfl⟩ | hold
    · rcases hruns b u' j hj' with ⟨-, rfl, -⟩ | hold
      · rfl
      · exact absurd hold (hfresh u')
    · rcases hruns b u' j hj' with ⟨rfl, -, rfl⟩ | hold'
      · exact absurd hold (hfresh u)
      · exact h.apart b u u' j hold hold'
  · exact h.finished
  · intro j hj
    rcases h.somewhere j hj with hmem | ⟨u, hu⟩ | hfin
    · by_cases hji : j = i
      · subst hji
        refine .inr (.inl ⟨t, ?_⟩)
        change Function.update s.worker a (Function.update (s.worker a) t (some j)) (W.place j) t = some j
        rw [update_worker, if_pos ⟨hplace, rfl⟩]
      · refine .inl ?_
        rw [queue_take]
        split_ifs with hb
        · rw [hb, hqueue] at hmem
          exact (List.mem_cons.mp hmem).resolve_left hji
        · exact hmem
    · refine .inr (.inl ⟨u, ?_⟩)
      change Function.update s.worker a (Function.update (s.worker a) t (some i)) (W.place j) u = some j
      rw [update_worker, if_neg, hu]
      rintro ⟨hb, rfl⟩
      rw [hb, hworker] at hu
      cases hu
    · exact .inr (.inr hfin)

theorem Inv.finish (h : W.Inv s) (hworker : s.worker a t = some i) : W.Inv (finish s a t i) := by
  obtain ⟨hplace, hlt, -, hbefore⟩ := h.running a t i hworker
  have hruns : ∀ b u j, (Work.finish s a t i).worker b u = some j → ¬(b = a ∧ u = t) ∧ s.worker b u = some j := by
    intro b u j hj
    change Function.update s.worker a (Function.update (s.worker a) t none) b u = some j at hj
    rw [update_worker] at hj
    split_ifs at hj with hb
    exact ⟨hb, hj⟩
  constructor
  · exact h.le_num
  · exact h.sorted
  · intro b j hj
    obtain ⟨hplace', hlt', hnot⟩ := h.queued b j hj
    refine ⟨hplace', hlt', fun hmem ↦ ?_⟩
    rcases List.mem_cons.mp hmem with rfl | hmem
    · obtain rfl : b = a := hplace'.symm.trans hplace
      exact absurd (hbefore j hj) (lt_irrefl j)
    · exact hnot hmem
  · intro b u j hj
    obtain ⟨hbu, hold⟩ := hruns b u j hj
    obtain ⟨hplace', hlt', hnot, hbefore'⟩ := h.running b u j hold
    refine ⟨hplace', hlt', fun hmem ↦ ?_, hbefore'⟩
    rcases List.mem_cons.mp hmem with rfl | hmem
    · obtain rfl : b = a := hplace'.symm.trans hplace
      exact hbu ⟨rfl, h.apart b u t j hold hworker⟩
    · exact hnot hmem
  · exact fun b u u' j hj hj' ↦ h.apart b u u' j (hruns b u j hj).2 (hruns b u' j hj').2
  · intro j hj
    rcases List.mem_cons.mp hj with rfl | hj
    · exact hlt
    · exact h.finished j hj
  · intro j hj
    rcases h.somewhere j hj with hmem | ⟨u, hu⟩ | hfin
    · exact .inl hmem
    · by_cases hb : W.place j = a ∧ u = t
      · rw [hb.1, hb.2, hworker] at hu
        exact .inr (.inr (Option.some.inj hu ▸ List.mem_cons_self))
      · refine .inr (.inl ⟨u, ?_⟩)
        change Function.update s.worker a (Function.update (s.worker a) t none) (W.place j) u = some j
        rw [update_worker, if_neg hb, hu]
    · exact .inr (.inr (List.mem_cons_of_mem i hfin))

end Steps

theorem Inv.next [DecidableEq α] [DecidableEq κ] {l : Label α T} (h : W.Inv s) (hs : W.next s l = some s') : W.Inv s' := by
  rcases next_cases hs with ⟨hlt, rfl⟩ | ⟨a, t, i, rest, hworker, hqueue, rfl⟩ | ⟨a, t, i, hworker, -, rfl⟩
  · exact h.deliver hlt
  · exact h.take hworker hqueue
  · exact h.finish hworker

/-! ## Every run ends -/

section Rank

variable [DecidableEq α]

variable (W) in
/-- How many steps the job still has to make. -/
def rank (s : State α T) (i : ℕ) : ℕ :=
  if i ∈ s.finished then 0 else if i ∈ s.queue (W.place i) then 2 else if i < s.delivered then 1 else 3

variable (W) in
def left (s : State α T) : ℕ := ∑ i ∈ Finset.range W.num, W.rank s i

omit [DecidableEq α] in
theorem rank_finished {i : ℕ} (h : i ∈ s.finished) : W.rank s i = 0 := if_pos h

omit [DecidableEq α] in
theorem rank_queued {i : ℕ} (hnot : i ∉ s.finished) (h : i ∈ s.queue (W.place i)) : W.rank s i = 2 := by
  rw [rank, if_neg hnot, if_pos h]

omit [DecidableEq α] in
theorem rank_running {i : ℕ} (hnot : i ∉ s.finished) (hqueue : i ∉ s.queue (W.place i)) (h : i < s.delivered) :
    W.rank s i = 1 := by
  rw [rank, if_neg hnot, if_neg hqueue, if_pos h]

omit [DecidableEq α] in
theorem rank_pending {i : ℕ} (hnot : i ∉ s.finished) (hqueue : i ∉ s.queue (W.place i)) (h : ¬i < s.delivered) :
    W.rank s i = 3 := by
  rw [rank, if_neg hnot, if_neg hqueue, if_neg h]

omit [DecidableEq α] in
theorem left_lt {i : ℕ} (hi : i < W.num) (hlt : W.rank s' i < W.rank s i)
    (hother : ∀ j, j ≠ i → W.rank s' j = W.rank s j) : W.left s' < W.left s := by
  refine Finset.sum_lt_sum (fun j _ ↦ ?_) ⟨i, Finset.mem_range.mpr hi, hlt⟩
  by_cases hji : j = i
  · exact hji ▸ hlt.le
  · exact (hother j hji).le

variable {a : α} {t : Fin T} {i : ℕ} {rest : List ℕ}

theorem left_deliver (h : W.Inv s) (hlt : s.delivered < W.num) : W.left (W.deliver s) < W.left s := by
  have hnew : s.delivered ∉ s.finished := fun hfin ↦ absurd (h.finished _ hfin) (lt_irrefl _)
  have hqueue : s.delivered ∉ s.queue (W.place s.delivered) := fun hmem ↦
    absurd (h.queued _ _ hmem).2.1 (lt_irrefl _)
  refine left_lt hlt ?_ fun j hj ↦ ?_
  · have hmem : s.delivered ∈ (W.deliver s).queue (W.place s.delivered) := by
      rw [queue_deliver, if_pos rfl]
      exact List.mem_append_right _ (List.mem_singleton_self _)
    rw [rank_pending hnew hqueue (lt_irrefl _), @rank_queued _ _ _ W (W.deliver s) _ hnew hmem]
    decide
  · have hmem : j ∈ (W.deliver s).queue (W.place j) ↔ j ∈ s.queue (W.place j) := by
      rw [queue_deliver]
      split_ifs
      · rw [List.mem_append, List.mem_singleton, or_iff_left hj]
      · rfl
    have hdelivered : j < (W.deliver s).delivered ↔ j < s.delivered :=
      Nat.lt_succ_iff_lt_or_eq.trans (or_iff_left hj)
    rw [rank, rank]
    simp only [hmem, hdelivered]
    rfl

theorem left_take (h : W.Inv s) (hqueue : s.queue a = i :: rest) : W.left (take s a t i rest) < W.left s := by
  obtain ⟨rfl, hlt, hnot⟩ := h.queued a i (hqueue ▸ List.mem_cons_self)
  have hsorted := h.sorted (W.place i)
  rw [hqueue] at hsorted
  have hrest : i ∉ rest := fun hmem ↦ absurd ((List.pairwise_cons.mp hsorted).1 i hmem) (lt_irrefl i)
  refine left_lt (hlt.trans_le h.le_num) ?_ fun j hj ↦ ?_
  · have hmem : i ∉ (take s (W.place i) t i rest).queue (W.place i) := by
      rwa [queue_take, if_pos rfl]
    rw [rank_queued hnot (hqueue ▸ List.mem_cons_self), @rank_running _ _ _ W (take s (W.place i) t i rest) _ hnot hmem hlt]
    decide
  · have hmem : j ∈ (take s (W.place i) t i rest).queue (W.place j) ↔ j ∈ s.queue (W.place j) := by
      rw [queue_take]
      split_ifs with hb
      · rw [hb, hqueue, List.mem_cons, or_iff_right hj]
      · rfl
    rw [rank, rank]
    simp only [hmem]
    rfl

omit [DecidableEq α] in
theorem left_finish [DecidableEq α] (h : W.Inv s) (hworker : s.worker a t = some i) :
    W.left (finish s a t i) < W.left s := by
  obtain ⟨rfl, hlt, hnot, hbefore⟩ := h.running a t i hworker
  have hqueue : i ∉ s.queue (W.place i) := fun hmem ↦ absurd (hbefore i hmem) (lt_irrefl i)
  refine left_lt (hlt.trans_le h.le_num) ?_ fun j hj ↦ ?_
  · have hfin : i ∈ (finish s (W.place i) t i).finished := List.mem_cons_self
    rw [rank_running hnot hqueue hlt, rank_finished hfin]
    decide
  · have hmem : j ∈ (finish s (W.place i) t i).finished ↔ j ∈ s.finished :=
      List.mem_cons.trans (or_iff_right hj)
    rw [rank, rank]
    simp only [hmem]
    rfl

end Rank

section Deadlock

variable [DecidableEq α] [DecidableEq κ]

theorem left_next {l : Label α T} (h : W.Inv s) (hs : W.next s l = some s') : W.left s' < W.left s := by
  rcases next_cases hs with ⟨hlt, rfl⟩ | ⟨a, t, i, rest, -, hqueue, rfl⟩ | ⟨a, t, i, hworker, -, rfl⟩
  · exact left_deliver h hlt
  · exact left_take h hqueue
  · exact left_finish h hworker

theorem inv_of_reachable (h : (W.system T).Reachable s) : W.Inv s :=
  h.invariant (fun _ hs ↦ hs ▸ inv_start) fun _ _ _ hinv hs ↦ hinv.next hs

/-! ## Jams -/

theorem Inv.jam (h : W.Inv s) (hdead : W.Deadlocked s) :
    W.Jam T ((Finset.range W.num).filter fun i ↦ i ∉ s.finished) := by
  obtain ⟨⟨i₀, hi₀, hnot₀⟩, hstuck⟩ := hdead
  have hall : s.delivered = W.num := by
    refine le_antisymm h.le_num (not_lt.mp fun hlt ↦ ?_)
    have hnone := hstuck .deliver
    rw [Work.next, if_pos hlt] at hnone
    cases hnone
  refine ⟨⟨i₀, Finset.mem_filter.mpr ⟨Finset.mem_range.mpr hi₀, hnot₀⟩⟩,
    fun i hi ↦ Finset.mem_range.mp (Finset.mem_filter.mp hi).1, fun i hi ↦ ?_⟩
  obtain ⟨hi, hnot⟩ := Finset.mem_filter.mp hi
  rcases h.somewhere i (hall.symm ▸ Finset.mem_range.mp hi) with hmem | ⟨t, ht⟩ | hfin
  · -- every worker of the place has a job, or it would take one
    refine .inr ?_
    have hbusy : ∀ t, ∃ j, s.worker (W.place i) t = some j := by
      intro t
      refine Option.ne_none_iff_exists'.mp fun hidle ↦ ?_
      obtain ⟨j, rest, hqueue⟩ := List.exists_cons_of_ne_nil (List.ne_nil_of_mem hmem)
      have hnone := hstuck (.take (W.place i) t)
      simp only [Work.next, hidle, hqueue] at hnone
      cases hnone
    choose f hf using hbusy
    have hinj : Function.Injective f := fun t u htu ↦ h.apart _ t u (f t) (hf t) (htu ▸ hf u)
    have hsub : Finset.univ.image f ⊆ W.ahead ((Finset.range W.num).filter fun i ↦ i ∉ s.finished) i := by
      intro j hj
      obtain ⟨t, -, rfl⟩ := Finset.mem_image.mp hj
      obtain ⟨hplace, hlt, hnotj, hbefore⟩ := h.running _ t _ (hf t)
      exact Finset.mem_filter.mpr ⟨Finset.mem_filter.mpr ⟨Finset.mem_range.mpr (hall ▸ hlt), hnotj⟩, hbefore i hmem, hplace⟩
    have hcard := Finset.card_le_card hsub
    rwa [Finset.card_image_of_injective _ hinj, Finset.card_univ, Fintype.card_fin] at hcard
  · refine .inl ?_
    have hnotReady : ¬W.Ready s i := by
      intro hready
      have hnone := hstuck (.finish (W.place i) t)
      simp only [Work.next, ht, if_pos hready] at hnone
      cases hnone
    obtain ⟨k, hk⟩ := not_forall.mp hnotReady
    obtain ⟨hneed, hnone⟩ := Classical.not_imp.mp hk
    refine ⟨k, hneed, fun j hj hgives ↦ Finset.mem_filter.mpr ⟨Finset.mem_range.mpr hj, fun hfin ↦ hnone ⟨j, hfin, hgives⟩⟩⟩
  · exact absurd hfin hnot

theorem Jam.next {J : Finset ℕ} (hJ : W.Jam T J) (h : W.Inv s) (hnone : ∀ i ∈ J, i ∉ s.finished) {l : Label α T}
    (hs : W.next s l = some s') : ∀ i ∈ J, i ∉ s'.finished := by
  rcases next_cases hs with ⟨-, rfl⟩ | ⟨a, t, i, rest, -, -, rfl⟩ | ⟨a, t, i, hworker, hready, rfl⟩
  · exact hnone
  · exact hnone
  · intro j hj hmem
    rcases List.mem_cons.mp hmem with rfl | hmem
    · obtain ⟨rfl, hlt, -, hbefore⟩ := h.running a t j hworker
      rcases hJ.stays j hj with ⟨k, hk, hgivers⟩ | hcard
      · obtain ⟨g, hg, hgives⟩ := hready k hk
        exact hnone g (hgivers g ((h.finished g hg).trans_le h.le_num) hgives) hg
      · -- those in front of it have a worker each
        have hahead : ∀ i ∈ insert j (W.ahead J j), ∃ u, s.worker (W.place j) u = some i := by
          intro i hi
          rcases Finset.mem_insert.mp hi with rfl | hi
          · exact ⟨t, hworker⟩
          · obtain ⟨hiJ, hij, hplace⟩ := Finset.mem_filter.mp hi
            rcases h.somewhere i (hij.trans hlt) with hmem | hrun | hfin
            · exact absurd (hbefore i (hplace ▸ hmem)) hij.asymm
            · exact hplace ▸ hrun
            · exact absurd hfin (hnone i hiJ)
        have : Nonempty (Fin T) := ⟨t⟩
        choose! f hf using hahead
        have hinj : Set.InjOn f (insert j (W.ahead J j) : Finset ℕ) := by
          intro i hi i' hi' heq
          have hi := hf i hi
          rw [heq, hf i' hi'] at hi
          exact (Option.some.inj hi).symm
        have hle := Finset.card_le_card_of_injOn f (fun i _ ↦ Finset.mem_univ (f i)) hinj
        have hnew : j ∉ W.ahead J j := fun hmem ↦ absurd (Finset.mem_filter.mp hmem).2.1 (lt_irrefl j)
        rw [Finset.card_insert_of_notMem hnew, Finset.card_univ, Fintype.card_fin] at hle
        omega
    · exact hnone j hj hmem

/-- **When the workers come to a deadlock**: when there is a jam, and only then. -/
theorem deadlocks_iff : (∃ s, (W.system T).Reachable s ∧ W.Deadlocked s) ↔ W.Jams T := by
  constructor
  · rintro ⟨s, hs, hdead⟩
    exact ⟨_, (inv_of_reachable hs).jam hdead⟩
  · rintro ⟨J, hJ⟩
    have hend := @System.Reachable.exists_terminal _ _ (W.system T) (fun s ↦ W.Inv s ∧ ∀ i ∈ J, i ∉ s.finished) W.left
      (fun s l s' hP hs ↦ ⟨⟨hP.1.next hs, hJ.next hP.1 hP.2 hs⟩, left_next hP.1 hs⟩)
      start (.init rfl) ⟨inv_start, fun _ _ ↦ List.not_mem_nil⟩
    obtain ⟨s, hs, ⟨-, hnone⟩, hstuck⟩ := hend
    obtain ⟨i, hi⟩ := hJ.nonempty
    exact ⟨s, hs, ⟨i, hJ.lt_num i hi, hnone i hi⟩, hstuck⟩

omit [DecidableEq κ] in
/-- When every key that a job needs is given by a job in front of it, one worker for each place is enough. -/
theorem not_jams_of_sorted (hsorted : ∀ i < W.num, ∀ k ∈ W.needs i, ∃ j < i, k ∈ W.gives j) (hT : 0 < T) : ¬W.Jams T := by
  rintro ⟨J, hJ⟩
  -- the first job of the jam waits for none of it
  have hmin := J.min'_mem hJ.nonempty
  have hfirst : ∀ j ∈ J, ¬j < J.min' hJ.nonempty := fun j hj ↦ not_lt.mpr (J.min'_le j hj)
  rcases hJ.stays _ hmin with ⟨k, hk, hgivers⟩ | hcard
  · obtain ⟨j, hj, hgives⟩ := hsorted _ (hJ.lt_num _ hmin) k hk
    exact hfirst j (hgivers j (hj.trans (hJ.lt_num _ hmin)) hgives) hj
  · have hempty : W.ahead J (J.min' hJ.nonempty) = ∅ :=
      Finset.filter_eq_empty_iff.mpr fun j hj h ↦ hfirst j hj h.1
    rw [hempty, Finset.card_empty] at hcard
    omega

end Deadlock

end Work

end Workers
