import Mathlib.Logic.Relation
import UniDedup.Lib.Transition

/-!
# Threads and mutexes

Threads run calls of some procedures over shared data. A procedure is a script of instructions that take a
mutex, release a mutex, or act on the data; an action may put further instructions in front of the rest, which
is how branches and loops that depend on the data unfold. The number of threads is not bounded, and every
label lets one thread do one instruction.

A deadlock is a cycle of threads each waiting for a mutex held by the next. Two rules exclude it. A script is
checked once, by itself, against the acquisitions its procedure may make (`Disciplined`), and then every
thread of every reached state obeys them (`Reach.obeys`). And where every thread waits for a mutex above all
those it holds, in some ranking, there is no cycle (`not_deadlocked_of_rank`); the ranking may depend on the
state.
-/

namespace Mutex

open Transition

universe u v

inductive Instr (μ α : Type u)
  | lock (m : μ)
  | unlock (m : μ)
  | act (a : α)
deriving DecidableEq

/-- The procedures: the script of a call, and what an action does to the data and puts in front of the rest.
An input resolves the choices of an action; `none` means that the action is not possible. -/
structure Procedures (κ μ α ι σ : Type u) where
  script : κ → List (Instr μ α)
  run : ι → α → σ → Option (σ × List (Instr μ α))

/-- A thread: the call it runs and what is left of it. -/
structure Thread (κ μ α : Type u) where
  call : Option κ
  script : List (Instr μ α)

structure State (κ μ α σ : Type u) where
  data : σ
  holder : μ → Option ℕ
  threads : ℕ → Thread κ μ α

inductive Label (κ ι : Type u)
  /-- A thread that is idle begins a call. -/
  | start (t : ℕ) (c : κ)
  /-- A thread does its next instruction. -/
  | step (t : ℕ) (i : ι)

variable {κ μ α ι σ : Type u}

namespace State

variable (s : State κ μ α σ)

/-- Thread `t` is about to take `m`. -/
def Wants (t : ℕ) (m : μ) : Prop := (s.threads t).script.head? = some (.lock m)

def Holds (t : ℕ) (m : μ) : Prop := s.holder m = some t

/-- Thread `t` wants a mutex that thread `u` holds. -/
def WaitsFor (t u : ℕ) : Prop := ∃ m, s.Wants t m ∧ s.Holds u m

/-- **Deadlock.** A cycle of threads each waiting for the next. -/
def Deadlocked : Prop := ∃ t, Relation.TransGen s.WaitsFor t t

/-- Thread `t` becomes `thread`. -/
def setThread (t : ℕ) (thread : Thread κ μ α) : State κ μ α σ :=
  { s with threads := Function.update s.threads t thread }

/-- Thread `t` goes on with the script `rest`. -/
def continueWith (t : ℕ) (rest : List (Instr μ α)) : State κ μ α σ :=
  s.setThread t ⟨(s.threads t).call, rest⟩

def setData (d : σ) : State κ μ α σ := { s with data := d }

def setHolder [DecidableEq μ] (m : μ) (holder : Option ℕ) : State κ μ α σ :=
  { s with holder := Function.update s.holder m holder }

@[simp] theorem threads_setThread_self (t : ℕ) (thread : Thread κ μ α) :
    (s.setThread t thread).threads t = thread := Function.update_self _ _ _

theorem threads_setThread_of_ne {t u : ℕ} (h : u ≠ t) (thread : Thread κ μ α) :
    (s.setThread t thread).threads u = s.threads u := Function.update_of_ne h _ _

@[simp] theorem threads_continueWith_self (t : ℕ) (rest : List (Instr μ α)) :
    (s.continueWith t rest).threads t = ⟨(s.threads t).call, rest⟩ := threads_setThread_self _ _ _

theorem threads_continueWith_of_ne {t u : ℕ} (h : u ≠ t) (rest : List (Instr μ α)) :
    (s.continueWith t rest).threads u = s.threads u := threads_setThread_of_ne _ h _

@[simp] theorem threads_setData (d : σ) : (s.setData d).threads = s.threads := rfl

@[simp] theorem holds_setThread {t u : ℕ} {thread : Thread κ μ α} {m : μ} :
    (s.setThread t thread).Holds u m ↔ s.Holds u m := Iff.rfl

@[simp] theorem holds_continueWith {t u : ℕ} {rest : List (Instr μ α)} {m : μ} :
    (s.continueWith t rest).Holds u m ↔ s.Holds u m := Iff.rfl

@[simp] theorem holds_setData {d : σ} {u : ℕ} {m : μ} : (s.setData d).Holds u m ↔ s.Holds u m := Iff.rfl

section setHolder

variable [DecidableEq μ] (m : μ) (holder : Option ℕ)

@[simp] theorem threads_setHolder : (s.setHolder m holder).threads = s.threads := rfl

theorem holds_setHolder_self {u : ℕ} : (s.setHolder m holder).Holds u m ↔ holder = some u := by
  change Function.update s.holder m holder m = some u ↔ _
  rw [Function.update_self]

theorem holds_setHolder_of_ne {m' : μ} (h : m' ≠ m) {u : ℕ} :
    (s.setHolder m holder).Holds u m' ↔ s.Holds u m' := by
  change Function.update s.holder m holder m' = some u ↔ _
  rw [Function.update_of_ne h, Holds]

end setHolder

instance [DecidableEq μ] [DecidableEq α] (t : ℕ) (m : μ) : Decidable (s.Wants t m) :=
  inferInstanceAs (Decidable ((s.threads t).script.head? = some (.lock m)))

instance (t : ℕ) (m : μ) : Decidable (s.Holds t m) := inferInstanceAs (Decidable (s.holder m = some t))

end State

variable [DecidableEq μ]

namespace Procedures

variable (P : Procedures κ μ α ι σ)

def next (s : State κ μ α σ) : Label κ ι → Option (State κ μ α σ)
  | .start t c =>
    if (s.threads t).script.isEmpty then some (s.setThread t ⟨some c, P.script c⟩) else none
  | .step t i =>
    match (s.threads t).script with
    | [] => none
    | .lock m :: rest =>
      if s.holder m = none then some ((s.continueWith t rest).setHolder m (some t)) else none
    | .unlock m :: rest => some ((s.continueWith t rest).setHolder m none)
    | .act a :: rest => (P.run i a s.data).map fun r ↦ (s.continueWith t (r.2 ++ rest)).setData r.1

def system (init : σ → Prop) : System (State κ μ α σ) (Label κ ι) where
  init s := init s.data ∧ (∀ m, s.holder m = none) ∧ ∀ t, s.threads t = ⟨none, []⟩
  next := P.next

/-! ## The discipline of a script -/

/-- From here on, a script that holds the mutexes `held` takes a mutex only where `ok` allows it, releases what
it holds, and ends holding nothing. -/
inductive Disciplined (ok : List μ → μ → Prop) : List μ → List (Instr μ α) → Prop
  | done : Disciplined ok [] []
  | lock {held : List μ} {m : μ} {rest : List (Instr μ α)} (hok : ok held m) (hm : m ∉ held)
    (hrest : Disciplined ok (m :: held) rest) : Disciplined ok held (.lock m :: rest)
  | unlock {held : List μ} {m : μ} {rest : List (Instr μ α)} (hm : m ∈ held)
    (hrest : Disciplined ok (held.erase m) rest) : Disciplined ok held (.unlock m :: rest)
  | act {held : List μ} {a : α} {rest : List (Instr μ α)}
    (hrest : ∀ i s r, P.run i a s = some r → Disciplined ok held (r.2 ++ rest)) :
    Disciplined ok held (.act a :: rest)

/-- A thread obeys the acquisitions of its call. -/
def Obeys (ok : κ → List μ → μ → Prop) (s : State κ μ α σ) (t : ℕ) : Prop :=
  ∃ held : List μ, held.Nodup ∧ (∀ m, s.Holds t m ↔ m ∈ held) ∧
    (held = [] ∧ (s.threads t).script = [] ∨
      ∃ c, (s.threads t).call = some c ∧ P.Disciplined (ok c) held (s.threads t).script)

variable {P} {ok : κ → List μ → μ → Prop} {s s' : State κ μ α σ} {t : ℕ}

theorem Obeys.wants (h : P.Obeys ok s t) {m : μ} (hm : s.Wants t m) :
    ∃ c held, (s.threads t).call = some c ∧ (∀ m, s.Holds t m ↔ m ∈ held) ∧ ok c held m := by
  obtain ⟨held, -, hheld, ⟨-, hnil⟩ | ⟨c, hc, hd⟩⟩ := h
  · rw [State.Wants, hnil] at hm
    exact absurd hm (by simp)
  · refine ⟨c, held, hc, hheld, ?_⟩
    rw [State.Wants, List.head?_eq_some_iff] at hm
    obtain ⟨rest, hrest⟩ := hm
    rw [hrest] at hd
    cases hd with
    | lock hok _ _ => exact hok

theorem Obeys.not_holds_of_nil (h : P.Obeys ok s t) (hnil : (s.threads t).script = []) (m : μ) :
    ¬s.Holds t m := by
  obtain ⟨held, -, hheld, ⟨rfl, -⟩ | ⟨c, -, hd⟩⟩ := h
  · rw [hheld]
    exact List.not_mem_nil
  · rw [hnil] at hd
    cases hd
    rw [hheld]
    exact List.not_mem_nil

/-! ### Steps -/

theorem next_step_cases {i : ι} (h : P.next s (.step t i) = some s') :
    (∃ m rest, (s.threads t).script = .lock m :: rest ∧ s.holder m = none ∧
      s' = (s.continueWith t rest).setHolder m (some t)) ∨
    (∃ m rest, (s.threads t).script = .unlock m :: rest ∧ s' = (s.continueWith t rest).setHolder m none) ∨
    ∃ a rest r, (s.threads t).script = .act a :: rest ∧ P.run i a s.data = some r ∧
      s' = (s.continueWith t (r.2 ++ rest)).setData r.1 := by
  rw [next] at h
  cases hscript : (s.threads t).script with
  | nil => simp [hscript] at h
  | cons instr rest =>
    rw [hscript] at h
    cases instr with
    | lock m =>
      dsimp only at h
      split_ifs at h with hfree
      exact .inl ⟨m, rest, rfl, hfree, (Option.some.inj h).symm⟩
    | unlock m => exact .inr (.inl ⟨m, rest, rfl, (Option.some.inj h).symm⟩)
    | act a =>
      obtain ⟨r, hr, rfl⟩ := Option.map_eq_some_iff.mp h
      exact .inr (.inr ⟨a, rest, r, rfl, hr, rfl⟩)

theorem next_start_eq {c : κ} (h : P.next s (.start t c) = some s') : (s.threads t).script = [] ∧
    s' = s.setThread t ⟨some c, P.script c⟩ := by
  rw [next] at h
  split_ifs at h with hempty
  exact ⟨List.isEmpty_iff.mp hempty, (Option.some.inj h).symm⟩

theorem call_step {i : ι} (h : P.next s (.step t i) = some s') (u : ℕ) :
    (s'.threads u).call = (s.threads u).call := by
  have hcall : ∀ rest, ((s.continueWith t rest).threads u).call = (s.threads u).call := by
    intro rest
    by_cases hut : u = t
    · subst hut
      rw [State.threads_continueWith_self]
    · rw [State.threads_continueWith_of_ne _ hut]
  obtain ⟨m, rest, -, -, rfl⟩ | ⟨m, rest, -, rfl⟩ | ⟨a, rest, r, -, -, rfl⟩ := next_step_cases h
  all_goals exact hcall _

/-- A mutex is held after a step by who held it before, or by who wanted it and did the step. -/
theorem holds_step {i : ι} (h : P.next s (.step t i) = some s') {u : ℕ} {m : μ} (hu : s'.Holds u m) :
    s.Holds u m ∨ u = t ∧ s.Wants t m := by
  obtain ⟨m', rest, hrest, -, rfl⟩ | ⟨m', rest, -, rfl⟩ | ⟨a, rest, r, -, -, rfl⟩ := next_step_cases h
  · by_cases hmm : m = m'
    · subst hmm
      rw [State.holds_setHolder_self] at hu
      exact .inr ⟨(Option.some.inj hu).symm, by rw [State.Wants, hrest, List.head?_cons]⟩
    · rw [State.holds_setHolder_of_ne _ _ _ hmm] at hu
      exact .inl hu
  · by_cases hmm : m = m'
    · subst hmm
      rw [State.holds_setHolder_self] at hu
      exact absurd hu (by simp)
    · rw [State.holds_setHolder_of_ne _ _ _ hmm] at hu
      exact .inl hu
  · exact .inl hu

/-- A thread whose script and mutexes stay as they were obeys as before. -/
theorem Obeys.of_same {u : ℕ} (h : P.Obeys ok s u) (hthread : s'.threads u = s.threads u)
    (hholds : ∀ m, s'.Holds u m ↔ s.Holds u m) : P.Obeys ok s' u := by
  obtain ⟨held, hnodup, hheld, hrest⟩ := h
  rw [← hthread] at hrest
  exact ⟨held, hnodup, fun m ↦ (hholds m).trans (hheld m), hrest⟩

/-- A thread that still has something to do is in the middle of a call. -/
theorem Obeys.disciplined (h : P.Obeys ok s t) (hne : (s.threads t).script ≠ []) :
    ∃ held c, held.Nodup ∧ (∀ m, s.Holds t m ↔ m ∈ held) ∧ (s.threads t).call = some c ∧
      P.Disciplined (ok c) held (s.threads t).script := by
  obtain ⟨held, hnodup, hheld, ⟨-, hnil⟩ | ⟨c, hc, hd⟩⟩ := h
  · exact absurd hnil hne
  · exact ⟨held, c, hnodup, hheld, hc, hd⟩

theorem obeys_start (hscript : ∀ c, P.Disciplined (ok c) [] (P.script c)) (h : ∀ t, P.Obeys ok s t) {c : κ}
    (hs : P.next s (.start t c) = some s') (u : ℕ) : P.Obeys ok s' u := by
  obtain ⟨hnil, rfl⟩ := next_start_eq hs
  by_cases hut : u = t
  · subst hut
    refine ⟨[], List.nodup_nil, fun m ↦ ?_, .inr ⟨c, by rw [State.threads_setThread_self], ?_⟩⟩
    · exact iff_of_false ((h u).not_holds_of_nil hnil m) List.not_mem_nil
    · rw [State.threads_setThread_self]
      exact hscript c
  · exact (h u).of_same (s.threads_setThread_of_ne hut _) fun m ↦ s.holds_setThread

theorem obeys_lock (h : ∀ t, P.Obeys ok s t) {m : μ} {rest : List (Instr μ α)}
    (hrest : (s.threads t).script = .lock m :: rest) (hfree : s.holder m = none) (u : ℕ) :
    P.Obeys ok ((s.continueWith t rest).setHolder m (some t)) u := by
  by_cases hut : u = t
  · subst hut
    obtain ⟨held, c, hnodup, hheld, hc, hd⟩ := (h u).disciplined (by simp [hrest])
    rw [hrest] at hd
    cases hd with
    | lock hok hm hd =>
      refine ⟨m :: held, List.nodup_cons.mpr ⟨hm, hnodup⟩, fun m' ↦ ?_, .inr ⟨c, ?_, ?_⟩⟩
      · by_cases hmm : m' = m
        · subst hmm
          rw [State.holds_setHolder_self]
          exact iff_of_true rfl List.mem_cons_self
        · rw [State.holds_setHolder_of_ne _ _ _ hmm, State.holds_continueWith, hheld, List.mem_cons,
            or_iff_right hmm]
      · rw [State.threads_setHolder, State.threads_continueWith_self]
        exact hc
      · rw [State.threads_setHolder, State.threads_continueWith_self]
        exact hd
  · refine (h u).of_same (s.threads_continueWith_of_ne hut _) fun m' ↦ ?_
    by_cases hmm : m' = m
    · subst hmm
      rw [State.holds_setHolder_self, State.Holds, hfree]
      exact iff_of_false (fun heq ↦ hut (Option.some.inj heq).symm) (by simp)
    · rw [State.holds_setHolder_of_ne _ _ _ hmm, State.holds_continueWith]

theorem obeys_unlock (h : ∀ t, P.Obeys ok s t) {m : μ} {rest : List (Instr μ α)}
    (hrest : (s.threads t).script = .unlock m :: rest) (u : ℕ) :
    P.Obeys ok ((s.continueWith t rest).setHolder m none) u := by
  obtain ⟨held, c, hnodup, hheld, hc, hd⟩ := (h t).disciplined (by simp [hrest])
  rw [hrest] at hd
  cases hd with
  | unlock hm hd =>
    by_cases hut : u = t
    · subst hut
      refine ⟨held.erase m, hnodup.erase m, fun m' ↦ ?_, .inr ⟨c, ?_, ?_⟩⟩
      · rw [hnodup.mem_erase_iff]
        by_cases hmm : m' = m
        · subst hmm
          rw [State.holds_setHolder_self]
          exact iff_of_false (by simp) fun hne ↦ hne.1 rfl
        · rw [State.holds_setHolder_of_ne _ _ _ hmm, State.holds_continueWith, hheld, and_iff_right hmm]
      · rw [State.threads_setHolder, State.threads_continueWith_self]
        exact hc
      · rw [State.threads_setHolder, State.threads_continueWith_self]
        exact hd
    · refine (h u).of_same (s.threads_continueWith_of_ne hut _) fun m' ↦ ?_
      by_cases hmm : m' = m
      · -- the mutex was held by the thread that releases it
        subst hmm
        have hholder : s.holder m' = some t := (hheld m').mpr hm
        rw [State.holds_setHolder_self, State.Holds, hholder]
        exact iff_of_false (by simp) fun heq ↦ hut (Option.some.inj heq).symm
      · rw [State.holds_setHolder_of_ne _ _ _ hmm, State.holds_continueWith]

theorem obeys_act (h : ∀ t, P.Obeys ok s t) {a : α} {i : ι} {rest : List (Instr μ α)}
    {r : σ × List (Instr μ α)} (hrest : (s.threads t).script = .act a :: rest)
    (hrun : P.run i a s.data = some r) (u : ℕ) :
    P.Obeys ok ((s.continueWith t (r.2 ++ rest)).setData r.1) u := by
  by_cases hut : u = t
  · subst hut
    obtain ⟨held, c, hnodup, hheld, hc, hd⟩ := (h u).disciplined (by simp [hrest])
    rw [hrest] at hd
    cases hd with
    | act hd =>
      refine ⟨held, hnodup, fun m ↦ ?_, .inr ⟨c, ?_, ?_⟩⟩
      · rw [State.holds_setData, State.holds_continueWith, hheld]
      · rw [State.threads_setData, State.threads_continueWith_self]
        exact hc
      · rw [State.threads_setData, State.threads_continueWith_self]
        exact hd i s.data r hrun
  · exact (h u).of_same (s.threads_continueWith_of_ne hut _) fun m ↦ Iff.rfl

/-- **A step keeps the discipline.** -/
theorem obeys_step (hscript : ∀ c, P.Disciplined (ok c) [] (P.script c)) (h : ∀ t, P.Obeys ok s t)
    {l : Label κ ι} (hs : P.next s l = some s') (u : ℕ) : P.Obeys ok s' u := by
  cases l with
  | start t c => exact obeys_start hscript h hs u
  | step t i =>
    obtain ⟨m, rest, hrest, hfree, rfl⟩ | ⟨m, rest, hrest, rfl⟩ | ⟨a, rest, r, hrest, hrun, rfl⟩ :=
      next_step_cases hs
    · exact obeys_lock h hrest hfree u
    · exact obeys_unlock h hrest u
    · exact obeys_act h hrest hrun u

/-- **Every thread obeys the discipline**, in every state reached. -/
theorem obeys_of_reach {init : σ → Prop} {allow : State κ μ α σ → Label κ ι → Prop}
    (hscript : ∀ c, P.Disciplined (ok c) [] (P.script c)) (h : (P.system init).Reach allow s) (t : ℕ) :
    P.Obeys ok s t := by
  refine System.Reach.invariant (P := fun s ↦ ∀ t, P.Obeys ok s t) (fun s hs t ↦ ?_)
    (fun s l s' hP _ hs ↦ obeys_step hscript hP hs) h t
  obtain ⟨-, hholder, hthreads⟩ := hs
  refine ⟨[], List.nodup_nil, fun m ↦ ?_, .inl ⟨rfl, by rw [hthreads]⟩⟩
  rw [State.Holds, hholder]
  exact iff_of_false (by simp) List.not_mem_nil

end Procedures

/-! ## No cycle where the wanted mutex ranks above -/

omit [DecidableEq μ] in
theorem not_deadlocked_of_rank {s : State κ μ α σ} (rank : μ → ℕ)
    (h : ∀ t m m', s.Wants t m → s.Holds t m' → rank m' < rank m) : ¬s.Deadlocked := by
  rintro ⟨t, hcycle⟩
  -- along a path of waiting threads the mutexes rank higher and higher
  have hpath : ∀ u, Relation.TransGen s.WaitsFor t u →
      ∃ m m', s.Wants t m ∧ s.Holds u m' ∧ rank m ≤ rank m' := by
    intro u hu
    induction hu with
    | single hwait =>
      obtain ⟨m, hm, hheld⟩ := hwait
      exact ⟨m, m, hm, hheld, Nat.le_refl _⟩
    | tail _ hwait ih =>
      obtain ⟨m, m', hm, hheld, hle⟩ := ih
      obtain ⟨m'', hm'', hheld'⟩ := hwait
      exact ⟨m, m'', hm, hheld', Nat.le_trans hle (Nat.le_of_lt (h _ _ _ hm'' hheld))⟩
  obtain ⟨m, m', hm, hheld, hle⟩ := hpath t hcycle
  exact absurd (h t m m' hm hheld) (Nat.not_lt.mpr hle)

end Mutex
