import Mathlib.Order.Basic

/-!
# Transition systems

A system is given by its initial states and a partial transition function: the label says who moves
and resolves every choice, and `none` means that this move is not possible in the state. Interleavings
of several parties are then just sequences of labels.

Runs may be restricted to the steps a condition allows (`Reach`), which is how assumptions about
schedules are stated. Two rules are used throughout: an invariant kept by every allowed step holds in
every state reached, and a measure that every step decreases bounds the length of every run.
-/

namespace Transition

universe u v

/-- A labelled transition system with a deterministic effect for each label. -/
structure System (σ : Type u) (ℓ : Type v) where
  init : σ → Prop
  /-- The effect of a step, or `none` where it is not possible. -/
  next : σ → ℓ → Option σ

namespace System

variable {σ : Type u} {ℓ : Type v} (S : System σ ℓ)

/-- The states reached by runs all of whose steps are allowed. -/
inductive Reach (allow : σ → ℓ → Prop) : σ → Prop
  | init {s : σ} (h : S.init s) : Reach allow s
  /-- An allowed step from a reached state. -/
  | step {s s' : σ} {l : ℓ} (h : Reach allow s) (ha : allow s l) (hs : S.next s l = some s') :
    Reach allow s'

def Reachable : σ → Prop := S.Reach fun _ _ ↦ True

variable {S}

/-- **The invariant rule.** -/
theorem Reach.invariant {allow : σ → ℓ → Prop} {P : σ → Prop} (hinit : ∀ s, S.init s → P s)
    (hstep : ∀ s l s', P s → allow s l → S.next s l = some s' → P s') {s : σ}
    (h : S.Reach allow s) : P s := by
  induction h with
  | init h => exact hinit _ h
  | step _ ha hs ih => exact hstep _ _ _ ih ha hs

theorem Reachable.invariant {P : σ → Prop} (hinit : ∀ s, S.init s → P s)
    (hstep : ∀ s l s', P s → S.next s l = some s' → P s') {s : σ} (h : S.Reachable s) : P s :=
  Reach.invariant hinit (fun s l s' hP _ hs ↦ hstep s l s' hP hs) h

theorem Reach.mono {allow allow' : σ → ℓ → Prop} (hallow : ∀ s l, allow s l → allow' s l) {s : σ}
    (h : S.Reach allow s) : S.Reach allow' s := by
  induction h with
  | init h => exact .init h
  | step _ ha hs ih => exact .step ih (hallow _ _ ha) hs

theorem Reach.reachable {allow : σ → ℓ → Prop} {s : σ} (h : S.Reach allow s) : S.Reachable s :=
  h.mono fun _ _ _ ↦ trivial

theorem Reachable.reach {allow : σ → ℓ → Prop} {P : σ → Prop} (hP : ∀ s, S.Reach allow s → P s)
    (hallow : ∀ s l, P s → allow s l) {s : σ} (h : S.Reachable s) : S.Reach allow s := by
  induction h with
  | init h => exact .init h
  | step _ _ hs ih => exact .step ih (hallow _ _ (hP _ ih)) hs

def run (S : System σ ℓ) : σ → List ℓ → Option σ
  | s, [] => some s
  | s, l :: ls => S.next s l >>= fun s' ↦ run S s' ls

theorem Reachable.run {s s' : σ} {ls : List ℓ} (h : S.Reachable s) (hr : S.run s ls = some s') :
    S.Reachable s' := by
  induction ls generalizing s with
  | nil => exact Option.some.inj hr ▸ h
  | cons l ls ih =>
    obtain ⟨t, ht, hrest⟩ := Option.bind_eq_some_iff.mp hr
    exact ih (.step h trivial ht) hrest

/-- Run a list of labels as long as the steps are allowed. -/
def runIf (S : System σ ℓ) (allow : σ → ℓ → Prop) [∀ s l, Decidable (allow s l)] :
    σ → List ℓ → Option σ
  | s, [] => some s
  | s, l :: ls => if allow s l then S.next s l >>= fun s' ↦ runIf S allow s' ls else none

theorem Reach.runIf {allow : σ → ℓ → Prop} [∀ s l, Decidable (allow s l)] {s s' : σ} {ls : List ℓ}
    (h : S.Reach allow s) (hr : S.runIf allow s ls = some s') : S.Reach allow s' := by
  induction ls generalizing s with
  | nil => exact Option.some.inj hr ▸ h
  | cons l ls ih =>
    rw [System.runIf] at hr
    split_ifs at hr with ha
    obtain ⟨t, ht, hrest⟩ := Option.bind_eq_some_iff.mp hr
    exact ih (.step h ha ht) hrest

/-- A test on the end of an executable run gives a reached state that passes it. -/
theorem Reach.exists_of_runIf {allow : σ → ℓ → Prop} [∀ s l, Decidable (allow s l)] {s : σ}
    (h : S.Reach allow s) (ls : List ℓ) {p : σ → Bool} (hr : (S.runIf allow s ls).any p = true) :
    ∃ s', S.Reach allow s' ∧ p s' = true := by
  cases hs : S.runIf allow s ls with
  | none => simp [hs] at hr
  | some s' => exact ⟨s', h.runIf hs, by simpa [hs] using hr⟩

theorem Reachable.exists_of_run {s : σ} (h : S.Reachable s) (ls : List ℓ) {p : σ → Bool}
    (hr : (S.run s ls).any p = true) : ∃ s', S.Reachable s' ∧ p s' = true := by
  cases hs : S.run s ls with
  | none => simp [hs] at hr
  | some s' => exact ⟨s', h.run hs, by simpa [hs] using hr⟩

/-- A measure that decreases with every step bounds the length of the runs. -/
theorem length_le_of_run {P : σ → Prop} {μ : σ → ℕ}
    (hstep : ∀ s l s', P s → S.next s l = some s' → P s' ∧ μ s' < μ s) {s s' : σ} {ls : List ℓ}
    (hP : P s) (hr : S.run s ls = some s') : ls.length ≤ μ s := by
  induction ls generalizing s with
  | nil => exact Nat.zero_le _
  | cons l ls ih =>
    obtain ⟨t, ht, hrest⟩ := Option.bind_eq_some_iff.mp hr
    obtain ⟨hPt, hμ⟩ := hstep s l t hP ht
    have := ih hPt hrest
    rw [List.length_cons]
    omega

/-- Where a measure decreases with every step, some state is reached that no step leaves. -/
theorem Reachable.exists_terminal {P : σ → Prop} {μ : σ → ℕ}
    (hstep : ∀ s l s', P s → S.next s l = some s' → P s' ∧ μ s' < μ s) {s : σ} (h : S.Reachable s) (hP : P s) :
    ∃ s', S.Reachable s' ∧ P s' ∧ ∀ l, S.next s' l = none := by
  induction hn : μ s using Nat.strongRecOn generalizing s with
  | _ n ih =>
    by_cases hend : ∀ l, S.next s l = none
    · exact ⟨s, h, hP, hend⟩
    · obtain ⟨l, hl⟩ := not_forall.mp hend
      obtain ⟨s', hs'⟩ := Option.ne_none_iff_exists'.mp hl
      obtain ⟨hP', hμ⟩ := hstep s l s' hP hs'
      exact ih (μ s') (hn ▸ hμ) (.step h trivial hs') hP' rfl

/-! ## Runs as a whole -/

/-- A property of every state of a run, the first and the last one included. -/
def Every (S : System σ ℓ) (P : σ → Prop) : σ → List ℓ → Prop
  | s, [] => P s
  | s, l :: ls => P s ∧ ∀ s', S.next s l = some s' → Every S P s' ls

def Each (S : System σ ℓ) (allow : σ → ℓ → Prop) : σ → List ℓ → Prop
  | _, [] => True
  | s, l :: ls => allow s l ∧ ∀ s', S.next s l = some s' → Each S allow s' ls

/-- Where allowed steps keep an invariant that implies the property, and any other step out of it breaks the
property, the runs with the property are those whose steps are allowed. -/
theorem every_iff_each {P I : σ → Prop} {allow : σ → ℓ → Prop} (hP : ∀ s, I s → P s)
    (hstep : ∀ s l s', I s → S.next s l = some s' → (allow s l → I s') ∧ (¬allow s l → ¬P s'))
    {s : σ} {ls : List ℓ} (hI : I s) (hrun : (S.run s ls).isSome) : S.Every P s ls ↔ S.Each allow s ls := by
  induction ls generalizing s with
  | nil => exact iff_of_true (hP s hI) trivial
  | cons l ls ih =>
    obtain ⟨t, hrun⟩ := Option.isSome_iff_exists.mp hrun
    obtain ⟨s', hs', hrest⟩ := Option.bind_eq_some_iff.mp hrun
    obtain ⟨hkeep, hbreak⟩ := hstep s l s' hI hs'
    have hrest : (S.run s' ls).isSome := by rw [hrest]; rfl
    refine ⟨fun ⟨_, hevery⟩ ↦ ?_, fun ⟨hallow, heach⟩ ↦ ⟨hP s hI, fun s'' hs'' ↦ ?_⟩⟩
    · have hevery := hevery s' hs'
      have hallow : allow s l := by
        by_contra hnot
        refine hbreak hnot ?_
        cases ls with
        | nil => exact hevery
        | cons l' ls => exact hevery.1
      refine ⟨hallow, fun s'' hs'' ↦ ?_⟩
      obtain rfl : s' = s'' := Option.some.inj (hs'.symm.trans hs'')
      exact (ih (hkeep hallow) hrest).mp hevery
    · obtain rfl : s' = s'' := Option.some.inj (hs'.symm.trans hs'')
      exact (ih (hkeep hallow) hrest).mpr (heach s' hs')

end System

end Transition
