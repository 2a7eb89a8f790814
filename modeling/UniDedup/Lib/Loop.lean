import Mathlib.Data.Nat.Notation

/-!
# Loops

A loop is given by what one round of it does: it goes on with another state, or it is done. Nothing says that it
ever is, so a result of the loop is what some number of rounds leads to, and that there is one has to be shown.
-/

namespace Loop

universe u v

variable {σ : Type u} {β : Type v}

/-- At most `fuel` rounds. -/
def run (round : σ → σ ⊕ β) : ℕ → σ → Option β
  | 0, _ => none
  | fuel + 1, s =>
    match round s with
    | .inl s' => run round fuel s'
    | .inr b => some b

/-- The loop ends, with the result `b`. -/
def Returns (round : σ → σ ⊕ β) (s : σ) (b : β) : Prop := ∃ fuel, run round fuel s = some b

variable {round : σ → σ ⊕ β} {s s' : σ} {b b' : β}

theorem run_next (h : round s = .inl s') (fuel : ℕ) : run round (fuel + 1) s = run round fuel s' := by
  rw [run, h]

theorem run_done (h : round s = .inr b) (fuel : ℕ) : run round (fuel + 1) s = some b := by
  rw [run, h]

theorem returns_next_iff (h : round s = .inl s') : Returns round s b ↔ Returns round s' b := by
  constructor
  · rintro ⟨_ | fuel, hrun⟩
    · exact absurd hrun nofun
    · exact ⟨fuel, (run_next h fuel).symm.trans hrun⟩
  · rintro ⟨fuel, hrun⟩
    exact ⟨fuel + 1, (run_next h fuel).trans hrun⟩

theorem returns_done_iff (h : round s = .inr b) : Returns round s b' ↔ b = b' := by
  constructor
  · rintro ⟨_ | fuel, hrun⟩
    · exact absurd hrun nofun
    · exact Option.some.inj ((run_done h fuel).symm.trans hrun)
  · rintro rfl
    exact ⟨1, run_done h 0⟩

theorem Returns.unique (h : Returns round s b) (h' : Returns round s b') : b = b' := by
  obtain ⟨fuel, hrun⟩ := h
  induction fuel generalizing s with
  | zero => exact absurd hrun nofun
  | succ fuel ih =>
    rcases hround : round s with s' | c
    · exact ih ((returns_next_iff hround).mp h') ((run_next hround fuel).symm.trans hrun)
    · obtain rfl := Option.some.inj ((run_done hround fuel).symm.trans hrun)
      exact (returns_done_iff hround).mp h'

/-- **The invariant rule.** -/
theorem Returns.invariant {I : σ → Prop} {Q : β → Prop} (hnext : ∀ s s', I s → round s = .inl s' → I s')
    (hdone : ∀ s b, I s → round s = .inr b → Q b) (hI : I s) (h : Returns round s b) : Q b := by
  obtain ⟨fuel, hrun⟩ := h
  induction fuel generalizing s with
  | zero => exact absurd hrun nofun
  | succ fuel ih =>
    rcases hround : round s with s' | b'
    · apply ih (hnext s s' hI hround)
      exact (run_next hround fuel).symm.trans hrun
    · obtain rfl : b' = b := Option.some.inj ((run_done hround fuel).symm.trans hrun)
      exact hdone s b' hI hround

end Loop
