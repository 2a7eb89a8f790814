import Mathlib.Data.List.Forall2

/-!
# Outcomes of fallible computations

A computation that may stop with an error is specified by what holds of its result and of its error:
`Post r Q E` says that `r` either returns a value satisfying `Q` or stops with an error satisfying
`E`. Choosing `E` so that it excludes some errors turns the same statement into the safety claim that
these errors are never raised. The rules below follow the way such computations are put together:
sequencing, assertions, case distinctions and loops over a list.
-/

namespace Outcome

universe u

variable {ε α β σ : Type u}

/-- The result satisfies `Q`, or the error satisfies `E`. -/
def Post (r : Except ε α) (Q : α → Prop) (E : ε → Prop) : Prop :=
  match r with
  | .ok a => Q a
  | .error e => E e

@[simp] theorem post_ok {a : α} {Q : α → Prop} {E : ε → Prop} : Post (.ok a) Q E ↔ Q a := Iff.rfl

@[simp] theorem post_pure {a : α} {Q : α → Prop} {E : ε → Prop} :
    Post (pure a : Except ε α) Q E ↔ Q a := Iff.rfl

@[simp] theorem post_error {e : ε} {Q : α → Prop} {E : ε → Prop} :
    Post (.error e) Q E ↔ E e := Iff.rfl

theorem Post.ok {r : Except ε α} {Q : α → Prop} {E : ε → Prop} {a : α} (h : Post r Q E)
    (hr : r = .ok a) : Q a := by
  subst hr
  exact h

theorem Post.error {r : Except ε α} {Q : α → Prop} {E : ε → Prop} {e : ε} (h : Post r Q E)
    (hr : r = .error e) : E e := by
  subst hr
  exact h

theorem Post.exists_ok {r : Except ε α} {Q : α → Prop} (h : Post r Q fun _ ↦ False) :
    ∃ a, r = .ok a ∧ Q a := by
  cases r with
  | ok a => exact ⟨a, rfl, h⟩
  | error e => exact absurd h id

/-- Every computation has the postcondition that it returned what it returned. -/
theorem post_of_forall {r : Except ε α} {Q : α → Prop} {E : ε → Prop}
    (hok : ∀ a, r = .ok a → Q a) (herr : ∀ e, r = .error e → E e) : Post r Q E := by
  cases hr : r with
  | ok a => exact hok a hr
  | error e => exact herr e hr

theorem Post.mono {r : Except ε α} {Q Q' : α → Prop} {E E' : ε → Prop} (h : Post r Q E)
    (hQ : ∀ a, Q a → Q' a) (hE : ∀ e, E e → E' e) : Post r Q' E' := by
  cases r with
  | ok a => exact hQ a h
  | error e => exact hE e h

theorem Post.and {r : Except ε α} {Q Q' : α → Prop} {E E' : ε → Prop} (h : Post r Q E)
    (h' : Post r Q' E') : Post r (fun a ↦ Q a ∧ Q' a) (fun e ↦ E e ∧ E' e) := by
  cases r with
  | ok a => exact ⟨h, h'⟩
  | error e => exact ⟨h, h'⟩

/-- **Sequencing.** -/
theorem Post.bind {r : Except ε α} {f : α → Except ε β} {P : α → Prop} {Q : β → Prop}
    {E : ε → Prop} (h : Post r P E) (hf : ∀ a, P a → Post (f a) Q E) : Post (r >>= f) Q E := by
  cases r with
  | ok a => exact hf a h
  | error e => exact h

theorem post_bind_of_eq {r : Except ε α} {f : α → Except ε β} {a : α} {Q : β → Prop} {E : ε → Prop}
    (hr : r = .ok a) (hf : Post (f a) Q E) : Post (r >>= f) Q E := by
  subst hr
  exact hf

theorem Post.map {r : Except ε α} {f : α → β} {Q : β → Prop} {E : ε → Prop}
    (h : Post r (fun a ↦ Q (f a)) E) : Post (f <$> r) Q E := by
  cases r with
  | ok a => exact h
  | error e => exact h

theorem Post.mapError {ε' : Type u} {r : Except ε α} {g : ε → ε'} {Q : α → Prop} {E : ε' → Prop}
    (h : Post r Q fun e ↦ E (g e)) : Post (r.mapError g) Q E := by
  cases r with
  | ok a => exact h
  | error e => exact h

theorem bind_eq_ok {r : Except ε α} {f : α → Except ε β} {b : β} :
    r >>= f = .ok b ↔ ∃ a, r = .ok a ∧ f a = .ok b := by
  cases r with
  | ok a => exact ⟨fun h ↦ ⟨a, rfl, h⟩, fun ⟨_, h, hf⟩ ↦ by cases h; exact hf⟩
  | error e => exact ⟨fun h ↦ (nomatch h), fun ⟨_, h, _⟩ ↦ (nomatch h)⟩

theorem mapError_eq_ok {ε' : Type u} {r : Except ε α} {g : ε → ε'} {a : α} :
    r.mapError g = .ok a ↔ r = .ok a := by
  cases r with
  | ok b => exact ⟨fun h ↦ congrArg _ (Except.ok.inj h), fun h ↦ congrArg _ (Except.ok.inj h)⟩
  | error e => exact ⟨fun h ↦ (by cases h), fun h ↦ (by cases h)⟩

theorem toOption_eq_some {r : Except ε α} {a : α} : r.toOption = some a ↔ r = .ok a := by
  cases r with
  | ok b => exact ⟨fun h ↦ congrArg _ (Option.some.inj h), fun h ↦ congrArg _ (Except.ok.inj h)⟩
  | error e => exact ⟨fun h ↦ (by cases h), fun h ↦ (by cases h)⟩

/-! ## Assertions -/

/-- Stop with `e` unless `p` holds. -/
def check (p : Prop) [Decidable p] (e : ε) : Except ε PUnit :=
  if p then .ok ⟨⟩ else .error e

theorem post_check {p : Prop} [Decidable p] {e : ε} {E : ε → Prop} (h : ¬p → E e) :
    Post (check p e) (fun _ ↦ p) E := by
  unfold check
  split_ifs with hp
  · exact hp
  · exact h hp

@[simp] theorem check_eq_ok {p : Prop} [Decidable p] {e : ε} {u : PUnit} :
    check p e = .ok u ↔ p := by
  unfold check
  split_ifs with hp
  · exact ⟨fun _ ↦ hp, fun _ ↦ rfl⟩
  · exact ⟨fun h ↦ (nomatch h), fun h ↦ absurd h hp⟩

/-- The value of an option, or the error `e`. -/
def getOr (o : Option α) (e : ε) : Except ε α :=
  match o with
  | some a => .ok a
  | none => .error e

theorem post_getOr {o : Option α} {e : ε} {E : ε → Prop} (h : o = none → E e) :
    Post (getOr o e) (fun a ↦ o = some a) E := by
  cases o with
  | some a => exact rfl
  | none => exact h rfl

@[simp] theorem getOr_eq_ok {o : Option α} {e : ε} {a : α} : getOr o e = .ok a ↔ o = some a := by
  cases o <;> simp [getOr]

/-! ## Loops -/

/-- **The loop rule.** The invariant speaks of the elements already treated, of those still to come
and of the accumulator. -/
theorem Post.foldlM {f : σ → α → Except ε σ} {I : List α → List α → σ → Prop} {E : ε → Prop}
    (hstep : ∀ done a todo s, I done (a :: todo) s →
      Post (f s a) (fun s' ↦ I (done ++ [a]) todo s') E) :
    ∀ (l done : List α) (s : σ), I done l s →
      Post (l.foldlM f s) (fun s' ↦ I (done ++ l) [] s') E
  | [], done, s, h => by simpa using h
  | a :: l, done, s, h => by
    rw [List.foldlM_cons]
    refine (hstep done a l s h).bind fun s' hs' ↦ ?_
    have := Post.foldlM hstep l (done ++ [a]) s' hs'
    simpa using this

theorem Post.foldlM_of_invariant {f : σ → α → Except ε σ} {I : σ → Prop} {E : ε → Prop} {l : List α}
    (hstep : ∀ s, ∀ a ∈ l, I s → Post (f s a) I E) {s : σ} (h : I s) :
    Post (l.foldlM f s) I E := by
  induction l generalizing s with
  | nil => exact h
  | cons a l ih =>
    rw [List.foldlM_cons]
    refine (hstep s a List.mem_cons_self h).bind fun s' hs' ↦ ?_
    exact ih (fun t b hb ↦ hstep t b (List.mem_cons_of_mem _ hb)) hs'

theorem Post.mapM {f : α → Except ε β} {R : α → β → Prop} {E : ε → Prop} {l : List α}
    (h : ∀ a ∈ l, Post (f a) (R a) E) : Post (l.mapM f) (List.Forall₂ R l) E := by
  induction l with
  | nil => exact .nil
  | cons a l ih =>
    rw [List.mapM_cons]
    refine (h a List.mem_cons_self).bind fun b hb ↦ ?_
    refine (ih fun a' ha' ↦ h a' (List.mem_cons_of_mem _ ha')).bind fun bs hbs ↦ ?_
    exact List.Forall₂.cons hb hbs

end Outcome
