import Mathlib.Data.List.Basic
import Mathlib.Order.Basic

/-!
# Cutting a sequence by a rule that looks at its beginning

A *cutter* measures the first piece of a sequence. Cutting off the first piece again and again gives
a list of pieces, `Cutter.chunks`.

What makes a cutter usable on a stream is that it does not look behind its cut: when the first piece
of a sequence ends inside a prefix, the prefix alone has the same first piece. Then two things follow.
The pieces can be cut from a buffer that holds only a beginning of the sequence, as long as the
buffer holds `max` elements or everything that is left (`Cutter.size_of_lookAhead`). And a run of
consecutive pieces, joined and cut again, falls into the same pieces (`Cutter.chunks_run`).

`Cut` is about streams and any measure: some cut of the sequence from buffers of that kind. Nothing is lost in it.
When `max` elements decide the measure, there is only one.
-/

namespace UniDedup

/-- A rule for the first piece of a sequence. -/
structure Cutter (α : Type*) where
  size : List α → ℕ
  max : ℕ
  pos : ∀ {x}, x ≠ [] → 0 < size x
  le_length : ∀ x, size x ≤ x.length
  le_max : ∀ x, size x ≤ max
  /-- The rule does not look behind the end of the piece. -/
  size_append : ∀ x y, size (x ++ y) ≤ x.length → size x = size (x ++ y)

namespace Cutter

variable {α : Type*} (C : Cutter α)

/-- A buffer that holds `max` elements decides the first piece of everything that starts with it. -/
theorem size_of_lookAhead {x : List α} (y : List α) (h : C.max ≤ x.length) :
    C.size x = C.size (x ++ y) :=
  C.size_append x y (Nat.le_trans (C.le_max _) h)

theorem max_pos (a : α) : 0 < C.max :=
  Nat.lt_of_lt_of_le (C.pos (List.cons_ne_nil a [])) (C.le_max [a])

def chunks (x : List α) : List (List α) :=
  if x = [] then [] else x.take (C.size x) :: chunks (x.drop (C.size x))
termination_by x.length
decreasing_by
  rename_i hx
  have hpos := C.pos hx
  have hlen := C.le_length x
  rw [List.length_drop]
  omega

@[simp] theorem chunks_nil : C.chunks [] = [] := by
  rw [chunks, if_pos rfl]

theorem chunks_of_ne_nil {x : List α} (hx : x ≠ []) :
    C.chunks x = x.take (C.size x) :: C.chunks (x.drop (C.size x)) := by
  rw [chunks, if_neg hx]

theorem chunks_eq_cons {x a : List α} {as : List (List α)} (h : C.chunks x = a :: as) :
    ∃ r, x = a ++ r ∧ C.size x = a.length ∧ C.chunks r = as := by
  have hx : x ≠ [] := by
    rintro rfl
    rw [chunks_nil] at h
    exact List.cons_ne_nil _ _ h.symm
  rw [C.chunks_of_ne_nil hx] at h
  obtain ⟨rfl, hrest⟩ := List.cons.inj h
  refine ⟨x.drop (C.size x), (List.take_append_drop _ x).symm, ?_, hrest⟩
  rw [List.length_take, Nat.min_eq_left (C.le_length x)]

/-- Two sequences that start with a piece that the rule cuts off both have it as their first. -/
theorem chunks_append {a : List α} (r : List α) (ha : a ≠ []) (hsize : C.size (a ++ r) = a.length) :
    C.chunks (a ++ r) = a :: C.chunks r := by
  rw [C.chunks_of_ne_nil (List.append_ne_nil_of_left_ne_nil ha r), hsize, List.take_left,
    List.drop_left]

/-! ## The pieces make up the sequence -/

/-- **Nothing is lost.** -/
@[simp] theorem flatten_chunks (x : List α) : (C.chunks x).flatten = x := by
  induction x using chunks.induct C with
  | case1 => rw [chunks_nil, List.flatten_nil]
  | case2 x hx ih => rw [C.chunks_of_ne_nil hx, List.flatten_cons, ih, List.take_append_drop]

theorem ne_nil_and_length_le_of_mem_chunks {x a : List α} (ha : a ∈ C.chunks x) :
    a ≠ [] ∧ a.length ≤ C.max := by
  induction x using chunks.induct C with
  | case1 =>
    rw [chunks_nil] at ha
    exact absurd ha List.not_mem_nil
  | case2 x hx ih =>
    rw [C.chunks_of_ne_nil hx] at ha
    rcases List.mem_cons.mp ha with rfl | ha
    · have hlen : (x.take (C.size x)).length = C.size x := by
        rw [List.length_take, Nat.min_eq_left (C.le_length x)]
      refine ⟨List.ne_nil_of_length_pos ?_, hlen.trans_le (C.le_max x)⟩
      rw [hlen]
      exact C.pos hx
    · exact ih ha

/-! ## Cutting a part again -/

theorem chunks_suffix {x : List α} {as bs : List (List α)} (h : C.chunks x = as ++ bs) :
    C.chunks bs.flatten = bs := by
  induction as generalizing x with
  | nil =>
    rw [List.nil_append] at h
    rw [← h, flatten_chunks]
  | cons a as ih =>
    obtain ⟨r, -, -, hr⟩ := C.chunks_eq_cons h
    exact ih hr

/-- The pieces of the first pieces: the last of them ends where it did, since the rule does not look
behind it. -/
theorem chunks_prefix {x : List α} {as bs : List (List α)} (h : C.chunks x = as ++ bs) :
    C.chunks as.flatten = as := by
  induction as generalizing x with
  | nil => exact C.chunks_nil
  | cons a as ih =>
    obtain ⟨r, rfl, hsize, hr⟩ := C.chunks_eq_cons h
    have ha : a ≠ [] := by
      refine (C.ne_nil_and_length_le_of_mem_chunks (x := a ++ r) ?_).1
      rw [h]
      exact List.mem_cons_self
    have hsplit : r = as.flatten ++ bs.flatten := by
      rw [← List.flatten_append]
      exact (C.flatten_chunks r).symm.trans (congrArg List.flatten hr)
    have hcut : C.size (a ++ as.flatten) = a.length := by
      rw [← hsize, hsplit, ← List.append_assoc]
      refine C.size_append _ _ ?_
      rw [List.append_assoc, ← hsplit, hsize, List.length_append]
      exact Nat.le_add_right ..
    rw [List.flatten_cons, C.chunks_append _ ha hcut, ih hr]

/-- **A run of consecutive pieces, joined and cut again, falls into the same pieces.** -/
theorem chunks_run {x : List α} {as bs cs : List (List α)} (h : C.chunks x = as ++ (bs ++ cs)) :
    C.chunks bs.flatten = bs :=
  C.chunks_prefix (C.chunks_suffix h)

end Cutter

/-! ## Cutting a stream -/

/-- The pieces of a sequence when the measure is taken of a beginning of what is left: of `max` elements at
least, or of everything. -/
inductive Cut {α : Type*} (size : List α → ℕ) (max : ℕ) : List α → List (List α) → Prop
  | nil : Cut size max [] []
  | cons {x y z : List α} {ps : List (List α)} (hz : z = x ++ y) (hx : x ≠ []) (full : max ≤ x.length ∨ y = [])
      (rest : Cut size max (x.drop (size x) ++ y) ps) : Cut size max z (x.take (size x) :: ps)

namespace Cut

variable {α : Type*} {size : List α → ℕ} {max : ℕ} {z : List α} {ps ps' : List (List α)}

/-- **Nothing is lost**, whatever the measure is. -/
theorem flatten_eq (h : Cut size max z ps) : ps.flatten = z := by
  induction h with
  | nil => rfl
  | @cons x y z ps hz hx full rest ih =>
    rw [List.flatten_cons, ih, ← List.append_assoc, List.take_append_drop, hz]

theorem of_mem {P : List α → Prop} (hP : ∀ x, x ≠ [] → P (x.take (size x))) (h : Cut size max z ps) :
    ∀ a ∈ ps, P a := by
  induction h with
  | nil => exact fun a ha ↦ absurd ha List.not_mem_nil
  | @cons x y z ps hz hx full rest ih =>
    intro a ha
    rcases List.mem_cons.mp ha with rfl | ha
    · exact hP x hx
    · exact ih a ha

/-- A piece with something behind it was cut from a buffer that it did not exhaust, or from one of `max`
elements. -/
theorem of_mem_dropLast {P : List α → Prop}
    (hP : ∀ x, x ≠ [] → max ≤ x.length ∨ size x < x.length → P (x.take (size x))) (h : Cut size max z ps) :
    ∀ a ∈ ps.dropLast, P a := by
  induction h with
  | nil => exact fun a ha ↦ absurd ha List.not_mem_nil
  | @cons x y z ps hz hx full rest ih =>
    intro a ha
    cases ps with
    | nil => exact absurd ha List.not_mem_nil
    | cons b ps =>
      rw [List.dropLast_cons_of_ne_nil (List.cons_ne_nil b ps)] at ha
      rcases List.mem_cons.mp ha with rfl | ha
      · refine hP x hx (full.imp_right ?_)
        rintro rfl
        by_contra hle
        rw [List.append_nil, List.drop_eq_nil_of_le (Nat.le_of_not_lt hle)] at rest
        cases rest with
        | cons hz hx _ _ => exact hx (List.append_eq_nil_iff.mp hz.symm).1
      · exact ih a ha

theorem eq_cons (hle : ∀ x, size x ≤ x.length) (hlook : ∀ x y, max ≤ x.length → size x = size (x ++ y))
    (hz : z ≠ []) (h : Cut size max z ps) :
    ∃ ps', ps = z.take (size z) :: ps' ∧ Cut size max (z.drop (size z)) ps' := by
  cases h with
  | nil => exact absurd rfl hz
  | @cons x y _ ps' hxy hx full rest =>
    have hsize : size x = size z := by
      rcases full with full | rfl
      · rw [hxy, ← hlook x y full]
      · rw [hxy, List.append_nil]
    rw [hsize] at rest ⊢
    have hlen : size z ≤ x.length := hsize ▸ hle x
    refine ⟨ps', ?_, ?_⟩
    · rw [hxy] at hlen ⊢
      rw [List.take_append_of_le_length hlen]
    · rw [hxy] at hlen rest ⊢
      rwa [List.drop_append_of_le_length hlen]

/-- **The pieces depend on the sequence only**, not on what the buffers held, when `max` elements decide the
measure. -/
theorem unique (hle : ∀ x, size x ≤ x.length) (hlook : ∀ x y, max ≤ x.length → size x = size (x ++ y))
    (h : Cut size max z ps) (h' : Cut size max z ps') : ps = ps' := by
  induction ps generalizing z ps' with
  | nil =>
    cases h
    cases h' with
    | nil => rfl
    | cons hz hx _ _ => exact absurd (List.append_eq_nil_iff.mp hz.symm).1 hx
  | cons a ps ih =>
    have hz : z ≠ [] := by
      rintro rfl
      cases h with
      | cons hz hx _ _ => exact hx (List.append_eq_nil_iff.mp hz.symm).1
    obtain ⟨ps₁, h₁, hrest⟩ := h.eq_cons hle hlook hz
    obtain ⟨ps₂, rfl, hrest'⟩ := h'.eq_cons hle hlook hz
    obtain ⟨rfl, rfl⟩ := List.cons.inj h₁
    rw [ih hrest hrest']

end Cut

/-- Cut everything there is, again and again, for a number of pieces at most. -/
def pieces {α : Type*} (size : List α → ℕ) : ℕ → List α → List (List α)
  | 0, _ => []
  | fuel + 1, x => if x = [] then [] else x.take (size x) :: pieces size fuel (x.drop (size x))

theorem cut_pieces {α : Type*} {size : List α → ℕ} {max : ℕ} (hpos : ∀ x, x ≠ [] → 0 < size x) {fuel : ℕ}
    {x : List α} (hfuel : x.length ≤ fuel) : Cut size max x (pieces size fuel x) := by
  induction fuel generalizing x with
  | zero =>
    rw [List.eq_nil_of_length_eq_zero (Nat.le_zero.mp hfuel)]
    exact .nil
  | succ fuel ih =>
    rw [pieces]
    by_cases hx : x = []
    · rw [if_pos hx, hx]
      exact .nil
    · rw [if_neg hx]
      refine .cons (List.append_nil x).symm hx (.inr rfl) ?_
      rw [List.append_nil]
      refine ih ?_
      have hpos := hpos x hx
      rw [List.length_drop]
      omega

theorem Cutter.cut_chunks {α : Type*} (C : Cutter α) (x : List α) : Cut C.size C.max x (C.chunks x) := by
  induction x using Cutter.chunks.induct C with
  | case1 =>
    rw [C.chunks_nil]
    exact .nil
  | case2 x hx ih =>
    rw [C.chunks_of_ne_nil hx]
    refine .cons (List.append_nil x).symm hx (.inr rfl) ?_
    rwa [List.append_nil]

theorem Cutter.chunks_eq_of_cut {α : Type*} {C : Cutter α} {x : List α} {ps : List (List α)}
    (h : Cut C.size C.max x ps) : C.chunks x = ps :=
  (C.cut_chunks x).unique C.le_length (fun _ y hx ↦ C.size_of_lookAhead y hx) h

end UniDedup
