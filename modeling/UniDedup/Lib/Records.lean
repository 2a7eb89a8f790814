import Mathlib.Data.List.Basic

/-!
# Text records

A record is written as its fields with a separator behind each, and a file as its lines with a newline behind
each. Splitting at the separator gives the fields back, and an empty one for what stands behind the last
separator; reading line by line does not give that last one.
-/

namespace Records

variable {α : Type*} [DecidableEq α]

/-- The items, each with a separator behind it. -/
def terminate (sep : α) (items : List (List α)) : List α := items.flatMap (· ++ [sep])

omit [DecidableEq α] in
@[simp] theorem terminate_nil (sep : α) : terminate sep [] = [] := rfl

omit [DecidableEq α] in
@[simp] theorem terminate_cons (sep : α) (x : List α) (items : List (List α)) :
    terminate sep (x :: items) = x ++ sep :: terminate sep items := by
  rw [terminate, List.flatMap_cons, List.append_assoc]
  rfl

omit [DecidableEq α] in
theorem terminate_append (sep : α) (items items' : List (List α)) :
    terminate sep (items ++ items') = terminate sep items ++ terminate sep items' := List.flatMap_append

omit [DecidableEq α] in
theorem mem_terminate {sep c : α} {items : List (List α)} (h : c ∈ terminate sep items) :
    c = sep ∨ ∃ x ∈ items, c ∈ x := by
  obtain ⟨x, hx, hc⟩ := List.mem_flatMap.mp h
  rw [List.mem_append, List.mem_singleton] at hc
  exact hc.symm.imp_right fun hc ↦ ⟨x, hx, hc⟩

/-- **Fields.** The fields come back, and an empty one behind them. -/
theorem splitOn_terminate {sep : α} {items : List (List α)} (h : ∀ x ∈ items, sep ∉ x) :
    (terminate sep items).splitOn sep = items ++ [[]] := by
  induction items with
  | nil => exact List.splitOn_eq_singleton List.not_mem_nil
  | cons x items ih =>
    rw [terminate_cons, List.splitOn_append_cons_self_of_not_mem (h x List.mem_cons_self),
      ih fun y hy ↦ h y (List.mem_cons_of_mem _ hy), List.cons_append]

/-- What reading line by line gives: there is no line behind the last newline. -/
def lines (nl : α) (content : List α) : List (List α) :=
  let items := content.splitOn nl
  if items.getLast? = some [] then items.dropLast else items

/-- **Lines.** The lines come back. -/
theorem lines_terminate {nl : α} {items : List (List α)} (h : ∀ x ∈ items, nl ∉ x) :
    lines nl (terminate nl items) = items := by
  rw [lines, splitOn_terminate h, if_pos List.getLast?_concat, List.dropLast_concat]

theorem lines_eq_singleton {nl : α} {content : List α} (h : nl ∉ content) (hne : content ≠ []) :
    lines nl content = [content] := by
  rw [lines, List.splitOn_eq_singleton h, if_neg]
  exact fun heq ↦ hne (Option.some.inj heq)

end Records
