import Mathlib.Data.List.Basic
import Mathlib.Data.List.Infix
import Mathlib.Data.List.TakeWhile

/-!
# Decimal suffixes of names

Many systems build the name of a stored object from a free text and a number written in decimal:
`report_17`, `volume3`. Whether two such names can coincide depends only on what stands between
the text and the number.

With a non-digit separator the pair can be read back from the name: the decimal part is the longest
suffix of digits, so both parts are determined (`append_sep_toDigits_inj`). Without a separator
the boundary is lost, although for a *fixed* text the number is
still determined.
-/

namespace Decimal

/-- The decimal digits of a number, most significant first. -/
def toDigits (n : ℕ) : List Char := Nat.toDigits 10 n

theorem toDigits_injective : Function.Injective toDigits := by
  intro m n h
  have h' := congrArg (fun l ↦ Nat.ofDigitChars 10 l 0) h
  simpa [toDigits] using h'

@[simp] theorem toDigits_inj {m n : ℕ} : toDigits m = toDigits n ↔ m = n :=
  toDigits_injective.eq_iff

theorem isDigit_of_mem_toDigits {n : ℕ} {c : Char} (h : c ∈ toDigits n) : c.isDigit :=
  Nat.isDigit_of_mem_toDigits (by omega) (by omega) h

theorem toDigits_ne_nil {n : ℕ} : toDigits n ≠ [] := Nat.toDigits_ne_nil

theorem not_mem_toDigits {n : ℕ} {c : Char} (hc : c.isDigit = false) : c ∉ toDigits n := by
  intro h
  simp [isDigit_of_mem_toDigits h] at hc

/-- For a fixed text the number is determined, with or without a separator. -/
theorem append_toDigits_right_inj {p : List Char} {m n : ℕ} :
    p ++ toDigits m = p ++ toDigits n ↔ m = n := by
  rw [List.append_cancel_left_eq, toDigits_inj]

/-! ## Names with a separator -/

/-- A list splits in only one way around the last element that fails a test. -/
private theorem append_cons_inj_of_forall {α : Type*} {t : α → Prop} {a b : α}
    (ha : ¬ t a) (hb : ¬ t b) {p q u v : List α} (hu : ∀ x ∈ u, t x) (hv : ∀ x ∈ v, t x)
    (h : p ++ a :: u = q ++ b :: v) : p = q ∧ a = b ∧ u = v := by
  rcases List.append_eq_append_iff.mp h with ⟨w, hq, hw⟩ | ⟨w, hp, hw⟩
  · cases w with
    | nil => simp_all
    | cons c w =>
      -- the separator of the right side would sit among the digits of the left side
      simp only [List.cons_append, List.cons.injEq] at hw
      exact absurd (hu b (by rw [hw.2]; simp)) hb
  · cases w with
    | nil => simp_all
    | cons c w =>
      simp only [List.cons_append, List.cons.injEq] at hw
      exact absurd (hv a (by rw [hw.2]; simp)) ha

/-- **Separated names are injective.** A text, one non-digit character and a decimal number can
each be read back from their concatenation. -/
theorem append_sep_toDigits_inj {p q : List Char} {a b : Char} {m n : ℕ}
    (ha : a.isDigit = false) (hb : b.isDigit = false)
    (h : p ++ a :: toDigits m = q ++ b :: toDigits n) : p = q ∧ a = b ∧ m = n := by
  have hsplit := append_cons_inj_of_forall (t := fun c : Char ↦ c.isDigit = true)
    (by simp [ha]) (by simp [hb]) (fun c hc ↦ isDigit_of_mem_toDigits hc)
    (fun c hc ↦ isDigit_of_mem_toDigits hc) h
  exact ⟨hsplit.1, hsplit.2.1, toDigits_injective hsplit.2.2⟩

theorem append_toDigits_ne_append_of_not_isDigit {p q : List Char} {a : Char} {n : ℕ}
    (ha : a.isDigit = false) : p ++ toDigits n ≠ q ++ [a] := by
  intro h
  have hlast := congrArg List.getLast? h
  rw [List.getLast?_append_of_ne_nil _ toDigits_ne_nil, List.getLast?_concat] at hlast
  exact not_mem_toDigits ha (List.mem_of_getLast? hlast)

/-! ## Reading numbers -/

/-- The number a text starts with, in base `b`. -/
def readDigits (b : ℕ) (isDigit : Char → Bool) (l : List Char) : Option ℕ :=
  let digits := l.takeWhile isDigit
  if digits = [] then none else some (Nat.ofDigitChars b digits 0)

theorem readDigits_toDigits (n : ℕ) : readDigits 10 Char.isDigit (toDigits n) = some n := by
  have hall : (toDigits n).takeWhile Char.isDigit = toDigits n :=
    List.takeWhile_eq_self_iff.mpr fun c hc ↦ isDigit_of_mem_toDigits hc
  rw [readDigits, hall, if_neg toDigits_ne_nil]
  simp [toDigits]

theorem head?_toDigits {n : ℕ} (h : 0 < n) : (toDigits n).head? ≠ some '0' := by
  induction n using Nat.strong_induction_on with
  | _ n ih =>
    rcases Nat.lt_or_ge n 10 with hlt | hge
    · rw [toDigits, Nat.toDigits_of_lt_base hlt, List.head?_cons]
      intro heq
      have hchar : Nat.digitChar n = '0' := Option.some.inj heq
      have hn : n ≠ 0 := h.ne'
      revert hchar hn
      clear ih h heq
      decide +revert
    · have hlast : toDigits n = toDigits (n / 10) ++ [Nat.digitChar (n % 10)] :=
        Nat.toDigits_of_base_le (by omega) hge
      rw [hlast, List.head?_append_of_ne_nil _ toDigits_ne_nil]
      exact ih (n / 10) (Nat.div_lt_self h (by omega)) (Nat.div_pos hge (by omega))

end Decimal
