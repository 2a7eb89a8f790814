import UniDedup.Lib.Codec

/-!
# Messages that do not fit

`Writes` says what a program appends to its buffer if there is room for it. `Fills` says in addition that the program
stops with an overflow if there is not, so that a message is written exactly when it fits. It is closed under sequences
and loops in the way `Writes` is.
-/

namespace Codec

open Outcome

/-- The program appends the bytes and returns `a` if they fit, and writes past the end of the buffer otherwise. -/
structure Fills {α : Type} (c : Program α) (bs : List UInt8) (a : α) : Prop where
  writes : Writes c bs a
  overflows : ∀ size ws b, Holding size ws b → size < ws.length + bs.length → c b = .error .overflow

theorem Holding.length_le {size : ℕ} {ws : List UInt8} {b : Buffer} (h : Holding size ws b) : ws.length ≤ size := by
  rw [← h.written_eq, ← h.size_eq, Buffer.written, List.length_take]
  exact Nat.min_le_right _ _

section Fills

variable {α β : Type} {c : Program α} {bs bs' : List UInt8} {a : α}

theorem fills_copyIn (bs : List UInt8) : Fills (copyIn bs) bs () where
  writes := writes_copyIn bs
  overflows := by
    intro size ws b h hover
    have hroom : ¬b.pos + bs.length ≤ b.mem.length := by
      rw [h.pos_eq, h.size_eq]
      exact Nat.not_le.mpr hover
    rw [copyIn, check, if_neg hroom]
    rfl

theorem Writes.fills_nil (h : Writes c [] a) : Fills c [] a where
  writes := h
  overflows := fun _ _ _ hb hover ↦ absurd hb.length_le (Nat.not_le.mpr hover)

theorem fills_pure (a : α) : Fills (pure a : Program α) [] a := (writes_pure a).fills_nil

theorem fills_ensure {p : Prop} [Decidable p] {e : Fault} (hp : p) : Fills (ensure p e) [] () :=
  (writes_ensure hp).fills_nil

theorem fills_elementAt {l : List α} {i : ℕ} (h : l[i]? = some a) : Fills (elementAt l i) [] a :=
  (writes_elementAt h).fills_nil

/-- One program after the other: the first of them to have no room stops both. -/
theorem Fills.bind {f : α → Program β} {a' : β} (h : Fills c bs a) (hf : Fills (f a) bs' a') :
    Fills (c >>= f) (bs ++ bs') a' where
  writes := h.writes.bind hf.writes
  overflows := by
    intro size ws b hb hover
    rw [List.length_append] at hover
    have hrun : (c >>= f) b = c b >>= fun p ↦ f p.1 p.2 := rfl
    rw [hrun]
    by_cases hfit : ws.length + bs.length ≤ size
    · obtain ⟨b₁, hc, h₁⟩ := h.writes size ws b hb hfit
      rw [hc]
      refine hf.overflows size (ws ++ bs) b₁ h₁ ?_
      rw [List.length_append]
      omega
    · rw [h.overflows size ws b hb (Nat.not_le.mp hfit)]
      rfl

theorem Fills.forM {f : α → Program PUnit} {g : α → List UInt8} {xs : List α}
    (h : ∀ x ∈ xs, Fills (f x) (g x) ⟨⟩) : Fills (xs.forM f) (xs.flatMap g) ⟨⟩ := by
  induction xs with
  | nil => exact fills_pure _
  | cons x xs ih =>
    rw [List.flatMap_cons]
    exact (h x List.mem_cons_self).bind (ih fun y hy ↦ h y (List.mem_cons_of_mem x hy))

theorem Fills.forM_range {f : ℕ → Program PUnit} {g : α → List UInt8} {xs : List α}
    (h : ∀ i x, xs[i]? = some x → Fills (f i) (g x) ⟨⟩) :
    Fills ((List.range xs.length).forM f) (xs.flatMap g) ⟨⟩ := by
  rw [flatMap_eq_range]
  refine Fills.forM fun i hi ↦ ?_
  have hsome := List.getElem?_eq_getElem (List.mem_range.mp hi)
  rw [hsome]
  exact h i _ hsome

theorem fills_int (v : BitVec 32) : Fills (writeInt v) (intBytes v) () := fills_copyIn _

theorem fills_string {s : List UInt8} (h : s.length < 2 ^ 31) : Fills (writeString s) (stringBytes s) () := by
  have hensure : Fills (ensure (0 ≤ (BitVec.ofNat 32 s.length).toInt) .overflow) [] () :=
    fills_ensure (by rw [toInt_ofNat h]; exact Int.natCast_nonneg _)
  rw [writeString, count_ofNat h, List.take_length]
  exact (fills_int _).bind (hensure.bind (fills_copyIn s))

/-- **A message is written to a new buffer exactly when it fits.** -/
theorem Fills.encode_iff {size : ℕ} (h : Fills c bs a) : (∃ r, encode size c = .ok r) ↔ bs.length ≤ size := by
  constructor
  · rintro ⟨r, hr⟩
    by_contra hover
    have hsize : size < ([] : List UInt8).length + bs.length := by
      rw [List.length_nil, Nat.zero_add]
      exact Nat.not_le.mp hover
    rw [encode, h.overflows size [] _ (holding_calloc size) hsize] at hr
    cases hr
  · exact fun hfit ↦ ⟨_, h.writes.encode hfit⟩

end Fills

end Codec
