import Mathlib.Data.List.TakeWhile
import Mathlib.Data.Vector.Basic

/-!
# Bytes, names and fingerprints

The vocabulary both programs of the repository share. Contents are byte strings; file names, group
names and Redis keys are strings of characters, kept as lists so that concatenation and decimal
suffixes can be reasoned about directly; a fingerprint is the 20-byte SHA-1 digest of a chunk.
-/

namespace UniDedup

/-- A byte string. -/
abbrev Bytes := List UInt8

/-- A C string: the bytes before the first NUL. -/
def cString (bs : Bytes) : Bytes := bs.takeWhile (· ≠ 0)

theorem cString_eq {bs : Bytes} (h : 0 ∉ bs) : cString bs = bs := by
  rw [cString, List.takeWhile_eq_self_iff]
  intro b hb
  have hne : b ≠ 0 := fun h0 ↦ h (h0 ▸ hb)
  simpa using hne

/-- A file name, a group name or a Redis key. -/
abbrev Name := List Char

instance Name.lawfulBEq : LawfulBEq Name := inferInstance

/-- `FP_LENGTH` in both programs: the length of a SHA-1 digest. -/
def fpLength : ℕ := 20

/-- A fingerprint: exactly `FP_LENGTH` bytes. -/
abbrev Fingerprint := List.Vector UInt8 fpLength

namespace Fingerprint

/-- The fingerprint all of whose bytes are `b`. -/
def fill (b : UInt8) : Fingerprint := ⟨List.replicate fpLength b, by simp⟩

/-- Byte-wise lexicographic comparison, the order both programs compare fingerprints in. -/
def cmp (fp₁ fp₂ : Fingerprint) : Ordering := List.compareLex compare fp₁.toList fp₂.toList

private theorem compare_max_ne_gt (b : UInt8) : compare b 255 ≠ .gt := by
  intro h
  have h : (if b < 255 then Ordering.lt else if b = 255 then .eq else .gt) = .gt := h
  split_ifs at h with hlt heq
  have hne : b.toNat ≠ 255 := fun h ↦ heq (UInt8.toNat_inj.mp h)
  have hge : ¬b.toNat < 255 := fun h ↦ hlt (UInt8.lt_iff_toNat_lt.mpr h)
  have hlt := b.toNat_lt
  omega

private theorem eq_replicate_of_compareLex_ne_lt {bs : List UInt8}
    (h : List.compareLex compare bs (List.replicate bs.length 255) ≠ .lt) :
    bs = List.replicate bs.length 255 := by
  induction bs with
  | nil => rfl
  | cons b bs ih =>
    rw [List.length_cons, List.replicate_succ, List.compareLex] at h
    rcases hcmp : compare b 255 with _ | _ | _
    · rw [hcmp] at h
      exact absurd rfl h
    · rw [hcmp] at h
      rw [List.length_cons, List.replicate_succ, ← ih h, Std.LawfulEqOrd.eq_of_compare hcmp]
    · exact absurd hcmp (compare_max_ne_gt b)

theorem eq_fill_of_cmp_ne_lt {fp : Fingerprint} (h : cmp fp (fill 255) ≠ .lt) : fp = fill 255 := by
  obtain ⟨bs, hbs⟩ := fp
  refine Subtype.ext ?_
  show bs = List.replicate fpLength 255
  rw [← hbs]
  refine eq_replicate_of_compareLex_ne_lt ?_
  rw [hbs]
  exact h

theorem eq_of_cmp_eq {fp₁ fp₂ : Fingerprint} (h : cmp fp₁ fp₂ = .eq) : fp₁ = fp₂ :=
  Subtype.ext (Std.LawfulEqOrd.eq_of_compare (α := List UInt8) h)

instance : Std.TransCmp cmp where
  eq_swap := fun {a b} ↦ @Std.OrientedCmp.eq_swap _ (List.compareLex (compare : UInt8 → UInt8 → Ordering)) _ a.toList b.toList
  isLE_trans := fun {a b c} ↦
    @Std.TransCmp.isLE_trans _ (List.compareLex (compare : UInt8 → UInt8 → Ordering)) _ a.toList b.toList c.toList

instance : Std.LawfulEqCmp cmp where
  compare_self := fun {a} ↦ @Std.ReflCmp.compare_self _ (List.compareLex (compare : UInt8 → UInt8 → Ordering)) _ a.toList
  eq_of_compare := eq_of_cmp_eq

end Fingerprint

end UniDedup
