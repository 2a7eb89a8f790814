import Mathlib.Algebra.Order.Ring.Int
import Mathlib.Data.List.Basic
import Mathlib.Tactic.Ring

/-!
# Machine words as bytes

A C program that writes an integer variable to a file or a message copies its bytes: `w` of them, in
two's complement, the least significant first on the machines considered here, or the most significant
first after a conversion to network order. Reading the bytes back gives the integer again as long as it
fits into the word.
-/

namespace Word

/-- The `w` bytes of an integer in two's complement, the least significant first. -/
def le : ℕ → ℤ → List UInt8
  | 0, _ => []
  | w + 1, x => UInt8.ofNat (x % 256).toNat :: le w (x / 256)

/-- The unsigned integer with the given bytes, the least significant first. -/
def unsigned : List UInt8 → ℕ
  | [] => 0
  | b :: bs => b.toNat + 256 * unsigned bs

/-- The signed integer with the given bytes, the least significant first. -/
def signed (bs : List UInt8) : ℤ := Int.bmod (unsigned bs) (256 ^ bs.length)

@[simp] theorem length_le (w : ℕ) (x : ℤ) : (le w x).length = w := by
  induction w generalizing x with
  | zero => rfl
  | succ w ih => rw [le, List.length_cons, ih]

theorem unsigned_le (w : ℕ) (x : ℤ) : (unsigned (le w x) : ℤ) = x % 256 ^ w := by
  induction w generalizing x with
  | zero => simp [le, unsigned]
  | succ w ih =>
    have hpos : 0 ≤ x % 256 := Int.emod_nonneg x (by decide)
    have hlt : x % 256 < 256 := Int.emod_lt_of_pos x (by decide)
    have hbyte : ((UInt8.ofNat (x % 256).toNat).toNat : ℤ) = x % 256 := by
      rw [UInt8.toNat_ofNat', Nat.mod_eq_of_lt (by omega), Int.toNat_of_nonneg hpos]
    have hdigit : x % (256 * 256 ^ w) = x % 256 + 256 * (x / 256 % 256 ^ w) := by
      rw [Int.emod_def x (256 * 256 ^ w), Int.emod_def (x / 256), Int.emod_def x 256,
        ← Int.ediv_ediv_of_nonneg (by decide)]
      ring
    rw [le, unsigned, Nat.cast_add, Nat.cast_mul, hbyte, ih, pow_succ', Nat.cast_ofNat, hdigit]

theorem unsigned_le_of_lt {w : ℕ} {n : ℕ} (h : n < 256 ^ w) : unsigned (le w n) = n := by
  have hmod : ((n : ℤ) % 256 ^ w) = n := Int.emod_eq_of_lt (by omega) (by exact_mod_cast h)
  have := unsigned_le w n
  rw [hmod] at this
  exact_mod_cast this

/-- **A signed word is read back as it was written.** -/
theorem signed_le {w : ℕ} {x : ℤ} (h : -256 ^ w ≤ x * 2) (h' : x * 2 < 256 ^ w) :
    signed (le w x) = x := by
  have hcast : ((256 ^ w : ℕ) : ℤ) = 256 ^ w := by push_cast; rfl
  have hmod := Int.emod_bmod x (256 ^ w)
  rw [hcast] at hmod
  rw [signed, length_le, unsigned_le, hmod]
  exact Int.bmod_eq_of_le_mul_two (by rw [hcast]; exact h) (by rw [hcast]; exact h')

theorem signed_le_natCast {w n : ℕ} (h : n * 2 < 256 ^ w) : signed (le w n) = n := by
  refine signed_le ?_ (by exact_mod_cast h)
  have hpos : (0 : ℤ) < 256 ^ w := pow_pos (by decide) w
  omega

/-! ## Network order -/

/-- The `w` bytes of an integer in network order, the most significant first. -/
def be (w : ℕ) (x : ℤ) : List UInt8 := (le w x).reverse

@[simp] theorem length_be (w : ℕ) (x : ℤ) : (be w x).length = w := by
  rw [be, List.length_reverse, length_le]

theorem unsigned_be_of_lt {w n : ℕ} (h : n < 256 ^ w) : unsigned (be w n).reverse = n := by
  rw [be, List.reverse_reverse, unsigned_le_of_lt h]

/-- **A signed word in network order is read back as it was written.** -/
theorem signed_be {w : ℕ} {x : ℤ} (h : -256 ^ w ≤ x * 2) (h' : x * 2 < 256 ^ w) :
    signed (be w x).reverse = x := by
  rw [be, List.reverse_reverse, signed_le h h']

end Word
