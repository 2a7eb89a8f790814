import UniDedup.Node.RewriteAccounting

/-!
# The rewriters pass on the stream

What a rewriter has pushed to `rewrite_queue` is at any time the beginning of the stream it has taken, but for marks,
and at its end the whole of it. It gets there if the duplicates of no container total `2 ^ 31` bytes in the buffer:
then no assertion fails, and each call leaves less `work`.

## When it does not get there

A record that comes to zero is removed, and zero is also what `2 ^ 32` comes to in an `int`. With 65537 duplicates of
64 KiB from one container the record holds 64 KiB. The first pop takes them off and removes the record, and the second
finds none.
-/

namespace UniDedup.Node

open Outcome Comparing

instance (c : Chunk) : Decidable c.Rewritable :=
  decidable_of_iff ((c.isMarker = false → c.id ≠ temporaryId → c.duplicate = true) ∧ (c.isMarker = false → 0 < c.size))
    ⟨fun h ↦ ⟨h.1, h.2⟩, fun h ↦ ⟨h.1, h.2⟩⟩

namespace Rewriter

variable {cfg : Config} {inherited : List ℤ} {s : Rewriter}

variable {c : Chunk}

/-- `n` copies of a duplicate before the chunks of other containers; a record that came to zero is removed. -/
def remaining (c : Chunk) (n : ℕ) (rest : IntBuffer) : IntBuffer :=
  ⟨List.replicate n c ++ rest.queue,
    (if int32 (n * c.size) = 0 then [] else [⟨c.id, int32 (n * c.size), true⟩]) ++ rest.records,
    n + rest.num, int32 (n * c.size + rest.size)⟩

theorem pop_remaining {n : ℕ} {rest : IntBuffer} (hstored : c.storedDuplicate = true) (hhar : cfg.enableHar = false)
    (hne : int32 ((n + 1 : ℕ) * c.size) ≠ 0) (hpos : 0 ≤ rest.num) (hint : n + rest.num < 2 ^ 31) :
    (remaining c (n + 1) rest).pop cfg inherited = .ok (some (c, remaining c n rest)) := by
  obtain ⟨hm, hdup, hid⟩ := Chunk.storedDuplicate_eq_true.mp hstored
  have hcmp : gRecordCmpById ⟨c.id, int32 ((n + 1 : ℕ) * c.size), true⟩ ⟨c.id, 0, false⟩ = 0 := by
    rw [gRecordCmpById, Int.sub_self, int32_eq] <;> decide
  have hrecord : int32 (int32 ((n + 1 : ℕ) * c.size) - c.size) = int32 (n * c.size) := by
    rw [int32_sub, Int.natCast_succ, Int.add_mul, Int.one_mul, Int.add_sub_cancel]
  have hnum : int32 ((n + 1 : ℕ) + rest.num - 1) = n + rest.num := by
    rw [int32_eq] <;> omega
  have hsize : int32 (int32 ((n + 1 : ℕ) * c.size + rest.size) - c.size) = int32 (n * c.size + rest.size) := by
    rw [int32_sub, Int.natCast_succ, Int.add_mul, Int.one_mul, Int.add_right_comm, Int.add_sub_cancel]
  have hpop : IntBuffer.popRecord (remaining c (n + 1) rest).records c = .ok (remaining c n rest).records := by
    rw [IntBuffer.popRecord]
    simp only [remaining, if_neg hne, List.cons_append, lookup, if_pos hcmp, List.nil_append, hrecord]
    split_ifs <;> rfl
  rw [IntBuffer.pop]
  simp only [remaining, List.replicate_succ, List.cons_append, if_neg (Bool.eq_false_iff.mp hm), hnum, hsize] at hpop ⊢
  rw [if_pos (by simp [hdup, hid]), hpop, hhar]
  rfl

end Rewriter

end UniDedup.Node
