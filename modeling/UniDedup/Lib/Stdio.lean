import Mathlib.Data.List.Basic

/-!
# Buffered files

The part of the C library's streams that programs with binary files use. A stream has the contents of
its file, a position and a mode: in a stream that was opened for reading only, writing fails and changes
nothing, which a program that ignores the result does not notice. A write replaces what is at the
position and extends the file where it ends; a read of `n` bytes is defined only where `n` bytes are
left, since a program that does not look at the result of a short read goes on with bytes nobody
wrote.
-/

namespace Stdio

/-- A stream over a file. -/
structure Handle where
  /-- Was the stream opened for writing? -/
  writable : Bool
  contents : List UInt8
  /-- The position of the next read or write. -/
  pos : ℕ
deriving DecidableEq

namespace Handle

/-- `fopen` of a new file, or of one to be overwritten. -/
def create : Handle := ⟨true, [], 0⟩

/-- `fopen` with mode `"r"`. -/
def openRead (contents : List UInt8) : Handle := ⟨false, contents, 0⟩

/-- `fseek` with `SEEK_SET`. -/
def seek (s : Handle) (pos : ℕ) : Handle := { s with pos := pos }

/-- `fseek` to `SEEK_END`. -/
def seekEnd (s : Handle) : Handle := s.seek s.contents.length

/-- `fwrite`. -/
def write (s : Handle) (bs : List UInt8) : Handle :=
  if s.writable then
    { s with
      contents := s.contents.take s.pos ++ bs ++ s.contents.drop (s.pos + bs.length)
      pos := s.pos + bs.length }
  else s

/-- The bytes from the position to the end of the file. -/
def rest (s : Handle) : List UInt8 := s.contents.drop s.pos

/-- `fread` of `n` bytes, where there are as many. -/
def read (s : Handle) (n : ℕ) : Option (List UInt8 × Handle) :=
  if n ≤ s.rest.length then some (s.rest.take n, s.seek (s.pos + n)) else none

/-! ## Writing -/

variable {s s' : Handle} {bs cs r : List UInt8}

@[simp] theorem writable_seek (n : ℕ) : (s.seek n).writable = s.writable := rfl

@[simp] theorem contents_seek (n : ℕ) : (s.seek n).contents = s.contents := rfl

@[simp] theorem pos_seek (n : ℕ) : (s.seek n).pos = n := rfl

@[simp] theorem writable_write (bs : List UInt8) : (s.write bs).writable = s.writable := by
  unfold write
  split_ifs <;> rfl

theorem write_of_not_writable (h : s.writable = false) : s.write bs = s := by
  rw [write, h]
  rfl

theorem pos_write (h : s.writable = true) : (s.write bs).pos = s.pos + bs.length := by
  rw [write, if_pos h]

theorem contents_write_end (h : s.writable = true) (hpos : s.pos = s.contents.length) :
    (s.write bs).contents = s.contents ++ bs := by
  rw [write, if_pos h]
  dsimp only
  rw [hpos, List.take_length, List.drop_eq_nil_of_le (Nat.le_add_right _ _), List.append_nil]

theorem contents_write_start (h : s.writable = true) (hc : s.contents = bs ++ r) (hpos : s.pos = 0)
    (hlen : cs.length = bs.length) : (s.write cs).contents = cs ++ r := by
  rw [write, if_pos h]
  dsimp only
  rw [hc, hpos, hlen, List.take_zero, Nat.zero_add, List.drop_left, List.nil_append]

theorem write_write (h : s.pos ≤ s.contents.length) :
    (s.write bs).write cs = s.write (bs ++ cs) := by
  cases hw : s.writable with
  | false => rw [write_of_not_writable hw, write_of_not_writable hw, write_of_not_writable hw]
  | true =>
    have hlen : (s.contents.take s.pos ++ bs).length = s.pos + bs.length := by
      rw [List.length_append, List.length_take, Nat.min_eq_left h]
    have htake : (s.contents.take s.pos ++ bs ++ s.contents.drop (s.pos + bs.length)).take
        (s.pos + bs.length) = s.contents.take s.pos ++ bs := by
      rw [← hlen, List.take_left]
    have hdrop : (s.contents.take s.pos ++ bs ++ s.contents.drop (s.pos + bs.length)).drop
        (s.pos + bs.length + cs.length) = s.contents.drop (s.pos + bs.length + cs.length) := by
      rw [← List.drop_drop, ← hlen, List.drop_left, hlen, List.drop_drop]
    simp only [write, hw, if_true]
    rw [htake, hdrop, List.length_append, ← Nat.add_assoc, ← List.append_assoc _ bs cs]

/-! ## Reading -/

/-- **Reading what stands next.** -/
theorem read_eq (h : s.rest = bs ++ r) {n : ℕ} (hn : bs.length = n) :
    s.read n = some (bs, s.seek (s.pos + n)) ∧ (s.seek (s.pos + n)).rest = r := by
  subst hn
  constructor
  · rw [read, if_pos (by rw [h, List.length_append]; exact Nat.le_add_right _ _), h, List.take_left]
  · rw [rest, contents_seek, pos_seek, ← List.drop_drop, ← rest, h, List.drop_left]

end Handle

/-! ## Positioned access

A seek followed by a write or a read. A seek past the end of a file is allowed; what a write there
leaves out reads as zeros. -/

section Positioned

variable {f bs cs : List UInt8} {off n : ℕ}

def pwrite (f : List UInt8) (off : ℕ) (bs : List UInt8) : List UInt8 :=
  f.take off ++ (List.replicate (off - f.length) 0 ++ (bs ++ f.drop (off + bs.length)))

/-- Read `n` bytes at a position, where there are as many. -/
def pread (f : List UInt8) (off n : ℕ) : Option (List UInt8) :=
  if off + n ≤ f.length then some ((f.drop off).take n) else none

theorem pread_eq_some_iff :
    pread f off n = some bs ↔ off + n ≤ f.length ∧ (f.drop off).take n = bs := by
  unfold pread
  split_ifs with h
  · rw [Option.some.injEq]
    exact (and_iff_right h).symm
  · simp [h]

theorem length_padded (f : List UInt8) (off : ℕ) :
    (f.take off ++ List.replicate (off - f.length) 0).length = off := by
  rw [List.length_append, List.length_take, List.length_replicate]
  omega

theorem length_pwrite : (pwrite f off bs).length = max f.length (off + bs.length) := by
  simp only [pwrite, List.length_append, List.length_take, List.length_replicate, List.length_drop]
  omega

theorem length_pwrite_of_le (h : off + bs.length ≤ f.length) : (pwrite f off bs).length = f.length := by
  rw [length_pwrite, Nat.max_eq_left h]

/-- **What is written is read.** -/
theorem pread_pwrite_self (f : List UInt8) (off : ℕ) (bs : List UInt8) :
    pread (pwrite f off bs) off bs.length = some bs := by
  rw [pread_eq_some_iff, length_pwrite]
  refine ⟨Nat.le_max_right _ _, ?_⟩
  have hdrop : (pwrite f off bs).drop off = bs ++ f.drop (off + bs.length) := by
    rw [pwrite, ← List.append_assoc]
    exact List.drop_left' (length_padded f off)
  rw [hdrop, List.take_left]

theorem pread_pwrite_of_le {o : ℕ} (h : pread f o n = some cs) (hle : o + n ≤ off) :
    pread (pwrite f off bs) o n = some cs := by
  obtain ⟨hlen, rfl⟩ := pread_eq_some_iff.mp h
  rw [pread_eq_some_iff, length_pwrite]
  refine ⟨by omega, ?_⟩
  have hroom : o + n ≤ (f.take off).length := by rw [List.length_take]; omega
  rw [pwrite, List.drop_append_of_le_length (by omega), List.take_append_of_le_length (by
    rw [List.length_drop]; omega), List.drop_take, List.take_take]
  congr 1
  omega

theorem pread_pwrite_of_ge {o : ℕ} (h : pread f o n = some cs) (hge : off + bs.length ≤ o) :
    pread (pwrite f off bs) o n = some cs := by
  obtain ⟨hlen, rfl⟩ := pread_eq_some_iff.mp h
  rw [pread_eq_some_iff, length_pwrite]
  refine ⟨by omega, ?_⟩
  have hdrop : (pwrite f off bs).drop o = f.drop o := by
    have hpre : ((f.take off ++ List.replicate (off - f.length) 0) ++ bs).length = off + bs.length := by
      rw [List.length_append, length_padded]
    obtain ⟨k, rfl⟩ := Nat.exists_eq_add_of_le hge
    rw [pwrite, ← List.append_assoc, ← List.append_assoc, ← List.drop_drop, ← hpre, List.drop_left, hpre,
      List.drop_drop]
  rw [hdrop]

theorem pread_part {o m : ℕ} (h : pread f off n = some bs) (hm : o + m ≤ n) :
    pread f (off + o) m = some ((bs.drop o).take m) := by
  obtain ⟨hlen, rfl⟩ := pread_eq_some_iff.mp h
  rw [pread_eq_some_iff]
  refine ⟨by omega, ?_⟩
  rw [List.drop_take, List.take_take, List.drop_drop]
  congr 1
  omega

end Positioned

end Stdio
