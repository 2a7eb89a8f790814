import Mathlib.Data.List.Basic

/-!
# Cutting a stream into slices

A stream is read in slices of one size until a read gives nothing; the last slice may be short. Slices of the
full size come back as they were written.
-/

namespace Slices

variable {α : Type*}

def read (n : ℕ) : ℕ → List α → List (List α)
  | 0, _ => []
  | fuel + 1, l => if l.take n = [] then [] else l.take n :: read n fuel (l.drop n)

/-- All slices of a stream: every read but the last takes something. -/
def slices (n : ℕ) (l : List α) : List (List α) := read n l.length l

theorem read_flatten {n fuel : ℕ} {ps : List (List α)} (hn : 0 < n) (hps : ∀ p ∈ ps, p.length = n)
    (hfuel : ps.length ≤ fuel) : read n fuel ps.flatten = ps := by
  induction ps generalizing fuel with
  | nil => cases fuel <;> simp [read]
  | cons p ps ih =>
    obtain ⟨fuel, rfl⟩ : ∃ fuel', fuel = fuel' + 1 := ⟨fuel - 1, by rw [List.length_cons] at hfuel; omega⟩
    have hp := hps p List.mem_cons_self
    have hne : p ≠ [] := by
      rintro rfl
      rw [List.length_nil] at hp
      omega
    rw [List.flatten_cons, read, List.take_left' hp, List.drop_left' hp, if_neg hne,
      ih (fun q hq ↦ hps q (List.mem_cons_of_mem p hq)) (Nat.le_of_succ_le_succ hfuel)]

theorem length_le_length_flatten {ps : List (List α)} (hps : ∀ p ∈ ps, 0 < p.length) :
    ps.length ≤ ps.flatten.length := by
  induction ps with
  | nil => exact Nat.zero_le _
  | cons p ps ih =>
    have hp := hps p List.mem_cons_self
    have hle := ih fun q hq ↦ hps q (List.mem_cons_of_mem p hq)
    rw [List.flatten_cons, List.length_append, List.length_cons]
    omega

/-- **Full slices come back.** -/
theorem slices_flatten {n : ℕ} {ps : List (List α)} (hn : 0 < n) (hps : ∀ p ∈ ps, p.length = n) :
    slices n ps.flatten = ps :=
  read_flatten hn hps (length_le_length_flatten fun p hp ↦ (hps p hp).symm ▸ hn)

/-! ## Pieces of a slice -/

/-- The `i`-th piece of a list, in pieces of one size. -/
def piece (n i : ℕ) (l : List α) : List α := (l.drop (i * n)).take n

theorem take_flatMap_piece (n m : ℕ) (l : List α) : (List.range m).flatMap (piece n · l) = l.take (m * n) := by
  induction m with
  | zero => rw [Nat.zero_mul, List.take_zero]; rfl
  | succ m ih => rw [List.range_succ, List.flatMap_append, ih, Nat.succ_mul, List.take_add, List.flatMap_singleton, piece]

/-- **The pieces make the list.** -/
theorem flatMap_piece {n m : ℕ} {l : List α} (hl : l.length = m * n) : (List.range m).flatMap (piece n · l) = l := by
  rw [take_flatMap_piece, ← hl, List.take_length]

theorem length_piece {n m i : ℕ} {l : List α} (hl : l.length = m * n) (hi : i < m) : (piece n i l).length = n := by
  have hle : (i + 1) * n ≤ l.length := hl ▸ Nat.mul_le_mul_right n hi
  rw [Nat.succ_mul] at hle
  rw [piece, List.length_take, List.length_drop]
  omega

theorem piece_append {n i : ℕ} {l : List α} (hi : (i + 1) * n ≤ l.length) (l' : List α) :
    piece n i (l ++ l') = piece n i l := by
  rw [Nat.succ_mul] at hi
  rw [piece, piece, List.drop_append_of_le_length (by omega), List.take_append_of_le_length]
  rw [List.length_drop]
  omega

theorem piece_append_open {n i : ℕ} {l l' : List α} (hi : i * n ≤ l.length) (hl : (l ++ l').length ≤ (i + 1) * n) :
    piece n i (l ++ l') = piece n i l ++ l' := by
  rw [Nat.succ_mul, List.length_append] at hl
  rw [piece, piece, List.drop_append_of_le_length hi, List.take_of_length_le, List.take_of_length_le]
  · rw [List.length_drop]
    omega
  · rw [List.length_append, List.length_drop]
    omega

theorem getD_piece {n i pos : ℕ} (l : List α) (hpos : pos < n) (d : α) :
    (piece n i l).getD pos d = l.getD (i * n + pos) d := by
  rw [piece, List.getD_eq_getElem?_getD, List.getElem?_take_of_lt hpos, List.getElem?_drop, ← List.getD_eq_getElem?_getD]

theorem map_getD_eq_piece {n m i : ℕ} {l : List α} (hl : l.length = m * n) (hi : i < m) (d : α) :
    (List.range n).map (fun pos ↦ l.getD (i * n + pos) d) = piece n i l := by
  refine List.ext_getElem (by rw [List.length_map, List.length_range, length_piece hl hi]) fun pos hpos hpos' ↦ ?_
  rw [List.length_map, List.length_range] at hpos
  rw [List.getElem_map, List.getElem_range, ← getD_piece l hpos, List.getD_eq_getElem?_getD,
    List.getElem?_eq_getElem hpos', Option.getD_some]

/-! ## Positions in slices of one size -/

theorem length_flatten_of_forall {n : ℕ} {ps : List (List α)} (hps : ∀ p ∈ ps, p.length = n) :
    ps.flatten.length = ps.length * n := by
  induction ps with
  | nil => rw [List.length_nil, Nat.zero_mul]; rfl
  | cons p ps ih =>
    rw [List.flatten_cons, List.length_append, hps p List.mem_cons_self, ih fun q hq ↦ hps q (List.mem_cons_of_mem p hq),
      List.length_cons, Nat.succ_mul, Nat.add_comm]

theorem drop_flatten {n : ℕ} {ps : List (List α)} (hps : ∀ p ∈ ps, p.length = n) (i : ℕ) :
    ps.flatten.drop (i * n) = (ps.drop i).flatten := by
  induction i generalizing ps with
  | zero => rw [Nat.zero_mul, List.drop_zero, List.drop_zero]
  | succ i ih =>
    cases ps with
    | nil => rw [List.flatten_nil, List.drop_nil, List.drop_nil]; rfl
    | cons p ps =>
      rw [List.flatten_cons, Nat.succ_mul, Nat.add_comm, ← List.drop_drop, List.drop_left' (hps p List.mem_cons_self),
        List.drop_succ_cons, ih fun q hq ↦ hps q (List.mem_cons_of_mem p hq)]

theorem getElem?_flatMap_range {L m i j : ℕ} {f : ℕ → List α} (hf : ∀ t < m, (f t).length = L) (hi : i < m)
    (hj : j < L) : ((List.range m).flatMap f)[i * L + j]? = (f i)[j]? := by
  have hparts : ∀ p ∈ (List.range m).map f, p.length = L := by
    intro p hp
    obtain ⟨t, ht, rfl⟩ := List.mem_map.mp hp
    exact hf t (List.mem_range.mp ht)
  have hmem : i < ((List.range m).map f).length := by rwa [List.length_map, List.length_range]
  rw [List.flatMap_def, ← List.getElem?_drop, drop_flatten hparts, List.drop_eq_getElem_cons hmem, List.flatten_cons,
    List.getElem_map, List.getElem_range, List.getElem?_append_left (by rwa [hf i hi])]

theorem piece_flatMap_range {L m i : ℕ} {f : ℕ → List α} (hf : ∀ t < m, (f t).length = L) (hi : i < m) :
    piece L i ((List.range m).flatMap f) = f i := by
  have hparts : ∀ p ∈ (List.range m).map f, p.length = L := by
    intro p hp
    obtain ⟨t, ht, rfl⟩ := List.mem_map.mp hp
    exact hf t (List.mem_range.mp ht)
  have hmem : i < ((List.range m).map f).length := by rwa [List.length_map, List.length_range]
  rw [piece, List.flatMap_def, drop_flatten hparts, List.drop_eq_getElem_cons hmem, List.flatten_cons,
    List.getElem_map, List.getElem_range, List.take_left' (hf i hi)]

end Slices
