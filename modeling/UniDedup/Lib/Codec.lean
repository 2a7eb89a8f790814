import Mathlib.Control.Monad.Basic
import Mathlib.Data.List.AList
import Mathlib.Data.List.Induction
import Mathlib.Data.List.TakeWhile
import UniDedup.Lib.Outcome
import UniDedup.Lib.Word

/-!
# Messages in a fixed buffer

A message is written piece by piece into a buffer of a fixed size, and read piece by piece from the bytes that came.
Both are programs over the memory and the position of the next byte, and leaving the memory is a fault. `Writes` says
what bytes a program appends, if they fit, and `Takes` what it reads from bytes that start with the given ones. Both are
closed under sequences and loops, so that a decoder that mirrors an encoder is followed line by line.

A table of keys and values is sent as the list of its entries, in whatever order the table has them. Inserting the
entries into an empty table gives back what was sent.
-/

namespace Codec

open Outcome

/-- The ways in which a program leaves the memory it may touch. -/
inductive Fault
  /-- A write past the end of the buffer. -/
  | overflow
  /-- A read past the end of the message. -/
  | overrun
  /-- A length that is negative or the largest `int`. -/
  | length
  /-- An index past the end of a vector. -/
  | index
deriving DecidableEq

/-- The memory and the position of the next byte. -/
structure Buffer where
  mem : List UInt8
  pos : ℕ

def Buffer.calloc (size : ℕ) : Buffer := ⟨List.replicate size 0, 0⟩

def Buffer.written (b : Buffer) : List UInt8 := b.mem.take b.pos

/-- A program over a buffer. -/
abbrev Program (α : Type) := StateT Buffer (Except Fault) α

/-- `memcpy` to the buffer. -/
def copyIn (bs : List UInt8) : Program Unit := fun b ↦ do
  check (b.pos + bs.length ≤ b.mem.length) .overflow
  return ((), ⟨b.mem.take b.pos ++ (bs ++ b.mem.drop (b.pos + bs.length)), b.pos + bs.length⟩)

/-- `memcpy` from the buffer. -/
def copyOut (n : ℕ) : Program (List UInt8) := fun b ↦ do
  check (b.pos + n ≤ b.mem.length) .overrun
  return ((b.mem.drop b.pos).take n, { b with pos := b.pos + n })

/-- Stop with a fault unless `p` holds. -/
def ensure (p : Prop) [Decidable p] (e : Fault) : Program Unit := fun b ↦ do
  check p e
  return ((), b)

def elementAt {α : Type} (l : List α) (i : ℕ) : Program α := fun b ↦ do
  return (← getOr l[i]? .index, b)

/-- A program that is run `n` times, with the results in order. -/
def times {α : Type} (c : Program α) : ℕ → Program (List α)
  | 0 => pure []
  | n + 1 => do
    let a ← c
    let as ← times c n
    return a :: as

/-- What a program returns that writes to a new buffer, and the bytes it wrote. -/
def encode {α : Type} (size : ℕ) (c : Program α) : Except Fault (α × List UInt8) :=
  (c (.calloc size)).map fun p ↦ (p.1, p.2.written)

/-- What a program returns that reads from the first of the bytes on. -/
def decode {α : Type} (c : Program α) (bs : List UInt8) : Except Fault α := (c ⟨bs, 0⟩).map Prod.fst

/-! ## Writing -/

/-- The first bytes of a buffer of a size are `ws`, and the position is behind them. -/
structure Holding (size : ℕ) (ws : List UInt8) (b : Buffer) : Prop where
  size_eq : b.mem.length = size
  pos_eq : b.pos = ws.length
  written_eq : b.written = ws

theorem holding_calloc (size : ℕ) : Holding size [] (.calloc size) := ⟨List.length_replicate, rfl, rfl⟩

/-- The program appends the bytes, if they fit, and returns `a`. -/
def Writes {α : Type} (c : Program α) (bs : List UInt8) (a : α) : Prop :=
  ∀ size ws b, Holding size ws b → ws.length + bs.length ≤ size →
    ∃ b', c b = .ok (a, b') ∧ Holding size (ws ++ bs) b'

theorem flatMap_eq_range {α : Type} (g : α → List UInt8) (xs : List α) :
    xs.flatMap g = (List.range xs.length).flatMap fun i ↦ (xs[i]?.map g).getD [] := by
  induction xs using List.reverseRecOn with
  | nil => rfl
  | append_singleton xs x ih =>
    have hcongr : ∀ i ∈ List.range xs.length, ((xs ++ [x])[i]?.map g).getD [] = (xs[i]?.map g).getD [] := by
      intro i hi
      rw [List.getElem?_append_left (List.mem_range.mp hi)]
    rw [List.length_append, List.length_singleton, List.range_succ, List.flatMap_append, List.flatMap_append, ih,
      List.flatMap_singleton, List.flatMap_singleton, List.getElem?_concat_length,
      List.flatMap_def, List.flatMap_def, List.map_congr_left hcongr]
    rfl

section Writes

variable {α β : Type} {c : Program α} {bs bs' : List UInt8} {a : α}

theorem writes_copyIn (bs : List UInt8) : Writes (copyIn bs) bs () := by
  intro size ws b h hfit
  have hroom : b.pos + bs.length ≤ b.mem.length := by
    rw [h.pos_eq, h.size_eq]
    exact hfit
  refine ⟨_, bind_eq_ok.mpr ⟨⟨⟩, check_eq_ok.mpr hroom, rfl⟩, ?_, ?_, ?_⟩
  · simp only [List.length_append, List.length_take, List.length_drop]
    rw [← h.size_eq]
    omega
  · rw [List.length_append, h.pos_eq]
  · have hws := h.written_eq
    rw [Buffer.written] at hws
    rw [Buffer.written, hws, ← List.append_assoc, h.pos_eq, ← List.length_append, List.take_left]

theorem writes_pure (a : α) : Writes (pure a : Program α) [] a := by
  intro size ws b h _
  exact ⟨b, rfl, by rwa [List.append_nil]⟩

theorem Writes.bind {f : α → Program β} {a' : β} (h : Writes c bs a) (hf : Writes (f a) bs' a') :
    Writes (c >>= f) (bs ++ bs') a' := by
  intro size ws b hb hfit
  rw [List.length_append] at hfit
  obtain ⟨b₁, hc, h₁⟩ := h size ws b hb (by omega)
  obtain ⟨b₂, hf, h₂⟩ := hf size (ws ++ bs) b₁ h₁ (by rw [List.length_append]; omega)
  rw [List.append_assoc] at h₂
  exact ⟨b₂, bind_eq_ok.mpr ⟨_, hc, hf⟩, h₂⟩

theorem writes_ensure {p : Prop} [Decidable p] {e : Fault} (hp : p) : Writes (ensure p e) [] () := by
  intro size ws b h _
  exact ⟨b, bind_eq_ok.mpr ⟨⟨⟩, check_eq_ok.mpr hp, rfl⟩, by rwa [List.append_nil]⟩

theorem writes_elementAt {l : List α} {i : ℕ} (h : l[i]? = some a) : Writes (elementAt l i) [] a := by
  intro size ws b hb _
  refine ⟨b, ?_, by rwa [List.append_nil]⟩
  rw [elementAt, h]
  rfl

theorem Writes.forM {f : α → Program PUnit} {g : α → List UInt8} {xs : List α}
    (h : ∀ x ∈ xs, Writes (f x) (g x) ⟨⟩) : Writes (xs.forM f) (xs.flatMap g) ⟨⟩ := by
  induction xs with
  | nil => exact writes_pure _
  | cons x xs ih =>
    rw [List.flatMap_cons]
    exact (h x List.mem_cons_self).bind (ih fun y hy ↦ h y (List.mem_cons_of_mem x hy))

theorem Writes.encode {size : ℕ} (h : Writes c bs a) (hfit : bs.length ≤ size) : encode size c = .ok (a, bs) := by
  obtain ⟨b, hc, hb⟩ := h size [] _ (holding_calloc size) (by rwa [List.length_nil, Nat.zero_add])
  rw [Codec.encode, hc]
  exact congrArg (fun ws ↦ Except.ok (a, ws)) hb.written_eq

end Writes

/-! ## Reading -/

/-- The bytes `rest` are what is left to read. -/
def Ahead (rest : List UInt8) (b : Buffer) : Prop := ∃ consumed, b.mem = consumed ++ rest ∧ b.pos = consumed.length

/-- From bytes that start with `bs` the program takes these and returns `a`. -/
def Takes {α : Type} (c : Program α) (bs : List UInt8) (a : α) : Prop :=
  ∀ rest b, Ahead (bs ++ rest) b → ∃ b', c b = .ok (a, b') ∧ Ahead rest b'

section Takes

variable {α β : Type} {c : Program α} {bs bs' : List UInt8} {a : α}

theorem takes_copyOut (bs : List UInt8) : Takes (copyOut bs.length) bs bs := by
  rintro rest b ⟨consumed, hmem, hpos⟩
  have hroom : b.pos + bs.length ≤ b.mem.length := by
    rw [hmem, hpos, List.length_append, List.length_append]
    omega
  refine ⟨{ b with pos := b.pos + bs.length }, ?_, consumed ++ bs, ?_, ?_⟩
  · refine bind_eq_ok.mpr ⟨⟨⟩, check_eq_ok.mpr hroom, ?_⟩
    rw [hmem, hpos, List.drop_left, List.take_left]
    rfl
  · rw [List.append_assoc]
    exact hmem
  · rw [List.length_append, ← hpos]

theorem takes_pure (a : α) : Takes (pure a : Program α) [] a := fun _ b h ↦ ⟨b, rfl, h⟩

theorem Takes.bind {f : α → Program β} {a' : β} (h : Takes c bs a) (hf : Takes (f a) bs' a') :
    Takes (c >>= f) (bs ++ bs') a' := by
  intro rest b hb
  rw [List.append_assoc] at hb
  obtain ⟨b₁, hc, h₁⟩ := h _ b hb
  obtain ⟨b₂, hf, h₂⟩ := hf _ b₁ h₁
  exact ⟨b₂, bind_eq_ok.mpr ⟨_, hc, hf⟩, h₂⟩

theorem Takes.map {f : α → β} (h : Takes c bs a) : Takes (c >>= fun a ↦ pure (f a)) bs (f a) := by
  have hbind := @Takes.bind _ _ _ _ _ _ (fun a ↦ pure (f a)) _ h (takes_pure (f a))
  rwa [List.append_nil] at hbind

theorem takes_ensure {p : Prop} [Decidable p] {e : Fault} (hp : p) : Takes (ensure p e) [] () :=
  fun _ b h ↦ ⟨b, bind_eq_ok.mpr ⟨⟨⟩, check_eq_ok.mpr hp, rfl⟩, h⟩

theorem Takes.times {g : α → List UInt8} {xs : List α} (h : ∀ x ∈ xs, Takes c (g x) x) :
    Takes (times c xs.length) (xs.flatMap g) xs := by
  induction xs with
  | nil => exact takes_pure []
  | cons x xs ih =>
    rw [List.flatMap_cons]
    exact (h x List.mem_cons_self).bind (ih fun y hy ↦ h y (List.mem_cons_of_mem x hy)).map

theorem Takes.decode (h : Takes c bs a) (rest : List UInt8) : decode c (bs ++ rest) = .ok a := by
  obtain ⟨b, hc, -⟩ := h rest ⟨bs ++ rest, 0⟩ ⟨[], rfl, rfl⟩
  rw [Codec.decode, hc]
  rfl

end Takes

/-! ## Messages -/

/-- What `enc` writes is read by `dec` to the end, and what they return is in the relation. -/
def Carries {α β : Type} (enc : Program α) (dec : Program β) (bs : List UInt8) (r : α → β → Prop) : Prop :=
  ∃ a b, Writes enc bs a ∧ Takes dec bs b ∧ r a b

/-- **A message that fits into the buffer** is written and read. -/
theorem Carries.round_trip {α β : Type} {enc : Program α} {dec : Program β} {bs : List UInt8}
    {r : α → β → Prop} {size : ℕ} (h : Carries enc dec bs r) (hfit : bs.length ≤ size) (rest : List UInt8) :
    ∃ a b, encode size enc = .ok (a, bs) ∧ decode dec (bs ++ rest) = .ok b ∧ r a b := by
  obtain ⟨a, b, henc, hdec, hr⟩ := h
  exact ⟨a, b, henc.encode hfit, hdec.decode rest, hr⟩

theorem length_le_flatten {bs : List UInt8} {pieces : List (List UInt8)} (h : bs ∈ pieces) :
    bs.length ≤ pieces.flatten.length := (List.sublist_flatten_of_mem h).length_le

theorem length_le_flatMap {α : Type} {g : α → List UInt8} {xs : List α} (hg : ∀ x, 0 < (g x).length) :
    xs.length ≤ (xs.flatMap g).length := by
  induction xs with
  | nil => exact Nat.zero_le _
  | cons x xs ih =>
    have hx := hg x
    rw [List.flatMap_cons, List.length_append, List.length_cons]
    omega

/-! ## Integers and strings -/

/-- The bytes of an integer of 32 bits in network order. -/
def intBytes (v : BitVec 32) : List UInt8 := Word.be 4 v.toNat

def writeInt (v : BitVec 32) : Program Unit := copyIn (intBytes v)

def readInt : Program (BitVec 32) := do
  let bs ← copyOut 4
  return .ofNat 32 (Word.unsigned bs.reverse)

/-- The number of turns of a loop up to an `int`. -/
def count (v : BitVec 32) : ℕ := v.toInt.toNat

/-- `writeString`: the length as an `int`, and that many bytes. -/
def writeString (s : List UInt8) : Program Unit := do
  let slen := BitVec.ofNat 32 s.length
  writeInt slen
  ensure (0 ≤ slen.toInt) .overflow
  copyIn (s.take (count slen))

/-- `readString`: what was copied to a buffer that is one byte longer, up to the first NUL. -/
def readString : Program (List UInt8) := do
  let slen ← readInt
  ensure (0 ≤ slen.toInt ∧ slen.toInt + 1 < 2 ^ 31) .length
  let bs ← copyOut (count slen)
  return bs.takeWhile (· ≠ 0)

/-- A string that a C string holds and whose length is an `int`, also with the NUL behind it. -/
structure CText (s : List UInt8) : Prop where
  noNul : 0 ∉ s
  short : s.length + 1 < 2 ^ 31

def stringBytes (s : List UInt8) : List UInt8 := intBytes (.ofNat 32 s.length) ++ s

@[simp] theorem length_intBytes (v : BitVec 32) : (intBytes v).length = 4 := Word.length_be ..

@[simp] theorem length_stringBytes (s : List UInt8) : (stringBytes s).length = s.length + 4 := by
  rw [stringBytes, List.length_append, length_intBytes, Nat.add_comm]

theorem toInt_ofNat {n : ℕ} (h : n < 2 ^ 31) : (BitVec.ofNat 32 n).toInt = n := by
  rw [BitVec.toInt_ofNat']
  exact Int.bmod_eq_of_le_mul_two (by omega) (by omega)

theorem count_ofNat {n : ℕ} (h : n < 2 ^ 31) : count (.ofNat 32 n) = n := by
  rw [count, toInt_ofNat h, Int.toNat_natCast]

theorem writes_int (v : BitVec 32) : Writes (writeInt v) (intBytes v) () := writes_copyIn _

theorem takes_int (v : BitVec 32) : Takes readInt (intBytes v) v := by
  have h := takes_copyOut (intBytes v)
  rw [length_intBytes] at h
  have hmap := @Takes.map _ (BitVec 32) _ _ _ (fun bs ↦ .ofNat 32 (Word.unsigned bs.reverse)) h
  rwa [intBytes, Word.unsigned_be_of_lt v.isLt, BitVec.ofNat_toNat, BitVec.setWidth_eq] at hmap

theorem writes_string {s : List UInt8} (h : CText s) : Writes (writeString s) (stringBytes s) () := by
  have hlength : s.length < 2 ^ 31 := Nat.lt_of_succ_lt h.short
  have hcopy := writes_copyIn s
  have hensure : Writes (ensure (0 ≤ (BitVec.ofNat 32 s.length).toInt) .overflow) [] () :=
    writes_ensure (by rw [toInt_ofNat hlength]; exact Int.natCast_nonneg _)
  rw [writeString, count_ofNat hlength, List.take_length]
  exact (writes_int _).bind (hensure.bind hcopy)

/-- **A string without NUL** is read as it was written. -/
theorem takes_string {s : List UInt8} (h : CText s) : Takes readString (stringBytes s) s := by
  have hshort := h.short
  have hlength := toInt_ofNat (Nat.lt_of_succ_lt hshort)
  have hcopy := @Takes.map _ (List UInt8) _ _ _ (fun bs ↦ bs.takeWhile (· ≠ 0)) (takes_copyOut s)
  have hall : s.takeWhile (· ≠ 0) = s := List.takeWhile_eq_self_iff.mpr fun b hb ↦
    decide_eq_true fun h0 ↦ h.noNul (h0 ▸ hb)
  rw [hall] at hcopy
  refine (takes_int _).bind ((takes_ensure ?_).bind ?_)
  · rw [hlength]
    omega
  · rw [count_ofNat (Nat.lt_of_succ_lt hshort)]
    exact hcopy

/-! ## Tables -/

section Tables

variable {κ ν : Type} [DecidableEq κ]

/-- `insert` of an `unordered_map`: the entry that is there already stays. -/
def insertNew (m : AList fun _ : κ ↦ ν) (p : κ × ν) : AList fun _ : κ ↦ ν :=
  if p.1 ∈ m then m else m.insert p.1 p.2

/-- The entries in the order in which the table has them. -/
def entriesOf (m : AList fun _ : κ ↦ ν) : List (κ × ν) := m.entries.map fun e ↦ (e.1, e.2)

theorem lookup_foldl_insertNew {f : κ → Option ν} {items : List (κ × ν)} (h : ∀ p ∈ items, f p.1 = some p.2)
    (k : κ) :
    (items.foldl insertNew ∅).lookup k = if k ∈ items.map Prod.fst then f k else none := by
  induction items using List.reverseRecOn with
  | nil => rfl
  | append_singleton items p ih =>
    have hmem := ih fun q hq ↦ h q (List.mem_append_left _ hq)
    have hp := h p (List.mem_append_right _ (List.mem_singleton_self p))
    rw [List.foldl_append, List.foldl_cons, List.foldl_nil, insertNew, List.map_append, List.map_singleton]
    by_cases hk : k = p.1
    · subst hk
      rw [if_pos (List.mem_append_right _ (List.mem_singleton_self _))]
      split_ifs with hin
      · rw [hmem, if_pos]
        by_contra hnot
        rw [← AList.lookup_isSome, hmem, if_neg hnot] at hin
        cases hin
      · rw [AList.lookup_insert, hp]
    · have hiff : k ∈ items.map Prod.fst ++ [p.1] ↔ k ∈ items.map Prod.fst := by
        rw [List.mem_append, List.mem_singleton, or_iff_left hk]
      have hlookup : ∀ m : AList fun _ : κ ↦ ν,
          AList.lookup k (if p.1 ∈ m then m else m.insert p.1 p.2) = m.lookup k := by
        intro m
        split_ifs
        · rfl
        · exact AList.lookup_insert_ne hk
      rw [hlookup, hmem]
      simp only [hiff]

theorem lookup_entriesOf (m : AList fun _ : κ ↦ ν) : ∀ p ∈ entriesOf m, m.lookup p.1 = some p.2 := by
  intro p hp
  obtain ⟨e, he, rfl⟩ := List.mem_map.mp hp
  exact AList.mem_lookup_iff.mpr he

omit [DecidableEq κ] in
theorem mem_fst_entriesOf (m : AList fun _ : κ ↦ ν) (k : κ) : k ∈ (entriesOf m).map Prod.fst ↔ k ∈ m := by
  rw [entriesOf, List.map_map]
  exact Iff.rfl

/-- **A table whose entries are inserted into an empty one** is the same table. -/
theorem lookup_foldl_entriesOf (m : AList fun _ : κ ↦ ν) (k : κ) :
    ((entriesOf m).foldl insertNew ∅).lookup k = m.lookup k := by
  rw [@lookup_foldl_insertNew _ _ _ (fun k ↦ m.lookup k) _ (lookup_entriesOf m) k]
  by_cases hk : k ∈ m
  · rw [if_pos ((mem_fst_entriesOf m k).mpr hk)]
  · rw [if_neg fun h ↦ hk ((mem_fst_entriesOf m k).mp h), AList.lookup_eq_none.mpr hk]

end Tables

end Codec
