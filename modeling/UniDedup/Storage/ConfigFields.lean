import Mathlib.Algebra.Order.Ring.Int
import UniDedup.Lib.Loop
import UniDedup.Storage.Location

/-!
# The lists of the configuration

The parameters of a file system and of a code are written as one text with commas. `Config` takes such texts apart at
three places, with the same loop: it looks for the next comma and cuts out a part of the text. The part is cut out by
`substr`, which wants a position and a length, but gets the position of the start and the position of the comma. At the
start of the text the two are the same. Every later field but the last one is cut too long, by the length of what
stands before it.

So the loop does what it should for texts with at most one comma, which are the ones in use (`splits_iff`). With more,
no field is lost, and each is at least the start of what is stored for it (`forall₂_cut`), so the numbers that the codes
read from their parameters are right as well (`exists_returns_numbers`).
-/

namespace UniDedup.Storage

open Loop Search

/-! ## The loop -/

/-- A `std::string`, which has at most `max_size` characters. -/
abbrev StdString := {text : Name // text.length < 2 ^ 63}

def npos : ℕ := 2 ^ 64 - 1

/-- `text.find(",", pos)`. -/
def findComma (text : Name) (pos : ℕ) : ℕ :=
  match find [','] (text.drop pos) with
  | some p => pos + p
  | none => npos

/-- A `size_t` that is stored in an `int`. -/
def intOfSize (n : ℕ) : ℤ := Int.bmod n (2 ^ 32)

/-- An `int` that is passed as a `size_t`. -/
def sizeOfInt (i : ℤ) : ℕ := (i % 2 ^ 64).toNat

/-- Why a list is not read. -/
inductive SplitFault
  /-- `substr` is called with a position behind the end. -/
  | outOfRange
  /-- An `int` is counted past the largest one. -/
  | overflow
deriving DecidableEq

/-- The variables of the loop. -/
structure SplitState where
  start : ℤ
  fields : List Name

/-- The condition of the loop and its body, or what comes after it. -/
def splitRound (paramtext : Name) (s : SplitState) : SplitState ⊕ Except SplitFault (List Name) :=
  let stop := intOfSize (findComma paramtext (sizeOfInt s.start))
  match substr paramtext (sizeOfInt s.start) with
  | none => .inr (.error .outOfRange)
  | some rest =>
    if stop = -1 then .inr (.ok (s.fields ++ [rest]))
    else if stop + 1 < 2 ^ 31 then .inl ⟨stop + 1, s.fields ++ [rest.take (sizeOfInt stop)]⟩
    else .inr (.error .overflow)

/-- At most `fuel` rounds; the fields are put behind those in `param`. -/
def splitText (param : List Name) (paramtext : Name) (fuel : ℕ) : Option (Except SplitFault (List Name)) :=
  run (splitRound paramtext) fuel ⟨0, param⟩

/-- `dss.parameter`: the value of `_fsParam`. -/
def dssParameter (fsParam : List Name) (paramtext : Name) (fuel : ℕ) : Option (Except SplitFault (List Name)) :=
  splitText fsParam paramtext fuel

/-- `fs.factory`: the parameters of one file system. -/
def fsFactory (paramtext : Name) (fuel : ℕ) : Option (Except SplitFault (List Name)) := splitText [] paramtext fuel

/-- `ec.policy`: the parameters of one code. -/
def ecPolicy (paramtext : Name) (fuel : ℕ) : Option (Except SplitFault (List Name)) := splitText [] paramtext fuel

/-- The loop ends, and what it has put behind the fields in `param` are those between the commas of the text, so that
they give the text again when they are joined. -/
def Splits (loop : ℕ → Option (Except SplitFault (List Name))) (param : List Name) (paramtext : Name) : Prop :=
  ∃ fields, (∃ fuel, loop fuel = some (.ok (param ++ fields))) ∧ fields = paramtext.splitOn ',' ∧
    [','].intercalate fields = paramtext

/-! ## Positions -/

theorem intOfSize_of_lt {n : ℕ} (h : n < 2 ^ 31) : intOfSize n = n := by
  unfold intOfSize
  apply Int.bmod_eq_of_le_mul_two
  · omega
  · omega

theorem sizeOfInt_natCast {n : ℕ} (h : n < 2 ^ 64) : sizeOfInt n = n := by
  unfold sizeOfInt
  omega

theorem sizeOfInt_intOfSize_mod (n : ℕ) : sizeOfInt (intOfSize n) % 2 ^ 32 = n % 2 ^ 32 := by
  have hbmod : intOfSize n % 2 ^ 32 = n % 2 ^ 32 := Int.bmod_emod (x := (n : ℤ)) (m := 2 ^ 32)
  unfold sizeOfInt
  omega

/-- The only numbers below `2 ^ 63` that come back are those that fit. -/
theorem lt_of_sizeOfInt_intOfSize {n : ℕ} (h : sizeOfInt (intOfSize n) = n) (hlt : n < 2 ^ 63)
    (hint : intOfSize n + 1 < 2 ^ 31) : n < 2 ^ 31 - 1 := by
  have hle : -((2 ^ 32 : ℕ) / 2 : ℤ) ≤ intOfSize n := Int.le_bmod (x := (n : ℤ)) (m := 2 ^ 32) (by decide)
  unfold sizeOfInt at h
  omega

theorem findComma_of_notMem {text : Name} {pos : ℕ} (h : ',' ∉ text.drop pos) : findComma text pos = npos := by
  rw [findComma, find_singleton_of_notMem h]

theorem findComma_of_drop {text a r : Name} {pos : ℕ} (h : text.drop pos = a ++ ',' :: r) (ha : ',' ∉ a) :
    findComma text pos = pos + a.length := by
  rw [findComma, h, find_singleton_append ha]

/-! ## The rounds -/

section Rounds

variable {paramtext a r : Name} {k : ℕ} {l : List Name}

theorem substr_of_drop (hk : k < 2 ^ 31) (hle : k ≤ paramtext.length) :
    substr paramtext (sizeOfInt k) = some (paramtext.drop k) := by
  rw [sizeOfInt_natCast (hk.trans (by decide)), substr, if_pos hle]

theorem splitRound_last (fields : List Name) (hk : k < 2 ^ 31) (hle : k ≤ paramtext.length) (h : ',' ∉ paramtext.drop k) :
    splitRound paramtext ⟨k, fields⟩ = .inr (.ok (fields ++ [paramtext.drop k])) := by
  have hstop : intOfSize (findComma paramtext (sizeOfInt k)) = -1 := by
    rw [sizeOfInt_natCast (hk.trans (by decide)), findComma_of_notMem h]
    decide
  rw [splitRound, substr_of_drop hk hle]
  exact if_pos hstop

/-- A round that finds a comma. What it does depends on the `int` for its position. -/
theorem splitRound_of_drop (fields : List Name) (hk : k < 2 ^ 31) (h : paramtext.drop k = a ++ ',' :: r) (ha : ',' ∉ a) :
    splitRound paramtext ⟨k, fields⟩ =
      if intOfSize (k + a.length) = -1 then .inr (.ok (fields ++ [paramtext.drop k]))
      else if intOfSize (k + a.length) + 1 < 2 ^ 31 then
        .inl ⟨intOfSize (k + a.length) + 1,
          fields ++ [(paramtext.drop k).take (sizeOfInt (intOfSize (k + a.length)))]⟩
      else .inr (.error .overflow) := by
  have hle : k ≤ paramtext.length := by
    by_contra hlt
    rw [List.drop_of_length_le (le_of_not_ge hlt)] at h
    exact absurd h.symm (by simp)
  rw [splitRound, substr_of_drop hk hle, sizeOfInt_natCast (hk.trans (by decide)), findComma_of_drop h ha]

theorem splitRound_next (fields : List Name) (hint : k + a.length < 2 ^ 31 - 1)
    (h : paramtext.drop k = a ++ ',' :: r) (ha : ',' ∉ a) :
    splitRound paramtext ⟨k, fields⟩ =
      .inl ⟨(k + a.length + 1 : ℕ), fields ++ [(a ++ ',' :: r).take (k + a.length)]⟩ := by
  have hstop : intOfSize (k + a.length) = (k + a.length : ℕ) := intOfSize_of_lt (by omega)
  rw [splitRound_of_drop fields (by omega) h ha, hstop, sizeOfInt_natCast (by omega), h, if_neg (by omega),
    if_pos (by omega), Nat.cast_succ]

theorem prefix_of_returns {s : SplitState} (h : Returns (splitRound paramtext) s (.ok l)) : s.fields <+: l := by
  refine Returns.invariant (I := fun s' ↦ s.fields <+: s'.fields) (Q := fun b ↦ ∀ l, b = .ok l → s.fields <+: l)
    (fun s₁ s₂ hI hround ↦ ?_) (fun s₁ b hI hround l hb ↦ ?_) (List.prefix_refl _) h l rfl
  · rw [splitRound] at hround
    split at hround
    · exact absurd hround nofun
    · split_ifs at hround
      rw [← Sum.inl.inj hround]
      exact hI.trans (List.prefix_append _ _)
  · subst hb
    rw [splitRound] at hround
    split at hround
    · exact absurd (Sum.inr.inj hround) nofun
    · split_ifs at hround
      · rw [← Except.ok.inj (Sum.inr.inj hround)]
        exact hI.trans (List.prefix_append _ _)
      · exact absurd (Sum.inr.inj hround) nofun

/-- A field in front of a comma is cut out right only if the `int` for the position of the comma is its length. -/
theorem sizeOfInt_eq_of_returns {fields : List Name} (hk : k < 2 ^ 31) (h : paramtext.drop k = a ++ ',' :: r)
    (ha : ',' ∉ a)
    (hret : Returns (splitRound paramtext) ⟨k, fields⟩ (.ok (fields ++ (a ++ ',' :: r).splitOn ','))) :
    sizeOfInt (intOfSize (k + a.length)) = a.length ∧ intOfSize (k + a.length) + 1 < 2 ^ 31 := by
  rw [List.splitOn_append_cons_self_of_not_mem ha] at hret
  have hround := splitRound_of_drop fields hk h ha
  split_ifs at hround with hneg hint
  · -- The rest of the text becomes one field.
    have hfields := List.append_cancel_left (Except.ok.inj ((returns_done_iff hround).mp hret))
    exact absurd (List.cons.inj hfields).2.symm (List.splitOn_ne_nil ',' r)
  · have hpre := prefix_of_returns ((returns_next_iff hround).mp hret)
    rw [List.prefix_append_right_inj, List.cons_prefix_cons, h] at hpre
    have hlen := congrArg List.length hpre.1
    rw [List.length_take, List.length_append, List.length_cons] at hlen
    exact ⟨by omega, hint⟩
  · exact absurd ((returns_done_iff hround).mp hret) nofun

end Rounds

/-! ## The fields -/

/-- The text has at most one comma, and its position can be counted. -/
def Simple (paramtext : Name) : Prop :=
  paramtext.count ',' ≤ 1 ∧ ∀ p, paramtext[p]? = some ',' → p < 2 ^ 31 - 1

section Fields

variable {a r : Name} {param : List Name}

/-- The text is read up to its first comma as it should be just where the position of the comma fits. -/
theorem lt_of_returns (hlen : (a ++ ',' :: r).length < 2 ^ 63) (ha : ',' ∉ a)
    (h : Returns (splitRound (a ++ ',' :: r)) ⟨0, param⟩ (.ok (param ++ (a ++ ',' :: r).splitOn ','))) :
    a.length < 2 ^ 31 - 1 := by
  obtain ⟨hsize, hint⟩ := sizeOfInt_eq_of_returns (k := 0) (by decide) rfl ha h
  rw [Nat.zero_add] at hsize hint
  rw [List.length_append, List.length_cons] at hlen
  exact lt_of_sizeOfInt_intOfSize hsize (by omega) hint

theorem returns_iff_of_append (hint : a.length < 2 ^ 31 - 1) (ha : ',' ∉ a) :
    Returns (splitRound (a ++ ',' :: r)) ⟨0, param⟩ (.ok (param ++ (a ++ ',' :: r).splitOn ',')) ↔ ',' ∉ r := by
  have hfirst : splitRound (a ++ ',' :: r) ⟨0, param⟩ = .inl ⟨(a.length + 1 : ℕ), param ++ [a]⟩ := by
    have hlt : 0 + a.length < 2 ^ 31 - 1 := by rwa [Nat.zero_add]
    have hnext := splitRound_next param hlt (List.drop_zero (l := a ++ ',' :: r)) ha
    rwa [Nat.zero_add, List.take_left] at hnext
  have hdrop : (a ++ ',' :: r).drop (a.length + 1) = r := by
    rw [List.drop_append, List.drop_of_length_le (Nat.le_succ _), Nat.add_sub_cancel_left]
    rfl
  have hsplit : param ++ (a ++ ',' :: r).splitOn ',' = param ++ [a] ++ r.splitOn ',' := by
    rw [List.splitOn_append_cons_self_of_not_mem ha, List.append_assoc, List.singleton_append]
  rw [hsplit, returns_next_iff hfirst]
  constructor
  · intro h hr
    obtain ⟨b, r', rfl, hb⟩ := List.eq_append_cons_of_mem hr
    -- The second field gets the length of the first one and its comma as well.
    have hsize := (sizeOfInt_eq_of_returns (by omega) hdrop hb h).1
    have hmod := sizeOfInt_intOfSize_mod (a.length + 1 + b.length)
    omega
  · intro hr
    have hlast := splitRound_last (param ++ [a]) (k := a.length + 1) (by omega)
      (by rw [List.length_append, List.length_cons]; omega) (hdrop.symm ▸ hr)
    rw [returns_done_iff hlast, hdrop, List.splitOn_eq_singleton hr]

theorem simple_append_iff (ha : ',' ∉ a) : Simple (a ++ ',' :: r) ↔ a.length < 2 ^ 31 - 1 ∧ ',' ∉ r := by
  have hcount : (a ++ ',' :: r).count ',' ≤ 1 ↔ ',' ∉ r := by
    rw [List.count_append, List.count_eq_zero.mpr ha, List.count_cons_self, ← List.count_eq_zero]
    omega
  rw [Simple, hcount]
  constructor
  · rintro ⟨hr, hpos⟩
    exact ⟨hpos a.length (by simp), hr⟩
  · rintro ⟨hlt, hr⟩
    refine ⟨hr, fun p hp ↦ ?_⟩
    rcases lt_trichotomy p a.length with hpa | rfl | hpa
    · exact hpa.trans hlt
    · exact hlt
    · rw [List.getElem?_append_right hpa.le] at hp
      obtain ⟨q, hq⟩ := Nat.exists_eq_add_of_lt hpa
      rw [show p - a.length = q + 1 by omega, List.getElem?_cons_succ] at hp
      exact absurd (List.mem_of_getElem? hp) hr

theorem returns_iff_simple (param : List Name) {text : Name} (hlen : text.length < 2 ^ 63) :
    Returns (splitRound text) ⟨0, param⟩ (.ok (param ++ text.splitOn ',')) ↔ Simple text := by
  by_cases hmem : ',' ∈ text
  · obtain ⟨a, r, rfl, ha⟩ := List.eq_append_cons_of_mem hmem
    rw [simple_append_iff ha]
    constructor
    · intro h
      have hint := lt_of_returns hlen ha h
      exact ⟨hint, (returns_iff_of_append hint ha).mp h⟩
    · rintro ⟨hint, hr⟩
      exact (returns_iff_of_append hint ha).mpr hr
  · refine iff_of_true ?_ ⟨?_, fun p hp ↦ absurd (List.mem_of_getElem? hp) hmem⟩
    · rw [List.splitOn_eq_singleton hmem]
      exact (returns_done_iff (splitRound_last param (k := 0) (by decide) (Nat.zero_le _) hmem)).mpr rfl
    · exact (List.count_eq_zero.mpr hmem).trans_le (Nat.zero_le 1)

end Fields

theorem splits_splitText_iff {text : Name} (hlen : text.length < 2 ^ 63) (param : List Name) :
    Splits (splitText param text) param text ↔ Simple text := by
  rw [← returns_iff_simple param hlen]
  constructor
  · rintro ⟨fields, h, rfl, -⟩
    exact h
  · intro h
    exact ⟨_, h, rfl, List.intercalate_splitOn ','⟩

/-- **Reading a list.** The three loops give the fields of a text just when it has at most one comma, which stands where
an `int` can point behind it. -/
theorem splits_iff (fsParam : List Name) (paramtext : StdString) :
    (Splits (dssParameter fsParam paramtext) fsParam paramtext ↔ Simple paramtext) ∧
      (Splits (fsFactory paramtext) [] paramtext ↔ Simple paramtext) ∧
      (Splits (ecPolicy paramtext) [] paramtext ↔ Simple paramtext) :=
  ⟨splits_splitText_iff paramtext.2 fsParam, splits_splitText_iff paramtext.2 [],
    splits_splitText_iff paramtext.2 []⟩

/-- Three fields are not read: the second one is stored with the third one behind it. -/
theorem not_splits_three : ¬Splits (dssParameter [] "1,2,3".toList) [] "1,2,3".toList ∧
    ¬Splits (fsFactory "1,2,3".toList) [] "1,2,3".toList ∧ ¬Splits (ecPolicy "1,2,3".toList) [] "1,2,3".toList := by
  have hrun : splitText [] "1,2,3".toList 3 = some (.ok ["1".toList, "2,3".toList, "3".toList]) := by
    decide +kernel
  have hne : "1,2,3".toList.splitOn ',' ≠ ["1".toList, "2,3".toList, "3".toList] := by decide
  have hnot : ¬Splits (splitText [] "1,2,3".toList) [] "1,2,3".toList := by
    rintro ⟨fields, h, rfl, -⟩
    exact hne (Except.ok.inj (Returns.unique h ⟨3, hrun⟩))
  exact ⟨hnot, hnot, hnot⟩

/-! ## The numbers -/

/-- What is stored for fields that start at the position `k`. -/
def cut : ℕ → List Name → List Name
  | _, [] => []
  | _, [a] => [a]
  | k, a :: b :: fields =>
    ([','].intercalate (a :: b :: fields)).take (k + a.length) :: cut (k + a.length + 1) (b :: fields)

/-- The field, or the field and more of the text. -/
def Extends (field piece : Name) : Prop := piece = field ∨ ∃ t, piece = field ++ ',' :: t

section Numbers

variable {field piece : Name} {fields : List Name}

theorem cut_cons (k : ℕ) (a : Name) (h : fields ≠ []) : cut k (a :: fields) =
    (a ++ ',' :: [','].intercalate fields).take (k + a.length) :: cut (k + a.length + 1) fields := by
  obtain ⟨b, fields, rfl⟩ := List.exists_cons_of_ne_nil h
  rw [cut, List.intercalate_cons_cons, List.append_assoc, List.singleton_append]

theorem extends_take (a t : Name) (k : ℕ) : Extends a ((a ++ ',' :: t).take (k + a.length)) := by
  rw [Nat.add_comm, List.take_length_add_append]
  rcases k with _ | k
  · exact .inl (List.append_nil a)
  · exact .inr ⟨t.take k, rfl⟩

theorem forall₂_cut (k : ℕ) (fields : List Name) : List.Forall₂ Extends fields (cut k fields) := by
  induction fields generalizing k with
  | nil => exact .nil
  | cons a fields ih =>
    by_cases h : fields = []
    · subst h
      exact .cons (.inl rfl) .nil
    · rw [cut_cons k a h]
      exact .cons (extends_take a _ k) (ih _)

theorem returns_cut {paramtext : Name} (hlen : paramtext.length < 2 ^ 31) (k : ℕ) (hk : k ≤ paramtext.length)
    (stored : List Name) : Returns (splitRound paramtext) ⟨k, stored⟩
      (.ok (stored ++ cut k ((paramtext.drop k).splitOn ','))) := by
  induction hn : paramtext.length - k using Nat.strongRecOn generalizing k stored with
  | _ n ih =>
    by_cases hmem : ',' ∈ paramtext.drop k
    · obtain ⟨a, r, hdrop, ha⟩ := List.eq_append_cons_of_mem hmem
      have hsum : k + (a.length + (r.length + 1)) = paramtext.length := by
        have := congrArg List.length hdrop
        rw [List.length_drop, List.length_append, List.length_cons] at this
        omega
      have hrest : paramtext.drop (k + a.length + 1) = r := by
        rw [Nat.add_assoc, ← List.drop_drop, hdrop, ← List.drop_drop, List.drop_left, List.drop_one, List.tail_cons]
      have hnext := splitRound_next stored (by omega) hdrop ha
      have hih := ih _ (by omega) (k + a.length + 1) (by omega) (stored ++ [(a ++ ',' :: r).take (k + a.length)]) rfl
      rw [hrest, List.append_assoc, List.singleton_append] at hih
      rw [returns_next_iff hnext, hdrop, List.splitOn_append_cons_self_of_not_mem ha,
        cut_cons k a (List.splitOn_ne_nil ',' r), List.intercalate_splitOn]
      exact hih
    · rw [List.splitOn_eq_singleton hmem]
      exact (returns_done_iff (splitRound_last stored (by omega) hk hmem)).mpr rfl

theorem leadingNumber_append (l t : Name) : leadingNumber (l ++ ',' :: t) = leadingNumber l := by
  have hcomma : ¬(','.isDigit = true) := by decide
  rw [leadingNumber, leadingNumber, List.takeWhile_append]
  split_ifs with hall
  · rw [List.takeWhile_cons_of_neg hcomma, List.append_nil]
    rw [(List.takeWhile_prefix _).eq_of_length hall]
  · rfl

theorem atoi_of_extends (h : Extends field piece) : atoi piece = atoi field := by
  rcases h with rfl | ⟨t, rfl⟩
  · rfl
  · have hdrop : (field ++ ',' :: t).dropWhile isSpace = field.dropWhile isSpace ++ ',' :: t := by
      rw [List.dropWhile_append]
      split_ifs with hempty
      · rw [List.isEmpty_iff.mp hempty]
        rfl
      · rfl
    rw [atoi, atoi, hdrop]
    rcases field.dropWhile isSpace with _ | ⟨c, l⟩
    · exact congrArg Nat.cast (leadingNumber_append [] t)
    · rw [leadingNumber_append, List.cons_append, List.head?_cons, List.head?_cons, List.tail_cons, List.tail_cons,
        leadingNumber_append]

/-- The numbers that the codes read from their parameters are those of the text, however many there are. -/
theorem exists_returns_numbers {paramtext : Name} (hlen : paramtext.length < 2 ^ 31) (param : List Name) :
    ∃ pieces, Returns (splitRound paramtext) ⟨0, param⟩ (.ok (param ++ pieces)) ∧
      pieces.map atoi = (paramtext.splitOn ',').map atoi := by
  refine ⟨_, returns_cut hlen 0 (Nat.zero_le _) param, ?_⟩
  have hcut := (forall₂_cut 0 (paramtext.splitOn ',')).flip
  rw [← List.forall₂_eq_eq_eq, List.forall₂_map_left_iff, List.forall₂_map_right_iff]
  exact hcut.imp fun piece field h ↦ atoi_of_extends h

end Numbers

end UniDedup.Storage
