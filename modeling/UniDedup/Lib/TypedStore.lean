import Mathlib.Data.Finset.Basic
import Mathlib.Logic.Function.Basic

/-!
# A key-value store with typed values

One flat namespace whose values are strings, hashes or sets. A command addressed to a key that
holds a value of another type fails and changes nothing; `set` alone replaces whatever is there.
Keys, fields and texts are of arbitrary types.
-/

namespace TypedStore

variable {κ φ τ : Type*} [DecidableEq κ] [DecidableEq φ] [DecidableEq τ]

/-- The value under a key. -/
inductive Value (φ τ : Type*) where
  | str (s : τ)
  | hash (h : φ → Option τ)
  | set (s : Finset τ)

/-- Why a command fails. -/
inductive Error where
  /-- The key holds a value of another type. -/
  | wrongType
  | wrongArity
  deriving DecidableEq

/-- The contents of the store. -/
abbrev Store (κ φ τ : Type*) := κ → Option (Value φ τ)

namespace Store

/-- `SET`: replace any value. -/
def set (db : Store κ φ τ) (k : κ) (s : τ) : Store κ φ τ := Function.update db k (some (.str s))

def get (db : Store κ φ τ) (k : κ) : Except Error (Option τ) :=
  match db k with
  | none => .ok none
  | some (.str s) => .ok (some s)
  | some _ => .error .wrongType

def writeFields (h : φ → Option τ) (fs : List (φ × τ)) : φ → Option τ :=
  fs.foldl (fun h f ↦ Function.update h f.1 (some f.2)) h

/-- `HMSET`: set fields of a hash, creating it if needed. -/
def hmset (db : Store κ φ τ) (k : κ) (fs : List (φ × τ)) : Except Error (Store κ φ τ) :=
  match db k with
  | none => .ok (Function.update db k (some (.hash (writeFields (fun _ ↦ none) fs))))
  | some (.hash h) => .ok (Function.update db k (some (.hash (writeFields h fs))))
  | some _ => .error .wrongType

/-- `HMGET`: the values of some fields; a missing key is an empty hash. -/
def hmget (db : Store κ φ τ) (k : κ) (fs : List φ) : Except Error (List (Option τ)) :=
  match db k with
  | none => .ok (fs.map fun _ ↦ none)
  | some (.hash h) => .ok (fs.map h)
  | some _ => .error .wrongType

/-- `SADD`: add elements to a set, creating it if needed. -/
def sadd (db : Store κ φ τ) (k : κ) (xs : List τ) : Except Error (Store κ φ τ) :=
  if xs = [] then .error .wrongArity
  else
    match db k with
    | none => .ok (Function.update db k (some (.set xs.toFinset)))
    | some (.set s) => .ok (Function.update db k (some (.set (s ∪ xs.toFinset))))
    | some _ => .error .wrongType

/-- `SMEMBERS`: the elements of a set; a missing key is an empty set. -/
def smembers (db : Store κ φ τ) (k : κ) : Except Error (Finset τ) :=
  match db k with
  | none => .ok ∅
  | some (.set s) => .ok s
  | some _ => .error .wrongType

variable {db db' : Store κ φ τ} {k k' : κ}

omit [DecidableEq φ] [DecidableEq τ] in
@[simp] theorem set_self (s : τ) : db.set k s k = some (.str s) := Function.update_self ..

omit [DecidableEq φ] [DecidableEq τ] in
theorem set_of_ne (h : k' ≠ k) (s : τ) : db.set k s k' = db k' := Function.update_of_ne h ..

omit [DecidableEq τ] in
/-- What a successful `HMSET` did: the key was free or a hash, and only that hash changed. -/
theorem hmset_ok {fs : List (φ × τ)} (h : db.hmset k fs = .ok db') :
    (∃ old, db' = Function.update db k (some (.hash (writeFields old fs)))) ∧
      (db k = none ∨ ∃ old, db k = some (.hash old)) := by
  unfold hmset at h
  split at h
  next hk => exact ⟨⟨_, (Except.ok.inj h).symm⟩, Or.inl hk⟩
  next old hk => exact ⟨⟨old, (Except.ok.inj h).symm⟩, Or.inr ⟨old, hk⟩⟩
  next => cases h

omit [DecidableEq τ] in
theorem hmset_isOk (hk : db k = none ∨ ∃ old, db k = some (.hash old)) (fs : List (φ × τ)) :
    ∃ db', db.hmset k fs = .ok db' := by
  rcases hk with hk | ⟨old, hk⟩ <;> exact ⟨_, by simp only [hmset, hk]; rfl⟩

omit [DecidableEq φ] in
/-- What a successful `SADD` did: the union with the elements that were there. -/
theorem sadd_ok {xs : List τ} (h : db.sadd k xs = .ok db') :
    (db k = none ∧ db' = Function.update db k (some (.set xs.toFinset))) ∨
      ∃ s, db k = some (.set s) ∧ db' = Function.update db k (some (.set (s ∪ xs.toFinset))) := by
  unfold sadd at h
  split at h
  · cases h
  · split at h
    next hk => exact Or.inl ⟨hk, (Except.ok.inj h).symm⟩
    next s hk => exact Or.inr ⟨s, hk, (Except.ok.inj h).symm⟩
    next => cases h

omit [DecidableEq φ] in
theorem sadd_isOk {xs : List τ} (hxs : xs ≠ []) (hk : db k = none ∨ ∃ s, db k = some (.set s)) :
    ∃ db', db.sadd k xs = .ok db' := by
  rcases hk with hk | ⟨s, hk⟩ <;> exact ⟨_, by simp only [sadd, if_neg hxs, hk]; rfl⟩

omit [DecidableEq κ] [DecidableEq φ] [DecidableEq τ] in
theorem hmget_ok {fs : List φ} {vals : List (Option τ)} (h : db.hmget k fs = .ok vals) :
    (db k = none ∧ vals = fs.map fun _ ↦ none) ∨ ∃ f, db k = some (.hash f) ∧ vals = fs.map f := by
  unfold hmget at h
  split at h
  next hk => exact Or.inl ⟨hk, (Except.ok.inj h).symm⟩
  next f hk => exact Or.inr ⟨f, hk, (Except.ok.inj h).symm⟩
  next => cases h

end Store

end TypedStore
