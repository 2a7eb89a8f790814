import UniDedup.Client.Worker
import UniDedup.Lib.TypedStore
import Mathlib.Data.Finset.Lattice.Lemmas
import Mathlib.Data.List.TakeWhile

/-!
# File recipes and routing features in one Redis cluster

With the Redis cluster enabled, three families of keys share one flat namespace: `<file>` holds the
number of groups of a file as a string, `<file>_<i>` holds the name and the node of group `i` as a
hash, and the decimal node index holds the features routed to that node as a set.

The abstract purpose of the store is a pair of tables: the last recipe of each file and the features
of each node. Over whole runs of recipe writes and routing updates, the cluster implements these
tables exactly as long as no file name falls into one of the other two families and the node ids
fit an `int`; the first write that does not meet this condition makes some read wrong.
-/

namespace UniDedup.Client

open Decimal TypedStore

/-! ## The code -/

/-- The Redis cluster. -/
abbrev Redis := Store Name Name Name

/-- What ends a client with an uncaught exception or a null dereference. -/
inductive Fault where
  /-- `stoi` throws `invalid_argument` or `out_of_range`. -/
  | stoi
  /-- `*vals[i]` on an empty optional. -/
  | nullOptional
  deriving DecidableEq

/-- `std::stoi`: skip white space, read an optional sign and the longest run of digits, and throw
when there is no digit or the value does not fit an `int`. -/
def stoi (s : Name) : Option ℤ :=
  let s := s.dropWhile Char.isWhitespace
  let (neg, s) := match s with
    | '-' :: s => (true, s)
    | '+' :: s => (false, s)
    | s => (false, s)
  let digits := s.takeWhile Char.isDigit
  let v : ℤ := Nat.ofDigitChars 10 digits 0
  let v := if neg then -v else v
  if digits = [] then none
  else if -2 ^ 31 ≤ v ∧ v < 2 ^ 31 then some v
  else none

/-- The key of group `i` of a file. -/
def hashKey (filename : Name) (i : ℕ) : Name := filename ++ '_' :: toDigits i

/-- The field `group_name` of a group's hash. -/
def groupNameField : Name := "group_name".toList

/-- The field `node_id` of a group's hash. -/
def nodeIdField : Name := "node_id".toList

theorem groupNameField_ne_nodeIdField : groupNameField ≠ nodeIdField := by decide

/-- The loop of `setFileRecipeToRedis` over the groups from index `i` on. -/
def setGroups (filename : Name) : ℕ → List GroupMeta → Redis → ℤ × Redis
  | _, [], db => (0, db)
  | i, m :: ms, db =>
    match db.hmset (hashKey filename i)
        [(groupNameField, m.groupName), (nodeIdField, toDigits m.nodeId)] with
    | .error _ => (-1, db)
    | .ok db => setGroups filename (i + 1) ms db

/-- `setFileRecipeToRedis`: the return code and the cluster afterwards. -/
def setFileRecipeToRedis (db : Redis) (fr : FileRecipe) : ℤ × Redis :=
  setGroups fr.filename 0 fr.gm (db.set fr.filename (toDigits fr.gm.length))

/-- The loop of `getFileRecipeFromRedis`: read `n` groups from index `i` on. `none` stands for the
null pointer returned when a command fails. -/
def getGroups (db : Redis) (filename : Name) : ℕ → ℕ → Except Fault (Option (List GroupMeta))
  | _, 0 => .ok (some [])
  | i, n + 1 =>
    match db.hmget (hashKey filename i) [groupNameField, nodeIdField] with
    | .error _ => .ok none
    | .ok [some groupName, some nodeId] =>
      match stoi nodeId with
      | none => .error .stoi
      | some v => do
        let rest ← getGroups db filename (i + 1) n
        return rest.map (⟨groupName, (v % 2 ^ 64).toNat⟩ :: ·)
    | .ok _ => .error .nullOptional

def getFileRecipeFromRedis (db : Redis) (filename : Name) : Except Fault (Option FileRecipe) :=
  match db.get filename with
  | .error _ => .ok none
  | .ok none => .ok none
  | .ok (some val) =>
    match stoi val with
    | none => .error .stoi
    | some groupNum => do
      let gm ← getGroups db filename 0 groupNum.toNat
      return gm.map fun gm ↦ ⟨filename, gm⟩

structure SampleUnit where
  /-- The smallest fingerprint of the unit. -/
  feature : Fingerprint
  size : ℕ
  deriving DecidableEq

/-- The text a feature is stored as: its bytes in decimal, each followed by `_`. -/
def featureText (fp : Fingerprint) : Name := fp.toList.flatMap fun b ↦ toDigits b.toNat ++ ['_']

/-- The `smembers` loop of `getNodeForStatefulRouting`. -/
def nodeFeatures (nodeNum : ℕ) (db : Redis) : Except Error (List (Finset Name)) :=
  (List.range nodeNum).mapM fun i ↦ db.smembers (toDigits i)

/-- `getNodeForStatefulRouting` on the cluster: read the features of every node, then add the
features of the new group to the selected one. `none` stands for the return value `-1`. The
score that selects the node is floating point with random ties; its outcome is an argument. -/
def getNodeForStatefulRouting {nodeNum : ℕ} (db : Redis) (units : List SampleUnit)
    (selected : Fin nodeNum) : Option ℕ × Redis :=
  match nodeFeatures nodeNum db with
  | .error _ => (none, db)
  | .ok _ =>
    match db.sadd (toDigits selected) (units.map fun u ↦ featureText u.feature) with
    | .error _ => (none, db)
    | .ok db => (some selected, db)

/-! ## Runs, and the tables they stand for -/

/-- A command sequence a client sends to the cluster. The number of groups of a recipe is an
`int32_t`, and a group has at least one sample unit. -/
inductive Op (nodeNum : ℕ) where
  /-- `setFileRecipeToRedis`. -/
  | setFileRecipe (fr : FileRecipe) (num_lt : fr.gm.length < 2 ^ 31)
  /-- A stateful routing call that selects a node. -/
  | route (units : List SampleUnit) (selected : Fin nodeNum) (ne_nil : units ≠ [])

variable {nodeNum : ℕ}

/-- The effect of an operation on the cluster. -/
def Op.exec (db : Redis) : Op nodeNum → Redis
  | .setFileRecipe fr _ => (setFileRecipeToRedis db fr).2
  | .route units selected _ => (getNodeForStatefulRouting db units selected).2

/-- The tables the cluster is meant to hold. -/
structure Tables where
  /-- The recipe last stored for each file. -/
  recipes : Name → Option FileRecipe
  /-- The features stored for each node. -/
  features : ℕ → Finset Name

/-- The meaning of an operation on the tables. -/
def Op.apply (t : Tables) : Op nodeNum → Tables
  | .setFileRecipe fr _ => { t with recipes := Function.update t.recipes fr.filename (some fr) }
  | .route units selected _ =>
    let added := (units.map fun u ↦ featureText u.feature).toFinset
    { t with features := Function.update t.features selected (t.features selected ∪ added) }

def tablesAfter (ops : List (Op nodeNum)) : Tables :=
  ops.foldl Op.apply ⟨fun _ ↦ none, fun _ ↦ ∅⟩

def redisAfter (ops : List (Op nodeNum)) : Redis := ops.foldl Op.exec fun _ ↦ none

/-- Every read of the cluster returns what the tables hold: the recipes of all files, and the
features of all nodes. -/
def Agrees (nodeNum : ℕ) (t : Tables) (db : Redis) : Prop :=
  (∀ f, getFileRecipeFromRedis db f = .ok (t.recipes f)) ∧
    ∀ i < nodeNum, db.smembers (toDigits i) = .ok (t.features i)

/-- A recipe write that keeps the key families apart, given the tables before it: the file name is
not the key of a group of a stored file, no key of its own groups is the name of a stored file, it
is not the decimal index of a node, and its node ids fit an `int`. -/
structure Separated (nodeNum : ℕ) (t : Tables) (fr : FileRecipe) : Prop where
  not_group : ∀ g fr', t.recipes g = some fr' → ∀ i < fr'.gm.length, fr.filename ≠ hashKey g i
  not_file : ∀ i < fr.gm.length, t.recipes (hashKey fr.filename i) = none
  not_node : ∀ i < nodeNum, fr.filename ≠ toDigits i
  nodes_lt : ∀ m ∈ fr.gm, m.nodeId < 2 ^ 31

/-- The condition on an operation; routing updates need none. -/
def Op.Separated (t : Tables) : Op nodeNum → Prop
  | .setFileRecipe fr _ => Client.Separated nodeNum t fr
  | .route .. => True

/-! ## The key families

A group key contains a `_` in front of its last digits, a node key is all digits, and a group key is
longer than the file name in it. -/

theorem hashKey_inj {f g : Name} {i j : ℕ} (h : hashKey f i = hashKey g j) : f = g ∧ i = j := by
  obtain ⟨hf, -, hi⟩ := append_sep_toDigits_inj (by decide) (by decide) h
  exact ⟨hf, hi⟩

theorem length_lt_hashKey (f : Name) (i : ℕ) : f.length < (hashKey f i).length := by
  simp [hashKey]

theorem ne_hashKey (f : Name) (i : ℕ) : f ≠ hashKey f i := by
  intro h
  exact absurd (congrArg List.length h) (length_lt_hashKey f i).ne

theorem hashKey_ne_toDigits (f : Name) (i n : ℕ) : hashKey f i ≠ toDigits n := by
  intro h
  have hmem : '_' ∈ toDigits n := by
    rw [← h]
    simp [hashKey]
  exact not_mem_toDigits (by decide) hmem

theorem stoi_toDigits (n : ℕ) :
    stoi (toDigits n) = if n < 2 ^ 31 then some (n : ℤ) else none := by
  have hall : (toDigits n).takeWhile Char.isDigit = toDigits n :=
    List.takeWhile_eq_self_iff.mpr fun c hc ↦ isDigit_of_mem_toDigits hc
  have hval : Nat.ofDigitChars 10 (toDigits n) 0 = n := Nat.ofDigitChars_ten_toDigits
  obtain ⟨c, cs, hcs⟩ := List.exists_cons_of_ne_nil (toDigits_ne_nil (n := n))
  have hdigit : c.isDigit := isDigit_of_mem_toDigits (n := n) (by rw [hcs]; simp)
  have hdrop : (toDigits n).dropWhile Char.isWhitespace = toDigits n := by
    rw [hcs, List.dropWhile_cons_of_neg]
    intro hspace
    simp only [Char.isWhitespace, Bool.or_eq_true, decide_eq_true_eq] at hspace
    rcases hspace with ((rfl | rfl) | rfl) | rfl <;> simp [Char.isDigit] at hdigit
  have hsign : (match toDigits n with
      | '-' :: s => (true, s)
      | '+' :: s => (false, s)
      | s => (false, s)) = (false, toDigits n) := by
    rw [hcs]
    split
    next h => simp_all [Char.isDigit]
    next h => simp_all [Char.isDigit]
    next => rfl
  rw [stoi, hdrop, hsign]
  simp only [hall, hval, toDigits_ne_nil, if_false, Bool.false_eq_true]
  by_cases hn : n < 2 ^ 31
  · rw [if_pos hn, if_pos ⟨by omega, by exact_mod_cast hn⟩]
  · rw [if_neg hn, if_neg]
    rintro ⟨-, h⟩
    exact hn (by exact_mod_cast h)

/-! ## What the loops do to the cluster -/

/-- The key holds no value, or a hash: `HMSET` works on it. -/
def Hashable (db : Redis) (k : Name) : Prop := db k = none ∨ ∃ h, db k = some (.hash h)

/-- The key holds the name and the node of a group. -/
def HoldsMeta (db : Redis) (k : Name) (m : GroupMeta) : Prop :=
  ∃ h, db k = some (.hash h) ∧ h groupNameField = some m.groupName ∧
    h nodeIdField = some (toDigits m.nodeId)

/-- A successful `HMSET` of a group leaves its metadata at the key and changes no other key. -/
theorem hmset_meta {db db' : Redis} {k : Name} {m : GroupMeta}
    (h : db.hmset k [(groupNameField, m.groupName), (nodeIdField, toDigits m.nodeId)] = .ok db') :
    HoldsMeta db' k m ∧ ∀ k' ≠ k, db' k' = db k' := by
  obtain ⟨⟨old, hdb'⟩, -⟩ := Store.hmset_ok h
  constructor
  · refine ⟨_, by rw [hdb', Function.update_self], ?_, ?_⟩
    · simp only [Store.writeFields, List.foldl_cons, List.foldl_nil,
        Function.update_of_ne groupNameField_ne_nodeIdField, Function.update_self]
    · simp only [Store.writeFields, List.foldl_cons, List.foldl_nil, Function.update_self]
  · intro k' hk'
    rw [hdb', Function.update_of_ne hk']

/-- The loop of `setFileRecipeToRedis` only turns free keys and hashes of its own family into
hashes. -/
theorem setGroups_cases (f : Name) (i : ℕ) (ms : List GroupMeta) (db : Redis) (k : Name) :
    (setGroups f i ms db).2 k = db k ∨
      Hashable db k ∧ (∃ h, (setGroups f i ms db).2 k = some (.hash h)) ∧
        ∃ j, i ≤ j ∧ k = hashKey f j := by
  induction ms generalizing i db with
  | nil => exact Or.inl rfl
  | cons m ms ih =>
    rw [setGroups]
    split
    next => exact Or.inl rfl
    next db' hset =>
      obtain ⟨⟨h, hh, -⟩, hne⟩ := hmset_meta hset
      have hfree := (Store.hmset_ok hset).2
      by_cases hk : k = hashKey f i
      · subst hk
        refine Or.inr ⟨hfree, ?_, i, le_rfl, rfl⟩
        rcases ih (i + 1) db' with heq | ⟨-, hhash, -⟩
        · exact ⟨h, heq.trans hh⟩
        · exact hhash
      · rcases ih (i + 1) db' with heq | ⟨hfree', hhash, j, hj, rfl⟩
        · exact Or.inl (heq.trans (hne k hk))
        · rw [Hashable, hne _ hk] at hfree'
          exact Or.inr ⟨hfree', hhash, j, by omega, rfl⟩

theorem setGroups_of_forall_ne {f k : Name} (hk : ∀ j, k ≠ hashKey f j) (i : ℕ)
    (ms : List GroupMeta) (db : Redis) : (setGroups f i ms db).2 k = db k := by
  rcases setGroups_cases f i ms db k with h | ⟨-, -, j, -, rfl⟩
  · exact h
  · exact absurd rfl (hk j)

theorem setGroups_of_lt {f : Name} {i j : ℕ} (hj : j < i) (ms : List GroupMeta) (db : Redis) :
    (setGroups f i ms db).2 (hashKey f j) = db (hashKey f j) := by
  rcases setGroups_cases f i ms db (hashKey f j) with h | ⟨-, -, j', hj', heq⟩
  · exact h
  · have := (hashKey_inj heq).2
    omega

theorem setGroups_str {f k : Name} {i : ℕ} {ms : List GroupMeta} {db : Redis} {s : Name}
    (h : db k = some (.str s)) : (setGroups f i ms db).2 k = some (.str s) := by
  rcases setGroups_cases f i ms db k with heq | ⟨hfree, -, -⟩
  · rw [heq, h]
  · simp [Hashable, h] at hfree

/-- When `HMSET` works on all its keys, the loop stores the metadata of every group. -/
theorem setGroups_holdsMeta {f : Name} {i : ℕ} {ms : List GroupMeta} {db : Redis}
    (hfree : ∀ j, i ≤ j → j < i + ms.length → Hashable db (hashKey f j)) :
    ∀ j (hj : j < ms.length), HoldsMeta (setGroups f i ms db).2 (hashKey f (i + j)) ms[j] := by
  induction ms generalizing i db with
  | nil => simp
  | cons m ms ih =>
    obtain ⟨db', hset⟩ := Store.hmset_isOk (hfree i le_rfl (by simp))
      [(groupNameField, m.groupName), (nodeIdField, toDigits m.nodeId)]
    obtain ⟨hmeta, hne⟩ := hmset_meta hset
    rw [setGroups, hset]
    rintro (- | j) hj
    · simp only [HoldsMeta, Nat.add_zero, setGroups_of_lt (Nat.lt_succ_self i)]
      exact hmeta
    · have hrest := @ih (i + 1) db' fun j hij hj ↦ by
        have hj' : hashKey f j ≠ hashKey f i := fun h ↦ by
          have := (hashKey_inj h).2
          omega
        rw [Hashable, hne _ hj']
        exact hfree j (by omega) (by rw [List.length_cons]; omega)
      simpa [Nat.add_assoc, Nat.add_comm 1 j] using hrest j (by simpa using hj)

theorem getGroups_of_holdsMeta {db : Redis} {f : Name} {i : ℕ} {ms : List GroupMeta}
    (hmeta : ∀ j (hj : j < ms.length), HoldsMeta db (hashKey f (i + j)) ms[j])
    (hlt : ∀ m ∈ ms, m.nodeId < 2 ^ 31) : getGroups db f i ms.length = .ok (some ms) := by
  induction ms generalizing i with
  | nil => rfl
  | cons m ms ih =>
    obtain ⟨h, hkey, hname, hnode⟩ := hmeta 0 (by simp)
    have hnode' : h nodeIdField = some (toDigits m.nodeId) := hnode
    have hmlt := hlt m List.mem_cons_self
    have hrest := ih (i := i + 1) (fun j hj ↦ by
      have := hmeta (j + 1) (by simpa using hj)
      rwa [show i + (j + 1) = i + 1 + j by omega] at this)
      fun m' hm' ↦ hlt m' (List.mem_cons_of_mem m hm')
    have hmod : ((m.nodeId : ℤ) % 2 ^ 64).toNat = m.nodeId := by omega
    rw [Nat.add_zero] at hkey
    simp only [List.length_cons, getGroups, Store.hmget, hkey, List.map_cons, List.map_nil, hname,
      hnode', stoi_toDigits, if_pos hmlt, hrest, hmod, List.getElem_cons_zero]
    rfl

/-- Whatever the loop returns, it read from hashes, and the node ids went through `stoi`. -/
theorem getGroups_ok {db : Redis} {f : Name} {i n : ℕ} {ms : List GroupMeta}
    (h : getGroups db f i n = .ok (some ms)) :
    ∀ j < n, ∃ hash, db (hashKey f (i + j)) = some (.hash hash) ∧
      ∀ text, hash nodeIdField = some text → (stoi text).isSome := by
  induction n generalizing i ms with
  | zero => simp
  | succ n ih =>
    rw [getGroups] at h
    split at h
    next => simp at h
    next g text hget =>
      obtain ⟨-, hvals⟩ | ⟨hash, hkey, hvals⟩ := Store.hmget_ok hget
      · simp at hvals
      · simp only [List.map_cons, List.map_nil, List.cons.injEq, and_true] at hvals
        split at h
        next => cases h
        next v hv =>
          rintro (- | j) hj
          · refine ⟨hash, hkey, fun text' htext' ↦ ?_⟩
            rw [← hvals.2, Option.some.injEq] at htext'
            rw [← htext', hv, Option.isSome_some]
          · cases hrest : getGroups db f (i + 1) n with
            | error e => simp [hrest, bind, Except.bind] at h
            | ok rest =>
              cases rest with
              | none => simp [hrest, bind, Except.bind, pure, Except.pure] at h
              | some rest =>
                have := ih hrest j (by omega)
                rwa [show i + 1 + j = i + (j + 1) by omega] at this
    next => cases h

/-! ## The cluster represents the tables -/

/-- The representation of the tables in the cluster: which keys of each family are present and what
they hold. -/
structure Represents (nodeNum : ℕ) (t : Tables) (db : Redis) : Prop where
  filename : ∀ g fr, t.recipes g = some fr → fr.filename = g
  num_lt : ∀ g fr, t.recipes g = some fr → fr.gm.length < 2 ^ 31
  nodes_lt : ∀ g fr, t.recipes g = some fr → ∀ m ∈ fr.gm, m.nodeId < 2 ^ 31
  count : ∀ g fr, t.recipes g = some fr → db g = some (.str (toDigits fr.gm.length))
  groups : ∀ g fr, t.recipes g = some fr →
    ∀ i (hi : i < fr.gm.length), HoldsMeta db (hashKey g i) fr.gm[i]
  of_str : ∀ k s, db k = some (.str s) → ∃ fr, t.recipes k = some fr
  of_hash : ∀ k h, db k = some (.hash h) → ∃ f i, k = hashKey f i
  of_set : ∀ k s, db k = some (.set s) → ∃ i, k = toDigits i
  node : ∀ i < nodeNum, db (toDigits i) = none ∧ t.features i = ∅ ∨
    db (toDigits i) = some (.set (t.features i))

theorem represents_empty (nodeNum : ℕ) :
    Represents nodeNum ⟨fun _ ↦ none, fun _ ↦ ∅⟩ fun _ ↦ none := by
  constructor <;> simp

section Represents

variable {t : Tables} {db : Redis}

theorem Represents.agrees (h : Represents nodeNum t db) : Agrees nodeNum t db := by
  refine ⟨fun f ↦ ?_, fun i hi ↦ ?_⟩
  · rw [getFileRecipeFromRedis, Store.get]
    cases hf : t.recipes f with
    | some fr =>
      have hread := getGroups_of_holdsMeta (i := 0)
        (by simpa using h.groups f fr hf) (h.nodes_lt f fr hf)
      have hname := h.filename f fr hf
      simp only [h.count f fr hf, stoi_toDigits, if_pos (h.num_lt f fr hf), Int.toNat_natCast,
        hread]
      subst hname
      rfl
    | none =>
      -- a name that was never stored may still be a key of another family
      split
      next => rfl
      next => rfl
      next s hs =>
        split at hs
        · simp at hs
        next s' hs' =>
          obtain ⟨fr, hfr⟩ := h.of_str f s' hs'
          simp [hf] at hfr
        · simp at hs
  · rcases h.node i hi with ⟨hnone, hempty⟩ | hset
    · simp [Store.smembers, hnone, hempty]
    · simp [Store.smembers, hset]

theorem Represents.hashable (h : Represents nodeNum t db) {fr : FileRecipe}
    (hfile : ∀ i < fr.gm.length, t.recipes (hashKey fr.filename i) = none) {i : ℕ}
    (hi : i < fr.gm.length) :
    Hashable (db.set fr.filename (toDigits fr.gm.length)) (hashKey fr.filename i) := by
  rw [Hashable, Store.set_of_ne (ne_hashKey fr.filename i).symm]
  cases hk : db (hashKey fr.filename i) with
  | none => exact Or.inl rfl
  | some v =>
    cases v with
    | str s =>
      obtain ⟨fr', hfr'⟩ := h.of_str _ s hk
      simp [hfile i hi] at hfr'
    | hash f => exact Or.inr ⟨f, rfl⟩
    | set s =>
      obtain ⟨j, hj⟩ := h.of_set _ s hk
      exact absurd hj (hashKey_ne_toDigits fr.filename i j)

/-- After a recipe write whose group keys can take hashes, these keys hold the new metadata. -/
theorem Represents.holdsMeta_self (h : Represents nodeNum t db) {fr : FileRecipe}
    (hfile : ∀ i < fr.gm.length, t.recipes (hashKey fr.filename i) = none) {i : ℕ}
    (hi : i < fr.gm.length) :
    HoldsMeta (setFileRecipeToRedis db fr).2 (hashKey fr.filename i) fr.gm[i] := by
  have hfree : ∀ j, 0 ≤ j → j < 0 + fr.gm.length →
      Hashable (db.set fr.filename (toDigits fr.gm.length)) (hashKey fr.filename j) :=
    fun j _ hj ↦ h.hashable hfile (by omega)
  simpa [setFileRecipeToRedis] using setGroups_holdsMeta hfree i hi

theorem setFileRecipeToRedis_self (db : Redis) (fr : FileRecipe) :
    (setFileRecipeToRedis db fr).2 fr.filename = some (.str (toDigits fr.gm.length)) :=
  setGroups_str (Store.set_self _)

/-- Keys that are neither the file name nor a group key of the file keep their value. -/
theorem setFileRecipeToRedis_of_ne {fr : FileRecipe} {k : Name} (hk : k ≠ fr.filename)
    (hk' : ∀ j, k ≠ hashKey fr.filename j) (db : Redis) :
    (setFileRecipeToRedis db fr).2 k = db k := by
  rw [setFileRecipeToRedis, setGroups_of_forall_ne hk', Store.set_of_ne hk]

theorem Represents.setFileRecipe (h : Represents nodeNum t db) {fr : FileRecipe}
    (hnum : fr.gm.length < 2 ^ 31) (hsep : Separated nodeNum t fr) :
    Represents nodeNum { t with recipes := Function.update t.recipes fr.filename (some fr) }
      (setFileRecipeToRedis db fr).2 := by
  -- what a stored recipe of the new tables can be
  have hcases : ∀ g fr', Function.update t.recipes fr.filename (some fr) g = some fr' →
      g = fr.filename ∧ fr' = fr ∨ g ≠ fr.filename ∧ t.recipes g = some fr' := by
    intro g fr' hg
    by_cases hgf : g = fr.filename
    · subst hgf
      rw [Function.update_self, Option.some.injEq] at hg
      exact Or.inl ⟨rfl, hg.symm⟩
    · rw [Function.update_of_ne hgf] at hg
      exact Or.inr ⟨hgf, hg⟩
  -- what the write can have done to a key
  have hkey : ∀ k, k = fr.filename ∨ (setFileRecipeToRedis db fr).2 k = db k ∨
      (∃ f, (setFileRecipeToRedis db fr).2 k = some (.hash f)) ∧ ∃ j, k = hashKey fr.filename j := by
    intro k
    by_cases hk : k = fr.filename
    · exact Or.inl hk
    · rcases setGroups_cases fr.filename 0 fr.gm
        (db.set fr.filename (toDigits fr.gm.length)) k with heq | ⟨-, hhash, j, -, hj⟩
      · exact Or.inr (Or.inl (heq.trans (Store.set_of_ne hk _)))
      · exact Or.inr (Or.inr ⟨hhash, j, hj⟩)
  constructor
  · intro g fr' hg
    rcases hcases g fr' hg with ⟨rfl, rfl⟩ | ⟨-, hg⟩
    · rfl
    · exact h.filename g fr' hg
  · intro g fr' hg
    rcases hcases g fr' hg with ⟨rfl, rfl⟩ | ⟨-, hg⟩
    · exact hnum
    · exact h.num_lt g fr' hg
  · intro g fr' hg
    rcases hcases g fr' hg with ⟨rfl, rfl⟩ | ⟨-, hg⟩
    · exact hsep.nodes_lt
    · exact h.nodes_lt g fr' hg
  · intro g fr' hg
    rcases hcases g fr' hg with ⟨rfl, rfl⟩ | ⟨hgf, hg⟩
    · exact setFileRecipeToRedis_self db fr'
    · exact setGroups_str ((Store.set_of_ne hgf _).trans (h.count g fr' hg))
  · intro g fr' hg i hi
    rcases hcases g fr' hg with ⟨rfl, rfl⟩ | ⟨hgf, hg⟩
    · exact h.holdsMeta_self hsep.not_file hi
    · rw [HoldsMeta, setFileRecipeToRedis_of_ne (hsep.not_group g fr' hg i hi).symm
        fun j hj ↦ hgf (hashKey_inj hj).1]
      exact h.groups g fr' hg i hi
  · intro k s hk
    by_cases hkf : k = fr.filename
    · exact ⟨fr, by simp [hkf]⟩
    · rcases (hkey k).resolve_left hkf with heq | ⟨⟨f, hf⟩, -⟩
      · simpa [Function.update_of_ne hkf] using h.of_str k s (heq ▸ hk)
      · simp [hf] at hk
  · intro k f hk
    rcases hkey k with rfl | heq | ⟨-, j, hj⟩
    · simp [setFileRecipeToRedis_self] at hk
    · exact h.of_hash k f (heq ▸ hk)
    · exact ⟨fr.filename, j, hj⟩
  · intro k s hk
    rcases hkey k with rfl | heq | ⟨⟨f, hf⟩, -⟩
    · simp [setFileRecipeToRedis_self] at hk
    · exact h.of_set k s (heq ▸ hk)
    · simp [hf] at hk
  · intro i hi
    rw [setFileRecipeToRedis_of_ne (hsep.not_node i hi).symm
      fun j ↦ (hashKey_ne_toDigits fr.filename j i).symm]
    exact h.node i hi

private theorem mapM_ok {α β ε : Type*} {f : α → Except ε β} {g : α → β} {l : List α}
    (h : ∀ a ∈ l, f a = .ok (g a)) : l.mapM f = .ok (l.map g) := by
  induction l with
  | nil => rfl
  | cons a l ih =>
    rw [List.mapM_cons, h a List.mem_cons_self, ih fun b hb ↦ h b (List.mem_cons_of_mem a hb)]
    rfl

theorem Represents.route (h : Represents nodeNum t db) {units : List SampleUnit}
    (hne : units ≠ []) (selected : Fin nodeNum) :
    Represents nodeNum (Op.apply t (.route units selected hne))
      (getNodeForStatefulRouting db units selected).2 := by
  obtain ⟨n, hn⟩ := selected
  have hread : nodeFeatures nodeNum db = .ok ((List.range nodeNum).map t.features) :=
    mapM_ok fun i hi ↦ h.agrees.2 i (List.mem_range.mp hi)
  have hfree : db (toDigits n) = none ∨ ∃ s, db (toDigits n) = some (.set s) :=
    (h.node n hn).imp (fun hnone ↦ hnone.1) fun hset ↦ ⟨_, hset⟩
  have hne' : (units.map fun u ↦ featureText u.feature) ≠ [] := by simpa using hne
  obtain ⟨db', hsadd⟩ := Store.sadd_isOk hne' hfree
  have hresult : (getNodeForStatefulRouting db units ⟨n, hn⟩).2 = db' := by
    simp only [getNodeForStatefulRouting, hread, hsadd]
  set xs := (units.map fun u ↦ featureText u.feature).toFinset with hxs
  have hdb' : db' = Function.update db (toDigits n) (some (.set (t.features n ∪ xs))) := by
    rcases Store.sadd_ok hsadd with ⟨hnone, heq⟩ | ⟨s, hs, heq⟩
    · have hempty : t.features n = ∅ := by
        rcases h.node n hn with ⟨-, hempty⟩ | hset
        · exact hempty
        · simp [hnone] at hset
      rw [heq, hempty, Finset.empty_union]
    · have hfeat : s = t.features n := by
        rcases h.node n hn with ⟨hnone, -⟩ | hset
        · simp [hs] at hnone
        · simpa [hs] using hset
      rw [heq, hfeat]
  have hother : ∀ k, k ≠ toDigits n → db' k = db k := fun k hk ↦ by
    rw [hdb', Function.update_of_ne hk]
  -- the touched key is neither a file name nor a group key
  have hnot : ∀ g fr, t.recipes g = some fr → g ≠ toDigits n := by
    rintro g fr hg rfl
    rcases h.node n hn with ⟨hnone, -⟩ | hset
    · simp [h.count _ fr hg] at hnone
    · simp [h.count _ fr hg] at hset
  rw [hresult]
  constructor
  · exact h.filename
  · exact h.num_lt
  · exact h.nodes_lt
  · intro g fr hg
    rw [hother g (hnot g fr hg)]
    exact h.count g fr hg
  · intro g fr hg i hi
    rw [HoldsMeta, hother _ (hashKey_ne_toDigits g i n)]
    exact h.groups g fr hg i hi
  · intro k s hk
    by_cases hkn : k = toDigits n
    · simp [hkn, hdb'] at hk
    · exact h.of_str k s (hother k hkn ▸ hk)
  · intro k f hk
    by_cases hkn : k = toDigits n
    · simp [hkn, hdb'] at hk
    · exact h.of_hash k f (hother k hkn ▸ hk)
  · intro k s hk
    by_cases hkn : k = toDigits n
    · exact ⟨n, hkn⟩
    · exact h.of_set k s (hother k hkn ▸ hk)
  · intro i hi
    by_cases hin : i = n
    · subst hin
      exact Or.inr (by simp [hdb', Op.apply, ← hxs])
    · rw [hother _ fun heq ↦ hin (toDigits_injective heq)]
      simpa [Op.apply, Function.update_of_ne hin] using h.node i hi

/-! ## A write that does not keep the families apart -/

/-- A file whose recipe is read back has hashes under all its group keys. -/
theorem hash_of_getFileRecipe {f : Name} {n : ℕ} {fr : FileRecipe} (hn : n < 2 ^ 31)
    (hcount : db f = some (.str (toDigits n)))
    (hread : getFileRecipeFromRedis db f = .ok (some fr)) :
    ∀ j < n, ∃ hash, db (hashKey f j) = some (.hash hash) ∧
      ∀ text, hash nodeIdField = some text → (stoi text).isSome := by
  simp only [getFileRecipeFromRedis, Store.get, hcount, stoi_toDigits, if_pos hn,
    Int.toNat_natCast] at hread
  cases hgm : getGroups db f 0 n with
  | error e => simp [hgm, bind, Except.bind] at hread
  | ok gm =>
    cases gm with
    | none => simp [hgm, bind, Except.bind, pure, Except.pure] at hread
    | some gm => simpa using getGroups_ok hgm

/-- **The first write that mixes the families is noticed.** After it, some file's recipe or some
node's features are read wrongly. -/
theorem Represents.not_agrees (h : Represents nodeNum t db) {fr : FileRecipe}
    (hnum : fr.gm.length < 2 ^ 31) (hsep : ¬ Separated nodeNum t fr) :
    ¬ Agrees nodeNum { t with recipes := Function.update t.recipes fr.filename (some fr) }
      (setFileRecipeToRedis db fr).2 := by
  rintro ⟨hfiles, hnodes⟩
  dsimp only at hfiles
  apply hsep
  have hself := hfiles fr.filename
  rw [Function.update_self] at hself
  have hself' := hash_of_getFileRecipe hnum (setFileRecipeToRedis_self db fr) hself
  have hfile : ∀ i < fr.gm.length, t.recipes (hashKey fr.filename i) = none := by
    intro i hi
    by_contra hsome
    obtain ⟨fr', hfr'⟩ := Option.ne_none_iff_exists'.mp hsome
    obtain ⟨hash, hhash, -⟩ := hself' i hi
    have hstr : (setFileRecipeToRedis db fr).2 (hashKey fr.filename i) = _ :=
      setGroups_str ((Store.set_of_ne (ne_hashKey fr.filename i).symm _).trans
        (h.count _ fr' hfr'))
    simp [hstr] at hhash
  refine ⟨?_, hfile, ?_, ?_⟩
  · intro g fr' hg i hi heq
    have hgf : g ≠ fr.filename := by
      rw [heq]
      exact ne_hashKey g i
    have hg' := hfiles g
    rw [Function.update_of_ne hgf, hg] at hg'
    have hcount : (setFileRecipeToRedis db fr).2 g = _ :=
      setGroups_str ((Store.set_of_ne hgf _).trans (h.count g fr' hg))
    obtain ⟨hash, hhash, -⟩ := hash_of_getFileRecipe (h.num_lt g fr' hg) hcount hg' i hi
    rw [← heq, setFileRecipeToRedis_self] at hhash
    simp at hhash
  · intro i hi heq
    have hi' := hnodes i hi
    rw [← heq, Store.smembers, setFileRecipeToRedis_self] at hi'
    simp at hi'
  · intro m hm
    obtain ⟨i, hi, rfl⟩ := List.getElem_of_mem hm
    obtain ⟨hash, hhash, -, hnode⟩ := h.holdsMeta_self hfile hi
    obtain ⟨hash', hhash', hstoi⟩ := hself' i hi
    obtain rfl : hash = hash' := by simpa [hhash] using hhash'
    have hfits := hstoi _ hnode
    rw [stoi_toDigits] at hfits
    by_contra hge
    rw [if_neg hge] at hfits
    simp at hfits

end Represents

/-! ## Whole runs -/

theorem tablesAfter_concat (ops : List (Op nodeNum)) (op : Op nodeNum) :
    tablesAfter (ops ++ [op]) = op.apply (tablesAfter ops) := by
  simp [tablesAfter]

theorem redisAfter_concat (ops : List (Op nodeNum)) (op : Op nodeNum) :
    redisAfter (ops ++ [op]) = op.exec (redisAfter ops) := by
  simp [redisAfter]

/-- One step: from a cluster that represents the tables, a separated operation leads to one that
represents them again. -/
theorem Represents.exec {t : Tables} {db : Redis} (h : Represents nodeNum t db) {op : Op nodeNum}
    (hsep : op.Separated t) : Represents nodeNum (op.apply t) (op.exec db) := by
  cases op with
  | setFileRecipe fr hnum => exact h.setFileRecipe hnum hsep
  | route units selected hne => exact h.route hne selected

/-- A run all of whose operations are separated represents the tables at its end. -/
theorem represents_of_separated (ops : List (Op nodeNum))
    (hsep : ∀ before op, before ++ [op] <+: ops → op.Separated (tablesAfter before)) :
    Represents nodeNum (tablesAfter ops) (redisAfter ops) := by
  induction ops using List.reverseRecOn with
  | nil => exact represents_empty nodeNum
  | append_singleton ops op ih =>
    rw [tablesAfter_concat, redisAfter_concat]
    refine (ih fun before op' hpre ↦ hsep before op' (hpre.trans (List.prefix_append ops [op]))).exec
      (hsep ops op List.prefix_rfl)

/-- **The cluster is the pair of tables.** In every run, every state reads back the tables exactly
when every recipe write of the run keeps the key families apart. -/
theorem agrees_iff_separated (ops : List (Op nodeNum)) :
    (∀ before, before <+: ops → Agrees nodeNum (tablesAfter before) (redisAfter before)) ↔
      ∀ before op, before ++ [op] <+: ops → op.Separated (tablesAfter before) := by
  constructor
  · intro hagrees
    induction ops using List.reverseRecOn with
    | nil => simp
    | append_singleton ops op ih =>
      have hsep := ih fun before hpre ↦ hagrees before (hpre.trans (List.prefix_append ops [op]))
      have hrep := represents_of_separated ops hsep
      have hlast := hagrees (ops ++ [op]) List.prefix_rfl
      rw [tablesAfter_concat, redisAfter_concat] at hlast
      have hop : op.Separated (tablesAfter ops) := by
        cases op with
        | setFileRecipe fr hnum =>
          by_contra hnot
          exact hrep.not_agrees hnum hnot hlast
        | route units selected hne => trivial
      intro before op' hpre
      rcases List.prefix_concat_iff.mp hpre with heq | hpre
      · obtain ⟨rfl, heq'⟩ := List.append_inj' heq rfl
        obtain rfl : op' = op := by simpa using heq'
        exact hop
      · exact hsep before op' hpre
  · intro hsep before hpre
    exact (represents_of_separated before fun b op h ↦ hsep b op (h.trans hpre)).agrees

/-- The file `a` of one group, then the empty file `a_0`: the second write replaces the hash of the
group by a string, and the recipe of `a` can no longer be read. -/
theorem not_agrees_a_then_a_0 :
    ∃ ops : List (Op 1), ¬ Agrees 1 (tablesAfter ops) (redisAfter ops) := by
  let a : FileRecipe := ⟨['a'], [⟨['a', '0'], 0⟩]⟩
  let a_0 : FileRecipe := ⟨['a', '_', '0'], []⟩
  refine ⟨[.setFileRecipe a (by decide), .setFileRecipe a_0 (by decide)], fun h ↦ ?_⟩
  have hread := h.1 ['a']
  revert hread
  decide

end UniDedup.Client
