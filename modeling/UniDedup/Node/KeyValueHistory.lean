import UniDedup.Lib.Stdio
import UniDedup.Lib.Word
import UniDedup.Node.Index

/-!
# The history of the key-value store

What the key-value store holds after any sequence of updates and deletions, with the store closed and
read back in between. The row of a key is determined by the ids that were given to the key and are not
deleted: the newest of them, as many as a row has room for. An older id that fell out of its row never
comes back, and as ids are deleted in the order they came, the id deleted is the last of its row, or is
not in it any more. So there are no holes, and the assertion of the deletion holds.

## The invariant

The history has for each key the ids it was given and those of them that are not deleted, and `Describes` says that
the row is computed from the latter (`rowOf`). An update puts an id in front, a deletion takes the last one off or
finds nothing to take; that no other id is asked for is the part of `Allowed` that speaks of the order.
-/

namespace UniDedup.Node

open Stdio

/-- An `int64_t`. -/
def IsInt64 (id : ℤ) : Prop := -2 ^ 63 ≤ id ∧ id < 2 ^ 63

theorem IsInt64.signed_le {id : ℤ} (h : IsInt64 id) : Word.signed (Word.le 8 id) = id := by
  refine Word.signed_le ?_ ?_
  · calc (-256 ^ 8 : ℤ) = -2 ^ 63 * 2 := by norm_num
      _ ≤ id * 2 := mul_le_mul_of_nonneg_right h.1 (by decide)
  · calc id * 2 < 2 ^ 63 * 2 := mul_lt_mul_of_pos_right h.2 (by decide)
      _ = 256 ^ 8 := by norm_num

theorem signed_le_four {n : ℕ} (h : n < 2 ^ 31) : (Word.signed (Word.le 4 n)).toNat = n := by
  have hfits : n * 2 < 256 ^ 4 := by
    calc n * 2 < 2 ^ 31 * 2 := Nat.mul_lt_mul_of_pos_right h (by decide)
      _ = 256 ^ 4 := by norm_num
  rw [Word.signed_le_natCast hfits, Int.toNat_natCast]

namespace KVStore

/-! ## The dump -/

/-- `close_kvstore_htable`: the bytes of `index/htable`, with the keys in the order of the table. -/
def close (cfg : Config) (kv : KVStore) (order : List Key) : Bytes :=
  Word.le 4 order.length ++ order.flatMap fun key ↦
    key ++ Word.le 4 cfg.valueLength ++ ((kv key).getD []).flatMap (Word.le 8)

def readIds : ℕ → Handle → Option (List ℤ × Handle)
  | 0, s => some ([], s)
  | n + 1, s => do
    let (bs, s) ← s.read 8
    let (ids, s) ← readIds n s
    return (Word.signed bs :: ids, s)

/-- A pair is read into a row filled with `temporaryId`; `none` where the assertion on the number of
ids fails. -/
def readPair (cfg : Config) (s : Handle) : Option ((Key × List ℤ) × Handle) := do
  let (key, s) ← s.read cfg.keySize
  let (bs, s) ← s.read 4
  let idNum := (Word.signed bs).toNat
  if cfg.valueLength < idNum then none
  else do
    let (ids, s) ← readIds idNum s
    return ((key, ids ++ List.replicate (cfg.valueLength - idNum) temporaryId), s)

/-- The loop over the pairs of the dump. -/
def readPairs (cfg : Config) : ℕ → KVStore → Handle → Option KVStore
  | 0, kv, _ => some kv
  | n + 1, kv, s => do
    let (pair, s) ← readPair cfg s
    readPairs cfg n (Function.update kv pair.1 (some pair.2)) s

/-- `init_kvstore_htable` with a dump. -/
def init (cfg : Config) (dump : Bytes) : Option KVStore := do
  let (bs, s) ← (Handle.openRead dump).read 4
  readPairs cfg (Word.signed bs).toNat empty s

/-! ## Rows -/

/-- The row of a key: the newest ids, filled up with `temporaryId`. -/
def row (n : ℕ) (ids : List ℤ) : List ℤ := ids.take n ++ List.replicate (n - ids.length) temporaryId

/-- The row of a key, which is there as long as the key has an id. -/
def rowOf (n : ℕ) (ids : List ℤ) : Option (List ℤ) := if ids = [] then none else some (row n ids)

section Rows

variable {n : ℕ} {ids : List ℤ} {id : ℤ}

@[simp] theorem length_row : (row n ids).length = n := by
  rw [row, List.length_append, List.length_take, List.length_replicate]
  omega

theorem row_nil : row n [] = List.replicate n temporaryId := by
  rw [row, List.take_nil, List.nil_append, List.length_nil, Nat.sub_zero]

theorem mem_row (h : id ≠ temporaryId) (hmem : id ∈ row n ids) : id ∈ ids := by
  rcases List.mem_append.mp hmem with hmem | hmem
  · exact List.mem_of_mem_take hmem
  · exact absurd (List.eq_of_mem_replicate hmem) h

theorem cons_take_row (hn : 0 < n) : id :: (row n ids).take (n - 1) = row n (id :: ids) := by
  obtain ⟨m, rfl⟩ := Nat.exists_eq_add_of_lt hn
  simp only [row, Nat.zero_add, Nat.add_sub_cancel, List.take_append, List.take_take, List.length_take,
    List.take_replicate, List.take_succ_cons, List.length_cons, List.cons_append]
  congr 2
  · congr 1
    omega
  · congr 1
    omega

theorem findIdx?_of_notMem (h : id ∉ ids) : ids.findIdx? (· = id) = none := by
  refine List.findIdx?_eq_none_iff.mpr fun x hx ↦ ?_
  rw [decide_eq_false_iff_not]
  rintro rfl
  exact h hx

theorem removeId_of_notMem {cfg : Config} (h : id ∉ ids) : removeId cfg ids id = some ids := by
  rw [removeId, findIdx?_of_notMem h]

/-- **Deleting the oldest id** of a key, which is the last of its row or has fallen out of it. -/
theorem removeId_row {cfg : Config} (hid : id ≠ temporaryId) (hnot : id ∉ ids) :
    removeId cfg (row cfg.valueLength (ids ++ [id])) id = some (row cfg.valueLength ids) := by
  by_cases hlen : ids.length < cfg.valueLength
  · have hfit : (ids ++ [id]).length ≤ cfg.valueLength := by
      rw [List.length_append]
      exact hlen
    have hrow : row cfg.valueLength (ids ++ [id]) =
        ids ++ id :: List.replicate (cfg.valueLength - (ids.length + 1)) temporaryId := by
      rw [row, List.length_append, List.length_singleton, List.take_of_length_le hfit,
        List.append_assoc, List.singleton_append]
    have hfind : (row cfg.valueLength (ids ++ [id])).findIdx? (· = id) = some ids.length := by
      rw [hrow, List.findIdx?_append, findIdx?_of_notMem hnot]
      simp [List.findIdx?_cons]
    rw [removeId, hfind]
    have hnext : ids.length = cfg.valueLength - 1 ∨
        (row cfg.valueLength (ids ++ [id]))[ids.length + 1]? = some temporaryId := by
      by_cases hlast : ids.length = cfg.valueLength - 1
      · exact .inl hlast
      · right
        rw [hrow, List.getElem?_append_right (Nat.le_succ _), Nat.succ_eq_add_one,
          Nat.add_sub_cancel_left, List.getElem?_cons_succ, List.getElem?_replicate,
          if_pos (by omega)]
    refine (if_pos hnext).trans (congrArg some ?_)
    obtain ⟨k, hk⟩ := Nat.exists_eq_add_of_lt hlen
    rw [hrow, row, List.take_of_length_le hlen.le, List.set_append_right _ _ le_rfl, Nat.sub_self,
      List.set_cons_zero, hk]
    congr 1
    rw [← List.replicate_succ]
    congr 1
    omega
  · have hrow : row cfg.valueLength (ids ++ [id]) = row cfg.valueLength ids := by
      rw [row, row, List.take_append_of_le_length (not_lt.mp hlen), List.length_append]
      congr 2
      omega
    rw [hrow]
    exact removeId_of_notMem fun hmem ↦ hnot (mem_row hid hmem)

theorem head?_row (hn : 0 < n) (htemp : temporaryId ∉ ids) :
    (row n ids).head? = some temporaryId ↔ ids = [] := by
  obtain ⟨m, rfl⟩ := Nat.exists_eq_add_of_lt hn
  cases ids with
  | nil => simp [row_nil, List.replicate_succ]
  | cons id ids =>
    rw [List.mem_cons, not_or] at htemp
    simp [row, Ne.symm htemp.1]

end Rows

/-! ## Reading the dump back -/

section Dump

variable {cfg : Config} {kv : KVStore} {s : Handle}

theorem readIds_eq {ids : List ℤ} (hids : ∀ id ∈ ids, IsInt64 id) {r : Bytes}
    (h : s.rest = ids.flatMap (Word.le 8) ++ r) :
    ∃ s', readIds ids.length s = some (ids, s') ∧ s'.rest = r := by
  induction ids generalizing s with
  | nil => exact ⟨s, rfl, h⟩
  | cons id ids ih =>
    rw [List.forall_mem_cons] at hids
    rw [List.flatMap_cons, List.append_assoc] at h
    obtain ⟨hread, hrest⟩ := Handle.read_eq h (Word.length_le 8 id)
    obtain ⟨s', hids', hrest'⟩ := ih hids.2 hrest
    refine ⟨s', ?_, hrest'⟩
    simp only [List.length_cons, readIds, hread, Option.bind_eq_bind, Option.bind_some, hids',
      hids.1.signed_le, Option.pure_def]

theorem readPair_eq (hlen : cfg.valueLength < 2 ^ 31) {key : Key} (hkey : key.length = cfg.keySize)
    {ids : List ℤ} (hrow : ids.length = cfg.valueLength)
    (hids : ∀ id ∈ ids, IsInt64 id) {r : Bytes}
    (h : s.rest = key ++ Word.le 4 cfg.valueLength ++ ids.flatMap (Word.le 8) ++ r) :
    ∃ s', readPair cfg s = some ((key, ids), s') ∧ s'.rest = r := by
  rw [List.append_assoc, List.append_assoc] at h
  obtain ⟨hread, hrest⟩ := Handle.read_eq h hkey
  obtain ⟨hread', hrest'⟩ := Handle.read_eq hrest (Word.length_le 4 _)
  obtain ⟨s', hids', hrest''⟩ := readIds_eq hids hrest'
  have hnum : (Word.signed (Word.le 4 cfg.valueLength)).toNat = ids.length := by
    rw [signed_le_four hlen, hrow]
  have hfull : ids ++ List.replicate (cfg.valueLength - ids.length) temporaryId = ids := by
    rw [hrow, Nat.sub_self, List.replicate_zero, List.append_nil]
  refine ⟨s', ?_, hrest''⟩
  rw [readPair]
  refine Option.bind_eq_some_iff.mpr ⟨_, hread, Option.bind_eq_some_iff.mpr ⟨_, hread', ?_⟩⟩
  dsimp only
  rw [hnum, if_neg hrow.not_gt]
  refine Option.bind_eq_some_iff.mpr ⟨_, hids', ?_⟩
  dsimp only
  rw [hfull]
  rfl

/-- The keys of the table in some order. A `GHashTable` has at most `2 ^ 31` slots, one of them free. -/
structure Enumerates (kv : KVStore) (order : List Key) : Prop where
  nodup : order.Nodup
  mem : ∀ key, key ∈ order ↔ (kv key).isSome = true
  length_lt : order.length < 2 ^ 31

/-- The rows of a store are as long as they have to be, and hold integers of 64 bits. -/
structure WellFormed (cfg : Config) (kv : KVStore) : Prop where
  key : ∀ key ids, kv key = some ids → key.length = cfg.keySize
  length : ∀ key ids, kv key = some ids → ids.length = cfg.valueLength
  range : ∀ key ids, kv key = some ids → ∀ id ∈ ids, IsInt64 id

theorem readPairs_eq (hlen : cfg.valueLength < 2 ^ 31) (hkv : WellFormed cfg kv) {order : List Key}
    (horder : ∀ key ∈ order, (kv key).isSome = true) {kv₀ : KVStore}
    (h : s.rest = order.flatMap fun key ↦
      key ++ Word.le 4 cfg.valueLength ++ ((kv key).getD []).flatMap (Word.le 8)) :
    readPairs cfg order.length kv₀ s = some fun key ↦ if key ∈ order then kv key else kv₀ key := by
  induction order generalizing kv₀ s with
  | nil => simp [readPairs]
  | cons key order ih =>
    rw [List.forall_mem_cons] at horder
    obtain ⟨ids, hids⟩ := Option.isSome_iff_exists.mp horder.1
    rw [List.flatMap_cons, hids, Option.getD_some] at h
    obtain ⟨s', hpair, hrest⟩ := readPair_eq hlen (hkv.key key ids hids) (hkv.length key ids hids)
      (hkv.range key ids hids) h
    rw [List.length_cons, readPairs, hpair, Option.bind_eq_bind, Option.bind_some]
    dsimp only
    rw [ih horder.2 hrest, ← hids]
    congr 1
    funext key'
    by_cases hmem : key' ∈ order
    · rw [if_pos hmem, if_pos (List.mem_cons_of_mem key hmem)]
    · rw [if_neg hmem]
      by_cases hkey : key' = key
      · rw [hkey, Function.update_self, if_pos List.mem_cons_self]
      · rw [Function.update_of_ne hkey, if_neg]
        exact fun h ↦ (List.mem_cons.mp h).elim hkey hmem

/-- **The dump is read back to the same mapping.** -/
theorem init_close (hlen : cfg.valueLength < 2 ^ 31) (hkv : WellFormed cfg kv) {order : List Key}
    (horder : Enumerates kv order) : init cfg (close cfg kv order) = some kv := by
  have hrest : (Handle.openRead (close cfg kv order)).rest = close cfg kv order := rfl
  obtain ⟨hread, hrest'⟩ := Handle.read_eq hrest (Word.length_le 4 _)
  rw [init, hread, Option.bind_eq_bind, Option.bind_some]
  dsimp only
  rw [signed_le_four horder.length_lt, readPairs_eq hlen hkv (fun key ↦ (horder.mem key).mp) hrest']
  congr 1
  funext key
  by_cases hmem : key ∈ order
  · rw [if_pos hmem]
  · rw [if_neg hmem]
    have hnone : kv key = none := by
      rwa [horder.mem, Bool.not_eq_true, Option.isSome_eq_false_iff, Option.isNone_iff_eq_none] at hmem
    rw [hnone]
    rfl

end Dump

end KVStore

/-! ## Histories -/

/-- The ids of each key, the newest first: those given to it, and those that are not deleted. -/
structure KVHistory where
  given : Key → List ℤ
  live : Key → List ℤ

/-- An operation on the store; `reopen` closes it and reads it back, with the keys in the order of the
table. -/
inductive KVEvent
  | update (key : Key) (id : ℤ)
  | delete (key : Key) (id : ℤ)
  | reopen (order : List Key)

def KVHistory.empty : KVHistory := ⟨fun _ ↦ [], fun _ ↦ []⟩

def KVHistory.after (h : KVHistory) : KVEvent → KVHistory
  | .update key id =>
    ⟨Function.update h.given key (id :: h.given key), Function.update h.live key (id :: h.live key)⟩
  | .delete key id => ⟨h.given, Function.update h.live key ((h.live key).filter (· ≠ id))⟩
  | .reopen _ => h

namespace KVEvent

/-- The ids of a key increase, and are deleted in the order they came. -/
def Allowed (cfg : Config) (h : KVHistory) (kv : KVStore) : KVEvent → Prop
  | update key id => key.length = cfg.keySize ∧ id ≠ temporaryId ∧ IsInt64 id ∧
      ∀ x ∈ h.given key, x < id
  | delete key id => id ≠ temporaryId ∧ ∀ x ∈ h.live key, id ≤ x
  | reopen order => kv.Enumerates order

/-- The operation on the store; `none` where an assertion fails. -/
def run (cfg : Config) (kv : KVStore) : KVEvent → Option KVStore
  | update key id => some (kv.update cfg key id)
  | delete key id => kv.delete cfg key id
  | reopen order => KVStore.init cfg (kv.close cfg order)

end KVEvent

/-- Every operation of a sequence is allowed when its turn comes. -/
def AllowedRun (cfg : Config) : KVHistory → KVStore → List KVEvent → Prop
  | _, _, [] => True
  | h, kv, e :: es =>
    e.Allowed cfg h kv ∧ ∀ kv', e.run cfg kv = some kv' → AllowedRun cfg (h.after e) kv' es

/-- **The store is what its history says**: the row of a key has the newest ids that are not deleted. -/
structure KVHistory.Describes (cfg : Config) (h : KVHistory) (kv : KVStore) : Prop where
  row : ∀ key, kv key = KVStore.rowOf cfg.valueLength (h.live key)
  live : ∀ key, (h.live key).Sublist (h.given key)
  increasing : ∀ key, (h.given key).Pairwise (· > ·)
  ids : ∀ key, ∀ id ∈ h.live key, id ≠ temporaryId ∧ IsInt64 id
  keys : ∀ key, h.live key ≠ [] → key.length = cfg.keySize

namespace KVHistory

variable {cfg : Config} {h : KVHistory} {kv : KVStore} {key : Key} {id : ℤ}

theorem describes_empty : KVHistory.empty.Describes cfg KVStore.empty where
  row _ := rfl
  live _ := List.Sublist.refl _
  increasing _ := .nil
  ids _ _ h := absurd h List.not_mem_nil
  keys _ h := absurd rfl h

theorem Describes.update (hd : h.Describes cfg kv) (hpos : 0 < cfg.valueLength)
    (ha : KVEvent.Allowed cfg h kv (.update key id)) :
    (h.after (.update key id)).Describes cfg (kv.update cfg key id) := by
  obtain ⟨hkey, hid, hrange, hnew⟩ := ha
  have hrow : (kv key).getD (List.replicate cfg.valueLength temporaryId) =
      KVStore.row cfg.valueLength (h.live key) := by
    rw [hd.row, KVStore.rowOf]
    split_ifs with hnil
    · rw [hnil, KVStore.row_nil]
      rfl
    · rfl
  constructor
  case row =>
    intro key'
    by_cases hk : key' = key
    · subst hk
      simp only [KVStore.update, after, Function.update_self, hrow]
      rw [KVStore.rowOf, if_neg (List.cons_ne_nil _ _), KVStore.cons_take_row hpos]
    · simp only [KVStore.update, after, Function.update_of_ne hk]
      exact hd.row key'
  case live =>
    intro key'
    by_cases hk : key' = key
    · subst hk
      simp only [after, Function.update_self]
      exact (hd.live key').cons_cons id
    · simp only [after, Function.update_of_ne hk]
      exact hd.live key'
  case increasing =>
    intro key'
    by_cases hk : key' = key
    · subst hk
      simp only [after, Function.update_self]
      exact List.pairwise_cons.mpr ⟨hnew, hd.increasing key'⟩
    · simp only [after, Function.update_of_ne hk]
      exact hd.increasing key'
  case ids =>
    intro key'
    by_cases hk : key' = key
    · subst hk
      simp only [after, Function.update_self]
      exact List.forall_mem_cons.mpr ⟨⟨hid, hrange⟩, hd.ids key'⟩
    · simp only [after, Function.update_of_ne hk]
      exact hd.ids key'
  case keys =>
    intro key'
    by_cases hk : key' = key
    · exact fun _ ↦ hk ▸ hkey
    · simp only [after, Function.update_of_ne hk]
      exact hd.keys key'

theorem Describes.split (hd : h.Describes cfg kv) (hfifo : ∀ x ∈ h.live key, id ≤ x)
    (hmem : id ∈ h.live key) : ∃ ids, h.live key = ids ++ [id] ∧ id ∉ ids := by
  obtain ⟨ids, rest, hlive⟩ := List.append_of_mem hmem
  have hsorted := (hd.increasing key).sublist (hd.live key)
  rw [hlive, List.pairwise_append, List.pairwise_cons] at hsorted
  have hrest : rest = [] := by
    refine List.eq_nil_iff_forall_not_mem.mpr fun x hx ↦ ?_
    have hle := hfifo x (hlive ▸ List.mem_append_right ids (List.mem_cons_of_mem id hx))
    exact absurd (hsorted.2.1.1 x hx) (not_lt.mpr hle)
  subst hrest
  exact ⟨ids, hlive, fun hid ↦ lt_irrefl _ (hsorted.2.2 id hid id List.mem_cons_self)⟩

theorem Describes.delete (hd : h.Describes cfg kv) (hpos : 0 < cfg.valueLength)
    (ha : KVEvent.Allowed cfg h kv (.delete key id)) :
    ∃ kv', kv.delete cfg key id = some kv' ∧ (h.after (.delete key id)).Describes cfg kv' := by
  obtain ⟨hid, hfifo⟩ := ha
  -- what is left in the row of the key
  have hdelete : kv.delete cfg key id = some (Function.update kv key
      (KVStore.rowOf cfg.valueLength ((h.live key).filter (· ≠ id)))) := by
    have hrow := hd.row key
    rw [KVStore.rowOf] at hrow
    split_ifs at hrow with hnil
    · have hsame : Function.update kv key none = kv := by
        rw [← hrow, Function.update_eq_self]
      rw [KVStore.delete, hrow, hnil, List.filter_nil, KVStore.rowOf, if_pos rfl, hsame]
    · rw [KVStore.delete, hrow]
      dsimp only
      have hleft : KVStore.removeId cfg (KVStore.row cfg.valueLength (h.live key)) id =
          some (KVStore.row cfg.valueLength ((h.live key).filter (· ≠ id))) := by
        by_cases hmem : id ∈ h.live key
        · obtain ⟨ids, hlive, hids⟩ := hd.split hfifo hmem
          have hfilter : (ids ++ [id]).filter (· ≠ id) = ids := by
            rw [List.filter_append, List.filter_eq_self.mpr, List.filter_cons_of_neg, List.filter_nil,
              List.append_nil]
            · simp
            · intro x hx
              exact decide_eq_true fun heq ↦ hids (heq ▸ hx)
          rw [hlive, hfilter]
          exact KVStore.removeId_row hid hids
        · have hfilter : (h.live key).filter (· ≠ id) = h.live key :=
            List.filter_eq_self.mpr fun x hx ↦ decide_eq_true fun heq ↦ hmem (heq ▸ hx)
          rw [hfilter]
          exact KVStore.removeId_of_notMem fun hrow ↦ hmem (KVStore.mem_row hid hrow)
      have htemp : temporaryId ∉ (h.live key).filter (· ≠ id) := fun hmem ↦
        (hd.ids key _ (List.mem_of_mem_filter hmem)).1 rfl
      rw [hleft, Option.map_some, KVStore.rowOf]
      congr 2
      exact if_congr (KVStore.head?_row hpos htemp) rfl rfl
  refine ⟨_, hdelete, ?_⟩
  have hsub : ∀ key', ((h.after (.delete key id)).live key').Sublist (h.live key') := by
    intro key'
    by_cases hk : key' = key
    · subst hk
      simp only [after, Function.update_self]
      exact List.filter_sublist
    · simp only [after, Function.update_of_ne hk]
      exact List.Sublist.refl _
  constructor
  case row =>
    intro key'
    by_cases hk : key' = key
    · subst hk
      simp only [after, Function.update_self]
    · simp only [after, Function.update_of_ne hk]
      exact hd.row key'
  case live => exact fun key' ↦ (hsub key').trans (hd.live key')
  case increasing => exact hd.increasing
  case ids => exact fun key' x hx ↦ hd.ids key' x ((hsub key').subset hx)
  case keys =>
    intro key' hne
    refine hd.keys key' fun hnil ↦ hne ?_
    have hsub' := hsub key'
    rw [hnil] at hsub'
    exact List.sublist_nil.mp hsub'

theorem Describes.wellFormed (hd : h.Describes cfg kv) : kv.WellFormed cfg := by
  have hrow : ∀ key ids, kv key = some ids →
      h.live key ≠ [] ∧ ids = KVStore.row cfg.valueLength (h.live key) := by
    intro key ids hids
    rw [hd.row, KVStore.rowOf] at hids
    split_ifs at hids with hnil
    exact ⟨hnil, (Option.some.inj hids).symm⟩
  constructor
  case key => exact fun key ids hids ↦ hd.keys key (hrow key ids hids).1
  case length =>
    intro key ids hids
    rw [(hrow key ids hids).2]
    exact KVStore.length_row
  case range =>
    intro key ids hids id hid
    rw [(hrow key ids hids).2] at hid
    by_cases htemp : id = temporaryId
    · rw [htemp]
      exact ⟨by decide, by decide⟩
    · exact (hd.ids key id (KVStore.mem_row htemp hid)).2

/-- **One operation**: no assertion fails, and the store stays what its history says. -/
theorem Describes.step (hd : h.Describes cfg kv) (hpos : 0 < cfg.valueLength)
    (hlen : cfg.valueLength < 2 ^ 31) {e : KVEvent} (ha : e.Allowed cfg h kv) :
    ∃ kv', e.run cfg kv = some kv' ∧ (h.after e).Describes cfg kv' := by
  cases e with
  | update key id => exact ⟨_, rfl, hd.update hpos ha⟩
  | delete key id => exact hd.delete hpos ha
  | reopen order => exact ⟨kv, KVStore.init_close hlen hd.wellFormed ha, hd⟩

theorem Describes.run (hd : h.Describes cfg kv) (hpos : 0 < cfg.valueLength)
    (hlen : cfg.valueLength < 2 ^ 31) {events : List KVEvent} (ha : AllowedRun cfg h kv events) :
    ∃ kv', events.foldlM (fun kv e ↦ e.run cfg kv) kv = some kv' ∧
      (events.foldl after h).Describes cfg kv' := by
  induction events generalizing h kv with
  | nil => exact ⟨kv, rfl, hd⟩
  | cons e events ih =>
    obtain ⟨kv', hrun, hd'⟩ := hd.step hpos hlen ha.1
    obtain ⟨kv'', hruns, hd''⟩ := ih hd' (ha.2 kv' hrun)
    exact ⟨kv'', Option.bind_eq_some_iff.mpr ⟨kv', hrun, hruns⟩, hd''⟩

end KVHistory

/-- **The key-value store follows its history**: in every sequence of operations no assertion fails, the
row of a key has the newest ids given to it that are not deleted, and reading the store back from its
dump changes nothing. -/
theorem kvstore_follows_history (cfg : Config) (hpos : 0 < cfg.valueLength)
    (hlen : cfg.valueLength < 2 ^ 31) (events : List KVEvent)
    (ha : AllowedRun cfg .empty .empty events) :
    ∃ kv, events.foldlM (fun kv e ↦ e.run cfg kv) KVStore.empty = some kv ∧
      (∀ key, kv key = KVStore.rowOf cfg.valueLength ((events.foldl KVHistory.after .empty).live key)) ∧
      ∀ order, kv.Enumerates order → KVStore.init cfg (kv.close cfg order) = some kv := by
  obtain ⟨kv, hrun, hd⟩ := KVHistory.describes_empty.run hpos hlen ha
  exact ⟨kv, hrun, hd.row, fun order ↦ KVStore.init_close hlen hd.wellFormed⟩

def shortConfig : Config := { Config.start with keySize := 1, valueLength := 2 }

/-- Two ids are given to a key, the store is read back, and the older one is deleted. -/
def shortHistory : List KVEvent := [.update [1] 5, .update [1] 6, .reopen [[1]], .delete [1] 5]

theorem shortHistory_allowed : AllowedRun shortConfig .empty .empty shortHistory := by
  refine ⟨⟨rfl, by decide, ⟨by decide, by decide⟩, ?_⟩, fun kv₁ h₁ ↦
    ⟨⟨rfl, by decide, ⟨by decide, by decide⟩, ?_⟩, fun kv₂ h₂ ↦ ⟨?_, fun kv₃ h₃ ↦ ⟨⟨by decide, ?_⟩,
      fun _ _ ↦ trivial⟩⟩⟩⟩
  · exact fun x hx ↦ absurd hx List.not_mem_nil
  · intro x hx
    obtain rfl := List.mem_singleton.mp hx
    decide
  · obtain rfl := Option.some.inj h₁
    obtain rfl := Option.some.inj h₂
    refine ⟨List.nodup_singleton _, fun key ↦ ?_, by decide⟩
    rw [List.mem_singleton]
    constructor
    · rintro rfl
      rfl
    · intro hsome
      by_contra hne
      have hnone : ((KVStore.empty.update shortConfig [1] 5).update shortConfig [1] 6) key = none := by
        rw [KVStore.update, Function.update_of_ne hne, KVStore.update, Function.update_of_ne hne]
        rfl
      rw [hnone] at hsome
      cases hsome
  · intro x hx
    have hx : x ∈ [(6 : ℤ), 5] := hx
    simp only [List.mem_cons, List.not_mem_nil, or_false] at hx
    obtain rfl | rfl := hx <;> decide

theorem kvstore_follows_history_short :
    ∃ kv, shortHistory.foldlM (fun kv e ↦ e.run shortConfig kv) KVStore.empty = some kv ∧
      (∀ key, kv key = KVStore.rowOf 2 ((shortHistory.foldl KVHistory.after .empty).live key)) ∧
      ∀ order, kv.Enumerates order → KVStore.init shortConfig (kv.close shortConfig order) = some kv :=
  kvstore_follows_history shortConfig (by decide) (by decide) shortHistory shortHistory_allowed

end UniDedup.Node
