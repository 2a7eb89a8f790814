import UniDedup.Node.System

/-!
# What the key-value store has

The value of a key is a row of ids filled up with `temporaryId`. `Has kv key id` says that a real id
is in the row of a key, and `Tidy` that no row has one twice: `kvstore_htable_delete` takes out one
occurrence only. Updating adds the new id at most, and deleting takes the id out for good.
-/

namespace UniDedup.Node

open Outcome

namespace KVStore

variable {cfg : Config} {kv kv' : KVStore} {key key' : Key} {id id' : ℤ}

def Has (kv : KVStore) (key : Key) (id : ℤ) : Prop :=
  id ≠ temporaryId ∧ ∃ ids, kv key = some ids ∧ id ∈ ids

def Tidy (kv : KVStore) : Prop :=
  ∀ key ids, kv key = some ids → (ids.filter (· ≠ temporaryId)).Nodup

theorem not_has_empty : ¬Has empty key id := by
  rintro ⟨-, ids, h, -⟩
  cases h

theorem tidy_empty : Tidy empty := fun _ _ h ↦ by cases h

/-! ## Updating -/

theorem updateAll_of_notMem : ∀ {features : List Key} {kv : KVStore},
    key ∉ features → kv.updateAll cfg features id key = kv key
  | [], _, _ => rfl
  | k :: features, kv, h => by
    rw [List.mem_cons, not_or] at h
    rw [updateAll, List.foldl_cons, ← updateAll, updateAll_of_notMem h.2, update,
      Function.update_of_ne h.1]

theorem updateAll_of_mem : ∀ {features : List Key} {kv : KVStore},
    key ∈ features → ∃ ids, kv.updateAll cfg features id key = some (id :: ids)
  | k :: features, kv, h => by
    rw [updateAll, List.foldl_cons, ← updateAll]
    by_cases hmem : key ∈ features
    · exact updateAll_of_mem hmem
    · obtain rfl : key = k := (List.mem_cons.mp h).resolve_right hmem
      rw [updateAll_of_notMem hmem, update, Function.update_self]
      exact ⟨_, rfl⟩

theorem has_of_mem_getD (hid : id ≠ temporaryId)
    (h : id ∈ (kv key).getD (List.replicate cfg.valueLength temporaryId)) : Has kv key id := by
  cases hkv : kv key with
  | none =>
    rw [hkv, Option.getD_none] at h
    exact absurd (List.eq_of_mem_replicate h) hid
  | some ids =>
    rw [hkv, Option.getD_some] at h
    exact ⟨hid, ids, hkv, h⟩

theorem Has.of_update (h : Has (kv.update cfg key id) key' id') :
    key' = key ∧ id' = id ∨ Has kv key' id' := by
  obtain ⟨hid, ids, hkv, hmem⟩ := h
  by_cases hkey : key' = key
  · subst hkey
    rw [update, Function.update_self] at hkv
    cases hkv
    rcases List.mem_cons.mp hmem with rfl | hmem
    · exact .inl ⟨rfl, rfl⟩
    · exact .inr (has_of_mem_getD hid (List.mem_of_mem_take hmem))
  · rw [update, Function.update_of_ne hkey] at hkv
    exact .inr ⟨hid, ids, hkv, hmem⟩

theorem Tidy.update (h : Tidy kv) (hid : ¬Has kv key id) : Tidy (kv.update cfg key id) := by
  intro key' ids hkv
  by_cases hkey : key' = key
  · subst hkey
    rw [KVStore.update, Function.update_self] at hkv
    cases hkv
    have hrow : (((kv key').getD (List.replicate cfg.valueLength temporaryId)).filter
        (· ≠ temporaryId)).Nodup := by
      cases hkv : kv key' with
      | none =>
        have : (List.replicate cfg.valueLength temporaryId).filter (· ≠ temporaryId) = [] := by
          simp
        rw [Option.getD_none, this]
        exact List.nodup_nil
      | some ids => exact h key' ids hkv
    have htake := hrow.sublist ((List.take_sublist (cfg.valueLength - 1) _).filter _)
    by_cases htemp : id = temporaryId
    · rw [List.filter_cons_of_neg (by simp [htemp])]
      exact htake
    · rw [List.filter_cons_of_pos (by simp [htemp]), List.nodup_cons]
      refine ⟨fun hmem ↦ hid ?_, htake⟩
      exact has_of_mem_getD htemp (List.mem_of_mem_take (List.mem_filter.mp hmem).1)
  · rw [KVStore.update, Function.update_of_ne hkey] at hkv
    exact h key' ids hkv

theorem Has.of_updateAll : ∀ {features : List Key} {kv : KVStore},
    Has (kv.updateAll cfg features id) key' id' → key' ∈ features ∧ id' = id ∨ Has kv key' id'
  | [], _, h => .inr h
  | k :: features, kv, h => by
    rw [updateAll, List.foldl_cons, ← updateAll] at h
    rcases Has.of_updateAll h with ⟨hmem, rfl⟩ | h
    · exact .inl ⟨List.mem_cons_of_mem _ hmem, rfl⟩
    · rcases h.of_update with ⟨rfl, rfl⟩ | h
      · exact .inl ⟨List.mem_cons_self, rfl⟩
      · exact .inr h

theorem Tidy.updateAll : ∀ {features : List Key} {kv : KVStore}, Tidy kv → features.Nodup →
    (∀ key ∈ features, ¬Has kv key id) → Tidy (kv.updateAll cfg features id)
  | [], _, h, _, _ => h
  | k :: features, kv, h, hf, hid => by
    rw [List.nodup_cons] at hf
    rw [KVStore.updateAll, List.foldl_cons, ← KVStore.updateAll]
    refine Tidy.updateAll (h.update (hid k List.mem_cons_self)) hf.2 fun key hkey hhas ↦ ?_
    rcases hhas.of_update with ⟨rfl, -⟩ | hhas
    · exact hf.1 hkey
    · exact hid key (List.mem_cons_of_mem _ hkey) hhas

/-! ## Deleting -/

theorem removeId_eq_some {value value' : List ℤ} (h : removeId cfg value id = some value') :
    (id ∉ value ∧ value' = value) ∨
    ∃ i, ∃ hi : i < value.length, value[i] = id ∧ value' = value.set i temporaryId := by
  unfold removeId at h
  split at h
  · rename_i hnone
    cases h
    refine .inl ⟨fun hmem ↦ ?_, rfl⟩
    have := List.findIdx?_eq_none_iff.mp hnone id hmem
    simp at this
  · rename_i i hi
    split_ifs at h
    cases h
    obtain ⟨hlt, hid, -⟩ := List.findIdx?_eq_some_iff_getElem.mp hi
    exact .inr ⟨i, hlt, by simpa using hid, rfl⟩

theorem filter_set_sublist {p : ℤ → Bool} {a : ℤ} (ha : p a = false) : ∀ (l : List ℤ) (i : ℕ),
    ((l.set i a).filter p).Sublist (l.filter p)
  | [], _ => by simp
  | x :: l, 0 => by
    rw [List.set_cons_zero, List.filter_cons_of_neg (by simp [ha])]
    exact (List.sublist_cons_self x l).filter p
  | x :: l, i + 1 => by
    rw [List.set_cons_succ]
    by_cases hx : p x
    · rw [List.filter_cons_of_pos hx, List.filter_cons_of_pos hx]
      exact (filter_set_sublist ha l i).cons_cons x
    · rw [List.filter_cons_of_neg hx, List.filter_cons_of_neg hx]
      exact filter_set_sublist ha l i

theorem delete_row {ids' : List ℤ} (hd : kv.delete cfg key id = some kv')
    (hkv : kv' key' = some ids') :
    ∃ ids, kv key' = some ids ∧ (ids' = ids ∧ (key' = key → id ∉ ids) ∨
      key' = key ∧ ∃ i, ∃ hi : i < ids.length, ids[i] = id ∧ ids' = ids.set i temporaryId) := by
  unfold delete at hd
  split at hd
  · rename_i hnone
    cases hd
    refine ⟨ids', hkv, .inl ⟨rfl, ?_⟩⟩
    rintro rfl
    rw [hnone] at hkv
    cases hkv
  · rename_i value hvalue
    obtain ⟨value', hremove, rfl⟩ := Option.map_eq_some_iff.mp hd
    by_cases hkey : key' = key
    · subst hkey
      rw [Function.update_self] at hkv
      split_ifs at hkv
      cases hkv
      refine ⟨value, hvalue, ?_⟩
      rcases removeId_eq_some hremove with ⟨hnot, rfl⟩ | ⟨i, hi, hid, rfl⟩
      · exact .inl ⟨rfl, fun _ ↦ hnot⟩
      · exact .inr ⟨rfl, i, hi, hid, rfl⟩
    · rw [Function.update_of_ne hkey] at hkv
      exact ⟨ids', hkv, .inl ⟨rfl, fun h ↦ absurd h hkey⟩⟩

theorem Has.of_delete (hd : kv.delete cfg key id = some kv') (h : Has kv' key' id') :
    Has kv key' id' := by
  obtain ⟨hid, ids', hkv, hmem⟩ := h
  obtain ⟨ids, hids, ⟨rfl, -⟩ | ⟨-, i, -, -, rfl⟩⟩ := delete_row hd hkv
  · exact ⟨hid, _, hids, hmem⟩
  · rcases List.mem_or_eq_of_mem_set hmem with hmem | htemp
    · exact ⟨hid, ids, hids, hmem⟩
    · exact absurd htemp hid

theorem Tidy.delete (h : Tidy kv) (hd : kv.delete cfg key id = some kv') : Tidy kv' := by
  intro key' ids' hkv
  obtain ⟨ids, hids, ⟨rfl, -⟩ | ⟨-, i, -, -, rfl⟩⟩ := delete_row hd hkv
  · exact h key' _ hids
  · exact (h key' ids hids).sublist (filter_set_sublist (by simp) ids i)

/-- **A deleted id is gone.** -/
theorem not_has_of_delete (h : Tidy kv) (hd : kv.delete cfg key id = some kv') : ¬Has kv' key id := by
  rintro ⟨hid, ids', hkv, hmem⟩
  obtain ⟨ids, hids, ⟨rfl, hnot⟩ | ⟨-, i, hi, hget, rfl⟩⟩ := delete_row hd hkv
  · exact hnot rfl hmem
  · have hcount : ids.count id ≤ 1 := by
      rw [← List.count_filter (p := (· ≠ temporaryId)) (by simpa using hid)]
      exact List.nodup_iff_count_le_one.mp (h key ids hids) id
    have hset : (ids.set i temporaryId).count id = 0 := by
      rw [List.count_set hi, hget]
      simp only [beq_self_eq_true, if_true, beq_iff_eq, Ne.symm hid, if_false]
      omega
    exact List.count_eq_zero.mp hset hmem

end KVStore

/-- **Deleting a list of entries.** -/
theorem deleteEntries_spec {cfg : Config} : ∀ {entries : List (Fingerprint × ℤ)} {kv kv' : KVStore},
    deleteEntries cfg kv entries = .ok kv' → kv.Tidy → kv'.Tidy ∧
    (∀ key id, kv'.Has key id → kv.Has key id) ∧ ∀ e ∈ entries, ¬kv'.Has (keyOf cfg e.1) e.2
  | [], kv, kv', h, ht => by
    cases h
    exact ⟨ht, fun _ _ h ↦ h, fun _ h ↦ by simp at h⟩
  | e :: entries, kv, kv', h, ht => by
    simp only [deleteEntries, List.foldlM_cons, bind_eq_ok, getOr_eq_ok] at h
    obtain ⟨kv₁, hd, h⟩ := h
    obtain ⟨htidy, hhas, hgone⟩ := deleteEntries_spec h (ht.delete hd)
    refine ⟨htidy, fun key id hh ↦ (hhas key id hh).of_delete hd, fun e' he' ↦ ?_⟩
    rcases List.mem_cons.mp he' with rfl | he'
    · exact fun hh ↦ KVStore.not_has_of_delete ht hd (hhas _ _ hh)
    · exact hgone e' he'

end UniDedup.Node
