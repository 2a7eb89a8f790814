import Mathlib.Data.Finset.Dedup
import Mathlib.Data.List.Sort
import UniDedup.Lib.GreedyCover
import UniDedup.Node.KeyValueHistory

/-!
# The choice of similar segments

`top_segment_select` collects, for each segment that shares a feature, the features it shares, and then
prefetches the segment with the most features, takes its features from the others, sorts them again and
goes on. What it chooses is a greedy cover of the features.

The collection asserts that a feature is not entered for a segment twice. So it needs rows without
repetitions, which is what a store has whose ids increase.
-/

namespace UniDedup.Node

open Outcome

/-! ## Who shares what -/

/-- The segment ids under a key, up to the first free place. -/
def rowIds (kv : KVStore) (key : Key) : List ℤ := ((kv key).getD []).takeWhile (· ≠ temporaryId)

def sharedKeys (kv : KVStore) (features : List Key) (id : ℤ) : List Key :=
  features.filter fun key ↦ id ∈ rowIds kv key

def sharing (kv : KVStore) (features : List Key) : Finset ℤ := (features.flatMap (rowIds kv)).toFinset

/-- The list has the segments that hold a feature, with the features they hold. -/
structure Collects (held : ℤ → List Key) (similar : List SimilarSegment) : Prop where
  nodup : (similar.map Prod.fst).Nodup
  mem : ∀ s, s ∈ similar ↔ s.2 = held s.1 ∧ s.2 ≠ []

section Collect

variable {held : ℤ → List Key} {similar : List SimilarSegment} {key : Key} {id : ℤ} {ids : List ℤ}

theorem Collects.find?_eq (h : Collects held similar) :
    similar.find? (fun s ↦ s.1 = id) = if held id = [] then none else some (id, held id) := by
  cases hfind : similar.find? fun s ↦ s.1 = id with
  | none =>
    rw [if_pos]
    by_contra hne
    have hmem := (h.mem (id, held id)).mpr ⟨rfl, hne⟩
    exact absurd rfl (of_decide_eq_false (Bool.eq_false_iff.mpr (List.find?_eq_none.mp hfind _ hmem)))
  | some s =>
    have hid : s.1 = id := by simpa using List.find?_some hfind
    obtain ⟨hheld, hne⟩ := (h.mem s).mp (List.mem_of_find?_eq_some hfind)
    subst hid
    rw [← hheld, if_neg hne]

theorem Collects.addSimilar (h : Collects held similar) (hkey : key ∉ held id) :
    ∃ similar', addSimilar key similar id = .ok similar' ∧
      Collects (Function.update held id (held id ++ [key])) similar' := by
  have hfind := @Collects.find?_eq _ _ id h
  rw [Node.addSimilar]
  by_cases hnil : held id = []
  · rw [if_pos hnil] at hfind
    rw [hfind]
    have hnew : ∀ s ∈ similar, s.1 ≠ id := fun s hs hid ↦
      ((h.mem s).mp hs).2 (((h.mem s).mp hs).1.trans (hid ▸ hnil))
    refine ⟨_, rfl, ?_, fun s ↦ ?_⟩
    · rw [List.map_append, List.nodup_append]
      refine ⟨h.nodup, List.nodup_singleton _, ?_⟩
      rintro _ hs _ hid rfl
      obtain ⟨s, hs, hsid⟩ := List.mem_map.mp hs
      exact hnew s hs (hsid.trans (List.mem_singleton.mp hid))
    · rw [List.mem_append, List.mem_singleton, hnil, List.nil_append]
      by_cases hid : s.1 = id
      · rw [hid, Function.update_self]
        constructor
        · rintro (hs | rfl)
          · exact absurd hid (hnew s hs)
          · exact ⟨rfl, List.cons_ne_nil _ _⟩
        · rintro ⟨hkeys, -⟩
          exact .inr (Prod.ext hid hkeys)
      · rw [Function.update_of_ne hid, h.mem s]
        exact or_iff_left fun hs ↦ hid (hs ▸ rfl)
  · rw [if_neg hnil] at hfind
    rw [hfind]
    refine ⟨_, bind_eq_ok.mpr ⟨(), check_eq_ok.mpr hkey, rfl⟩, ?_, fun s ↦ ?_⟩
    · rw [List.map_map]
      have hfst : (Prod.fst ∘ fun t : SimilarSegment ↦ if t.1 = id then (t.1, t.2 ++ [key]) else t) =
          Prod.fst := by
        funext t
        rw [Function.comp_apply]
        split_ifs <;> rfl
      rw [hfst]
      exact h.nodup
    · rw [List.mem_map]
      by_cases hid : s.1 = id
      · rw [hid, Function.update_self]
        constructor
        · rintro ⟨t, ht, rfl⟩
          split_ifs at hid ⊢ with htid
          · exact ⟨by rw [((h.mem t).mp ht).1, htid], by simp⟩
          · exact absurd hid htid
        · rintro ⟨hkeys, -⟩
          refine ⟨(id, held id), (h.mem _).mpr ⟨rfl, hnil⟩, ?_⟩
          rw [if_pos rfl]
          exact Prod.ext hid.symm hkeys.symm
      · rw [Function.update_of_ne hid, ← h.mem s]
        constructor
        · rintro ⟨t, ht, rfl⟩
          split_ifs at hid ⊢ with htid
          · exact absurd htid hid
          · exact ht
        · exact fun hs ↦ ⟨s, hs, if_neg hid⟩

theorem Collects.addSimilar_fail (h : Collects held similar) (hkey : key ∈ held id) :
    Node.addSimilar key similar id = .error .similarFeature := by
  rw [Node.addSimilar, h.find?_eq, if_neg (List.ne_nil_of_mem hkey)]
  dsimp only
  rw [check, if_neg (not_not.mpr hkey)]
  rfl

/-- **A row**: its feature is entered for the segments in it. -/
theorem Collects.row (h : Collects held similar) (hids : ids.Nodup) (hkey : ∀ id ∈ ids, key ∉ held id) :
    ∃ similar', ids.foldlM (Node.addSimilar key) similar = .ok similar' ∧
      Collects (fun id ↦ if id ∈ ids then held id ++ [key] else held id) similar' := by
  induction ids generalizing held similar with
  | nil => exact ⟨similar, rfl, by simpa using h⟩
  | cons id ids ih =>
    rw [List.nodup_cons] at hids
    rw [List.forall_mem_cons] at hkey
    obtain ⟨similar₁, hadd, h₁⟩ := h.addSimilar hkey.1
    have hkey₁ : ∀ id' ∈ ids, key ∉ Function.update held id (held id ++ [key]) id' := by
      intro id' hid'
      have hne : id' ≠ id := fun heq ↦ hids.1 (heq ▸ hid')
      rw [Function.update_of_ne hne]
      exact hkey.2 id' hid'
    obtain ⟨similar₂, hrow, h₂⟩ := ih h₁ hids.2 hkey₁
    refine ⟨similar₂, bind_eq_ok.mpr ⟨_, hadd, hrow⟩, ?_⟩
    have hheld : (fun id' ↦ if id' ∈ id :: ids then held id' ++ [key] else held id') = fun id' ↦
        if id' ∈ ids then Function.update held id (held id ++ [key]) id' ++ [key]
        else Function.update held id (held id ++ [key]) id' := by
      funext id'
      by_cases hid : id' = id
      · rw [hid, if_pos List.mem_cons_self, if_neg hids.1, Function.update_self]
      · rw [Function.update_of_ne hid]
        exact if_congr (by rw [List.mem_cons, or_iff_right hid]) rfl rfl
    rw [hheld]
    exact h₂

theorem Collects.row_fail (h : Collects held similar)
    (hids : ¬(ids.Nodup ∧ ∀ id ∈ ids, key ∉ held id)) :
    ids.foldlM (Node.addSimilar key) similar = .error .similarFeature := by
  induction ids generalizing held similar with
  | nil => exact absurd ⟨List.nodup_nil, fun _ h ↦ absurd h List.not_mem_nil⟩ hids
  | cons id ids ih =>
    rw [List.foldlM_cons]
    by_cases hkey : key ∈ held id
    · rw [h.addSimilar_fail hkey]
      rfl
    · obtain ⟨similar₁, hadd, h₁⟩ := h.addSimilar hkey
      rw [hadd]
      refine ih h₁ fun hrest ↦ hids ?_
      have hid : ∀ id' ∈ ids, id' ≠ id := by
        rintro id' hid' rfl
        refine hrest.2 id' hid' ?_
        rw [Function.update_self]
        exact List.mem_append_right _ (List.mem_singleton_self key)
      refine ⟨List.nodup_cons.mpr ⟨fun hmem ↦ hid id hmem rfl, hrest.1⟩,
        List.forall_mem_cons.mpr ⟨hkey, fun id' hid' ↦ ?_⟩⟩
      have hheld := hrest.2 id' hid'
      rwa [Function.update_of_ne (hid id' hid')] at hheld

end Collect

/-! ## All features -/

section Features

variable {kv : KVStore} {done features : List Key} {similar : List SimilarSegment} {key : Key}

theorem sharedKeys_concat : sharedKeys kv (done ++ [key]) = fun id ↦
    if id ∈ rowIds kv key then sharedKeys kv done id ++ [key] else sharedKeys kv done id := by
  funext id
  rw [sharedKeys, List.filter_append, List.filter_singleton]
  by_cases hid : id ∈ rowIds kv key
  · rw [if_pos hid, decide_eq_true hid]
    rfl
  · rw [if_neg hid, decide_eq_false hid]
    exact List.append_nil _

theorem collects_foldlM (h : Collects (sharedKeys kv done) similar) (hf : (done ++ features).Nodup)
    (hrows : ∀ key ∈ features, (rowIds kv key).Nodup) :
    ∃ similar', features.foldlM (fun similar key ↦ (rowIds kv key).foldlM (addSimilar key) similar)
      similar = .ok similar' ∧ Collects (sharedKeys kv (done ++ features)) similar' := by
  induction features generalizing done similar with
  | nil => exact ⟨similar, rfl, by rwa [List.append_nil]⟩
  | cons key features ih =>
    rw [List.forall_mem_cons] at hrows
    rw [← List.singleton_append, ← List.append_assoc] at hf ⊢
    have hkey : key ∉ done := fun hmem ↦
      (List.nodup_append.mp hf.of_append_left).2.2 key hmem key (List.mem_singleton_self key) rfl
    obtain ⟨similar₁, hrow, h₁⟩ := h.row hrows.1 fun id _ hmem ↦ hkey (List.mem_of_mem_filter hmem)
    rw [← sharedKeys_concat] at h₁
    obtain ⟨similar₂, hrest, h₂⟩ := ih h₁ hf hrows.2
    exact ⟨similar₂, bind_eq_ok.mpr ⟨_, hrow, hrest⟩, h₂⟩

theorem collects_fail (h : Collects (sharedKeys kv done) similar) (hf : (done ++ features).Nodup)
    (hrows : ¬∀ key ∈ features, (rowIds kv key).Nodup) :
    features.foldlM (fun similar key ↦ (rowIds kv key).foldlM (addSimilar key) similar) similar =
      .error .similarFeature := by
  induction features generalizing done similar with
  | nil => exact absurd (fun _ h ↦ absurd h List.not_mem_nil) hrows
  | cons key features ih =>
    rw [List.foldlM_cons]
    rw [← List.singleton_append, ← List.append_assoc] at hf
    have hkey : key ∉ done := fun hmem ↦
      (List.nodup_append.mp hf.of_append_left).2.2 key hmem key (List.mem_singleton_self key) rfl
    by_cases hrow : (rowIds kv key).Nodup
    · obtain ⟨similar₁, hadd, h₁⟩ := h.row hrow fun id _ hmem ↦ hkey (List.mem_of_mem_filter hmem)
      rw [← sharedKeys_concat] at h₁
      rw [hadd]
      exact ih h₁ hf fun hrest ↦ hrows (List.forall_mem_cons.mpr ⟨hrow, hrest⟩)
    · rw [h.row_fail fun hrest ↦ hrow hrest.1]
      rfl

theorem collects_nil : Collects (sharedKeys kv []) [] where
  nodup := List.nodup_nil
  mem _ := ⟨fun h ↦ absurd h List.not_mem_nil, fun h ↦ absurd h.1 h.2⟩

theorem mem_sharing {id : ℤ} : id ∈ sharing kv features ↔ sharedKeys kv features id ≠ [] := by
  rw [sharing, List.mem_toFinset, List.mem_flatMap, sharedKeys, ne_eq, List.filter_eq_nil_iff]
  simp

end Features

/-! ## The rounds -/

/-- The list has the segments still to be chosen from, with the features not covered yet. -/
structure Remains (S : ℤ → Finset Key) (candidates : Finset ℤ) (covered : Finset Key)
    (similar : List SimilarSegment) : Prop where
  nodup : (similar.map Prod.fst).Nodup
  candidates : candidates = (similar.map Prod.fst).toFinset
  keys : ∀ s ∈ similar, s.2.Nodup ∧ s.2.toFinset = S s.1 \ covered

instance : Std.Total moreSimilar where
  total a b := by
    unfold moreSimilar
    omega

instance : IsTrans SimilarSegment moreSimilar where
  trans a b c hab hbc := by
    unfold moreSimilar at *
    omega

namespace Remains

variable {S : ℤ → Finset Key} {candidates : Finset ℤ} {covered : Finset Key}
  {similar : List SimilarSegment}

theorem gain_eq (h : Remains S candidates covered similar) {s : SimilarSegment} (hs : s ∈ similar) :
    gain S covered s.1 = s.2.length := by
  rw [gain, ← (h.keys s hs).2, List.toFinset_card_of_nodup (h.keys s hs).1]

theorem card_eq (h : Remains S candidates covered similar) : candidates.card = similar.length := by
  rw [h.candidates, List.toFinset_card_of_nodup h.nodup, List.length_map]

theorem perm (h : Remains S candidates covered similar) {similar' : List SimilarSegment}
    (hperm : similar'.Perm similar) : Remains S candidates covered similar' where
  nodup := (hperm.map Prod.fst).nodup_iff.mpr h.nodup
  candidates := h.candidates.trans (List.toFinset_eq_of_perm _ _ (hperm.map Prod.fst)).symm
  keys s hs := h.keys s (hperm.mem_iff.mp hs)

theorem trim {top : SimilarSegment} {rest : List SimilarSegment}
    (h : Remains S candidates covered (top :: rest)) :
    Remains S (candidates.erase top.1) (covered ∪ S top.1)
      (rest.map fun s ↦ (s.1, s.2.filter (· ∉ top.2))) := by
  have hfst : (rest.map fun s : SimilarSegment ↦ (s.1, s.2.filter (· ∉ top.2))).map Prod.fst =
      rest.map Prod.fst := by
    rw [List.map_map]
    rfl
  have hnodup := List.nodup_cons.mp h.nodup
  constructor
  case nodup =>
    rw [hfst]
    exact hnodup.2
  case candidates =>
    rw [hfst, h.candidates, List.map_cons, List.toFinset_cons, Finset.erase_insert]
    exact fun hmem ↦ hnodup.1 (List.mem_toFinset.mp hmem)
  case keys =>
    intro t ht
    obtain ⟨s, hs, rfl⟩ := List.mem_map.mp ht
    obtain ⟨hkeys, hset⟩ := h.keys s (List.mem_cons_of_mem top hs)
    have htop := (h.keys top List.mem_cons_self).2
    refine ⟨hkeys.filter _, ?_⟩
    ext key
    have hmem : key ∈ s.2 ↔ key ∈ S s.1 ∧ key ∉ covered := by
      rw [← List.mem_toFinset, hset, Finset.mem_sdiff]
    have hmem' : key ∈ top.2 ↔ key ∈ S top.1 ∧ key ∉ covered := by
      rw [← List.mem_toFinset, htop, Finset.mem_sdiff]
    simp only [List.mem_toFinset, List.mem_filter, decide_eq_true_eq, hmem, hmem', Finset.mem_sdiff,
      Finset.mem_union]
    tauto

theorem outdoes {top : SimilarSegment} {rest : List SimilarSegment}
    (h : Remains S candidates covered (top :: rest)) (hsorted : ∀ s ∈ rest, moreSimilar top s) :
    ∀ id ∈ candidates, Outdoes S covered top.1 id := by
  intro id hid
  rw [h.candidates, List.mem_toFinset, List.mem_map] at hid
  obtain ⟨s, hs, rfl⟩ := hid
  rw [Outdoes, h.gain_eq hs, h.gain_eq List.mem_cons_self]
  rcases List.mem_cons.mp hs with rfl | hs
  · exact .inr ⟨rfl, le_rfl⟩
  · exact (hsorted s hs).imp id fun h ↦ ⟨h.1.symm, h.2⟩

/-- **The rounds choose a greedy cover.** -/
theorem selectSimilar_eq (cfg : Config) (env : LookupEnv) {n : ℕ}
    (h : Remains S candidates covered similar) :
    ∃ ids, ids.length = min n candidates.card ∧ IsGreedyCover S candidates covered ids ∧
      ∀ cache, selectSimilar cfg env n similar cache =
        ids.foldlM (fingerprintCachePrefetch cfg env) cache := by
  induction n generalizing similar candidates covered with
  | zero => exact ⟨[], (Nat.zero_min _).symm, isGreedyCover_nil, fun _ ↦ rfl⟩
  | succ n ih =>
    have hsort := h.perm (List.perm_insertionSort moreSimilar similar)
    have hsorted := List.pairwise_insertionSort moreSimilar similar
    cases hlist : similar.insertionSort moreSimilar with
    | nil =>
      refine ⟨[], ?_, isGreedyCover_nil, fun cache ↦ ?_⟩
      · rw [hsort.card_eq, hlist]
        exact (Nat.min_zero _).symm
      · rw [selectSimilar, hlist]
        rfl
    | cons top rest =>
      rw [hlist] at hsort hsorted
      have htop : top.1 ∈ candidates := by
        rw [hsort.candidates, List.map_cons, List.toFinset_cons]
        exact Finset.mem_insert_self _ _
      obtain ⟨ids, hlen, hgreedy, hselect⟩ := ih hsort.trim
      refine ⟨top.1 :: ids, ?_, hgreedy.cons htop (hsort.outdoes (List.pairwise_cons.mp hsorted).1),
        fun cache ↦ ?_⟩
      · have hcard := Finset.card_erase_add_one htop
        rw [List.length_cons, hlen]
        omega
      · rw [selectSimilar, hlist, List.foldlM_cons]
        exact congrArg _ (funext hselect)

end Remains

/-! ## The choice -/

theorem Collects.remains {kv : KVStore} {features : List Key} {similar : List SimilarSegment}
    (h : Collects (sharedKeys kv features) similar) (hf : features.Nodup) :
    Remains (fun id ↦ (sharedKeys kv features id).toFinset) (sharing kv features) ∅ similar where
  nodup := h.nodup
  candidates := by
    ext id
    rw [mem_sharing, List.mem_toFinset, List.mem_map]
    constructor
    · exact fun hne ↦ ⟨(id, sharedKeys kv features id), (h.mem _).mpr ⟨rfl, hne⟩, rfl⟩
    · rintro ⟨s, hs, rfl⟩
      exact ((h.mem s).mp hs).1 ▸ ((h.mem s).mp hs).2
  keys s hs := by
    rw [((h.mem s).mp hs).1, Finset.sdiff_empty]
    exact ⟨hf.filter _, rfl⟩

/-- The segments that are prefetched are a greedy cover of the features, as many as are asked for and
there are. -/
def SelectsGreedily (cfg : Config) (env : LookupEnv) (features : List Key) : Prop :=
  ∃ ids, ids.length = min cfg.selectionNum (sharing env.kv features).card ∧
    IsGreedyCover (fun id ↦ (sharedKeys env.kv features id).toFinset) (sharing env.kv features) ∅ ids ∧
    ∀ cache, topSegmentSelect cfg env cache features = ids.foldlM (fingerprintCachePrefetch cfg env) cache

/-- **The choice of similar segments** is greedy if no row of the features has an id twice; else the
assertion fails. -/
theorem topSegmentSelect_greedy (cfg : Config) (env : LookupEnv) (features : List Key)
    (hf : features.Nodup) :
    ((∀ key ∈ features, (rowIds env.kv key).Nodup) → SelectsGreedily cfg env features) ∧
    ((¬∀ key ∈ features, (rowIds env.kv key).Nodup) →
      ∀ cache, topSegmentSelect cfg env cache features = .error .similarFeature) := by
  constructor
  · intro hrows
    obtain ⟨similar, hsimilar, hcollects⟩ := collects_foldlM collects_nil hf hrows
    have hsimilar : similarSegments env.kv features = .ok similar := hsimilar
    have hremains := hcollects.remains hf
    obtain ⟨ids, hlen, hgreedy, hselect⟩ := @Remains.selectSimilar_eq _ _ _ _ cfg env
      (min cfg.selectionNum similar.length) hremains
    refine ⟨ids, ?_, hgreedy, fun cache ↦ ?_⟩
    · rw [hlen, hremains.card_eq, Nat.min_assoc, Nat.min_self]
      exact congrArg (min cfg.selectionNum) hremains.card_eq.symm
    · rw [topSegmentSelect, hsimilar]
      exact hselect cache
  · intro hrows cache
    have hfail : similarSegments env.kv features = .error .similarFeature :=
      collects_fail collects_nil hf hrows
    rw [topSegmentSelect, hfail]
    rfl

/-- A lookup with the feature `[7]` in the store. -/
def oneFeatureEnv (ids : List ℤ) : LookupEnv where
  storage := ⟨0, [], false, []⟩
  containerBuffer := none
  versions := []
  kv := Function.update KVStore.empty [7] (some ids)

/-- Three segments under four features: 5 is under the first three, 6 under the first two, 7 under the last. -/
def overlappingEnv : LookupEnv :=
  { oneFeatureEnv [] with
    kv := fun key ↦
      if key = [1] then some [5, 6] else if key = [2] then some [6, 5]
      else if key = [3] then some [5, temporaryId] else if key = [4] then some [7, temporaryId] else none }

/-- Two of the three segments: 5 has most features, and takes both features of 6 with it, so 7 comes next. -/
theorem topSegmentSelect_greedy_overlapping :
    let cfg := { shortConfig with locality := .logical, selectionNum := 2 }
    ∀ cache, topSegmentSelect cfg overlappingEnv cache [[1], [2], [3], [4]] =
      [5, 7].foldlM (fingerprintCachePrefetch cfg overlappingEnv) cache := by
  intro cfg
  obtain ⟨ids, hlen, hgreedy, hselect⟩ :=
    (topSegmentSelect_greedy cfg overlappingEnv [[1], [2], [3], [4]] (by decide)).1 (by decide)
  obtain ⟨i, j, rfl⟩ := List.length_eq_two.mp (hlen.trans (by decide))
  have hsharing : sharing overlappingEnv.kv [[1], [2], [3], [4]] = {5, 6, 7} := by decide
  rw [hsharing] at hgreedy
  have hfirst := hgreedy.outdoes [] i [j] rfl
  have hsecond := hgreedy.outdoes [i] j [] rfl
  obtain rfl : i = 5 := by
    have hbest : ∀ i ∈ ({5, 6, 7} : Finset ℤ), Outdoes (fun id ↦
        (sharedKeys overlappingEnv.kv [[1], [2], [3], [4]] id).toFinset) ∅ i 5 → i = 5 := by
      simp only [Outdoes]
      decide
    exact hbest i (hgreedy.mem i List.mem_cons_self) (hfirst 5 (by decide) List.not_mem_nil)
  obtain rfl : j = 7 := by
    have hbest : ∀ j ∈ ({5, 6, 7} : Finset ℤ), j ≠ 5 → Outdoes (fun id ↦
        (sharedKeys overlappingEnv.kv [[1], [2], [3], [4]] id).toFinset) {[1], [2], [3]} j 7 → j = 7 := by
      simp only [Outdoes]
      decide
    exact hbest j (hgreedy.mem j (List.mem_cons_of_mem _ List.mem_cons_self))
      ((List.pairwise_cons.mp hgreedy.nodup).1 j (List.mem_singleton_self j)).symm (hsecond 7 (by decide) (by decide))
  exact hselect

/-- A segment stands twice under the feature. -/
theorem topSegmentSelect_repeating :
    topSegmentSelect { shortConfig with locality := .logical } (oneFeatureEnv [5, 5]) (Lru.Cache.new 1)
      [[7]] = .error .similarFeature := by
  decide

end UniDedup.Node
