import UniDedup.Lib.Fold
import UniDedup.Storage.Entries
import UniDedup.Storage.Packing
import UniDedup.Storage.Placement

/-!
# Stripes over distinct agents

Four loops place objects: a file's objects for an online code, a file's objects in the stripes of a pool, the parity
objects of a stripe, and lost objects that get a new place. In each of them the next object comes to an agent that
none of the objects placed so far is at, so that in the end no two objects of a stripe are at the same agent
(`Spread.insert`).

The invariants of the loops also say how many locations are taken when the next candidates are collected.
-/

namespace UniDedup.Storage

open Fold

/-- The objects that have a location are at agents, and no two of them at the same. -/
structure Spread (conf : Config) (loc : Name → Option ℕ) (objlist : List Name) : Prop where
  agent : ∀ o ∈ objlist, ∀ ip ∈ loc o, ip ∈ conf.agentsIPs
  distinct : ∀ o ∈ objlist, ∀ o' ∈ objlist, ∀ ip ∈ loc o, ip ∈ loc o' → o = o'

namespace Spread

variable {conf : Config} {loc loc' : Name → Option ℕ} {l l' : List Name}

theorem nil : Spread conf loc [] :=
  ⟨fun _ ho ↦ absurd ho List.not_mem_nil, fun _ ho ↦ absurd ho List.not_mem_nil⟩

theorem congr (h : Spread conf loc l) (hsub : l' ⊆ l) (hkeep : ∀ o ∈ l', loc' o = loc o) :
    Spread conf loc' l' where
  agent o ho ip hip := h.agent o (hsub ho) ip (hkeep o ho ▸ hip)
  distinct o ho o' ho' ip hip hip' :=
    h.distinct o (hsub ho) o' (hsub ho') ip (hkeep o ho ▸ hip) (hkeep o' ho' ▸ hip')

/-- **One more object**, at an agent of its own. -/
theorem insert {o : Name} (h : Spread conf loc l) (hmem : ∀ o' ∈ l', o' = o ∨ o' ∈ l)
    (hkeep : ∀ o' ∈ l', o' ≠ o → loc' o' = loc o')
    (hnew : ∀ ip ∈ loc' o, ip ∈ conf.agentsIPs ∧ ∀ o' ∈ l, ip ∉ loc o') : Spread conf loc' l' := by
  have hold : ∀ o' ∈ l', o' ≠ o → o' ∈ l := fun o' ho' hne ↦ (hmem o' ho').resolve_left hne
  refine ⟨fun o' ho' ip hip ↦ ?_, fun o₁ ho₁ o₂ ho₂ ip hip₁ hip₂ ↦ ?_⟩
  · by_cases hne : o' = o
    · exact (hnew ip (hne ▸ hip)).1
    · exact h.agent o' (hold o' ho' hne) ip (hkeep o' ho' hne ▸ hip)
  · by_cases hne₁ : o₁ = o
    · by_cases hne₂ : o₂ = o
      · exact hne₁.trans hne₂.symm
      · exact absurd (hkeep o₂ ho₂ hne₂ ▸ hip₂) ((hnew ip (hne₁ ▸ hip₁)).2 o₂ (hold o₂ ho₂ hne₂))
    · by_cases hne₂ : o₂ = o
      · exact absurd (hkeep o₁ ho₁ hne₁ ▸ hip₁) ((hnew ip (hne₂ ▸ hip₂)).2 o₁ (hold o₁ ho₁ hne₁))
      · exact h.distinct o₁ (hold o₁ ho₁ hne₁) o₂ (hold o₂ ho₂ hne₂) ip (hkeep o₁ ho₁ hne₁ ▸ hip₁)
          (hkeep o₂ ho₂ hne₂ ▸ hip₂)

end Spread

theorem SSEntry.spread {conf : Config} {e : SSEntry} (hnodup : e.objLoc.Nodup)
    (hagents : ∀ ip ∈ e.objLoc, ip ∈ conf.agentsIPs) : Spread conf e.getLocOfObj e.objList := by
  have hloc : ∀ o ∈ e.objList, e.getLocOfObj o = e.objLoc[e.objList.idxOf o]? := fun o ho ↦ by
    rw [getLocOfObj, if_pos ho]
  refine ⟨fun o ho ip hip ↦ ?_, fun o ho o' ho' ip hip hip' ↦ ?_⟩
  · rw [hloc o ho] at hip
    exact hagents ip (List.mem_of_getElem? hip)
  · rw [hloc o ho] at hip
    rw [hloc o' ho'] at hip'
    have hidx := (List.getElem?_inj (List.getElem?_eq_some_iff.mp hip).1 hnodup).mp (hip.trans hip'.symm)
    exact (List.idxOf_inj ho).mp hidx

section Loops

variable {conf : Config} (hfixed : conf.fixedLoc = false) (hagents : conf.agentsIPs.Nodup)
  {clientIp : ℕ} {picks : ℕ → ℕ}

/-! ## A file for online encoding -/

/-- The locations of the first objects. -/
structure OnlinePlaced (conf : Config) (i : ℕ) (ips : List ℕ) : Prop where
  length : ips.length = i
  nodup : ips.Nodup
  agent : ∀ ip ∈ ips, ip ∈ conf.agentsIPs

theorem onlinePlaced_nil : OnlinePlaced conf 0 [] :=
  ⟨rfl, List.nodup_nil, fun _ hip ↦ absurd hip List.not_mem_nil⟩

include hfixed hagents in
theorem OnlinePlaced.step {ec : ECPolicy} {i : ℕ} {ips ips' : List ℕ} (h : OnlinePlaced conf i ips)
    (hs : placeOnline conf ec clientIp picks ips i = some ips') : OnlinePlaced conf (i + 1) ips' := by
  obtain ⟨curIp, hcur, rfl⟩ := Option.map_eq_some_iff.mp hs
  obtain ⟨hagent, hfree⟩ := of_placeData hfixed hagents hcur
  refine ⟨?_, List.concat_eq_append ▸ h.nodup.concat hfree, fun ip hip ↦ ?_⟩
  · rw [List.length_append, List.length_singleton, h.length]
  · rw [List.mem_append, List.mem_singleton] at hip
    exact hip.elim (h.agent ip) fun heq ↦ heq ▸ hagent

/-! ## A file for offline encoding -/

section Offline

variable {st : StripeStore} {clock : ℕ → ℕ} {f : Name} {data : Name → Prop}

theorem curLoc_append_of_ne {names : List Name} {locs : List ℕ} (hlen : names.length = locs.length) {o o' : Name}
    (hne : o' ≠ o) (more : List ℕ) :
    curLoc st (names ++ [o]) (locs ++ more) o' = curLoc st names locs o' := by
  rw [curLoc, curLoc]
  cases st.getEntryFromObj o' with
  | some e => rfl
  | none =>
    dsimp only
    by_cases hmem : o' ∈ names
    · rw [if_pos (List.mem_append_left _ hmem), if_pos hmem, List.idxOf_append_of_mem hmem,
        List.getElem?_append_left (hlen ▸ List.idxOf_lt_length_of_mem hmem)]
    · rw [if_neg hmem, if_neg]
      simpa [hmem] using hne

theorem curLoc_append_self {names : List Name} {locs : List ℕ} (hlen : names.length = locs.length) {o : Name}
    (hentry : st.getEntryFromObj o = none) (hnew : o ∉ names) (ip : ℕ) :
    curLoc st (names ++ [o]) (locs ++ [ip]) o = some ip := by
  rw [curLoc, hentry]
  dsimp only
  rw [if_pos (List.mem_append_right _ List.mem_cons_self), List.idxOf_append_of_notMem hnew, List.idxOf_cons_self,
    Nat.add_zero, hlen, List.getElem?_concat_length]

/-- The pool and the locations after the first objects of a file. -/
structure OfflinePlaced (conf : Config) (st : StripeStore) (clock : ℕ → ℕ) (p : OfflineECPool) (f : Name)
    (data : Name → Prop) (i : ℕ) (s : Placing) : Prop where
  stocked : s.pool.Stocked clock data
  names : s.fileobjnames = (List.range i).map (objName f)
  length : s.fileobjlocs.length = i
  ecpolicy : s.pool.ecpolicy = p.ecpolicy
  ecpoolid : s.pool.ecpoolid = p.ecpoolid
  grown : ∀ t, p.getStripeObjList t <+: s.pool.getStripeObjList t
  mem_objs : ∀ o, o ∈ s.pool.objs ↔ o ∈ s.fileobjnames ∨ o ∈ p.objs
  spread : ∀ t, Spread conf (curLoc st s.fileobjnames s.fileobjlocs) (s.pool.getStripeObjList t)

theorem offlinePlaced_nil {p : OfflineECPool} (h : p.Stocked clock data)
    (hspread : ∀ t, Spread conf (curLoc st [] []) (p.getStripeObjList t)) :
    OfflinePlaced conf st clock p f data 0 ⟨p, [], [], []⟩ :=
  ⟨h, rfl, rfl, rfl, rfl, fun t ↦ List.prefix_refl _, fun o ↦ by simp, hspread⟩

namespace OfflinePlaced

variable {p : OfflineECPool} {i : ℕ} {s s' : Placing} (h : OfflinePlaced conf st clock p f data i s)

include h

theorem length_names : s.fileobjnames.length = s.fileobjlocs.length := by
  rw [h.names, h.length, List.length_map, List.length_range]

theorem objName_notMem_names : objName f i ∉ s.fileobjnames := by
  rw [h.names, List.mem_map]
  rintro ⟨j, hj, heq⟩
  exact absurd (objName_inj.mp heq).2 (List.mem_range.mp hj).ne

theorem objName_notMem (hfresh : objName f i ∉ p.objs) : objName f i ∉ s.pool.objs := fun hmem ↦
  ((h.mem_objs _).mp hmem).elim h.objName_notMem_names hfresh

/-- The locations of the objects of a stripe, when the next object is to join it. -/
theorem mapM_curLoc (hfresh : objName f i ∉ p.objs) (t : Name) :
    (s.pool.getStripeObjList t).mapM (curLoc st (s.fileobjnames ++ [objName f i]) s.fileobjlocs) =
      (s.pool.getStripeObjList t).mapM (curLoc st s.fileobjnames s.fileobjlocs) := by
  refine mapM_congr fun o ho ↦ ?_
  have hne : o ≠ objName f i := by
    rintro rfl
    exact h.objName_notMem hfresh (h.stocked.consistent.mem_objs_of_mem ho)
  have hcur : curLoc st (s.fileobjnames ++ [objName f i]) (s.fileobjlocs ++ []) o =
      curLoc st s.fileobjnames s.fileobjlocs o := curLoc_append_of_ne h.length_names hne []
  rwa [List.append_nil] at hcur

include hfixed hagents in
theorem step (hclock : StrictMono clock) (hdata : data (objName f i)) (hfresh : objName f i ∉ p.objs)
    (hentry : st.getEntryFromObj (objName f i) = none)
    (hs : registerObj conf st clientIp f clock picks s i = some s') :
    OfflinePlaced conf st clock p f data (i + 1) s' := by
  obtain ⟨stripeips, hips, hs⟩ := Option.bind_eq_some_iff.mp hs
  obtain ⟨curIp, hcur, hs⟩ := Option.bind_eq_some_iff.mp hs
  cases hs
  rw [h.mapM_curLoc hfresh] at hips
  obtain ⟨hagent, hfree⟩ := of_placeData hfixed hagents hcur
  have ho := h.objName_notMem hfresh
  have hnew : ∀ t, ∀ o ∈ s.pool.getStripeObjList t, o ≠ objName f i := by
    rintro t o hmem rfl
    exact ho (h.stocked.consistent.mem_objs_of_mem hmem)
  have hkeep : ∀ o, o ≠ objName f i →
      curLoc st (s.fileobjnames ++ [objName f i]) (s.fileobjlocs ++ [curIp]) o =
        curLoc st s.fileobjnames s.fileobjlocs o := fun o hne ↦
    curLoc_append_of_ne h.length_names hne [curIp]
  refine
    { stocked := h.stocked.addObj ho hclock hdata
      names := ?_
      length := ?_
      ecpolicy := h.ecpolicy
      ecpoolid := h.ecpoolid
      grown := fun t ↦ (h.grown t).trans (s.pool.prefix_addObj _ _ t)
      mem_objs := fun o ↦ ?_
      spread := fun t ↦ ?_ }
  · rw [h.names, List.range_succ, List.map_append, List.map_singleton]
  · rw [List.length_append, List.length_singleton, h.length]
  · rw [OfflineECPool.objs_addObj, mem_emplace, h.mem_objs, List.mem_append, List.mem_singleton]
    tauto
  · rw [OfflineECPool.getStripeObjList_addObj]
    split_ifs with ht
    · have hstripe := h.spread (s.pool.getStripeForObj (objName f i) (clock s.pool.stripes.length))
      refine hstripe.insert (fun o hmem ↦ ?_) (fun o _ hne ↦ hkeep o hne) fun ip hip ↦ ?_
      · rw [List.mem_append, List.mem_singleton] at hmem
        exact hmem.symm
      · rw [curLoc_append_self h.length_names hentry h.objName_notMem_names, Option.mem_some_iff] at hip
        subst hip
        exact ⟨hagent, fun o hmem hloc ↦ hfree (mem_of_mapM hips hmem hloc)⟩
    · exact (h.spread t).congr (List.Subset.refl _) fun o hmem ↦ hkeep o (hnew t o hmem)

end OfflinePlaced

end Offline

/-! ## The parity objects of a stripe -/

section Parity

variable {st : StripeStore} {p : OfflineECPool} {t : Name}

theorem shaped_parity (ecpoolid t : Name) (i filesizeMB loc : ℕ) :
    SSEntry.Shaped ⟨parityName ecpoolid t i, 1, filesizeMB, ecpoolid, [parityName ecpoolid t i], [loc]⟩ :=
  ⟨.inr ⟨⟨_, t, i, rfl⟩, rfl⟩, rfl⟩

/-- The entry of a parity object gives that object a location, if anything. -/
theorem locOf_insertEntry_parity (h : st.Sound) (ecpoolid t : Name) (i filesizeMB loc : ℕ) (o : Name) :
    let name := parityName ecpoolid t i
    (st.insertEntry ⟨name, 1, filesizeMB, ecpoolid, [name], [loc]⟩).locOf o = st.locOf o ∨
      o = name ∧ (st.insertEntry ⟨name, 1, filesizeMB, ecpoolid, [name], [loc]⟩).locOf o = some loc := by
  intro name
  by_cases hmem : name ∈ st.ssEntryMap
  · rw [StripeStore.insertEntry, if_pos hmem]
    exact .inl rfl
  · rw [h.locOf_insertEntry (shaped_parity ecpoolid t i filesizeMB loc) hmem]
    dsimp only
    split_ifs with ho
    · obtain rfl := List.mem_singleton.mp ho
      refine .inr ⟨rfl, ?_⟩
      rw [SSEntry.getLocOfObj, if_pos ho, List.idxOf_cons_self]
      rfl
    · exact .inl rfl

/-- The stripe and the locations after the first parity objects. -/
structure ParityPlaced (conf : Config) (st : StripeStore) (p : OfflineECPool) (t : Name) (j : ℕ) (s : Encoding) :
    Prop where
  sound : s.store.Sound
  pool : s.pool = p.addObjs t ((List.range' p.ecpolicy.k j).map (parityName p.ecpoolid t))
  length : s.stripeips.length = p.ecpolicy.k + j
  placed : ∀ o ∈ s.pool.getStripeObjList t, ∀ ip ∈ s.store.locOf o, ip ∈ s.stripeips
  spread : Spread conf s.store.locOf (s.pool.getStripeObjList t)
  kept : ∀ o, (∀ i < p.ecpolicy.k + j, o ≠ parityName p.ecpoolid t i) → s.store.locOf o = st.locOf o
  entries : ∀ f e, st.ssEntryMap.lookup f = some e → s.store.ssEntryMap.lookup f = some e
  files : ∀ f e, s.store.ssEntryMap.lookup f = some e → e.type = 0 → st.ssEntryMap.lookup f = some e
  objs : ∀ o ∈ s.store.objEntryMap, o ∈ st.objEntryMap ∨ o ∈ s.pool.getStripeObjList t

theorem parityPlaced_start (hst : st.Sound) (hlen : (p.getStripeObjList t).length = p.ecpolicy.k)
    (hspread : Spread conf st.locOf (p.getStripeObjList t)) {s : Encoding}
    (hs : encodingStart st p t = some s) : ParityPlaced conf st p t 0 s := by
  obtain ⟨stripeips, hips, rfl⟩ := Option.map_eq_some_iff.mp hs
  exact
    { sound := hst
      pool := rfl
      length := (length_of_mapM hips).trans hlen
      placed := fun _ ho _ hip ↦ mem_of_mapM hips ho hip
      spread := hspread
      kept := fun _ _ ↦ rfl
      entries := fun _ _ he ↦ he
      files := fun _ _ he _ ↦ he
      objs := fun _ ho ↦ .inl ho }

include hfixed in
theorem ParityPlaced.step {j : ℕ} {s s' : Encoding} (h : ParityPlaced conf st p t j s)
    (hnew : st.locOf (parityName p.ecpoolid t (p.ecpolicy.k + j)) = none)
    (hs : encodeParity conf t picks s (p.ecpolicy.k + j) = some s') : ParityPlaced conf st p t (j + 1) s' := by
  obtain ⟨loc, hloc, hs⟩ := Option.bind_eq_some_iff.mp hs
  cases hs
  have hid : s.pool.ecpoolid = p.ecpoolid := by rw [h.pool, OfflineECPool.ecpoolid_addObjs]
  rw [hid]
  obtain ⟨hagent, hfree⟩ := of_mem_getCandidates hfixed (mem_of_chooseFromCandidates hloc)
  set o := parityName p.ecpoolid t (p.ecpolicy.k + j) with ho
  have hnone : s.store.locOf o = none := by
    rw [← hnew]
    exact h.kept o fun i hi heq ↦ hi.ne (parityName_inj.mp heq).2.symm
  have hcases := locOf_insertEntry_parity h.sound p.ecpoolid t (p.ecpolicy.k + j) s.pool.basesize loc
  rw [← ho] at hcases
  dsimp only at hcases ⊢
  have hkeep : ∀ o', o' ≠ o → (s.store.insertEntry ⟨o, 1, s.pool.basesize, p.ecpoolid, [o], [loc]⟩).locOf o' =
      s.store.locOf o' := fun o' hne ↦ (hcases o').resolve_right fun hself ↦ hne hself.1
  have hself : ∀ ip ∈ (s.store.insertEntry ⟨o, 1, s.pool.basesize, p.ecpoolid, [o], [loc]⟩).locOf o, ip = loc := by
    intro ip hip
    rcases hcases o with hold | ⟨-, hold⟩
    · rw [hold, hnone] at hip
      cases hip
    · rw [hold] at hip
      exact (Option.mem_some_iff.mp hip).symm
  refine
    { sound := h.sound.insertEntry (shaped_parity _ _ _ _ _)
      pool := ?_
      length := ?_
      placed := fun o' ho' ip hip ↦ ?_
      spread := ?_
      kept := fun o' ho' ↦ ?_
      entries := fun f e he ↦ StripeStore.lookup_insertEntry (h.entries f e he)
      files := fun f e he htype ↦ ?_
      objs := fun o' ho' ↦ ?_ }
  · rw [List.range'_1_concat, List.map_append, List.map_singleton, OfflineECPool.addObjs_concat, ← h.pool]
  · rw [List.length_append, List.length_singleton, h.length, Nat.add_assoc]
  · rw [List.mem_append, List.mem_singleton]
    dsimp only at ho'
    rw [OfflineECPool.getStripeObjList_addObj_self, List.mem_append, List.mem_singleton] at ho'
    by_cases hne : o' = o
    · exact .inr (hself ip (hne ▸ hip))
    · rw [hkeep o' hne] at hip
      exact .inl (h.placed o' (ho'.resolve_right hne) ip hip)
  · rw [OfflineECPool.getStripeObjList_addObj_self]
    refine h.spread.insert (fun o' ho' ↦ ?_) (fun o' _ hne ↦ hkeep o' hne) fun ip hip ↦ ?_
    · rw [List.mem_append, List.mem_singleton] at ho'
      exact ho'.symm
    · rw [hself ip hip]
      exact ⟨hagent, fun o' ho' hip' ↦ hfree (h.placed o' ho' loc hip')⟩
  · rw [hkeep o' (ho' _ (Nat.lt_succ_self _))]
    exact h.kept o' fun i hi ↦ ho' i (Nat.lt_succ_of_lt hi)
  · rcases StripeStore.Sound.cases_of_insertEntry he with ⟨-, -, rfl⟩ | he
    · exact absurd htype Nat.one_ne_zero
    · exact h.files f e he htype
  · rw [OfflineECPool.getStripeObjList_addObj_self, List.mem_append, List.mem_singleton]
    by_cases hne : o' = o
    · exact .inr (.inr hne)
    · refine (h.objs o' ?_).imp_right .inl
      rw [StripeStore.insertEntry] at ho'
      split_ifs at ho'
      · exact ho'
      · exact ((mem_emplace _ _ _ _).mp ho').resolve_left hne

end Parity

/-! ## Lost objects -/

def SSEntry.unplaced (e : SSEntry) : SSEntry := { e with objLoc := [] }

theorem SSEntry.of_unplaced_eq {e e' : SSEntry} (h : e.unplaced = e'.unplaced) :
    e.type = e'.type ∧ e.ecidpool = e'.ecidpool ∧ e.objList = e'.objList := by
  have htype := congrArg SSEntry.type h
  have hid := congrArg SSEntry.ecidpool h
  have hlist := congrArg SSEntry.objList h
  exact ⟨htype, hid, hlist⟩

/-- The same entries, up to the locations. -/
structure StripeStore.Moved (st st' : StripeStore) : Prop where
  entries : ∀ f, (st'.ssEntryMap.lookup f).map SSEntry.unplaced = (st.ssEntryMap.lookup f).map SSEntry.unplaced
  objs : st'.objEntryMap = st.objEntryMap

namespace StripeStore.Moved

variable {st st' st'' : StripeStore}

theorem refl (st : StripeStore) : st.Moved st := ⟨fun _ ↦ rfl, rfl⟩

theorem trans (h : st.Moved st') (h' : st'.Moved st'') : st.Moved st'' :=
  ⟨fun f ↦ (h'.entries f).trans (h.entries f), h'.objs.trans h.objs⟩

theorem of_updateObjLoc (h : st.Sound) {o : Name} {loc : ℕ} (hs : st.updateObjLoc o loc = some st') :
    st.Moved st' := by
  obtain ⟨-, e, he, hobjs, hentry⟩ := h.updateObjLoc hs
  refine ⟨fun f ↦ ?_, hobjs⟩
  rw [hentry]
  split_ifs with hf
  · rw [hf, (h.exists_of_getEntryFromObj he).1]
    rfl
  · rfl

theorem exists_left (h : st.Moved st') {f : Name} {e' : SSEntry} (he' : st'.ssEntryMap.lookup f = some e') :
    ∃ e, st.ssEntryMap.lookup f = some e ∧ e.type = e'.type ∧ e.ecidpool = e'.ecidpool ∧ e.objList = e'.objList := by
  have heq := h.entries f
  rw [he', Option.map_some] at heq
  obtain ⟨e, he, hsame⟩ := Option.map_eq_some_iff.mp heq.symm
  exact ⟨e, he, SSEntry.of_unplaced_eq hsame⟩

theorem exists_right (h : st.Moved st') {f : Name} {e : SSEntry} (he : st.ssEntryMap.lookup f = some e) :
    ∃ e', st'.ssEntryMap.lookup f = some e' ∧ e.type = e'.type ∧ e.ecidpool = e'.ecidpool ∧
      e.objList = e'.objList := by
  have heq := h.entries f
  rw [he, Option.map_some] at heq
  obtain ⟨e', he', hsame⟩ := Option.map_eq_some_iff.mp heq
  exact ⟨e', he', SSEntry.of_unplaced_eq hsame.symm⟩

end StripeStore.Moved

section Relocation

variable {st : StripeStore} {stripeobjs lost : List Name} {stripeips : List ℕ}

/-- The store and the locations after the first objects of a stripe have been looked at. -/
structure Relocated (conf : Config) (st : StripeStore) (stripeobjs lost : List Name) (i : ℕ)
    (s : StripeStore × List ℕ) : Prop where
  sound : s.1.Sound
  moved : st.Moved s.1
  length : s.2.length = i
  kept : ∀ o, (o ∈ stripeobjs → o ∉ lost) → s.1.locOf o = st.locOf o
  placed : ∀ o ∈ stripeobjs.take i, ∀ ip ∈ s.1.locOf o, ip ∈ s.2
  spread : Spread conf s.1.locOf (stripeobjs.take i ++ (stripeobjs.drop i).filter (· ∉ lost))

theorem relocated_nil (hst : st.Sound) (hspread : Spread conf st.locOf stripeobjs) :
    Relocated conf st stripeobjs lost 0 (st, []) where
  sound := hst
  moved := .refl st
  length := rfl
  kept _ _ := rfl
  placed _ ho := absurd ho List.not_mem_nil
  spread := hspread.congr (fun _ ho ↦ List.mem_of_mem_filter ho) fun _ _ ↦ rfl

/-- The locations of the intact objects behind a lost one are removed. -/
theorem mem_removed_relocation (hips : stripeIps st stripeobjs lost = some stripeips) (ec : ECPolicy)
    (placedIps : List ℕ) {i ip : ℕ} {o : Name} (ho : o ∈ stripeobjs.drop (i + 1)) (hlost : o ∉ lost)
    (hip : ip ∈ st.locOf o) :
    ip ∈ (relocation ec lost (stripeobjs.zip stripeips) placedIps i).removed := by
  have hlen : (stripeobjs.drop (i + 1)).length ≤ (stripeips.drop (i + 1)).length := by
    rw [List.length_drop, List.length_drop, length_of_mapM hips]
  rw [← List.map_fst_zip hlen] at ho
  obtain ⟨⟨o, ip'⟩, hmem, rfl⟩ := List.mem_map.mp ho
  rw [List.zip, ← List.drop_zipWith] at hmem
  have hip' := of_mem_zip_mapM hips (List.mem_of_mem_drop hmem)
  rw [if_neg hlost] at hip'
  obtain rfl : ip = ip' := Option.some.inj (hip.symm.trans hip')
  exact List.mem_map.mpr ⟨_, List.mem_filter.mpr ⟨hmem, decide_eq_true hlost⟩, rfl⟩

theorem length_removed_relocation (hips : stripeIps st stripeobjs lost = some stripeips) (ec : ECPolicy)
    (placedIps : List ℕ) (i : ℕ) :
    (relocation ec lost (stripeobjs.zip stripeips) placedIps i).removed.length ≤ stripeobjs.length - (i + 1) := by
  have hlen := length_of_mapM hips
  rw [relocation, List.length_map]
  refine (List.length_filter_le _ _).trans ?_
  rw [List.length_drop, List.length_zip, hlen, Nat.min_self]

include hfixed hagents in
theorem Relocated.step {ec : ECPolicy} {i : ℕ} {s s' : StripeStore × List ℕ}
    (hips : stripeIps st stripeobjs lost = some stripeips) (hi : i < stripeobjs.length)
    (h : Relocated conf st stripeobjs lost i s)
    (hs : relocateOne conf ec lost (stripeobjs.zip stripeips) picks s i = some s') :
    Relocated conf st stripeobjs lost (i + 1) s' := by
  obtain ⟨⟨o, ip⟩, hobj, hs⟩ := Option.bind_eq_some_iff.mp hs
  obtain ⟨ho, -⟩ := List.getElem?_zip_eq_some.mp hobj
  have hdrop : stripeobjs.drop i = o :: stripeobjs.drop (i + 1) := by
    rw [List.drop_eq_getElem_cons hi, (List.getElem?_eq_some_iff.mp ho).2]
  have htake : stripeobjs.take (i + 1) = stripeobjs.take i ++ [o] := by
    rw [List.take_add_one, ho]
    rfl
  have hmem : o ∈ stripeobjs := List.mem_of_getElem? ho
  dsimp only at hs
  split_ifs at hs with hlost
  · obtain ⟨curip, hcur, hs⟩ := Option.bind_eq_some_iff.mp hs
    obtain ⟨st', hst', hs⟩ := Option.bind_eq_some_iff.mp hs
    obtain rfl := Option.some.inj hs
    obtain ⟨hagent, hfree, hremoved⟩ :=
      Placement.of_mem_candidates hfixed hagents (mem_of_chooseFromCandidates hcur)
    have hloc := h.sound.locOf_updateObjLoc hst'
    have hkeep : ∀ o', o' ≠ o → st'.locOf o' = s.1.locOf o' := fun o' hne ↦ by rw [hloc, if_neg hne]
    have hself : st'.locOf o = some curip := by rw [hloc, if_pos rfl]
    refine
      { sound := (h.sound.updateObjLoc hst').1
        moved := h.moved.trans (.of_updateObjLoc h.sound hst')
        length := ?_
        kept := fun o' ho' ↦ ?_
        placed := fun o' ho' ip' hip' ↦ ?_
        spread := h.spread.insert (fun o' ho' ↦ ?_) (fun o' _ hne ↦ hkeep o' hne) fun ip' hip' ↦ ?_ }
    · rw [List.length_append, List.length_singleton, h.length]
    · rw [← h.kept o' ho']
      exact hkeep o' fun heq ↦ ho' (heq ▸ hmem) (heq ▸ hlost)
    · rw [List.mem_append, List.mem_singleton]
      rw [htake, List.mem_append, List.mem_singleton] at ho'
      by_cases hne : o' = o
      · rw [hne, hself] at hip'
        exact .inr (Option.mem_some_iff.mp hip').symm
      · rw [hkeep o' hne] at hip'
        exact .inl (h.placed o' (ho'.resolve_right hne) ip' hip')
    · rw [htake] at ho'
      rw [hdrop, List.filter_cons_of_neg (by simpa using hlost)]
      simp only [List.mem_append, List.mem_singleton] at ho' ⊢
      tauto
    · rw [hself, Option.mem_some_iff] at hip'
      subst hip'
      refine ⟨hagent, fun o' ho' hip' ↦ ?_⟩
      rcases List.mem_append.mp ho' with ho' | ho'
      · exact hfree (h.placed o' ho' curip hip')
      · rw [hdrop, List.filter_cons_of_neg (by simpa using hlost)] at ho'
        obtain ⟨ho', hintact⟩ := List.mem_filter.mp ho'
        have hintact := of_decide_eq_true hintact
        rw [h.kept o' fun _ ↦ hintact] at hip'
        exact hremoved (mem_removed_relocation hips ec s.2 ho' hintact hip')
  · obtain rfl := Option.some.inj hs
    have hloc := of_mem_zip_mapM hips (List.mem_of_getElem? hobj)
    rw [if_neg hlost] at hloc
    refine
      { h with
        length := ?_
        placed := fun o' ho' ip' hip' ↦ ?_
        spread := h.spread.congr (fun o' ho' ↦ ?_) fun _ _ ↦ rfl }
    · rw [List.length_append, List.length_singleton, h.length]
    · rw [htake, List.mem_append, List.mem_singleton] at ho'
      rw [List.mem_append, List.mem_singleton]
      rcases ho' with ho' | rfl
      · exact .inl (h.placed o' ho' ip' hip')
      · dsimp only at hip'
        rw [h.kept o' fun _ ↦ hlost, hloc] at hip'
        exact .inr (Option.mem_some_iff.mp hip').symm
    · rw [htake] at ho'
      rw [hdrop, List.filter_cons_of_pos (by simpa using hlost)]
      simpa using ho'

end Relocation

end Loops

end UniDedup.Storage
