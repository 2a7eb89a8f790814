import UniDedup.Storage.Coordinator

/-!
# Entries and their objects

The entries of the coordinator point to their objects and the objects to their entries. As the name of an object
tells its file, a new entry never takes an object away from another one, so the recorded location of an object
changes when its entry is made and when a repair moves it, and at no other time.
-/

namespace UniDedup.Storage

/-- An entry of a file with its objects, or of a parity object. -/
structure SSEntry.Shaped (e : SSEntry) : Prop where
  names : (∃ m, e.objList = (List.range m).map (objName e.filename)) ∨
    (∃ ecpoolid t i, e.filename = parityName ecpoolid t i) ∧ e.objList = [e.filename]
  length : e.objList.length = e.objLoc.length

namespace SSEntry

variable {e e' : SSEntry} {o o' : Name} {loc : ℕ}

namespace Shaped

theorem nodup (h : e.Shaped) : e.objList.Nodup := by
  obtain ⟨m, hm⟩ | ⟨-, hone⟩ := h.names
  · rw [hm]
    exact List.nodup_range.map fun i j hij ↦ (objName_inj.mp hij).2
  · rw [hone]
    exact List.nodup_singleton _

theorem filename_eq (h : e.Shaped) (h' : e'.Shaped) (ho : o ∈ e.objList) (ho' : o ∈ e'.objList) :
    e.filename = e'.filename := by
  obtain ⟨m, hm⟩ | ⟨⟨id, t, i, hpar⟩, hone⟩ := h.names
  · rw [hm] at ho
    obtain ⟨j, -, rfl⟩ := List.mem_map.mp ho
    obtain ⟨m', hm'⟩ | ⟨⟨id', t', i', hpar'⟩, hone'⟩ := h'.names
    · rw [hm'] at ho'
      obtain ⟨j', -, heq⟩ := List.mem_map.mp ho'
      exact (objName_inj.mp heq).1.symm
    · rw [hone', List.mem_singleton] at ho'
      exact absurd (ho'.trans hpar') objName_ne_parityName
  · rw [hone, List.mem_singleton] at ho
    obtain ⟨m', hm'⟩ | ⟨-, hone'⟩ := h'.names
    · rw [hm'] at ho'
      obtain ⟨j', -, heq⟩ := List.mem_map.mp ho'
      exact absurd (heq.trans (ho.trans hpar)) objName_ne_parityName
    · rw [hone', List.mem_singleton] at ho'
      exact ho.symm.trans ho'

theorem updateObjLoc (h : e.Shaped) (o : Name) (loc : ℕ) : (e.updateObjLoc o loc).Shaped :=
  ⟨h.names, by rw [SSEntry.updateObjLoc, List.length_set]; exact h.length⟩

theorem getLocOfObj_updateObjLoc (h : e.Shaped) (ho : o ∈ e.objList) :
    (e.updateObjLoc o loc).getLocOfObj o' = if o' = o then some loc else e.getLocOfObj o' := by
  rw [getLocOfObj, getLocOfObj, SSEntry.updateObjLoc]
  dsimp only
  by_cases heq : o' = o
  · subst heq
    rw [if_pos ho, if_pos rfl, List.getElem?_set_self]
    exact (List.idxOf_lt_length_of_mem ho).trans_eq h.length
  · rw [if_neg heq]
    by_cases hmem : o' ∈ e.objList
    · rw [if_pos hmem, if_pos hmem, List.getElem?_set_ne fun hidx ↦ heq ((List.idxOf_inj hmem).mp hidx.symm)]
    · rw [if_neg hmem, if_neg hmem]

end Shaped

end SSEntry

/-! ## The store -/

/-- The entries and the pointers of their objects agree. -/
structure StripeStore.Sound (st : StripeStore) : Prop where
  entries : ∀ f e, st.ssEntryMap.lookup f = some e → e.filename = f ∧ e.Shaped
  objs : ∀ f e, st.ssEntryMap.lookup f = some e → ∀ o ∈ e.objList, st.objEntryMap.lookup o = some f
  owner : ∀ o f, st.objEntryMap.lookup o = some f → ∃ e, st.ssEntryMap.lookup f = some e ∧ o ∈ e.objList

theorem lookup_foldl_emplace {β : Type*} (objs : List Name) (m : AList fun _ : Name ↦ β) (v : β) (o : Name) :
    (objs.foldl (fun m obj ↦ emplace m obj v) m).lookup o =
      if o ∈ objs ∧ o ∉ m then some v else m.lookup o := by
  induction objs generalizing m with
  | nil => simp
  | cons o' objs ih =>
    rw [List.foldl_cons, ih]
    by_cases hm : o ∈ m
    · have hlookup : (emplace m o' v).lookup o = m.lookup o := by
        by_cases hoo : o = o'
        · subst hoo
          rw [emplace, if_pos hm]
        · exact lookup_emplace_of_ne _ _ hoo
      simp [hm, hlookup]
    · by_cases hoo : o = o'
      · subst hoo
        simp [hm, lookup_emplace]
      · rw [lookup_emplace_of_ne _ _ hoo]
        simp [hm, hoo]

namespace StripeStore.Sound

variable {st st' : StripeStore} {e e' : SSEntry} {f o o' : Name} {loc : ℕ}

theorem empty : StripeStore.Sound ⟨∅, ∅⟩ where
  entries f e h := absurd h (by simp)
  objs f e h := absurd h (by simp)
  owner o f h := absurd h (by simp)

theorem getEntryFromObj_eq (h : st.Sound) (he : st.ssEntryMap.lookup f = some e) (ho : o ∈ e.objList) :
    st.getEntryFromObj o = some e := by
  rw [StripeStore.getEntryFromObj, h.objs f e he o ho, Option.bind_some, he]

theorem exists_of_getEntryFromObj (h : st.Sound) (he : st.getEntryFromObj o = some e) :
    st.ssEntryMap.lookup e.filename = some e ∧ o ∈ e.objList := by
  obtain ⟨f, hf, he⟩ := Option.bind_eq_some_iff.mp he
  obtain ⟨e', he', ho⟩ := h.owner o f hf
  obtain rfl : e' = e := Option.some.inj (he'.symm.trans he)
  rw [(h.entries f e' he').1]
  exact ⟨he, ho⟩

/-! ### A new entry -/

theorem notMem_objEntryMap (h : st.Sound) (he : e.Shaped) (hnew : e.filename ∉ st.ssEntryMap)
    (ho : o ∈ e.objList) : o ∉ st.objEntryMap := by
  intro hin
  obtain ⟨f, hf⟩ := Option.isSome_iff_exists.mp (AList.lookup_isSome.mpr hin)
  obtain ⟨e', he', ho'⟩ := h.owner o f hf
  obtain ⟨hname, hshaped⟩ := h.entries f e' he'
  have heq : e.filename = f := (he.filename_eq hshaped ho ho').trans hname
  exact hnew (heq ▸ AList.lookup_isSome.mp (Option.isSome_iff_exists.mpr ⟨e', he'⟩))

theorem lookup_ssEntryMap_insertEntry (hnew : e.filename ∉ st.ssEntryMap) (f : Name) :
    (st.insertEntry e).ssEntryMap.lookup f =
      if f = e.filename then some e else st.ssEntryMap.lookup f := by
  rw [StripeStore.insertEntry, if_neg hnew]
  dsimp only
  split_ifs with hf
  · rw [hf, AList.lookup_insert]
  · rw [AList.lookup_insert_ne hf]

theorem lookup_objEntryMap_insertEntry (h : st.Sound) (he : e.Shaped) (hnew : e.filename ∉ st.ssEntryMap)
    (o : Name) : (st.insertEntry e).objEntryMap.lookup o =
      if o ∈ e.objList then some e.filename else st.objEntryMap.lookup o := by
  rw [StripeStore.insertEntry, if_neg hnew]
  dsimp only
  rw [lookup_foldl_emplace]
  by_cases ho : o ∈ e.objList
  · rw [if_pos ⟨ho, h.notMem_objEntryMap he hnew ho⟩, if_pos ho]
  · rw [if_neg fun hand ↦ ho hand.1, if_neg ho]

theorem cases_of_insertEntry (hlookup : (st.insertEntry e).ssEntryMap.lookup f = some e') :
    (e.filename ∉ st.ssEntryMap ∧ f = e.filename ∧ e' = e) ∨ st.ssEntryMap.lookup f = some e' := by
  by_cases hmem : e.filename ∈ st.ssEntryMap
  · rw [StripeStore.insertEntry, if_pos hmem] at hlookup
    exact .inr hlookup
  · rw [lookup_ssEntryMap_insertEntry hmem] at hlookup
    split_ifs at hlookup with hf
    · exact .inl ⟨hmem, hf, (Option.some.inj hlookup).symm⟩
    · exact .inr hlookup

theorem insertEntry (h : st.Sound) (he : e.Shaped) : (st.insertEntry e).Sound := by
  by_cases hmem : e.filename ∈ st.ssEntryMap
  · rw [StripeStore.insertEntry, if_pos hmem]
    exact h
  have hfresh := fun o ↦ h.notMem_objEntryMap he hmem (o := o)
  have hentry : ∀ f, (st.insertEntry e).ssEntryMap.lookup f =
      if f = e.filename then some e else st.ssEntryMap.lookup f := lookup_ssEntryMap_insertEntry hmem
  have hobj := h.lookup_objEntryMap_insertEntry he hmem
  refine ⟨fun f e' he' ↦ ?_, fun f e' he' o ho ↦ ?_, fun o f hf ↦ ?_⟩
  · rw [hentry] at he'
    split_ifs at he' with hf
    · obtain rfl := Option.some.inj he'
      exact ⟨hf.symm, he⟩
    · exact h.entries f e' he'
  · rw [hentry] at he'
    rw [hobj]
    split_ifs at he' with hf
    · obtain rfl := Option.some.inj he'
      rw [if_pos ho, hf]
    · have hold := h.objs f e' he' o ho
      rw [if_neg fun hin ↦ hfresh o hin (AList.lookup_isSome.mp (Option.isSome_iff_exists.mpr ⟨f, hold⟩)), hold]
  · rw [hobj] at hf
    split_ifs at hf with ho
    · obtain rfl := Option.some.inj hf
      exact ⟨e, by rw [hentry, if_pos rfl], ho⟩
    · obtain ⟨e', he', ho'⟩ := h.owner o f hf
      have hne : f ≠ e.filename := fun heq ↦
        hmem (heq ▸ AList.lookup_isSome.mp (Option.isSome_iff_exists.mpr ⟨e', he'⟩))
      exact ⟨e', by rw [hentry, if_neg hne, he'], ho'⟩

theorem locOf_insertEntry (h : st.Sound) (he : e.Shaped) (hnew : e.filename ∉ st.ssEntryMap) (o : Name) :
    (st.insertEntry e).locOf o = if o ∈ e.objList then e.getLocOfObj o else st.locOf o := by
  rw [StripeStore.locOf, StripeStore.getEntryFromObj, h.lookup_objEntryMap_insertEntry he hnew]
  split_ifs with ho
  · rw [Option.bind_some, lookup_ssEntryMap_insertEntry hnew, if_pos rfl, Option.bind_some]
  · rw [StripeStore.locOf, StripeStore.getEntryFromObj]
    cases hf : st.objEntryMap.lookup o with
    | none => rfl
    | some f =>
      obtain ⟨e', he', -⟩ := h.owner o f hf
      have hne : f ≠ e.filename := fun heq ↦
        hnew (heq ▸ AList.lookup_isSome.mp (Option.isSome_iff_exists.mpr ⟨e', he'⟩))
      rw [Option.bind_some, Option.bind_some, lookup_ssEntryMap_insertEntry hnew, if_neg hne]

/-! ### An object is moved -/

theorem updateObjLoc (h : st.Sound) (hs : st.updateObjLoc o loc = some st') :
    st'.Sound ∧ ∃ e, st.getEntryFromObj o = some e ∧ st'.objEntryMap = st.objEntryMap ∧
      ∀ f, st'.ssEntryMap.lookup f =
        if f = e.filename then some (e.updateObjLoc o loc) else st.ssEntryMap.lookup f := by
  obtain ⟨e, he, rfl⟩ := Option.map_eq_some_iff.mp hs
  obtain ⟨hlookup, -⟩ := h.exists_of_getEntryFromObj he
  have hentry : ∀ f, (st.ssEntryMap.insert e.filename (e.updateObjLoc o loc)).lookup f =
      if f = e.filename then some (e.updateObjLoc o loc) else st.ssEntryMap.lookup f := by
    intro f
    split_ifs with hf
    · rw [hf, AList.lookup_insert]
    · rw [AList.lookup_insert_ne hf]
  refine ⟨⟨fun f e' he' ↦ ?_, fun f e' he' o' ho' ↦ ?_, fun o' f hf ↦ ?_⟩, e, he, rfl, hentry⟩
  · dsimp only at he'
    rw [hentry] at he'
    split_ifs at he' with hf
    · obtain rfl := Option.some.inj he'
      exact ⟨hf.symm, (h.entries _ e hlookup).2.updateObjLoc o loc⟩
    · exact h.entries f e' he'
  · dsimp only at he'
    rw [hentry] at he'
    split_ifs at he' with hf
    · obtain rfl := Option.some.inj he'
      rw [hf]
      exact h.objs _ e hlookup o' ho'
    · exact h.objs f e' he' o' ho'
  · obtain ⟨e', he', ho'⟩ := h.owner o' f hf
    dsimp only
    rw [hentry]
    split_ifs with hfe
    · subst hfe
      obtain rfl : e' = e := Option.some.inj (he'.symm.trans hlookup)
      exact ⟨_, rfl, ho'⟩
    · exact ⟨e', he', ho'⟩

theorem locOf_updateObjLoc (h : st.Sound) (hs : st.updateObjLoc o loc = some st') (o' : Name) :
    st'.locOf o' = if o' = o then some loc else st.locOf o' := by
  obtain ⟨-, e, he, hobjs, hentry⟩ := h.updateObjLoc hs
  obtain ⟨hlookup, ho⟩ := h.exists_of_getEntryFromObj he
  have hshaped := (h.entries _ e hlookup).2
  rw [StripeStore.locOf, StripeStore.getEntryFromObj, hobjs, StripeStore.locOf, StripeStore.getEntryFromObj]
  cases hf : st.objEntryMap.lookup o' with
  | none =>
    have hne : o' ≠ o := by
      rintro rfl
      rw [h.objs _ e hlookup o' ho] at hf
      cases hf
    rw [if_neg hne]
    rfl
  | some f =>
    rw [Option.bind_some, Option.bind_some, hentry]
    by_cases hfe : f = e.filename
    · rw [if_pos hfe, hfe, hlookup, Option.bind_some, Option.bind_some, hshaped.getLocOfObj_updateObjLoc ho]
    · have hne : o' ≠ o := by
        rintro rfl
        rw [h.objs _ e hlookup o' ho] at hf
        exact hfe (Option.some.inj hf).symm
      rw [if_neg hfe, if_neg hne]

end StripeStore.Sound

end UniDedup.Storage
