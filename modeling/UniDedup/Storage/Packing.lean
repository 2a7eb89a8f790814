import UniDedup.Lib.Transition
import UniDedup.Storage.Coordinator

/-!
# Packing and encoding stripes

Files are registered, finalized and encoded in any order, and the stripes of a pool are filled across files.
Three lists have to stay in step over a whole run: the lists of the stripes, the flags of the objects and
the queue of the stripes to encode.

One invariant ties them together (`Packed`). A stripe is complete when its first `k` objects are there and
finalized; a stripe is queued when the last of them is finalized, since a new object always joins a stripe
that has room and an object is finalized once; and only complete stripes are ever encoded.
-/

namespace UniDedup.Storage

namespace OfflineECPool

/-! ## Adding objects to one stripe -/

/-- Add the objects of a list to a stripe. -/
def addObjs (p : OfflineECPool) (s : Name) (names : List Name) : OfflineECPool :=
  names.foldl (fun p o ↦ p.addObj o s) p

section addObjs

variable {p : OfflineECPool} {s : Name} {names : List Name}

theorem addObjs_concat (o : Name) : p.addObjs s (names ++ [o]) = (p.addObjs s names).addObj o s :=
  List.foldl_concat _ _ _ _

theorem getStripeObjList_addObjs (t : Name) : (p.addObjs s names).getStripeObjList t =
    if t = s then p.getStripeObjList s ++ names else p.getStripeObjList t := by
  induction names using List.reverseRecOn with
  | nil => split_ifs with h <;> simp [addObjs, h]
  | append_singleton names o ih =>
    rw [addObjs_concat, getStripeObjList_addObj]
    split_ifs with h
    · subst h
      rw [ih, if_pos rfl, List.append_assoc]
    · rw [ih, if_neg h]

@[simp] theorem ecpolicy_addObjs : (p.addObjs s names).ecpolicy = p.ecpolicy := by
  induction names using List.reverseRecOn with
  | nil => rfl
  | append_singleton names o ih => rw [addObjs_concat, ecpolicy_addObj, ih]

@[simp] theorem ecpoolid_addObjs : (p.addObjs s names).ecpoolid = p.ecpoolid := by
  induction names using List.reverseRecOn with
  | nil => rfl
  | append_singleton names o ih => rw [addObjs_concat, ecpoolid_addObj, ih]

theorem mem_objs_addObjs {o : Name} : o ∈ (p.addObjs s names).objs ↔ o ∈ names ∨ o ∈ p.objs := by
  induction names using List.reverseRecOn with
  | nil => simp [addObjs]
  | append_singleton names o' ih =>
    rw [addObjs_concat, objs_addObj, mem_emplace, ih, List.mem_append, List.mem_singleton]
    tauto

theorem lookup_objs_addObjs {o : Name} (h : o ∉ names) :
    (p.addObjs s names).objs.lookup o = p.objs.lookup o := by
  induction names using List.reverseRecOn with
  | nil => rfl
  | append_singleton names o' ih =>
    rw [List.mem_append, List.mem_singleton, not_or] at h
    rw [addObjs_concat, objs_addObj, lookup_emplace_of_ne _ _ h.2, ih h.1]

theorem stripes_addObjs (hs : s ∈ p.stripes) : (p.addObjs s names).stripes = p.stripes := by
  induction names using List.reverseRecOn with
  | nil => rfl
  | append_singleton names o ih => rw [addObjs_concat, stripes_addObj, ih, if_pos hs]

theorem Consistent.addObjs (h : p.Consistent) (hnodup : names.Nodup) (hfresh : ∀ o ∈ names, o ∉ p.objs) :
    (p.addObjs s names).Consistent := by
  induction names using List.reverseRecOn with
  | nil => exact h
  | append_singleton names o ih =>
    rw [List.nodup_append] at hnodup
    rw [addObjs_concat]
    refine (ih hnodup.1 fun o' ho' ↦ hfresh o' (List.mem_append_left _ ho')).addObj (fun hmem ↦ ?_) s
    rcases mem_objs_addObjs.mp hmem with hin | hin
    · exact hnodup.2.2 o hin o List.mem_cons_self rfl
    · exact hfresh o (List.mem_append_right _ List.mem_cons_self) hin

end addObjs

/-! ## The invariant of a pool -/

variable (clock : ℕ → ℕ) (p : OfflineECPool)

def parityObjs (t : Name) : List Name :=
  (List.range' p.ecpolicy.k (p.ecpolicy.n - p.ecpolicy.k)).map (parityName p.ecpoolid t)

/-- The stripes hold up to `k` data objects, and behind `k` of them may come the parity objects. -/
structure Stocked (data : Name → Prop) : Prop where
  consistent : p.Consistent
  names : p.stripes = (List.range p.stripes.length).map fun i ↦ stripeName (clock i)
  shape : ∀ t, ∃ l : List Name, l.length ≤ p.ecpolicy.k ∧ (∀ o ∈ l, data o) ∧
    (p.getStripeObjList t = l ∨ l.length = p.ecpolicy.k ∧ p.getStripeObjList t = l ++ p.parityObjs t)

/-- The stripe has its `k` data objects and all of them are finalized. -/
def Ready (t : Name) : Prop :=
  p.ecpolicy.k ≤ (p.getStripeObjList t).length ∧
    ∀ o ∈ (p.getStripeObjList t).take p.ecpolicy.k, p.objs.lookup o = some true

/-- The stripes, given the data objects, the stripes that have been encoded and those ever queued. -/
structure Packed (data : Name → Prop) (encoded candidates : List Name) : Prop where
  consistent : p.Consistent
  names : p.stripes = (List.range p.stripes.length).map fun i ↦ stripeName (clock i)
  objs : ∀ o ∈ p.objs, data o ∨ ∃ t ∈ encoded, ∃ i, o = parityName p.ecpoolid t i
  shape : ∀ t, ∃ l : List Name, l.length ≤ p.ecpolicy.k ∧ (∀ o ∈ l, data o) ∧
    (t ∈ encoded → l.length = p.ecpolicy.k) ∧
    p.getStripeObjList t = l ++ if t ∈ encoded then p.parityObjs t else []
  encoded_ready : ∀ t ∈ encoded, p.Ready t
  queued : ∀ t, (p.Ready t → candidates.count t = 1) ∧ (¬p.Ready t → candidates.count t = 0)

theorem packed_empty (ecpoolid : Name) (ecpolicy : ECPolicy) (basesize : ℕ) :
    (empty ecpoolid ecpolicy basesize).Packed clock (fun _ ↦ False) [] [] where
  consistent := consistent_empty _ _ _
  names := rfl
  objs _ ho := absurd ho (by simp [empty])
  shape _ := ⟨[], Nat.zero_le _, by simp, by simp, by simp [empty, getStripeObjList]⟩
  encoded_ready _ ht := absurd ht (by simp)
  queued _ := ⟨fun hready ↦ absurd (Nat.le_zero.mp hready.1) ecpolicy.k_pos.ne', fun _ ↦ rfl⟩

variable {clock p} {data : Name → Prop} {encoded candidates : List Name}

theorem Packed.mono {data' : Name → Prop} (h : p.Packed clock data encoded candidates)
    (hdata : ∀ o, data o → data' o) : p.Packed clock data' encoded candidates where
  consistent := h.consistent
  names := h.names
  objs o ho := (h.objs o ho).imp_left (hdata o)
  shape t := by
    obtain ⟨l, hlen, hl, heq⟩ := h.shape t
    exact ⟨l, hlen, fun o ho ↦ hdata o (hl o ho), heq⟩
  encoded_ready := h.encoded_ready
  queued := h.queued

theorem Packed.stocked (h : p.Packed clock data encoded candidates) : p.Stocked clock data where
  consistent := h.consistent
  names := h.names
  shape t := by
    obtain ⟨l, hlen, hl, hfull, heq⟩ := h.shape t
    refine ⟨l, hlen, hl, ?_⟩
    split_ifs at heq with henc
    · exact .inr ⟨hfull henc, heq⟩
    · exact .inl (heq.trans (List.append_nil l))

theorem stocked_empty (ecpoolid : Name) (ecpolicy : ECPolicy) (basesize : ℕ) :
    (empty ecpoolid ecpolicy basesize).Stocked clock data where
  consistent := consistent_empty _ _ _
  names := rfl
  shape _ := ⟨[], Nat.zero_le _, fun _ ho ↦ absurd ho List.not_mem_nil, .inl rfl⟩

theorem Stocked.mono {data' : Name → Prop} (h : p.Stocked clock data) (hdata : ∀ o, data o → data' o) :
    p.Stocked clock data' where
  consistent := h.consistent
  names := h.names
  shape t := by
    obtain ⟨l, hlen, hl, heq⟩ := h.shape t
    exact ⟨l, hlen, fun o ho ↦ hdata o (hl o ho), heq⟩

theorem Stocked.mem_cases {o t : Name} (h : p.Stocked clock data) (ho : o ∈ p.getStripeObjList t) :
    data o ∨ o ∈ p.parityObjs t ∧ p.ecpolicy.k < (p.getStripeObjList t).length := by
  obtain ⟨l, -, hl, heq | ⟨hfull, heq⟩⟩ := h.shape t
  · exact .inl (hl o (heq ▸ ho))
  · have hmem := heq ▸ ho
    rcases List.mem_append.mp hmem with hmem | hmem
    · exact .inl (hl o hmem)
    · refine .inr ⟨hmem, ?_⟩
      rw [heq, List.length_append, hfull]
      exact Nat.lt_add_of_pos_right (List.length_pos_of_mem hmem)

theorem Stocked.of_mem_objs {o : Name} (h : p.Stocked clock data) (ho : o ∈ p.objs) :
    data o ∨ ∃ t, o ∈ p.parityObjs t ∧ p.ecpolicy.k < (p.getStripeObjList t).length := by
  obtain ⟨t, -, hmem⟩ := h.consistent.exists_of_mem_objs ho
  exact (h.mem_cases hmem).imp_right fun hpar ↦ ⟨t, hpar⟩

/-! ### A data object is added -/

section addObj

variable (h : p.Packed clock data encoded candidates) (hclock : StrictMono clock) {o : Name}
  (ho : o ∉ p.objs)

theorem Stocked.stripeName_notMem (h : p.Stocked clock data) (hclock : StrictMono clock) :
    stripeName (clock p.stripes.length) ∉ p.stripes := by
  intro hmem
  rw [h.names] at hmem
  obtain ⟨i, hi, heq⟩ := List.mem_map.mp hmem
  rw [List.mem_range] at hi
  rw [List.length_map, List.length_range] at heq
  exact absurd (hclock.injective (stripeName_injective heq)) hi.ne

include ho in
theorem getStripeForObj_cases (now : ℕ) : p.getStripeForObj o now = stripeName now ∨
    p.getStripeForObj o now ∈ p.stripes ∧
      (p.getStripeObjList (p.getStripeForObj o now)).length < p.ecpolicy.k := by
  rw [getStripeForObj, if_neg ho]
  cases hlast : p.stripes.getLast? with
  | none => exact .inl rfl
  | some last =>
    dsimp only
    split_ifs with hfull
    · exact .inl rfl
    · exact .inr ⟨List.mem_of_getLast? hlast, Nat.lt_of_not_le hfull⟩

include ho in
theorem Stocked.length_lt (h : p.Stocked clock data) (hclock : StrictMono clock) :
    (p.getStripeObjList (p.getStripeForObj o (clock p.stripes.length))).length < p.ecpolicy.k := by
  rcases p.getStripeForObj_cases ho (clock p.stripes.length) with hnew | ⟨-, hlt⟩
  · rw [hnew, h.consistent.getStripeObjList_eq_nil (h.stripeName_notMem hclock)]
    exact p.ecpolicy.k_pos
  · exact hlt

include ho in
theorem stripes_addObj_getStripeForObj
    (hnames : p.stripes = (List.range p.stripes.length).map fun i ↦ stripeName (clock i)) :
    let s := p.getStripeForObj o (clock p.stripes.length)
    (p.addObj o s).stripes =
      (List.range (p.addObj o s).stripes.length).map fun i ↦ stripeName (clock i) := by
  have hcases := p.getStripeForObj_cases ho (clock p.stripes.length)
  generalize p.getStripeForObj o (clock p.stripes.length) = s at hcases ⊢
  dsimp only
  rw [stripes_addObj]
  split_ifs with hs
  · exact hnames
  · obtain hs' : s = stripeName (clock p.stripes.length) := hcases.resolve_right fun hmem ↦ hs hmem.1
    rw [List.length_append, List.length_singleton, List.range_succ, List.map_append, List.map_singleton,
      ← hnames, hs']

include ho in
theorem Stocked.addObj (h : p.Stocked clock data) (hclock : StrictMono clock) (hdata : data o) :
    (p.addObj o (p.getStripeForObj o (clock p.stripes.length))).Stocked clock data := by
  have hlt := h.length_lt ho hclock
  refine ⟨h.consistent.addObj ho _, stripes_addObj_getStripeForObj ho h.names, fun t ↦ ?_⟩
  generalize p.getStripeForObj o (clock p.stripes.length) = s at hlt ⊢
  obtain ⟨l, hlen, hl, heq⟩ := h.shape t
  rw [getStripeObjList_addObj]
  split_ifs with hts
  · subst hts
    obtain heq := heq.resolve_right fun ⟨hfull, hlist⟩ ↦ by
      rw [hlist, List.length_append, hfull] at hlt
      exact absurd hlt (Nat.not_lt.mpr (Nat.le_add_right _ _))
    refine ⟨l ++ [o], ?_, fun o' ho' ↦ ?_, .inl (heq ▸ rfl)⟩
    · rw [List.length_append, List.length_singleton]
      exact heq ▸ hlt
    · rw [List.mem_append, List.mem_singleton] at ho'
      exact ho'.elim (hl o') fun heq' ↦ heq' ▸ hdata
  · exact ⟨l, hlen, hl, heq⟩

include ho in
/-- A stripe the object does not join, or joins behind the data objects, stays as complete as it was. -/
theorem ready_addObj_of_ne (h : p.Consistent) {s t : Name} (hts : t ≠ s) :
    (p.addObj o s).Ready t ↔ p.Ready t := by
  have hfresh : ∀ o' ∈ p.getStripeObjList t, (p.addObj o s).objs.lookup o' = p.objs.lookup o' := by
    intro o' ho'
    refine lookup_emplace_of_ne _ _ fun heq ↦ ho ?_
    exact heq ▸ h.mem_objs_of_mem ho'
  rw [Ready, Ready, getStripeObjList_addObj, if_neg hts, ecpolicy_addObj]
  refine and_congr_right fun _ ↦ forall₂_congr fun o' ho' ↦ ?_
  rw [hfresh o' (List.mem_of_mem_take ho')]

include ho in
theorem not_ready_addObj {s : Name} (hlt : (p.getStripeObjList s).length < p.ecpolicy.k) :
    ¬(p.addObj o s).Ready s := by
  rintro ⟨hlen, hflags⟩
  rw [getStripeObjList_addObj_self, ecpolicy_addObj] at hlen hflags
  rw [List.take_of_length_le (by rw [List.length_append, List.length_singleton]; omega)] at hflags
  have hflag := hflags o (List.mem_append_right _ List.mem_cons_self)
  rw [objs_addObj, lookup_emplace _ _ _ _ ho, if_pos rfl] at hflag
  exact absurd hflag (by simp)

include h hclock ho in
/-- **Adding a data object.** -/
theorem Packed.addObj (hdata : data o) :
    (p.addObj o (p.getStripeForObj o (clock p.stripes.length))).Packed clock data encoded candidates := by
  have hlt := h.stocked.length_lt ho hclock
  have hnames := stripes_addObj_getStripeForObj ho h.names
  dsimp only at hnames
  generalize p.getStripeForObj o (clock p.stripes.length) = s at hlt hnames ⊢
  have hnready : ¬p.Ready s := fun hready ↦ absurd hready.1 (Nat.not_le.mpr hlt)
  have hnenc : s ∉ encoded := fun hs ↦ hnready (h.encoded_ready s hs)
  have hne : ∀ t ∈ encoded, t ≠ s := fun t ht heq ↦ hnenc (heq ▸ ht)
  refine ⟨h.consistent.addObj ho s, hnames, fun o' ho' ↦ ?_, fun t ↦ ?_, fun t ht ↦ ?_, fun t ↦ ?_⟩
  · rw [objs_addObj, mem_emplace] at ho'
    rcases ho' with rfl | ho'
    · exact .inl hdata
    · exact h.objs o' ho'
  · obtain ⟨l, hlen, hl, hfull, heq⟩ := h.shape t
    rw [getStripeObjList_addObj]
    split_ifs with hts henc henc
    · exact absurd (hts ▸ henc) hnenc
    · -- the stripe is not encoded, so its list holds data objects only
      subst hts
      rw [if_neg henc, List.append_nil] at heq
      refine ⟨l ++ [o], ?_, fun o' ho' ↦ ?_, fun ht ↦ absurd ht henc, by rw [heq, List.append_nil]⟩
      · rw [List.length_append, List.length_singleton, ecpolicy_addObj]
        exact heq ▸ hlt
      · rw [List.mem_append, List.mem_singleton] at ho'
        exact ho'.elim (hl o') fun heq' ↦ heq' ▸ hdata
    · exact ⟨l, hlen, hl, hfull, by rw [heq, if_pos henc]; rfl⟩
    · exact ⟨l, hlen, hl, hfull, by rw [heq, if_neg henc]⟩
  · exact (ready_addObj_of_ne ho h.consistent (hne t ht)).mpr (h.encoded_ready t ht)
  · by_cases hts : t = s
    · subst hts
      exact ⟨fun hready ↦ absurd hready (not_ready_addObj ho hlt), fun _ ↦ (h.queued t).2 hnready⟩
    · rw [ready_addObj_of_ne ho h.consistent hts]
      exact h.queued t

end addObj

/-! ### A data object is finalized -/

theorem isCandidateForEC_iff {t : Name} : p.isCandidateForEC t = true ↔
    (p.getStripeObjList t).length = p.ecpolicy.k ∧ ∀ o ∈ p.getStripeObjList t, p.objs.lookup o = some true := by
  rw [isCandidateForEC, Bool.and_eq_true, decide_eq_true_iff, List.all_eq_true]
  refine and_congr_right fun _ ↦ forall₂_congr fun o _ ↦ ?_
  rcases p.objs.lookup o with _ | b <;> simp

/-- An object that is not a parity object is among the first `k` of its stripe. -/
theorem Packed.mem_take {o t : Name} (h : p.Packed clock data encoded candidates)
    (hpar : ∀ t i, o ≠ parityName p.ecpoolid t i) (ho : o ∈ p.getStripeObjList t) :
    o ∈ (p.getStripeObjList t).take p.ecpolicy.k := by
  obtain ⟨l, hlen, -, -, heq⟩ := h.shape t
  have hol : o ∈ l := by
    rw [heq, List.mem_append] at ho
    refine ho.resolve_right fun hmem ↦ ?_
    split_ifs at hmem with henc
    · obtain ⟨i, -, hi⟩ := List.mem_map.mp hmem
      exact hpar t i hi.symm
    · exact absurd hmem List.not_mem_nil
  rw [heq, List.take_append, List.take_of_length_le hlen]
  exact List.mem_append_left _ hol

/-- **Finalizing a data object.** Its stripe is queued exactly when it becomes complete. -/
theorem Packed.finalizeObj {o : Name} {p' : OfflineECPool} (h : p.Packed clock data encoded candidates)
    (hflag : p.objs.lookup o = some false) (hpar : ∀ t i, o ≠ parityName p.ecpoolid t i)
    (hp : p.finalizeObj o = some p') :
    p'.Packed clock data encoded (if p'.isCandidateForEC (p'.getStripeForObj o 0)
      then candidates ++ [p'.getStripeForObj o 0] else candidates) := by
  obtain ⟨s, -, hos⟩ := h.consistent.exists_of_mem_objs
    (AList.lookup_isSome.mp (Option.isSome_iff_exists.mpr ⟨_, hflag⟩))
  have hlookup := lookup_finalizeObj hp
  have hmem := mem_objs_finalizeObj hp
  have hcons := h.consistent.finalizeObj hp
  have hp' := finalizeObj_eq hp
  have hlist : p'.getStripeObjList = p.getStripeObjList := by rw [hp']; rfl
  have hpolicy : p'.ecpolicy = p.ecpolicy := by rw [hp']
  have hid : p'.ecpoolid = p.ecpoolid := by rw [hp']
  have hstripes : p'.stripes = p.stripes := by rw [hp']
  have hstripe : p'.getStripeForObj o 0 = s := hcons.getStripeForObj_of_mem (by rw [hlist]; exact hos) 0
  -- the stripe was not complete, hence not encoded
  have hnready : ¬p.Ready s := fun hready ↦ by
    have hset := hready.2 o (h.mem_take hpar hos)
    rw [hflag] at hset
    exact absurd hset (by simp)
  have hnenc : s ∉ encoded := fun hs ↦ hnready (h.encoded_ready s hs)
  have hready_of_ne : ∀ t, t ≠ s → (p'.Ready t ↔ p.Ready t) := by
    intro t hts
    rw [Ready, Ready, hlist, hpolicy]
    refine and_congr_right fun _ ↦ forall₂_congr fun o' ho' ↦ ?_
    have hne : o' ≠ o := fun heq ↦
      hts (h.consistent.eq_of_mem (heq ▸ List.mem_of_mem_take ho') hos)
    rw [hlookup, if_neg hne]
  have hready_self : p'.Ready s ↔ p'.isCandidateForEC s = true := by
    obtain ⟨l, hlen, -, -, heq⟩ := h.shape s
    rw [if_neg hnenc, List.append_nil] at heq
    rw [isCandidateForEC_iff, Ready, hlist, hpolicy, heq, List.take_of_length_le hlen]
    exact and_congr_left fun _ ↦ ⟨fun hle ↦ Nat.le_antisymm hlen hle, fun hk ↦ hk.ge⟩
  refine ⟨hcons, by rw [hstripes]; exact h.names, fun o' ho' ↦ ?_, fun t ↦ ?_, fun t ht ↦ ?_, fun t ↦ ?_⟩
  · rw [hid]
    exact h.objs o' ((hmem o').mp ho')
  · rw [hlist, hpolicy, parityObjs, hpolicy, hid]
    exact h.shape t
  · exact (hready_of_ne t fun heq ↦ hnenc (heq ▸ ht)).mpr (h.encoded_ready t ht)
  · rw [hstripe]
    by_cases hts : t = s
    · subst hts
      have hzero := (h.queued t).2 hnready
      rw [hready_self]
      split_ifs with hcand
      · rw [List.count_append, hzero, List.count_singleton_self]
        exact ⟨fun _ ↦ rfl, fun hn ↦ absurd hcand hn⟩
      · exact ⟨fun hc ↦ absurd hc hcand, fun _ ↦ hzero⟩
    · rw [hready_of_ne t hts]
      split_ifs with hcand
      · rw [List.count_append, List.count_singleton, if_neg (by simpa using Ne.symm hts), Nat.add_zero]
        exact h.queued t
      · exact h.queued t

/-! ### A stripe is encoded -/

theorem nodup_parityObjs (t : Name) : (p.parityObjs t).Nodup :=
  List.Nodup.map (fun _ _ h ↦ (parityName_inj.mp h).2) List.nodup_range'

theorem parityObjs_addObjs (s : Name) (names : List Name) : (p.addObjs s names).parityObjs = p.parityObjs := by
  funext t
  rw [parityObjs, ecpolicy_addObjs, ecpoolid_addObjs]
  rfl

theorem Stocked.encode {t : Name} (h : p.Stocked clock data)
    (hpar : ∀ o, data o → ∀ t i, o ≠ parityName p.ecpoolid t i)
    (hlen : (p.getStripeObjList t).length = p.ecpolicy.k) :
    (∀ o ∈ p.parityObjs t, o ∉ p.objs) ∧ (p.addObjs t (p.parityObjs t)).Stocked clock data := by
  have hstripe : t ∈ p.stripes := by
    refine (h.consistent.mem_stripes t).mp fun hnil ↦ ?_
    rw [hnil, List.length_nil] at hlen
    exact absurd hlen p.ecpolicy.k_pos.ne
  have hfresh : ∀ o ∈ p.parityObjs t, o ∉ p.objs := by
    intro o ho hmem
    obtain ⟨i, -, rfl⟩ := List.mem_map.mp ho
    rcases h.of_mem_objs hmem with hdata | ⟨t', ht', hlt⟩
    · exact hpar _ hdata t i rfl
    · obtain ⟨i', -, heq⟩ := List.mem_map.mp ht'
      rw [(parityName_inj.mp heq).1, hlen] at hlt
      exact absurd hlt (lt_irrefl _)
  refine ⟨hfresh, h.consistent.addObjs (nodup_parityObjs t) hfresh, ?_, fun t' ↦ ?_⟩
  · rw [stripes_addObjs hstripe]
    exact h.names
  · obtain ⟨l, hlenl, hl, heq⟩ := h.shape t'
    rw [parityObjs_addObjs, ecpolicy_addObjs, getStripeObjList_addObjs]
    split_ifs with htt
    · subst htt
      obtain heq := heq.resolve_right fun ⟨hfull, hlist⟩ ↦ by
        have hpos : 0 < (p.parityObjs t').length := by
          rw [parityObjs, List.length_map, List.length_range']
          exact Nat.sub_pos_of_lt p.ecpolicy.k_lt_n
        rw [hlist, List.length_append, hfull] at hlen
        omega
      exact ⟨l, hlenl, hl, .inr ⟨heq ▸ hlen, heq ▸ rfl⟩⟩
    · exact ⟨l, hlenl, hl, heq⟩

/-- **Encoding a stripe that is queued.** -/
theorem Packed.encode {t : Name} (h : p.Packed clock data encoded candidates)
    (hpar : ∀ o, data o → ∀ t i, o ≠ parityName p.ecpoolid t i) (ht : t ∈ candidates) (hnenc : t ∉ encoded) :
    (p.addObjs t (p.parityObjs t)).Packed clock data (encoded ++ [t]) candidates := by
  have hready : p.Ready t := by
    by_contra hn
    exact absurd (List.count_pos_iff.mpr ht) (by rw [(h.queued t).2 hn]; simp)
  have hstripe : t ∈ p.stripes := by
    refine (h.consistent.mem_stripes t).mp fun hnil ↦ ?_
    have hle := hready.1
    rw [hnil, List.length_nil] at hle
    exact absurd p.ecpolicy.k_pos (Nat.not_lt.mpr hle)
  have hfresh : ∀ o ∈ p.parityObjs t, o ∉ p.objs := by
    intro o ho hmem
    obtain ⟨i, -, rfl⟩ := List.mem_map.mp ho
    rcases h.objs _ hmem with hdata | ⟨t', ht', i', heq⟩
    · exact hpar _ hdata t i rfl
    · exact hnenc ((parityName_inj.mp heq).1 ▸ ht')
  have hready_iff : ∀ t', (p.addObjs t (p.parityObjs t)).Ready t' ↔ p.Ready t' := by
    intro t'
    have hkeep : ∀ o' ∈ p.getStripeObjList t',
        (p.addObjs t (p.parityObjs t)).objs.lookup o' = p.objs.lookup o' := fun o' ho' ↦
      lookup_objs_addObjs fun hin ↦ hfresh o' hin (h.consistent.mem_objs_of_mem ho')
    rw [Ready, Ready, ecpolicy_addObjs, getStripeObjList_addObjs]
    split_ifs with heq
    · -- both sides hold, since the parity objects come behind the first `k`
      subst heq
      rw [List.take_append_of_le_length hready.1, List.length_append]
      refine iff_of_true ⟨by have := hready.1; omega, fun o' ho' ↦ ?_⟩ hready
      rw [hkeep o' (List.mem_of_mem_take ho')]
      exact hready.2 o' ho'
    · refine and_congr_right fun _ ↦ forall₂_congr fun o' ho' ↦ ?_
      rw [hkeep o' (List.mem_of_mem_take ho')]
  refine ⟨h.consistent.addObjs (nodup_parityObjs t) hfresh, ?_, fun o ho ↦ ?_, fun t' ↦ ?_,
    fun t' ht' ↦ ?_, fun t' ↦ ?_⟩
  · rw [stripes_addObjs hstripe]
    exact h.names
  · rw [ecpoolid_addObjs]
    rcases mem_objs_addObjs.mp ho with hin | hin
    · obtain ⟨i, -, rfl⟩ := List.mem_map.mp hin
      exact .inr ⟨t, List.mem_append_right _ List.mem_cons_self, i, rfl⟩
    · refine (h.objs o hin).imp_right fun ⟨t', ht', hi⟩ ↦ ⟨t', List.mem_append_left _ ht', hi⟩
  · obtain ⟨l, hlen, hl, hfull, heq⟩ := h.shape t'
    rw [parityObjs_addObjs, ecpolicy_addObjs, getStripeObjList_addObjs]
    by_cases htt : t' = t
    · subst htt
      rw [if_neg hnenc, List.append_nil] at heq
      refine ⟨l, hlen, hl, fun _ ↦ Nat.le_antisymm hlen (heq ▸ hready.1), ?_⟩
      rw [if_pos rfl, heq, if_pos (List.mem_append_right _ List.mem_cons_self)]
    · refine ⟨l, hlen, hl, fun ht' ↦ hfull (by simpa [htt] using ht'), ?_⟩
      rw [if_neg htt, heq]
      simp [htt]
  · rw [hready_iff]
    rw [List.mem_append, List.mem_singleton] at ht'
    exact ht'.elim (h.encoded_ready t') fun heq ↦ heq ▸ hready
  · rw [hready_iff]
    exact h.queued t'

end OfflineECPool

end UniDedup.Storage
