import UniDedup.Lib.Fold
import UniDedup.Lib.Transition
import UniDedup.Storage.Backup
import UniDedup.Storage.Entries
import UniDedup.Storage.Packing

/-!
# Restarting the coordinator

What reaches the backup files over a run of the coordinator: the entry of a file when it is finalized, the stripe
and its parity entries when it has been encoded, and nothing when a repair moves an object. A new coordinator
built from the files answers as the old one exactly as long as no stripe has been encoded and no object of a
finalized file has been moved.

## The invariant

`Inv` relates the memory of a coordinator to the lines it has appended to its two files: the entries read back from
them are those of the finalized files, each as it was when its file was finalized, and the pool file is empty as
long as nothing was encoded. The requests that keep this relation are `Lasting`. The others break it for good, since
a line that has been appended is never changed, which gives the other direction.
-/

namespace UniDedup.Storage

open Fold Records Transition

/-- A name without semicolon and newline. -/
def SepFree (name : Name) : Prop := ∀ sep ∈ [';', '\n'], sep ∉ name

instance (name : Name) : Decidable (SepFree name) :=
  List.decidableBAll (fun sep ↦ sep ∉ name) [';', '\n']

theorem sepFree_toDigits (n : ℕ) : SepFree (Decimal.toDigits n) := by
  intro sep hsep
  refine Decimal.not_mem_toDigits ?_
  rcases List.mem_pair.mp hsep with rfl | rfl
  · decide
  · decide

theorem SepFree.append {a b : Name} (ha : SepFree a) (hb : SepFree b) : SepFree (a ++ b) := fun sep hsep hmem ↦
  (List.mem_append.mp hmem).elim (ha sep hsep) (hb sep hsep)

theorem sepFree_objName {f : Name} (hf : SepFree f) (i : ℕ) : SepFree (objName f i) :=
  (hf.append (by decide)).append (sepFree_toDigits i)

theorem sepFree_stripeName (now : ℕ) : SepFree (stripeName now) := SepFree.append (by decide) (sepFree_toDigits now)

theorem sepFree_parityName {ecpoolid t : Name} (hid : SepFree ecpoolid) (ht : SepFree t) (i : ℕ) :
    SepFree (parityName ecpoolid t i) := by
  have hslash : SepFree ['/'] := by decide
  have hdash : SepFree ['-'] := by decide
  have h := (((hslash.append hid).append (hdash.append ht)).append hdash).append (sepFree_toDigits i)
  simpa [parityName] using h

/-! ## Entries that belong together -/

/-- An entry as the coordinator makes them: of a file with its objects, or of a parity object. -/
structure SSEntry.WellFormed (e : SSEntry) : Prop where
  names : (∃ m, e.objList = (List.range m).map (objName e.filename)) ∨
    (∃ ecpoolid t i, e.filename = parityName ecpoolid t i) ∧ e.objList = [e.filename]
  length : e.objList.length = e.objLoc.length
  filename : SepFree e.filename
  ecidpool : SepFree e.ecidpool

namespace SSEntry.WellFormed

variable {e : SSEntry} (h : e.WellFormed)

include h

theorem sepFree_of_mem {o : Name} (ho : o ∈ e.objList) : SepFree o := by
  obtain ⟨m, hm⟩ | ⟨-, hone⟩ := h.names
  · rw [hm] at ho
    obtain ⟨i, -, rfl⟩ := List.mem_map.mp ho
    exact sepFree_objName h.filename i
  · rw [hone, List.mem_singleton] at ho
    exact ho ▸ h.filename

theorem clean {sep : Char} (hsep : sep ∈ [';', '\n']) : e.Clean sep :=
  ⟨h.filename sep hsep, h.ecidpool sep hsep, fun _ ho ↦ h.sepFree_of_mem ho sep hsep⟩

theorem shaped : e.Shaped := ⟨h.names, h.length⟩

theorem updateObjLoc (o : Name) (loc : ℕ) : (e.updateObjLoc o loc).WellFormed :=
  ⟨h.names, (h.shaped.updateObjLoc o loc).length, h.filename, h.ecidpool⟩

end SSEntry.WellFormed

/-- The entries and the pointers of their objects agree. -/
structure StripeStore.Filed (st : StripeStore) : Prop where
  entries : ∀ f e, st.ssEntryMap.lookup f = some e → e.filename = f ∧ e.WellFormed
  objs : ∀ f e, st.ssEntryMap.lookup f = some e → ∀ o ∈ e.objList, st.objEntryMap.lookup o = some f
  owner : ∀ o f, st.objEntryMap.lookup o = some f → ∃ e, st.ssEntryMap.lookup f = some e ∧ o ∈ e.objList

namespace StripeStore.Filed

variable {st : StripeStore} {e : SSEntry}

theorem empty : StripeStore.Filed ⟨∅, ∅⟩ where
  entries f e h := absurd h (by simp)
  objs f e h := absurd h (by simp)
  owner o f h := absurd h (by simp)

theorem sound (h : st.Filed) : st.Sound :=
  ⟨fun f e he ↦ ⟨(h.entries f e he).1, (h.entries f e he).2.shaped⟩, h.objs, h.owner⟩

theorem insertEntry (h : st.Filed) (he : e.WellFormed) : (st.insertEntry e).Filed := by
  have hsound := h.sound.insertEntry he.shaped
  refine ⟨fun f e' he' ↦ ⟨(hsound.entries f e' he').1, ?_⟩, hsound.objs, hsound.owner⟩
  rcases StripeStore.Sound.cases_of_insertEntry he' with ⟨-, -, rfl⟩ | hold
  · exact he
  · exact (h.entries f e' hold).2

theorem getEntryFromObj_eq (h : st.Filed) {f o : Name} (he : st.ssEntryMap.lookup f = some e)
    (ho : o ∈ e.objList) : st.getEntryFromObj o = some e := h.sound.getEntryFromObj_eq he ho

theorem exists_of_getEntryFromObj (h : st.Filed) {o : Name} (he : st.getEntryFromObj o = some e) :
    st.ssEntryMap.lookup e.filename = some e ∧ o ∈ e.objList := h.sound.exists_of_getEntryFromObj he

theorem updateObjLoc (h : st.Filed) {o : Name} {loc : ℕ} {st' : StripeStore}
    (hs : st.updateObjLoc o loc = some st') : st'.Filed ∧ ∃ e, st.getEntryFromObj o = some e ∧
      ∀ f, st'.ssEntryMap.lookup f =
        if f = e.filename then some (e.updateObjLoc o loc) else st.ssEntryMap.lookup f := by
  obtain ⟨hsound, e, he, -, hentry⟩ := h.sound.updateObjLoc hs
  obtain ⟨hlookup, -⟩ := h.exists_of_getEntryFromObj he
  refine ⟨⟨fun f e' he' ↦ ⟨(hsound.entries f e' he').1, ?_⟩, hsound.objs, hsound.owner⟩, e, he, hentry⟩
  rw [hentry] at he'
  split_ifs at he' with hf
  · obtain rfl := Option.some.inj he'
    exact (h.entries _ e hlookup).2.updateObjLoc o loc
  · exact (h.entries f e' he').2

end StripeStore.Filed

/-! ## Pools whose names can be written -/

/-- No name in the pool has a semicolon or a newline. -/
structure OfflineECPool.Clean (p : OfflineECPool) : Prop where
  ecpoolid : SepFree p.ecpoolid
  stripes : ∀ t ∈ p.stripes, SepFree t
  objs : ∀ t, ∀ o ∈ p.getStripeObjList t, SepFree o
  obj2stripe : ∀ o t, p.obj2stripe.lookup o = some t → SepFree t

namespace OfflineECPool.Clean

variable {p p' : OfflineECPool} {o t : Name}

theorem empty {ecpoolid : Name} (h : SepFree ecpoolid) (ecpolicy : ECPolicy) (basesize : ℕ) :
    (OfflineECPool.empty ecpoolid ecpolicy basesize).Clean where
  ecpoolid := h
  stripes _ ht := absurd ht List.not_mem_nil
  objs _ _ ho := absurd ho (by simp [OfflineECPool.empty, OfflineECPool.getStripeObjList])
  obj2stripe _ _ ho := absurd ho (by simp [OfflineECPool.empty])

theorem getStripeForObj (h : p.Clean) (o : Name) (now : ℕ) : SepFree (p.getStripeForObj o now) := by
  rw [OfflineECPool.getStripeForObj]
  split_ifs
  · cases hlookup : p.obj2stripe.lookup o with
    | none => exact fun _ _ ↦ List.not_mem_nil
    | some t => exact h.obj2stripe o t hlookup
  · cases hlast : p.stripes.getLast? with
    | none => exact sepFree_stripeName now
    | some last =>
      dsimp only
      split_ifs
      · exact sepFree_stripeName now
      · exact h.stripes last (List.mem_of_getLast? hlast)

theorem addObj (h : p.Clean) (ho : SepFree o) (ht : SepFree t) : (p.addObj o t).Clean where
  ecpoolid := h.ecpoolid
  stripes t' ht' := by
    rw [OfflineECPool.mem_stripes_addObj] at ht'
    exact ht'.elim (fun heq ↦ heq ▸ ht) (h.stripes t')
  objs t' o' ho' := by
    rw [OfflineECPool.getStripeObjList_addObj] at ho'
    split_ifs at ho' with htt
    · rw [List.mem_append, List.mem_singleton] at ho'
      exact ho'.elim (h.objs t o') fun heq ↦ heq ▸ ho
    · exact h.objs t' o' ho'
  obj2stripe o' t' hlookup := by
    rw [OfflineECPool.obj2stripe_addObj, emplace] at hlookup
    split_ifs at hlookup
    · exact h.obj2stripe o' t' hlookup
    · by_cases hoo : o' = o
      · rw [hoo, AList.lookup_insert] at hlookup
        exact Option.some.inj hlookup ▸ ht
      · rw [AList.lookup_insert_ne hoo] at hlookup
        exact h.obj2stripe o' t' hlookup

theorem finalizeObj (h : p.Clean) (hp : p.finalizeObj o = some p') : p'.Clean := by
  have heq := OfflineECPool.finalizeObj_eq hp
  subst heq
  exact ⟨h.ecpoolid, h.stripes, h.objs, h.obj2stripe⟩

end OfflineECPool.Clean

/-! ## What the requests do to entries and pools -/

section Requests

variable {conf : Config} {st : StripeStore} {clientIp : ℕ} {picks : ℕ → ℕ} {f : Name}

theorem length_of_placeOnline {ec : ECPolicy} {n : ℕ} {ips : List ℕ}
    (h : (List.range n).foldlM (placeOnline conf ec clientIp picks) [] = some ips) : ips.length = n := by
  refine foldlM_range_invariant (I := fun i ips ↦ ips.length = i) (fun i _ s s' hs hstep ↦ ?_) rfl h
  obtain ⟨curIp, -, rfl⟩ := Option.map_eq_some_iff.mp hstep
  rw [List.length_append, List.length_singleton, hs]

theorem registerOnlineEC_spec {ec : ECPolicy} {ecid : Name} {filesizeMB : ℕ} {st' : StripeStore}
    (hf : SepFree f) (hecid : SepFree ecid)
    (h : registerOnlineEC conf st ec clientIp f ecid filesizeMB picks = some st') :
    f ∉ st.ssEntryMap ∧ ∃ e : SSEntry, e.filename = f ∧ e.WellFormed ∧ st' = st.insertEntry e := by
  rw [registerOnlineEC] at h
  split_ifs at h with hmem
  obtain ⟨ips, hips, rfl⟩ := Option.map_eq_some_iff.mp h
  refine ⟨hmem, _, rfl, ⟨.inl ⟨ec.n, rfl⟩, ?_, hf, hecid⟩, rfl⟩
  rw [length_of_placeOnline hips, List.length_map, List.length_range]

/-- A file of an offline code gets one new entry, and its pool stays clean. -/
theorem registerOfflineEC_spec {clock : ℕ → ℕ} {pool : OfflineECPool} {filesizeMB : ℕ}
    {r : StripeStore × Placing} (hf : SepFree f) (hpool : pool.Clean)
    (h : registerOfflineEC conf clock st pool clientIp f filesizeMB picks = some r) :
    f ∉ st.ssEntryMap ∧ (∃ e : SSEntry, e.filename = f ∧ e.WellFormed ∧ r.1 = st.insertEntry e) ∧
      r.2.pool.Clean ∧ r.2.pool.ecpoolid = pool.ecpoolid := by
  rw [registerOfflineEC] at h
  split_ifs at h with hguard
  obtain ⟨s, hs, h⟩ := Option.bind_eq_some_iff.mp h
  cases h
  have hinv := foldlM_range_invariant
    (I := fun i (s : Placing) ↦ s.pool.Clean ∧ s.pool.ecpoolid = pool.ecpoolid ∧
      s.fileobjnames = (List.range i).map (objName f) ∧ s.fileobjlocs.length = i)
    (fun i _ s s' ⟨hclean, hid, hnames, hlocs⟩ hstep ↦ ?_) ⟨hpool, rfl, rfl, rfl⟩ hs
  · obtain ⟨hclean, hid, hnames, hlocs⟩ := hinv
    refine ⟨fun hmem ↦ hguard (.inl hmem), ⟨_, rfl, ⟨.inl ⟨_, hnames⟩, ?_, hf, hpool.ecpoolid⟩, rfl⟩, hclean, hid⟩
    rw [hnames, hlocs, List.length_map, List.length_range]
  · obtain ⟨stripeips, -, hstep⟩ := Option.bind_eq_some_iff.mp hstep
    obtain ⟨curIp, -, hstep⟩ := Option.bind_eq_some_iff.mp hstep
    cases hstep
    refine ⟨hclean.addObj (sepFree_objName hf i) (hclean.getStripeForObj _ _), hid, ?_, ?_⟩
    · rw [hnames, List.range_succ, List.map_append, List.map_singleton]
    · rw [List.length_append, List.length_singleton, hlocs]

theorem finalizeFile_spec {pool : OfflineECPool} {r : OfflineECPool × List Name} (hpool : pool.Clean)
    (h : finalizeFile st pool f = some r) :
    r.1.Clean ∧ r.1.ecpoolid = pool.ecpoolid ∧ ∀ t ∈ r.2, SepFree t := by
  obtain ⟨e, -, h⟩ := Option.bind_eq_some_iff.mp h
  split_ifs at h
  · refine foldlM_invariant
      (I := fun s : OfflineECPool × List Name ↦ s.1.Clean ∧ s.1.ecpoolid = pool.ecpoolid ∧ ∀ t ∈ s.2, SepFree t)
      (fun o _ s s' ⟨hclean, hid, hplain⟩ hstep ↦ ?_) ⟨hpool, rfl, fun t ht ↦ absurd ht List.not_mem_nil⟩ h
    obtain ⟨p, hp, rfl⟩ := Option.map_eq_some_iff.mp hstep
    have hclean' := hclean.finalizeObj hp
    refine ⟨hclean', ?_, fun t ht ↦ ?_⟩
    · rw [OfflineECPool.finalizeObj_eq hp]
      exact hid
    · dsimp only at ht
      split_ifs at ht
      · rw [List.mem_append, List.mem_singleton] at ht
        exact ht.elim (hplain t) fun heq ↦ heq ▸ hclean'.getStripeForObj _ _
      · exact hplain t ht
  · obtain rfl := Option.some.inj h
    exact ⟨hpool, rfl, fun t ht ↦ absurd ht List.not_mem_nil⟩

/-- The parity objects of a stripe get new entries, if they have none. -/
theorem offlineEnc_spec {pool : OfflineECPool} {t : Name} {r : Encoding} (hst : st.Filed) (hpool : pool.Clean)
    (ht : SepFree t) (h : offlineEnc conf st pool t picks = some r) :
    r.store.Filed ∧ (∀ f e, st.ssEntryMap.lookup f = some e → r.store.ssEntryMap.lookup f = some e) ∧
      r.pool.Clean ∧ r.pool.ecpoolid = pool.ecpoolid := by
  obtain ⟨stripeips, -, h⟩ := Option.bind_eq_some_iff.mp h
  refine foldlM_invariant
    (I := fun s : Encoding ↦ s.store.Filed ∧
      (∀ f e, st.ssEntryMap.lookup f = some e → s.store.ssEntryMap.lookup f = some e) ∧
      s.pool.Clean ∧ s.pool.ecpoolid = pool.ecpoolid)
    (fun i _ s s' ⟨hfiled, hkeep, hclean, hid⟩ hstep ↦ ?_) ⟨hst, fun _ _ he ↦ he, hpool, rfl⟩ h
  obtain ⟨loc, -, hstep⟩ := Option.bind_eq_some_iff.mp hstep
  cases hstep
  have hname := sepFree_parityName hclean.ecpoolid ht i
  exact ⟨hfiled.insertEntry ⟨.inr ⟨⟨_, t, i, rfl⟩, rfl⟩, rfl, hname, hclean.ecpoolid⟩,
    fun f e he ↦ StripeStore.lookup_insertEntry (hkeep f e he), hclean.addObj hname ht, hid⟩

end Requests

/-! ## Reading the entries -/

theorem foldlM_ofLine {es : List SSEntry} (hwf : ∀ e ∈ es, e.WellFormed) (st : StripeStore) :
    (es.map SSEntry.toLine).foldlM (fun st line ↦ (SSEntry.ofLine line).map st.insertEntry) st =
      some (es.foldl StripeStore.insertEntry st) := by
  induction es generalizing st with
  | nil => rfl
  | cons e es ih =>
    have he := hwf e List.mem_cons_self
    rw [List.map_cons, List.foldlM_cons, SSEntry.ofLine_toLine (he.clean List.mem_cons_self) he.length]
    exact ih (fun e' he' ↦ hwf e' (List.mem_cons_of_mem e he')) _

/-- **The entries come back** where each of them is the one its file has. -/
theorem readEntries_terminate {st : StripeStore} (hst : st.Filed) {es : List SSEntry}
    (hes : ∀ e ∈ es, st.ssEntryMap.lookup e.filename = some e) :
    ∃ st', readEntries (terminate '\n' (es.map SSEntry.toLine)) = some st' ∧ st'.Filed ∧
      ∀ e ∈ es, st'.ssEntryMap.lookup e.filename = some e := by
  have hwf : ∀ e ∈ es, e.WellFormed := fun e he ↦ (hst.entries _ e (hes e he)).2
  have hlines : lines '\n' (terminate '\n' (es.map SSEntry.toLine)) = es.map SSEntry.toLine := by
    refine lines_terminate fun line hline ↦ ?_
    obtain ⟨e, he, rfl⟩ := List.mem_map.mp hline
    exact ((hwf e he).clean (by simp)).toLine rfl (by decide)
  refine ⟨_, by rw [readEntries, hlines, foldlM_ofLine hwf], ?_⟩
  suffices h : (es.foldl StripeStore.insertEntry ⟨∅, ∅⟩).Filed ∧
      (∀ e ∈ es, (es.foldl StripeStore.insertEntry ⟨∅, ∅⟩).ssEntryMap.lookup e.filename = some e) ∧
      ∀ f e, (es.foldl StripeStore.insertEntry ⟨∅, ∅⟩).ssEntryMap.lookup f = some e → e ∈ es from
    ⟨h.1, h.2.1⟩
  clear hlines
  induction es using List.reverseRecOn with
  | nil => exact ⟨StripeStore.Filed.empty, fun e he ↦ absurd he List.not_mem_nil, fun f e he ↦ absurd he (by simp)⟩
  | append_singleton es e ih =>
    obtain ⟨hfiled, hlookup, hmem⟩ := ih (fun e' he' ↦ hes e' (List.mem_append_left _ he'))
      fun e' he' ↦ hwf e' (List.mem_append_left _ he')
    have he := hes e (List.mem_append_right _ List.mem_cons_self)
    have hwfe := hwf e (List.mem_append_right _ List.mem_cons_self)
    rw [List.foldl_append, List.foldl_cons, List.foldl_nil]
    generalize es.foldl StripeStore.insertEntry ⟨∅, ∅⟩ = st' at hfiled hlookup hmem ⊢
    by_cases hin : e.filename ∈ st'.ssEntryMap
    · -- a file that is written again has the same entry
      have hsame : st'.insertEntry e = st' := by rw [StripeStore.insertEntry, if_pos hin]
      obtain ⟨e', he'⟩ := Option.isSome_iff_exists.mp (AList.lookup_isSome.mpr hin)
      have heq : e' = e := by
        have hold := hes e' (List.mem_append_left _ (hmem _ e' he'))
        rw [(hfiled.entries _ e' he').1, he] at hold
        exact (Option.some.inj hold).symm
      rw [hsame]
      refine ⟨hfiled, fun e₁ he₁ ↦ ?_, fun f e₁ he₁ ↦ List.mem_append_left _ (hmem f e₁ he₁)⟩
      rw [List.mem_append, List.mem_singleton] at he₁
      rcases he₁ with he₁ | rfl
      · exact hlookup e₁ he₁
      · rw [he', heq]
    · refine ⟨hfiled.insertEntry hwfe, fun e₁ he₁ ↦ ?_, fun f e₁ he₁ ↦ ?_⟩
      · rw [List.mem_append, List.mem_singleton] at he₁
        rcases he₁ with he₁ | rfl
        · exact StripeStore.lookup_insertEntry (hlookup e₁ he₁)
        · exact StripeStore.lookup_insertEntry_self hin
      · rw [StripeStore.insertEntry, if_neg hin] at he₁
        by_cases hf : f = e.filename
        · rw [hf, AList.lookup_insert] at he₁
          exact List.mem_append_right _ (List.mem_singleton.mpr (Option.some.inj he₁).symm)
        · rw [AList.lookup_insert_ne hf] at he₁
          exact List.mem_append_left _ (hmem f e₁ he₁)

/-! ## Runs of the coordinator -/

/-- What the coordinator knows, what its backup files hold, and the history that matters for a restart. -/
structure Metadata where
  store : StripeStore
  pools : AList fun _ : Name ↦ OfflineECPool
  pendingECQueue : List (Name × Name)
  entryStore : List Char
  poolStore : List Char
  finalized : List Name
  /-- The stripes being encoded, with their pools. -/
  encoding : List (Name × Name)
  encoded : List (Name × Name)

inductive MetadataRequest
  | registerOnlineEC (clientIp : ℕ) (filename ecid : Name) (filesizeMB : ℕ) (picks : ℕ → ℕ)
  | registerOfflineEC (clientIp : ℕ) (filename ecpoolid : Name) (filesizeMB : ℕ) (picks : ℕ → ℕ)
  | finalizeFile (filename : Name)
  | offlineEnc (ecpoolid stripename : Name) (picks : ℕ → ℕ)
  | finishECStripe (ecpoolid stripename : Name)
  | updateObjLoc (objname : Name) (loc : ℕ)

namespace Metadata

def empty : Metadata := ⟨⟨∅, ∅⟩, ∅, [], [], [], [], [], []⟩

def backupEntry (s : Metadata) (e : SSEntry) : Metadata :=
  { s with entryStore := s.entryStore ++ (e.toLine ++ ['\n']) }

variable (conf : Config) (ecPolicyMap : Name → ECPolicy) (poolConf : Name → ECPolicy × ℕ) (clock : Name → ℕ → ℕ)

/-- The effect of a request, for names without semicolon and newline. The entries of the parity objects are
backed up when the stripe has been encoded, and a repair moves an object. -/
def next (s : Metadata) : MetadataRequest → Option Metadata
  | .registerOnlineEC clientIp filename ecid filesizeMB picks =>
    if SepFree filename ∧ SepFree ecid then
      (registerOnlineEC conf s.store (ecPolicyMap ecid) clientIp filename ecid filesizeMB picks).map fun store ↦
        { s with store := store }
    else none
  | .registerOfflineEC clientIp filename ecpoolid filesizeMB picks =>
    if SepFree filename ∧ SepFree ecpoolid then
      (registerOfflineEC conf (clock ecpoolid) s.store (getECPool poolConf s.pools ecpoolid) clientIp filename
        filesizeMB picks).map fun r ↦ { s with store := r.1, pools := s.pools.insert ecpoolid r.2.pool }
    else none
  | .finalizeFile filename => do
    let e ← s.store.ssEntryMap.lookup filename
    let s' := { s.backupEntry e with finalized := s.finalized ++ [filename] }
    if e.type = 1 then
      let pool ← s.pools.lookup e.ecidpool
      let r ← finalizeFile s.store pool filename
      return { s' with
        pools := s.pools.insert e.ecidpool r.1
        pendingECQueue := s.pendingECQueue ++ r.2.map fun t ↦ (e.ecidpool, t) }
    else some s'
  | .offlineEnc ecpoolid stripename picks =>
    if (ecpoolid, stripename) ∈ s.pendingECQueue then do
      let pool ← s.pools.lookup ecpoolid
      let r ← offlineEnc conf s.store pool stripename picks
      return { s with
        store := r.store
        pools := s.pools.insert ecpoolid r.pool
        pendingECQueue := s.pendingECQueue.erase (ecpoolid, stripename)
        encoding := s.encoding ++ [(ecpoolid, stripename)] }
    else none
  | .finishECStripe ecpoolid stripename =>
    if (ecpoolid, stripename) ∈ s.encoding then do
      let pool ← s.pools.lookup ecpoolid
      let s' ← (pool.parityObjs stripename).foldlM
        (fun s obj ↦ (s.store.getEntryFromObj obj).map s.backupEntry)
        { s with poolStore := s.poolStore ++ pool.stripe2String stripename }
      return { s' with
        encoding := s.encoding.erase (ecpoolid, stripename)
        encoded := s.encoded ++ [(ecpoolid, stripename)] }
    else none
  | .updateObjLoc objname loc => (s.store.updateObjLoc objname loc).map fun store ↦ { s with store := store }

def system : System Metadata MetadataRequest := ⟨(· = empty), next conf ecPolicyMap poolConf clock⟩

/-- A new coordinator built from the backup files answers as this one does, for the objects of finalized files and
for the stripes that are encoded. -/
def Survives (s : Metadata) : Prop :=
  ∃ st pools, readEntries s.entryStore = some st ∧ readPools poolConf s.poolStore = some pools ∧
    (∀ f ∈ s.finalized, ∀ e, s.store.ssEntryMap.lookup f = some e →
      ∀ o ∈ e.objList, st.getEntryFromObj o = s.store.getEntryFromObj o) ∧
    ∀ x ∈ s.encoded,
      (getECPool poolConf pools x.1).getStripeObjList x.2 = (getECPool poolConf s.pools x.1).getStripeObjList x.2 ∧
      ∀ o ∈ (getECPool poolConf s.pools x.1).getStripeObjList x.2,
        st.getEntryFromObj o = s.store.getEntryFromObj o ∧
        ∀ now, (getECPool poolConf pools x.1).getStripeForObj o now =
          (getECPool poolConf s.pools x.1).getStripeForObj o now

/-- No stripe is finished, and an object of a finalized file stays where it is. -/
def Lasting (s : Metadata) : MetadataRequest → Prop
  | .finishECStripe _ _ => False
  | .updateObjLoc o loc =>
    ∀ f ∈ s.finalized, ∀ e, s.store.ssEntryMap.lookup f = some e → o ∈ e.objList → e.getLocOfObj o = some loc
  | _ => True

/-- What holds until a stripe is finished or an object of a finalized file is moved. -/
structure Inv (s : Metadata) : Prop where
  filed : s.store.Filed
  pools : ∀ id p, s.pools.lookup id = some p → p.ecpoolid = id ∧ p.Clean
  queue : ∀ x ∈ s.pendingECQueue, SepFree x.2
  encoding : ∀ x ∈ s.encoding, SepFree x.2
  poolStore : s.poolStore = []
  encoded : s.encoded = []
  entries : ∃ es : List SSEntry, s.entryStore = terminate '\n' (es.map SSEntry.toLine) ∧
    (∀ e ∈ es, s.store.ssEntryMap.lookup e.filename = some e ∧ e.filename ∈ s.finalized) ∧
    ∀ f ∈ s.finalized, ∃ e ∈ es, e.filename = f

variable {conf : Config} {ecPolicyMap : Name → ECPolicy} {poolConf : Name → ECPolicy × ℕ} {clock : Name → ℕ → ℕ}
  {s s' : Metadata}

theorem updateObjLoc_eq_self {e : SSEntry} {o : Name} {loc : ℕ} (h : e.getLocOfObj o = some loc) :
    e.updateObjLoc o loc = e := by
  rw [SSEntry.getLocOfObj] at h
  split_ifs at h
  obtain ⟨hlt, hloc⟩ := List.getElem?_eq_some_iff.mp h
  rw [SSEntry.updateObjLoc, ← hloc, List.set_getElem_self]

theorem getLocOfObj_updateObjLoc {e : SSEntry} (he : e.WellFormed) {o : Name} (ho : o ∈ e.objList) (loc : ℕ) :
    (e.updateObjLoc o loc).getLocOfObj o = some loc := by
  have hlt : e.objList.idxOf o < e.objLoc.length := he.length ▸ List.idxOf_lt_length_of_mem ho
  rw [SSEntry.getLocOfObj, SSEntry.updateObjLoc, if_pos ho, List.getElem?_set_self hlt]

theorem inv_empty : Inv empty where
  filed := StripeStore.Filed.empty
  pools id p h := absurd h (by simp [empty])
  queue x hx := absurd hx List.not_mem_nil
  encoding x hx := absurd hx List.not_mem_nil
  poolStore := rfl
  encoded := rfl
  entries := ⟨[], rfl, fun e he ↦ absurd he List.not_mem_nil, fun f hf ↦ absurd hf List.not_mem_nil⟩

namespace Inv

variable (h : Inv s)

include h

theorem pools_insert {id : Name} {p : OfflineECPool} (hid : p.ecpoolid = id) (hp : p.Clean) :
    ∀ id' p', (s.pools.insert id p).lookup id' = some p' → p'.ecpoolid = id' ∧ p'.Clean := by
  intro id' p' hp'
  by_cases hne : id' = id
  · rw [hne, AList.lookup_insert] at hp'
    obtain rfl := Option.some.inj hp'
    exact ⟨hid.trans hne.symm, hp⟩
  · rw [AList.lookup_insert_ne hne] at hp'
    exact h.pools id' p' hp'

theorem getECPool (poolConf : Name → ECPolicy × ℕ) {id : Name} (hid : SepFree id) :
    (getECPool poolConf s.pools id).ecpoolid = id ∧ (getECPool poolConf s.pools id).Clean := by
  rw [Storage.getECPool]
  cases hp : s.pools.lookup id with
  | none => exact ⟨rfl, .empty hid _ _⟩
  | some p => exact h.pools id p hp

theorem entries_of_lookup {st : StripeStore}
    (hkeep : ∀ f e, f ∈ s.finalized → s.store.ssEntryMap.lookup f = some e → st.ssEntryMap.lookup f = some e) :
    ∃ es : List SSEntry, s.entryStore = terminate '\n' (es.map SSEntry.toLine) ∧
      (∀ e ∈ es, st.ssEntryMap.lookup e.filename = some e ∧ e.filename ∈ s.finalized) ∧
      ∀ f ∈ s.finalized, ∃ e ∈ es, e.filename = f := by
  obtain ⟨es, hstore, hes, hfin⟩ := h.entries
  exact ⟨es, hstore, fun e he ↦ ⟨hkeep _ e (hes e he).2 (hes e he).1, (hes e he).2⟩, hfin⟩

theorem readEntries : ∃ st, readEntries s.entryStore = some st ∧ st.Filed ∧
    ∀ f ∈ s.finalized, ∃ e, s.store.ssEntryMap.lookup f = some e ∧ st.ssEntryMap.lookup f = some e := by
  obtain ⟨es, hstore, hes, hfin⟩ := h.entries
  obtain ⟨st, hst, hfiled, hlookup⟩ := readEntries_terminate h.filed fun e he ↦ (hes e he).1
  refine ⟨st, by rw [hstore, hst], hfiled, fun f hf ↦ ?_⟩
  obtain ⟨e, he, rfl⟩ := hfin f hf
  exact ⟨e, (hes e he).1, hlookup e he⟩

theorem survives : s.Survives poolConf := by
  obtain ⟨st, hst, hfiled, hlookup⟩ := h.readEntries
  refine ⟨st, ∅, hst, by rw [h.poolStore]; rfl, fun f hf e he o ho ↦ ?_, fun x hx ↦ ?_⟩
  · obtain ⟨e', he', hst'⟩ := hlookup f hf
    obtain rfl : e' = e := Option.some.inj (he'.symm.trans he)
    rw [hfiled.getEntryFromObj_eq hst' ho, h.filed.getEntryFromObj_eq he' ho]
  · rw [h.encoded] at hx
    exact absurd hx List.not_mem_nil

/-! ### Allowed requests -/

theorem registerOnlineEC {clientIp filesizeMB : ℕ} {f ecid : Name} {picks : ℕ → ℕ}
    (hs : next conf ecPolicyMap poolConf clock s (.registerOnlineEC clientIp f ecid filesizeMB picks) = some s') :
    Inv s' := by
  rw [next] at hs
  split_ifs at hs with hplain
  obtain ⟨st, hst, rfl⟩ := Option.map_eq_some_iff.mp hs
  obtain ⟨-, e, -, hwf, rfl⟩ := registerOnlineEC_spec hplain.1 hplain.2 hst
  exact { h with
    filed := h.filed.insertEntry hwf
    entries := h.entries_of_lookup fun _ _ _ he ↦ StripeStore.lookup_insertEntry he }

theorem registerOfflineEC {clientIp filesizeMB : ℕ} {f ecpoolid : Name} {picks : ℕ → ℕ}
    (hs : next conf ecPolicyMap poolConf clock s (.registerOfflineEC clientIp f ecpoolid filesizeMB picks) =
      some s') : Inv s' := by
  rw [next] at hs
  split_ifs at hs with hplain
  obtain ⟨r, hr, rfl⟩ := Option.map_eq_some_iff.mp hs
  obtain ⟨hid, hpool⟩ := h.getECPool poolConf hplain.2
  obtain ⟨-, ⟨e, -, hwf, hst⟩, hclean, hid'⟩ := registerOfflineEC_spec hplain.1 hpool hr
  rw [hst]
  exact { h with
    filed := h.filed.insertEntry hwf
    pools := h.pools_insert (hid'.trans hid) hclean
    entries := h.entries_of_lookup fun _ _ _ he ↦ StripeStore.lookup_insertEntry he }

/-- The entry of a file that is finalized is written behind the others. -/
theorem backupEntry {f : Name} {e : SSEntry} (he : s.store.ssEntryMap.lookup f = some e) :
    Inv { s.backupEntry e with finalized := s.finalized ++ [f] } := by
  obtain ⟨es, hstore, hes, hfin⟩ := h.entries
  obtain ⟨hname, -⟩ := h.filed.entries f e he
  refine { h with entries := ⟨es ++ [e], ?_, fun e' he' ↦ ?_, fun f' hf' ↦ ?_⟩ }
  · change s.entryStore ++ (e.toLine ++ ['\n']) = _
    rw [hstore, List.map_append, terminate_append, List.map_singleton, terminate_cons, terminate_nil]
  · rw [List.mem_append, List.mem_singleton] at he'
    rcases he' with he' | rfl
    · exact ⟨(hes e' he').1, List.mem_append_left _ (hes e' he').2⟩
    · rw [hname]
      exact ⟨he, List.mem_append_right _ List.mem_cons_self⟩
  · rw [List.mem_append, List.mem_singleton] at hf'
    rcases hf' with hf' | rfl
    · obtain ⟨e', he', rfl⟩ := hfin f' hf'
      exact ⟨e', List.mem_append_left _ he', rfl⟩
    · exact ⟨e, List.mem_append_right _ List.mem_cons_self, hname⟩

theorem finalizeFile {f : Name}
    (hs : next conf ecPolicyMap poolConf clock s (.finalizeFile f) = some s') : Inv s' := by
  obtain ⟨e, he, hs⟩ := Option.bind_eq_some_iff.mp hs
  have hinv := h.backupEntry he
  split_ifs at hs
  · obtain ⟨p, hp, hs⟩ := Option.bind_eq_some_iff.mp hs
    obtain ⟨r, hr, hs⟩ := Option.bind_eq_some_iff.mp hs
    cases hs
    obtain ⟨hid, hclean⟩ := h.pools _ p hp
    obtain ⟨hclean', hid', hplain⟩ := finalizeFile_spec hclean hr
    refine { hinv with
      pools := h.pools_insert (hid'.trans hid) hclean'
      queue := fun x hx ↦ ?_ }
    rcases List.mem_append.mp hx with hx | hx
    · exact h.queue x hx
    · obtain ⟨t, ht, rfl⟩ := List.mem_map.mp hx
      exact hplain t ht
  · exact Option.some.inj hs ▸ hinv

theorem offlineEnc {ecpoolid t : Name} {picks : ℕ → ℕ}
    (hs : next conf ecPolicyMap poolConf clock s (.offlineEnc ecpoolid t picks) = some s') : Inv s' := by
  rw [next] at hs
  split_ifs at hs with hqueue
  obtain ⟨p, hp, hs⟩ := Option.bind_eq_some_iff.mp hs
  obtain ⟨r, hr, hs⟩ := Option.bind_eq_some_iff.mp hs
  cases hs
  have ht := h.queue _ hqueue
  obtain ⟨hid, hclean⟩ := h.pools _ p hp
  obtain ⟨hfiled, hkeep, hclean', hid'⟩ := offlineEnc_spec h.filed hclean ht hr
  refine { h with
    filed := hfiled
    pools := h.pools_insert (hid'.trans hid) hclean'
    queue := fun x hx ↦ h.queue x (List.mem_of_mem_erase hx)
    encoding := fun x hx ↦ ?_
    entries := h.entries_of_lookup fun f e _ he ↦ hkeep f e he }
  rw [List.mem_append, List.mem_singleton] at hx
  exact hx.elim (h.encoding x) fun heq ↦ heq ▸ ht

theorem updateObjLoc {o : Name} {loc : ℕ}
    (hs : next conf ecPolicyMap poolConf clock s (.updateObjLoc o loc) = some s') :
    (s.Lasting (.updateObjLoc o loc) → Inv s') ∧ (¬s.Lasting (.updateObjLoc o loc) → ¬s'.Survives poolConf) := by
  obtain ⟨st, hst, rfl⟩ := Option.map_eq_some_iff.mp hs
  obtain ⟨hfiled, e, he, hlookup⟩ := h.filed.updateObjLoc hst
  obtain ⟨hefile, hoe⟩ := h.filed.exists_of_getEntryFromObj he
  refine ⟨fun hlast ↦ { h with filed := hfiled, entries := h.entries_of_lookup fun f e' hf he' ↦ ?_ },
    fun hmove hsurv ↦ hmove fun f hf e' he' ho ↦ ?_⟩
  · rw [hlookup]
    split_ifs with hfe
    · subst hfe
      obtain rfl : e' = e := Option.some.inj (he'.symm.trans hefile)
      rw [updateObjLoc_eq_self (hlast _ hf e' he' hoe)]
    · exact he'
  · -- the entry that is read has the old location of the object
    obtain ⟨st', _, hread, -, hfinal, -⟩ := hsurv
    obtain ⟨st'', hread', hfiled', hold⟩ := h.readEntries
    obtain rfl : st'' = st' := Option.some.inj (hread'.symm.trans hread)
    obtain ⟨e'', he'', hst'⟩ := hold f hf
    obtain rfl : e' = e'' := Option.some.inj (he'.symm.trans he'')
    obtain rfl : e' = e := Option.some.inj ((h.filed.getEntryFromObj_eq he' ho).symm.trans he)
    have hname : e'.filename = f := (h.filed.entries f e' he').1
    have hnew : st.ssEntryMap.lookup f = some (e'.updateObjLoc o loc) := by rw [hlookup, if_pos hname.symm]
    have hsame := hfinal f hf _ hnew o ho
    rw [hfiled'.getEntryFromObj_eq hst' ho, hfiled.getEntryFromObj_eq hnew ho] at hsame
    rw [Option.some.inj hsame]
    exact getLocOfObj_updateObjLoc (h.filed.entries f e' he').2 ho loc

theorem finishECStripe {ecpoolid t : Name}
    (hs : next conf ecPolicyMap poolConf clock s (.finishECStripe ecpoolid t) = some s') :
    ¬s'.Survives poolConf := by
  rw [next] at hs
  split_ifs at hs with hmem
  obtain ⟨p, hp, hs⟩ := Option.bind_eq_some_iff.mp hs
  obtain ⟨s₁, hs₁, hs⟩ := Option.bind_eq_some_iff.mp hs
  cases hs
  obtain ⟨hid, hclean⟩ := h.pools _ p hp
  have hsame : s₁.poolStore = s.poolStore ++ p.stripe2String t ∧ s₁.pools = s.pools := by
    refine foldlM_invariant
      (I := fun s₁ : Metadata ↦ s₁.poolStore = s.poolStore ++ p.stripe2String t ∧ s₁.pools = s.pools)
      (fun obj _ s₁ s₂ hI hstep ↦ ?_) (And.intro ?_ ?_) hs₁
    · obtain ⟨e, -, rfl⟩ := Option.map_eq_some_iff.mp hstep
      exact hI
    · rfl
    · rfl
  rintro ⟨st, pools, -, hread, -, hstripes⟩
  dsimp only at hread hstripes
  rw [hsame.1, h.poolStore, List.nil_append] at hread
  obtain ⟨pools', hread', hlist⟩ := readPools_stripe2String poolConf (p := p) (t := t) fun sep hsep ↦
    ⟨hclean.ecpoolid sep hsep, h.encoding _ hmem sep hsep, fun o ho ↦ hclean.objs t o ho sep hsep⟩
  obtain rfl : pools' = pools := Option.some.inj (hread'.symm.trans hread)
  obtain ⟨heq, -⟩ := hstripes (ecpoolid, t) (List.mem_append_right _ List.mem_cons_self)
  have hpool : Storage.getECPool poolConf s₁.pools ecpoolid = p := by
    rw [hsame.2, Storage.getECPool, hp, Option.getD_some]
  rw [hid] at hlist
  rw [hlist, hpool] at heq
  exact absurd (congrArg List.length heq) (by simp)

/-- **One request.** It keeps the invariant or breaks the backup. -/
theorem step {l : MetadataRequest} (hs : next conf ecPolicyMap poolConf clock s l = some s') :
    (s.Lasting l → Inv s') ∧ (¬s.Lasting l → ¬s'.Survives poolConf) := by
  cases l with
  | registerOnlineEC clientIp f ecid filesizeMB picks =>
    exact ⟨fun _ ↦ h.registerOnlineEC hs, fun hlast ↦ absurd trivial hlast⟩
  | registerOfflineEC clientIp f ecpoolid filesizeMB picks =>
    exact ⟨fun _ ↦ h.registerOfflineEC hs, fun hlast ↦ absurd trivial hlast⟩
  | finalizeFile f => exact ⟨fun _ ↦ h.finalizeFile hs, fun hlast ↦ absurd trivial hlast⟩
  | offlineEnc ecpoolid t picks => exact ⟨fun _ ↦ h.offlineEnc hs, fun hlast ↦ absurd trivial hlast⟩
  | finishECStripe ecpoolid t => exact ⟨False.elim, fun _ ↦ h.finishECStripe hs⟩
  | updateObjLoc o loc => exact h.updateObjLoc hs

end Inv

/-- **Restart.** Along a run, a restart would show nothing as long as no stripe is finished and no object of a
finalized file is moved. -/
theorem survives_iff {ls : List MetadataRequest}
    (hrun : ((system conf ecPolicyMap poolConf clock).run empty ls).isSome) :
    (system conf ecPolicyMap poolConf clock).Every (Survives poolConf) empty ls ↔
      (system conf ecPolicyMap poolConf clock).Each Lasting empty ls :=
  System.every_iff_each (fun _ h ↦ h.survives) (fun _ _ _ h hs ↦ h.step hs) inv_empty hrun

/-- A file of two objects is finalized and one of its objects is moved before. -/
theorem survives_twoObjects : ∃ (conf : Config) (ec : ECPolicy),
    (system conf (fun _ ↦ ec) (fun _ ↦ (ec, 1)) fun _ ↦ id).Every (Survives fun _ ↦ (ec, 1)) empty
      [.registerOnlineEC 1 ['f'] ['c'] 2 id, .updateObjLoc (objName ['f'] 0) 3, .finalizeFile ['f']] := by
  let ec : ECPolicy := ⟨2, 1, 1, [], Nat.succ_pos 0, Nat.lt_succ_self 1⟩
  let conf : Config := ⟨[(['a'], 1), (['a'], 2), (['b'], 3)], false, false, 1⟩
  refine ⟨conf, ec, (survives_iff (by decide +kernel)).mpr ⟨trivial, fun s hs ↦ ⟨fun f hf ↦ ?_, fun _ _ ↦
    ⟨trivial, fun _ _ ↦ trivial⟩⟩⟩⟩
  have hfin : s.finalized = [] := by
    cases hs
    rfl
  rw [hfin] at hf
  exact absurd hf List.not_mem_nil

/-- A stripe of one data and one parity object is encoded: a new coordinator finds a third object in it. -/
theorem not_survives_oneStripe : ∃ (conf : Config) (ec : ECPolicy) (s : Metadata),
    (system conf (fun _ ↦ ec) (fun _ ↦ (ec, 1)) fun _ ↦ id).Reachable s ∧ ¬s.Survives fun _ ↦ (ec, 1) := by
  let ec : ECPolicy := ⟨2, 1, 1, [], Nat.succ_pos 0, Nat.lt_succ_self 1⟩
  let conf : Config := ⟨[(['a'], 1), (['a'], 2), (['b'], 3)], false, false, 1⟩
  obtain ⟨s, hs, hq⟩ := System.Reachable.exists_of_run
    (S := system conf (fun _ ↦ ec) (fun _ ↦ (ec, 1)) fun _ ↦ id) (s := empty) (.init rfl)
    [.registerOfflineEC 1 ['f'] ['p'] 1 id, .finalizeFile ['f'], .offlineEnc ['p'] (stripeName 0) id,
      .finishECStripe ['p'] (stripeName 0)]
    (p := fun s ↦ decide ((['p'], stripeName 0) ∈ s.encoded) &&
      (readPools (fun _ ↦ (ec, 1)) s.poolStore).all fun pools ↦
        decide ((getECPool (fun _ ↦ (ec, 1)) pools ['p']).getStripeObjList (stripeName 0) ≠
          (getECPool (fun _ ↦ (ec, 1)) s.pools ['p']).getStripeObjList (stripeName 0)))
    (by decide +kernel)
  obtain ⟨hmem, hne⟩ := (Bool.and_eq_true _ _).mp hq
  refine ⟨conf, ec, s, hs, ?_⟩
  rintro ⟨st, pools, -, hread, -, hstripes⟩
  rw [hread, Option.all_some] at hne
  exact of_decide_eq_true hne (hstripes _ (of_decide_eq_true hmem)).1

end Metadata

end UniDedup.Storage
