import UniDedup.Lib.Transition
import UniDedup.Storage.Backup
import UniDedup.Storage.Spread

/-!
# Placement over whole runs

Files are registered, stripes are encoded and lost objects are recovered, in any order and with any choice from the
candidates. Whatever happens, the objects of a stripe stay at distinct agents.

There is not always a candidate, though. The racks of a group are looked at first, and the agents of later objects
are removed from the free agents of these racks afterwards: when all of them are removed, no free agent of
another rack is tried (`Placement.Fits`).

## The invariant

`Inv` says how the objects of a file are named, that the pools are stocked with objects of their files, that every
object with an entry is in a stripe, and that the objects of each stripe are spread (`Spread`). A stripe is a file
of an online code or a stripe of a pool, and no object is in two (`eq_of_mem`), so a request changes the places in
one stripe only. Each kind of request has its lemma, and `step` collects them.
-/

namespace UniDedup.Storage

open Fold Transition

/-- The entries and the pools of the coordinator. -/
structure Registry where
  store : StripeStore
  pools : AList fun _ : Name ↦ OfflineECPool

inductive RegistryRequest
  | registerOnlineEC (clientIp : ℕ) (filename ecid : Name) (filesizeMB : ℕ) (picks : ℕ → ℕ)
  | registerOfflineEC (clientIp : ℕ) (filename ecpoolid : Name) (filesizeMB : ℕ) (picks : ℕ → ℕ)
  | offlineEnc (ecpoolid stripename : Name) (picks : ℕ → ℕ)
  | recoveryOnline (lostobj : Name) (picks : ℕ → ℕ)
  | recoveryOffline (lostobj : Name) (picks : ℕ → ℕ)
  | recoveryOfflineDelay (lostobj : Name) (lostobjs : List Name) (picks : ℕ → ℕ)

namespace Registry

variable (conf : Config) (ecPolicyMap : Name → ECPolicy) (poolConf : Name → ECPolicy × ℕ) (clock : Name → ℕ → ℕ)

def empty : Registry := ⟨⟨∅, ∅⟩, ∅⟩

/-- The stripe of an object with an online code. -/
def onlineStripe (s : Registry) (lostobj : Name) : Option (ECPolicy × List Name) := do
  let e ← s.store.getEntryFromObj lostobj
  if e.type = 0 then some (ecPolicyMap e.ecidpool, e.objList) else none

/-- The stripe of an object with an offline code, in its pool. -/
def offlineStripe (s : Registry) (lostobj : Name) : Option (ECPolicy × List Name) := do
  let e ← s.store.getEntryFromObj lostobj
  if e.type = 0 then none
  else do
    let pool ← s.pools.lookup e.ecidpool
    let stripename := pool.getStripeForObj lostobj (clock e.ecidpool pool.stripes.length)
    return (pool.ecpolicy, pool.getStripeObjList stripename)

/-- The lost objects of a stripe get new locations. -/
def recover (s : Registry) (stripe : Option (ECPolicy × List Name)) (lost : List Name) (picks : ℕ → ℕ) :
    Option Registry := do
  let (ec, stripeobjs) ← stripe
  let r ← relocate conf ec s.store stripeobjs lost picks
  return { s with store := r.1 }

/-- The effect of a request. A stripe is encoded when it has its `k` objects. -/
def next (s : Registry) : RegistryRequest → Option Registry
  | .registerOnlineEC clientIp filename ecid filesizeMB picks =>
    (registerOnlineEC conf s.store (ecPolicyMap ecid) clientIp filename ecid filesizeMB picks).map fun store ↦
      { s with store := store }
  | .registerOfflineEC clientIp filename ecpoolid filesizeMB picks =>
    (registerOfflineEC conf (clock ecpoolid) s.store (getECPool poolConf s.pools ecpoolid) clientIp filename
      filesizeMB picks).map fun r ↦ ⟨r.1, s.pools.insert ecpoolid r.2.pool⟩
  | .offlineEnc ecpoolid stripename picks => do
    let pool ← s.pools.lookup ecpoolid
    if (pool.getStripeObjList stripename).length = pool.ecpolicy.k then
      (offlineEnc conf s.store pool stripename picks).map fun r ↦ ⟨r.store, s.pools.insert ecpoolid r.pool⟩
    else none
  | .recoveryOnline lostobj picks => s.recover conf (s.onlineStripe ecPolicyMap lostobj) [lostobj] picks
  | .recoveryOffline lostobj picks => s.recover conf (s.offlineStripe clock lostobj) [lostobj] picks
  | .recoveryOfflineDelay lostobj lostobjs picks => s.recover conf (s.offlineStripe clock lostobj) lostobjs picks

def system : System Registry RegistryRequest := ⟨(· = empty), next conf ecPolicyMap poolConf clock⟩

/-- The objects of a stripe: of a file with an online code, or of a stripe of a pool. -/
def IsStripe (s : Registry) (l : List Name) : Prop :=
  (∃ f e, s.store.ssEntryMap.lookup f = some e ∧ e.type = 0 ∧ e.objList = l) ∨
    ∃ id p t, s.pools.lookup id = some p ∧ p.getStripeObjList t = l

/-! ## The lists that are chosen from -/

/-- The relocation of a lost object, in a recovery that comes to it. -/
def ChoosesInRecovery (s : Registry) (stripe : Option (ECPolicy × List Name)) (lost : List Name) (picks : ℕ → ℕ)
    (p : Placement) : Prop :=
  ∃ ec stripeobjs stripeips i r, stripe = some (ec, stripeobjs) ∧ stripeobjs.length = ec.n ∧
    stripeIps s.store stripeobjs lost = some stripeips ∧
    Visits (relocateOne conf ec lost (stripeobjs.zip stripeips) picks) (List.range ec.n) (s.store, []) i r ∧
    (∃ o ∈ stripeobjs[i]?, o ∈ lost) ∧ p = relocation ec lost (stripeobjs.zip stripeips) r.2 i

/-- The placements whose candidates are passed to `chooseFromCandidates` while a request is served. -/
def Chooses (s : Registry) (p : Placement) : RegistryRequest → Prop
  | .registerOnlineEC clientIp filename ecid _ picks =>
    filename ∉ s.store.ssEntryMap ∧ ∃ i ips,
      Visits (placeOnline conf (ecPolicyMap ecid) clientIp picks) (List.range (ecPolicyMap ecid).n) [] i ips ∧
      conf.dataPlacement clientIp ips ((ecPolicyMap ecid).idx2group i) = some p
  | .registerOfflineEC clientIp filename ecpoolid filesizeMB picks =>
    let pool := getECPool poolConf s.pools ecpoolid
    filename ∉ s.store.ssEntryMap ∧ ∃ i r stripeips,
      Visits (registerObj conf s.store clientIp filename (clock ecpoolid) picks)
        (List.range (objnum filesizeMB pool.basesize)) ⟨pool, [], [], []⟩ i r ∧
      let stripename := r.pool.getStripeForObj (objName filename i) (clock ecpoolid r.pool.stripes.length)
      let stripeobjlist := r.pool.getStripeObjList stripename
      stripeobjlist.mapM (curLoc s.store (r.fileobjnames ++ [objName filename i]) r.fileobjlocs) =
        some stripeips ∧
      conf.dataPlacement clientIp stripeips (r.pool.ecpolicy.idx2group stripeobjlist.length) = some p
  | .offlineEnc ecpoolid stripename picks =>
    ∃ pool ∈ s.pools.lookup ecpoolid, (pool.getStripeObjList stripename).length = pool.ecpolicy.k ∧
      ∃ start ∈ encodingStart s.store pool stripename, ∃ i r,
        Visits (encodeParity conf stripename picks)
          (List.range' pool.ecpolicy.k (pool.ecpolicy.n - pool.ecpolicy.k)) start i r ∧
        p = ⟨r.stripeips, r.pool.ecpolicy.idx2group i, []⟩
  | .recoveryOnline lostobj picks =>
    s.ChoosesInRecovery conf (s.onlineStripe ecPolicyMap lostobj) [lostobj] picks p
  | .recoveryOffline lostobj picks =>
    s.ChoosesInRecovery conf (s.offlineStripe clock lostobj) [lostobj] picks p
  | .recoveryOfflineDelay lostobj lostobjs picks =>
    s.ChoosesInRecovery conf (s.offlineStripe clock lostobj) lostobjs picks p

/-! ## Whose objects are in a stripe -/

/-- A data object of a file that is registered for a pool. -/
def IsData (s : Registry) (ecpoolid : Name) (o : Name) : Prop :=
  ∃ f e i, s.store.ssEntryMap.lookup f = some e ∧ e.type = 1 ∧ e.ecidpool = ecpoolid ∧ o = objName f i

/-- What holds between two requests. -/
structure Inv (s : Registry) : Prop where
  sound : s.store.Sound
  files : ∀ f e, s.store.ssEntryMap.lookup f = some e → e.type = 0 → ∃ m, e.objList = (List.range m).map (objName f)
  pools : ∀ id p, s.pools.lookup id = some p →
    p.ecpoolid = id ∧ p.ecpolicy = (poolConf id).1 ∧ p.Stocked (clock id) (s.IsData id)
  owned : ∀ o ∈ s.store.objEntryMap, ∃ l, s.IsStripe l ∧ o ∈ l
  spread : ∀ l, s.IsStripe l → Spread conf s.store.locOf l

variable {conf ecPolicyMap poolConf clock} {s s' : Registry}

theorem inv_empty : Inv conf poolConf clock empty where
  sound := .empty
  files f e he := absurd he (by simp [empty])
  pools id p hp := absurd hp (by simp [empty])
  owned o ho := absurd ho (AList.notMem_empty o)
  spread l hl := by
    rcases hl with ⟨f, e, he, -⟩ | ⟨id, p, t, hp, -⟩
    · exact absurd he (by simp [empty])
    · exact absurd hp (by simp [empty])

theorem IsData.mono {id o : Name} (ho : s.IsData id o)
    (hkeep : ∀ f e, s.store.ssEntryMap.lookup f = some e → e.type = 1 →
      ∃ e', s'.store.ssEntryMap.lookup f = some e' ∧ e'.type = 1 ∧ e'.ecidpool = e.ecidpool) :
    s'.IsData id o := by
  obtain ⟨f, e, i, he, htype, hid, rfl⟩ := ho
  obtain ⟨e', he', htype', hid'⟩ := hkeep f e he htype
  exact ⟨f, e', i, he', htype', hid'.trans hid, rfl⟩

theorem lookup_insert_pools {id id' : Name} {p p' : OfflineECPool} (hlookup : (s.pools.insert id p).lookup id' = some p') :
    id' = id ∧ p' = p ∨ id' ≠ id ∧ s.pools.lookup id' = some p' := by
  by_cases hne : id' = id
  · rw [hne, AList.lookup_insert] at hlookup
    exact .inl ⟨hne, (Option.some.inj hlookup).symm⟩
  · rw [AList.lookup_insert_ne hne] at hlookup
    exact .inr ⟨hne, hlookup⟩

namespace Inv

variable (h : Inv conf poolConf clock s)

include h

/-- An object of a pool: of a file that is registered for the pool, or a parity object of this stripe. -/
theorem of_mem_pool {id : Name} {p : OfflineECPool} (hp : s.pools.lookup id = some p) {t o : Name}
    (ho : o ∈ p.getStripeObjList t) : s.IsData id o ∨
      p.ecpolicy.k < (p.getStripeObjList t).length ∧ ∃ now i, t = stripeName now ∧ o = parityName id t i := by
  obtain ⟨hid, -, hstocked⟩ := h.pools id p hp
  refine (hstocked.mem_cases ho).imp_right fun ⟨hpar, hlt⟩ ↦ ⟨hlt, ?_⟩
  have ht : t ∈ p.stripes := (hstocked.consistent.mem_stripes t).mp (List.ne_nil_of_mem ho)
  rw [hstocked.names] at ht
  obtain ⟨j, -, rfl⟩ := List.mem_map.mp ht
  obtain ⟨i, -, rfl⟩ := List.mem_map.mp hpar
  exact ⟨clock id j, i, rfl, by rw [hid]⟩

theorem mem_ssEntryMap {l : List Name} (hl : s.IsStripe l) {f : Name} {i : ℕ} (ho : objName f i ∈ l) :
    f ∈ s.store.ssEntryMap := by
  obtain ⟨f', e, he, htype, rfl⟩ | ⟨id, p, t, hp, rfl⟩ := hl
  · obtain ⟨m, hm⟩ := h.files f' e he htype
    rw [hm] at ho
    obtain ⟨j, -, heq⟩ := List.mem_map.mp ho
    rw [← (objName_inj.mp heq).1]
    exact AList.lookup_isSome.mp (Option.isSome_iff_exists.mpr ⟨e, he⟩)
  · rcases h.of_mem_pool hp ho with ⟨f', e, j, he, -, -, heq⟩ | ⟨-, now, j, -, heq⟩
    · rw [(objName_inj.mp heq).1]
      exact AList.lookup_isSome.mp (Option.isSome_iff_exists.mpr ⟨e, he⟩)
    · exact absurd heq objName_ne_parityName

theorem of_mem_parity {l : List Name} (hl : s.IsStripe l) {id : Name} {now i : ℕ}
    (ho : parityName id (stripeName now) i ∈ l) : ∃ p, s.pools.lookup id = some p ∧
      p.getStripeObjList (stripeName now) = l ∧ p.ecpolicy.k < l.length := by
  obtain ⟨f, e, he, htype, rfl⟩ | ⟨id', p, t, hp, rfl⟩ := hl
  · obtain ⟨m, hm⟩ := h.files f e he htype
    rw [hm] at ho
    obtain ⟨j, -, heq⟩ := List.mem_map.mp ho
    exact absurd heq objName_ne_parityName
  · rcases h.of_mem_pool hp ho with ⟨f, e, j, -, -, -, heq⟩ | ⟨hlt, now', j, rfl, heq⟩
    · exact absurd heq.symm objName_ne_parityName
    · obtain ⟨rfl, rfl, -⟩ := parityName_stripeName_inj.mp heq
      exact ⟨p, hp, rfl, hlt⟩

/-- **An object is in one stripe.** -/
theorem eq_of_mem {l l' : List Name} (hl : s.IsStripe l) (hl' : s.IsStripe l') {o : Name} (ho : o ∈ l) (ho' : o ∈ l') :
    l = l' := by
  have hfile : ∀ f e, s.store.ssEntryMap.lookup f = some e → e.type = 0 → o ∈ e.objList →
      ∃ i, o = objName f i := by
    intro f e he htype hmem
    obtain ⟨m, hm⟩ := h.files f e he htype
    rw [hm] at hmem
    obtain ⟨i, -, heq⟩ := List.mem_map.mp hmem
    exact ⟨i, heq.symm⟩
  -- an object of an online file is in no pool
  have hcross : ∀ f e, s.store.ssEntryMap.lookup f = some e → e.type = 0 → o ∈ e.objList →
      ∀ id p t, s.pools.lookup id = some p → o ∉ p.getStripeObjList t := by
    intro f e he htype hmem id p t hp hpool
    obtain ⟨i, rfl⟩ := hfile f e he htype hmem
    rcases h.of_mem_pool hp hpool with ⟨f', e', j, he', htype', -, heq⟩ | ⟨-, now, j, -, heq⟩
    · obtain ⟨rfl, -⟩ := objName_inj.mp heq
      obtain rfl : e = e' := Option.some.inj (he.symm.trans he')
      rw [htype] at htype'
      exact absurd htype' Nat.zero_ne_one
    · exact objName_ne_parityName heq
  obtain ⟨f, e, he, htype, rfl⟩ | ⟨id, p, t, hp, rfl⟩ := hl
  · obtain ⟨f', e', he', htype', rfl⟩ | ⟨id', p', t', hp', rfl⟩ := hl'
    · obtain ⟨i, hi⟩ := hfile f e he htype ho
      obtain ⟨i', hi'⟩ := hfile f' e' he' htype' ho'
      obtain ⟨rfl, -⟩ := objName_inj.mp (hi.symm.trans hi')
      rw [Option.some.inj (he.symm.trans he')]
    · exact absurd ho' (hcross f e he htype ho id' p' t' hp')
  · obtain ⟨f', e', he', htype', rfl⟩ | ⟨id', p', t', hp', rfl⟩ := hl'
    · exact absurd ho (hcross f' e' he' htype' ho' id p t hp)
    · rcases h.of_mem_pool hp ho with ⟨f, e, i, he, htype, hid, rfl⟩ | ⟨-, now, i, rfl, rfl⟩
      · rcases h.of_mem_pool hp' ho' with ⟨f', e', i', he', -, hid', heq⟩ | ⟨-, now, i', -, heq⟩
        · obtain ⟨rfl, rfl⟩ := objName_inj.mp heq
          obtain rfl : e = e' := Option.some.inj (he.symm.trans he')
          obtain rfl : id = id' := hid.symm.trans hid'
          obtain rfl : p = p' := Option.some.inj (hp.symm.trans hp')
          rw [(h.pools id p hp).2.2.consistent.eq_of_mem ho ho']
        · exact absurd heq objName_ne_parityName
      · obtain ⟨p'', hp'', heq, -⟩ := h.of_mem_parity (.inr ⟨id', p', t', hp', rfl⟩) ho'
        obtain rfl : p = p'' := Option.some.inj (hp.symm.trans hp'')
        exact heq

/-! ### The pools -/

theorem getECPool (id : Name) : let p := getECPool poolConf s.pools id
    p.ecpoolid = id ∧ p.ecpolicy = (poolConf id).1 ∧ p.Stocked (clock id) (s.IsData id) ∧
      (∀ t, Spread conf s.store.locOf (p.getStripeObjList t)) ∧
      ∀ t o, o ∈ p.getStripeObjList t → s.IsStripe (p.getStripeObjList t) := by
  intro p
  rw [show p = Storage.getECPool poolConf s.pools id from rfl, Storage.getECPool]
  cases hp : s.pools.lookup id with
  | none =>
    have hnil : ∀ t, (OfflineECPool.empty id (poolConf id).1 (poolConf id).2).getStripeObjList t = [] :=
      fun _ ↦ rfl
    refine ⟨rfl, rfl, OfflineECPool.stocked_empty _ _ _, fun t ↦ ?_, fun t o ho ↦ ?_⟩
    · exact hnil t ▸ Spread.nil
    · exact absurd (hnil t ▸ ho) List.not_mem_nil
  | some p =>
    obtain ⟨hid, hpolicy, hstocked⟩ := h.pools id p hp
    exact ⟨hid, hpolicy, hstocked, fun t ↦ h.spread _ (.inr ⟨id, p, t, hp, rfl⟩),
      fun t o _ ↦ .inr ⟨id, p, t, hp, rfl⟩⟩

end Inv

/-! ## The requests keep the invariant -/

/-- The codes and pools of a coordinator without fixed locations: there are more agents than a stripe has objects. -/
structure Adequate (conf : Config) (ecPolicyMap : Name → ECPolicy) (poolConf : Name → ECPolicy × ℕ) : Prop where
  fixedLoc : conf.fixedLoc = false
  agents : conf.agentsIPs.Nodup
  online : ∀ ecid, (ecPolicyMap ecid).n + 1 ≤ conf.agentsIPs.length
  offline : ∀ ecpoolid, (poolConf ecpoolid).1.n + 1 ≤ conf.agentsIPs.length

namespace Inv

variable (hconf : Adequate conf ecPolicyMap poolConf) (hclock : ∀ id, StrictMono (clock id))
  (h : Inv conf poolConf clock s)

include h

/-! ### Files for online encoding -/

theorem spread_insertEntry {e : SSEntry} (he : e.Shaped) (hnew : e.filename ∉ s.store.ssEntryMap) {m : ℕ}
    (hnames : e.objList = (List.range m).map (objName e.filename)) {l : List Name} (hl : s.IsStripe l) :
    Spread conf (s.store.insertEntry e).locOf l := by
  refine (h.spread l hl).congr (List.Subset.refl l) fun o ho ↦ ?_
  rw [h.sound.locOf_insertEntry he hnew, if_neg]
  intro hmem
  rw [hnames] at hmem
  obtain ⟨i, -, rfl⟩ := List.mem_map.mp hmem
  exact hnew (h.mem_ssEntryMap hl ho)

include hconf in
theorem registerOnlineEC {clientIp filesizeMB : ℕ} {f ecid : Name} {picks : ℕ → ℕ}
    (hs : next conf ecPolicyMap poolConf clock s (.registerOnlineEC clientIp f ecid filesizeMB picks) = some s') :
    Inv conf poolConf clock s' := by
  obtain ⟨st, hst, rfl⟩ := Option.map_eq_some_iff.mp hs
  rw [Storage.registerOnlineEC] at hst
  split_ifs at hst with hnew
  obtain ⟨ips, hips, rfl⟩ := Option.map_eq_some_iff.mp hst
  have hplaced : OnlinePlaced conf (ecPolicyMap ecid).n ips :=
    foldlM_range_invariant (fun _ _ _ _ hI hstep ↦ hI.step hconf.fixedLoc hconf.agents hstep)
      onlinePlaced_nil hips
  set e : SSEntry := ⟨f, 0, filesizeMB, ecid, (List.range (ecPolicyMap ecid).n).map (objName f), ips⟩
  have he : e.Shaped := ⟨.inl ⟨_, rfl⟩, by rw [List.length_map, List.length_range, hplaced.length]⟩
  have hentry : (s.store.insertEntry e).ssEntryMap.lookup f = some e := by
    rw [StripeStore.Sound.lookup_ssEntryMap_insertEntry hnew, if_pos rfl]
  have hloc := h.sound.locOf_insertEntry he hnew
  have hstripe : ∀ l, IsStripe { s with store := s.store.insertEntry e } l → s.IsStripe l ∨ l = e.objList := by
    rintro l (⟨f', e', he', htype, rfl⟩ | hpool)
    · rcases StripeStore.Sound.cases_of_insertEntry he' with ⟨-, -, rfl⟩ | he'
      · exact .inr rfl
      · exact .inl (.inl ⟨f', e', he', htype, rfl⟩)
    · exact .inl (.inr hpool)
  refine
    { sound := h.sound.insertEntry he
      files := fun f' e' he' htype ↦ ?_
      pools := fun id p hp ↦ ?_
      owned := fun o ho ↦ ?_
      spread := fun l hl ↦ ?_ }
  · rcases StripeStore.Sound.cases_of_insertEntry he' with ⟨-, rfl, rfl⟩ | he'
    · exact ⟨_, rfl⟩
    · exact h.files f' e' he' htype
  · obtain ⟨hid, hpolicy, hstocked⟩ := h.pools id p hp
    refine ⟨hid, hpolicy, hstocked.mono fun o ho ↦ ho.mono fun f' e' he' htype ↦ ?_⟩
    exact ⟨e', StripeStore.lookup_insertEntry he', htype, rfl⟩
  · obtain ⟨f', hf'⟩ := Option.isSome_iff_exists.mp (AList.lookup_isSome.mpr ho)
    dsimp only at hf'
    rw [h.sound.lookup_objEntryMap_insertEntry he hnew] at hf'
    split_ifs at hf' with hmem
    · exact ⟨e.objList, .inl ⟨f, e, hentry, rfl, rfl⟩, hmem⟩
    · obtain ⟨l, hl, hol⟩ := h.owned o (AList.lookup_isSome.mp (Option.isSome_iff_exists.mpr ⟨f', hf'⟩))
      refine ⟨l, hl.imp_left ?_, hol⟩
      exact fun ⟨f', e', he', htype, hlist⟩ ↦ ⟨f', e', StripeStore.lookup_insertEntry he', htype, hlist⟩
  · rcases hstripe l hl with hold | rfl
    · exact h.spread_insertEntry he hnew rfl hold
    · refine (SSEntry.spread hplaced.nodup hplaced.agent).congr (List.Subset.refl _) fun o ho ↦ ?_
      dsimp only
      rw [hloc, if_pos ho]

/-! ### Files for offline encoding -/

theorem getEntryFromObj_objName {f : Name} (hnew : f ∉ s.store.ssEntryMap) (i : ℕ) :
    s.store.getEntryFromObj (objName f i) = none := by
  rw [StripeStore.getEntryFromObj]
  cases hf : s.store.objEntryMap.lookup (objName f i) with
  | none => rfl
  | some f' =>
    obtain ⟨l, hl, ho⟩ := h.owned _ (AList.lookup_isSome.mp (Option.isSome_iff_exists.mpr ⟨f', hf⟩))
    exact absurd (h.mem_ssEntryMap hl ho) hnew

/-- Once the file has its entry, its objects are where they were placed. -/
theorem curLoc_eq_locOf {e : SSEntry} (he : e.Shaped) (hnew : e.filename ∉ s.store.ssEntryMap) {m : ℕ}
    (hnames : e.objList = (List.range m).map (objName e.filename)) (o : Name) :
    (s.store.insertEntry e).locOf o = curLoc s.store e.objList e.objLoc o := by
  rw [h.sound.locOf_insertEntry he hnew, curLoc, SSEntry.getLocOfObj, StripeStore.locOf]
  split_ifs with ho
  · obtain ⟨i, -, rfl⟩ := List.mem_map.mp (hnames ▸ ho)
    rw [h.getEntryFromObj_objName hnew]
  · cases s.store.getEntryFromObj o <;> rfl

theorem offlinePlaced (hnew : f ∉ s.store.ssEntryMap) (id : Name) :
    let p := Storage.getECPool poolConf s.pools id
    OfflinePlaced conf s.store (clock id) p f (fun o ↦ s.IsData id o ∨ ∃ i, o = objName f i) 0 ⟨p, [], [], []⟩ ∧
      ∀ i, objName f i ∉ p.objs := by
  obtain ⟨-, -, hstocked, hspread, hstripe⟩ := h.getECPool id
  refine ⟨offlinePlaced_nil (hstocked.mono fun o ↦ .inl) fun t ↦ ?_, fun i hmem ↦ ?_⟩
  · refine (hspread t).congr (List.Subset.refl _) fun o _ ↦ ?_
    rw [curLoc, StripeStore.locOf]
    cases s.store.getEntryFromObj o with
    | none => exact if_neg List.not_mem_nil
    | some e => rfl
  · obtain ⟨t, -, ho⟩ := hstocked.consistent.exists_of_mem_objs hmem
    exact hnew (h.mem_ssEntryMap (hstripe t _ ho) ho)

include hconf hclock in
theorem step_registerObj {f : Name} (hnew : f ∉ s.store.ssEntryMap) (id : Name) {clientIp i : ℕ} {picks : ℕ → ℕ}
    {r r' : Placing}
    (hI : OfflinePlaced conf s.store (clock id) (Storage.getECPool poolConf s.pools id) f
      (fun o ↦ s.IsData id o ∨ ∃ i, o = objName f i) i r)
    (hstep : registerObj conf s.store clientIp f (clock id) picks r i = some r') :
    OfflinePlaced conf s.store (clock id) (Storage.getECPool poolConf s.pools id) f
      (fun o ↦ s.IsData id o ∨ ∃ i, o = objName f i) (i + 1) r' :=
  hI.step hconf.fixedLoc hconf.agents (hclock id) (.inr ⟨i, rfl⟩) ((h.offlinePlaced hnew id).2 i)
    (h.getEntryFromObj_objName hnew i) hstep

include hconf hclock in
theorem registerOfflineEC {clientIp filesizeMB : ℕ} {f id : Name} {picks : ℕ → ℕ}
    (hs : next conf ecPolicyMap poolConf clock s (.registerOfflineEC clientIp f id filesizeMB picks) = some s') :
    Inv conf poolConf clock s' := by
  obtain ⟨r, hr, rfl⟩ := Option.map_eq_some_iff.mp hs
  rw [Storage.registerOfflineEC] at hr
  split_ifs at hr with hguard
  obtain ⟨pl, hloop, hr⟩ := Option.bind_eq_some_iff.mp hr
  cases hr
  have hnew : f ∉ s.store.ssEntryMap := fun hmem ↦ hguard (.inl hmem)
  obtain ⟨hid, hpolicy, -, -, hstripes⟩ := h.getECPool id
  have hpl := foldlM_range_invariant (fun _ _ _ _ hI hstep ↦ h.step_registerObj hconf hclock hnew id hI hstep)
    (h.offlinePlaced hnew id).1 hloop
  generalize hp : Storage.getECPool poolConf s.pools id = p at hid hpolicy hstripes hpl hloop
  dsimp only at hid hpolicy hstripes ⊢
  generalize objnum filesizeMB p.basesize = m at hpl hloop
  set e : SSEntry := ⟨f, 1, filesizeMB, p.ecpoolid, pl.fileobjnames, pl.fileobjlocs⟩
  have he : e.Shaped := ⟨.inl ⟨m, hpl.names⟩, hpl.length_names⟩
  have hentry : (s.store.insertEntry e).ssEntryMap.lookup f = some e := by
    rw [StripeStore.Sound.lookup_ssEntryMap_insertEntry hnew, if_pos rfl]
  have hdata : ∀ id' o, s.IsData id' o →
      IsData ⟨s.store.insertEntry e, s.pools.insert id pl.pool⟩ id' o := fun id' o ho ↦
    ho.mono fun f' e' he' htype ↦ ⟨e', StripeStore.lookup_insertEntry he', htype, rfl⟩
  have hown : ∀ l, s.IsStripe l → ∀ o ∈ l,
      ∃ l', IsStripe ⟨s.store.insertEntry e, s.pools.insert id pl.pool⟩ l' ∧ o ∈ l' := by
    rintro l (⟨f', e', he', htype, rfl⟩ | ⟨id', p', t, hp', rfl⟩) o ho
    · exact ⟨_, .inl ⟨f', e', StripeStore.lookup_insertEntry he', htype, rfl⟩, ho⟩
    · by_cases hne : id' = id
      · subst hne
        obtain rfl : p' = p := by rw [← hp, Storage.getECPool, hp', Option.getD_some]
        exact ⟨_, .inr ⟨id', pl.pool, t, AList.lookup_insert _, rfl⟩, (hpl.grown t).subset ho⟩
      · exact ⟨_, .inr ⟨id', p', t, by rw [← hp', AList.lookup_insert_ne hne], rfl⟩, ho⟩
  refine
    { sound := h.sound.insertEntry he
      files := fun f' e' he' htype ↦ ?_
      pools := fun id' p' hp' ↦ ?_
      owned := fun o ho ↦ ?_
      spread := fun l hl ↦ ?_ }
  · rcases StripeStore.Sound.cases_of_insertEntry he' with ⟨-, -, rfl⟩ | he'
    · exact absurd htype Nat.one_ne_zero
    · exact h.files f' e' he' htype
  · rcases lookup_insert_pools hp' with ⟨rfl, rfl⟩ | ⟨-, hp'⟩
    · refine ⟨hpl.ecpoolid.trans hid, hpl.ecpolicy.trans hpolicy, hpl.stocked.mono fun o ho ↦ ?_⟩
      rcases ho with ho | ⟨i, rfl⟩
      · exact hdata _ o ho
      · exact ⟨f, e, i, hentry, rfl, hid, rfl⟩
    · obtain ⟨hid', hpolicy', hstocked⟩ := h.pools id' p' hp'
      exact ⟨hid', hpolicy', hstocked.mono fun o ↦ hdata id' o⟩
  · obtain ⟨f', hf'⟩ := Option.isSome_iff_exists.mp (AList.lookup_isSome.mpr ho)
    dsimp only at hf'
    rw [h.sound.lookup_objEntryMap_insertEntry he hnew] at hf'
    split_ifs at hf' with hmem
    · obtain ⟨t, -, hot⟩ := hpl.stocked.consistent.exists_of_mem_objs ((hpl.mem_objs o).mpr (.inl hmem))
      exact ⟨_, .inr ⟨id, pl.pool, t, AList.lookup_insert _, rfl⟩, hot⟩
    · obtain ⟨l, hl, hol⟩ := h.owned o (AList.lookup_isSome.mp (Option.isSome_iff_exists.mpr ⟨f', hf'⟩))
      exact hown l hl o hol
  · rcases hl with ⟨f', e', he', htype, rfl⟩ | ⟨id', p', t, hp', rfl⟩
    · rcases StripeStore.Sound.cases_of_insertEntry he' with ⟨-, -, rfl⟩ | he'
      · exact absurd htype Nat.one_ne_zero
      · exact h.spread_insertEntry he hnew hpl.names (.inl ⟨f', e', he', htype, rfl⟩)
    · rcases lookup_insert_pools hp' with ⟨rfl, rfl⟩ | ⟨-, hp'⟩
      · exact (hpl.spread t).congr (List.Subset.refl _) fun o _ ↦ h.curLoc_eq_locOf he hnew hpl.names o
      · exact h.spread_insertEntry he hnew hpl.names (.inr ⟨id', p', t, hp', rfl⟩)

/-! ### Stripes that are encoded -/

/-- A stripe with `k` objects has no parity objects, and neither has any other. -/
theorem ne_parityName {id t : Name} {p : OfflineECPool} (hp : s.pools.lookup id = some p)
    (hlen : (p.getStripeObjList t).length = p.ecpolicy.k) {l : List Name} (hl : s.IsStripe l) {o : Name} (ho : o ∈ l)
    (i : ℕ) : o ≠ parityName p.ecpoolid t i := by
  rintro rfl
  obtain ⟨hid, -, hstocked⟩ := h.pools id p hp
  have ht : t ∈ p.stripes := by
    refine (hstocked.consistent.mem_stripes t).mp fun hnil ↦ ?_
    rw [hnil, List.length_nil] at hlen
    exact absurd hlen p.ecpolicy.k_pos.ne
  rw [hstocked.names] at ht
  obtain ⟨j, -, rfl⟩ := List.mem_map.mp ht
  rw [hid] at ho
  obtain ⟨p', hp', rfl, hlt⟩ := h.of_mem_parity hl ho
  obtain rfl : p = p' := Option.some.inj (hp.symm.trans hp')
  exact hlt.ne' hlen

theorem locOf_parity {id t : Name} {p : OfflineECPool} (hp : s.pools.lookup id = some p)
    (hlen : (p.getStripeObjList t).length = p.ecpolicy.k) (i : ℕ) :
    s.store.locOf (parityName p.ecpoolid t i) = none := by
  rw [StripeStore.locOf, StripeStore.getEntryFromObj]
  cases hf : s.store.objEntryMap.lookup (parityName p.ecpoolid t i) with
  | none => rfl
  | some f =>
    obtain ⟨l, hl, ho⟩ := h.owned _ (AList.lookup_isSome.mp (Option.isSome_iff_exists.mpr ⟨f, hf⟩))
    exact absurd rfl (h.ne_parityName hp hlen hl ho i)

theorem parityPlaced {id t : Name} {p : OfflineECPool} (hp : s.pools.lookup id = some p)
    (hlen : (p.getStripeObjList t).length = p.ecpolicy.k) {start : Encoding}
    (hstart : encodingStart s.store p t = some start) : ParityPlaced conf s.store p t 0 start :=
  parityPlaced_start h.sound hlen (h.spread _ (.inr ⟨id, p, t, hp, rfl⟩)) hstart

include hconf in
theorem offlineEnc {id t : Name} {picks : ℕ → ℕ}
    (hs : next conf ecPolicyMap poolConf clock s (.offlineEnc id t picks) = some s') :
    Inv conf poolConf clock s' := by
  obtain ⟨p, hp, hs⟩ := Option.bind_eq_some_iff.mp hs
  split_ifs at hs with hlen
  obtain ⟨r, hr, rfl⟩ := Option.map_eq_some_iff.mp hs
  rw [offlineEnc_eq] at hr
  obtain ⟨start, hstart, hloop⟩ := Option.bind_eq_some_iff.mp hr
  have hr := foldlM_range'_invariant
    (fun j _ _ _ hI hstep ↦ hI.step hconf.fixedLoc (h.locOf_parity hp hlen (p.ecpolicy.k + j)) hstep)
    (h.parityPlaced hp hlen hstart) hloop
  obtain ⟨hid, hpolicy, hstocked⟩ := h.pools id p hp
  have hpool : r.pool = p.addObjs t (p.parityObjs t) := hr.pool
  have hdata : ∀ id' o, s.IsData id' o → IsData ⟨r.store, s.pools.insert id r.pool⟩ id' o := fun id' o ho ↦
    ho.mono fun f e he htype ↦ ⟨e, hr.entries f e he, htype, rfl⟩
  have hframe : ∀ l, s.IsStripe l → Spread conf r.store.locOf l := fun l hl ↦
    (h.spread l hl).congr (List.Subset.refl l) fun o ho ↦ hr.kept o fun i _ ↦ h.ne_parityName hp hlen hl ho i
  refine
    { sound := hr.sound
      files := fun f e he htype ↦ h.files f e (hr.files f e he htype) htype
      pools := fun id' p' hp' ↦ ?_
      owned := fun o ho ↦ ?_
      spread := fun l hl ↦ ?_ }
  · rcases lookup_insert_pools hp' with ⟨rfl, rfl⟩ | ⟨-, hp'⟩
    · rw [hpool, OfflineECPool.ecpoolid_addObjs, OfflineECPool.ecpolicy_addObjs]
      refine ⟨hid, hpolicy, (hstocked.encode (fun o ho t' i ↦ ?_) hlen).2.mono fun o ↦ hdata _ o⟩
      obtain ⟨f, e, j, -, -, -, rfl⟩ := ho
      exact objName_ne_parityName
    · obtain ⟨hid', hpolicy', hstocked'⟩ := h.pools id' p' hp'
      exact ⟨hid', hpolicy', hstocked'.mono fun o ↦ hdata id' o⟩
  · rcases hr.objs o ho with ho | ho
    · obtain ⟨l, ⟨f, e, he, htype, rfl⟩ | ⟨id', p', t', hp', rfl⟩, hol⟩ := h.owned o ho
      · exact ⟨_, .inl ⟨f, e, hr.entries f e he, htype, rfl⟩, hol⟩
      · by_cases hne : id' = id
        · subst hne
          obtain rfl : p' = p := Option.some.inj (hp'.symm.trans hp)
          refine ⟨_, .inr ⟨id', r.pool, t', AList.lookup_insert _, rfl⟩, ?_⟩
          rw [hpool, OfflineECPool.getStripeObjList_addObjs]
          split_ifs with ht
          · exact List.mem_append_left _ (ht ▸ hol)
          · exact hol
        · exact ⟨_, .inr ⟨id', p', t', by rw [← hp', AList.lookup_insert_ne hne], rfl⟩, hol⟩
    · exact ⟨_, .inr ⟨id, r.pool, t, AList.lookup_insert _, rfl⟩, ho⟩
  · rcases hl with ⟨f, e, he, htype, rfl⟩ | ⟨id', p', t', hp', rfl⟩
    · exact hframe _ (.inl ⟨f, e, hr.files f e he htype, htype, rfl⟩)
    · rcases lookup_insert_pools hp' with ⟨rfl, rfl⟩ | ⟨-, hp'⟩
      · by_cases ht : t' = t
        · exact ht ▸ hr.spread
        · rw [hpool, OfflineECPool.getStripeObjList_addObjs, if_neg ht]
          exact hframe _ (.inr ⟨id', p, t', hp, rfl⟩)
      · exact hframe _ (.inr ⟨id', p', t', hp', rfl⟩)

/-! ### Lost objects -/

include hconf in
theorem of_onlineStripe {lostobj : Name} {ec : ECPolicy} {l : List Name}
    (hl : s.onlineStripe ecPolicyMap lostobj = some (ec, l)) :
    s.IsStripe l ∧ ec.n + 1 ≤ conf.agentsIPs.length := by
  obtain ⟨e, he, hl⟩ := Option.bind_eq_some_iff.mp hl
  split_ifs at hl with htype
  cases hl
  obtain ⟨hlookup, -⟩ := h.sound.exists_of_getEntryFromObj he
  exact ⟨.inl ⟨_, e, hlookup, htype, rfl⟩, hconf.online _⟩

include hconf in
theorem of_offlineStripe {lostobj : Name} {ec : ECPolicy} {l : List Name}
    (hl : s.offlineStripe clock lostobj = some (ec, l)) :
    s.IsStripe l ∧ ec.n + 1 ≤ conf.agentsIPs.length := by
  obtain ⟨e, -, hl⟩ := Option.bind_eq_some_iff.mp hl
  split_ifs at hl
  obtain ⟨p, hp, hl⟩ := Option.bind_eq_some_iff.mp hl
  cases hl
  obtain ⟨-, hpolicy, -⟩ := h.pools _ p hp
  exact ⟨.inr ⟨_, p, _, hp, rfl⟩, hpolicy ▸ hconf.offline _⟩

include hconf in
theorem recover {stripe : Option (ECPolicy × List Name)} {lost : List Name} {picks : ℕ → ℕ}
    (hstripe : ∀ ec l, stripe = some (ec, l) → s.IsStripe l) (hs : s.recover conf stripe lost picks = some s') :
    Inv conf poolConf clock s' := by
  obtain ⟨⟨ec, l⟩, hl, hs⟩ := Option.bind_eq_some_iff.mp hs
  obtain ⟨r, hr, hs⟩ := Option.bind_eq_some_iff.mp hs
  cases hs
  have hl := hstripe ec l hl
  rw [relocate] at hr
  split_ifs at hr with hlen
  obtain ⟨stripeips, hips, hloop⟩ := Option.bind_eq_some_iff.mp hr
  have hr := foldlM_range_invariant
    (fun i hi _ _ hI hstep ↦ hI.step hconf.fixedLoc hconf.agents hips (hlen.symm ▸ hi) hstep)
    (relocated_nil h.sound (h.spread l hl)) hloop
  -- the entries are the same but for the locations
  have hstripes : ∀ l', IsStripe { s with store := r.1 } l' → s.IsStripe l' := by
    rintro l' (⟨f, e', he', htype, rfl⟩ | hpool)
    · obtain ⟨e, he, htype', -, hlist⟩ := hr.moved.exists_left he'
      exact .inl ⟨f, e, he, htype'.trans htype, hlist⟩
    · exact .inr hpool
  refine
    { sound := hr.sound
      files := fun f e' he' htype ↦ ?_
      pools := fun id p hp ↦ ?_
      owned := fun o ho ↦ ?_
      spread := fun l' hl' ↦ ?_ }
  · obtain ⟨e, he, htype', -, hlist⟩ := hr.moved.exists_left he'
    obtain ⟨m, hm⟩ := h.files f e he (htype'.trans htype)
    exact ⟨m, hlist.symm.trans hm⟩
  · obtain ⟨hid, hpolicy, hstocked⟩ := h.pools id p hp
    refine ⟨hid, hpolicy, hstocked.mono fun o ho ↦ ho.mono fun f e he htype ↦ ?_⟩
    obtain ⟨e', he', htype', hid', -⟩ := hr.moved.exists_right he
    exact ⟨e', he', htype'.symm.trans htype, hid'.symm⟩
  · dsimp only at ho
    rw [hr.moved.objs] at ho
    obtain ⟨l', ⟨f, e, he, htype, rfl⟩ | hpool, hol⟩ := h.owned o ho
    · obtain ⟨e', he', htype', -, hlist⟩ := hr.moved.exists_right he
      exact ⟨e'.objList, .inl ⟨f, e', he', htype'.symm.trans htype, rfl⟩, hlist ▸ hol⟩
    · exact ⟨l', .inr hpool, hol⟩
  · have hold := hstripes l' hl'
    by_cases heq : l' = l
    · rw [heq]
      refine hr.spread.congr (fun o ho ↦ List.mem_append_left _ ?_) fun _ _ ↦ rfl
      rwa [List.take_of_length_le hlen.le]
    · refine (h.spread l' hold).congr (List.Subset.refl l') fun o ho ↦ hr.kept o fun hmem ↦ ?_
      exact absurd (h.eq_of_mem hold hl ho hmem) heq

include hconf hclock in
/-- **One request** keeps the invariant. -/
theorem step {l : RegistryRequest} (hs : next conf ecPolicyMap poolConf clock s l = some s') :
    Inv conf poolConf clock s' := by
  cases l with
  | registerOnlineEC clientIp f ecid filesizeMB picks => exact h.registerOnlineEC hconf hs
  | registerOfflineEC clientIp f ecpoolid filesizeMB picks => exact h.registerOfflineEC hconf hclock hs
  | offlineEnc ecpoolid stripename picks => exact h.offlineEnc hconf hs
  | recoveryOnline lostobj picks => exact h.recover hconf (fun _ _ hl ↦ (h.of_onlineStripe hconf hl).1) hs
  | recoveryOffline lostobj picks => exact h.recover hconf (fun _ _ hl ↦ (h.of_offlineStripe hconf hl).1) hs
  | recoveryOfflineDelay lostobj lostobjs picks =>
    exact h.recover hconf (fun _ _ hl ↦ (h.of_offlineStripe hconf hl).1) hs

/-! ### How many agents are taken -/

include hconf in
theorem length_of_choosesInRecovery {stripe : Option (ECPolicy × List Name)} {lost : List Name} {picks : ℕ → ℕ}
    {p : Placement}
    (hstripe : ∀ ec l, stripe = some (ec, l) → s.IsStripe l ∧ ec.n + 1 ≤ conf.agentsIPs.length)
    (hp : s.ChoosesInRecovery conf stripe lost picks p) :
    p.placedIp.length + p.removed.length < conf.agentsIPs.length := by
  obtain ⟨ec, l, stripeips, i, r, hl, hlen, hips, hvisit, -, rfl⟩ := hp
  obtain ⟨hl, hn⟩ := hstripe ec l hl
  obtain ⟨hi, hr⟩ := hvisit.range_invariant
    (fun i hi _ _ hI hstep ↦ hI.step hconf.fixedLoc hconf.agents hips (hlen.symm ▸ hi) hstep)
    (relocated_nil h.sound (h.spread l hl))
  have hremoved := length_removed_relocation hips ec r.2 i
  have hplaced : (relocation ec lost (l.zip stripeips) r.2 i).placedIp.length = i := hr.length
  omega

include hconf hclock in
theorem length_of_chooses {p : Placement} {l : RegistryRequest} (hp : s.Chooses conf ecPolicyMap poolConf clock p l) :
    p.placedIp.length + p.removed.length < conf.agentsIPs.length := by
  cases l with
  | registerOnlineEC clientIp f ecid filesizeMB picks =>
    obtain ⟨-, i, ips, hvisit, hp⟩ := hp
    obtain ⟨hi, hips⟩ := hvisit.range_invariant
      (fun _ _ _ _ hI hstep ↦ hI.step hconf.fixedLoc hconf.agents hstep) onlinePlaced_nil
    obtain ⟨hplaced, hremoved⟩ := placedIp_dataPlacement hp
    have hn := hconf.online ecid
    rw [hplaced, hips.length]
    omega
  | registerOfflineEC clientIp f ecpoolid filesizeMB picks =>
    obtain ⟨hnew, i, r, stripeips, hvisit, hips, hp⟩ := hp
    obtain ⟨-, hpolicy, -, -, -⟩ := h.getECPool ecpoolid
    obtain ⟨-, hr⟩ := hvisit.range_invariant
      (fun _ _ _ _ hI hstep ↦ h.step_registerObj hconf hclock hnew ecpoolid hI hstep)
      (h.offlinePlaced hnew ecpoolid).1
    have hlt := hr.stocked.length_lt (hr.objName_notMem ((h.offlinePlaced hnew ecpoolid).2 i)) (hclock ecpoolid)
    obtain ⟨hplaced, hremoved⟩ := placedIp_dataPlacement hp
    have hn := hconf.offline ecpoolid
    have hk := r.pool.ecpolicy.k_lt_n
    rw [hplaced, length_of_mapM hips]
    rw [hr.ecpolicy, hpolicy] at hlt hk
    omega
  | offlineEnc ecpoolid t picks =>
    obtain ⟨pool, hpool, hlen, start, hstart, i, r, hvisit, rfl⟩ := hp
    obtain ⟨j, hj, -, hr⟩ := hvisit.range'_invariant
      (fun j _ _ _ hI hstep ↦ hI.step hconf.fixedLoc (h.locOf_parity hpool hlen (pool.ecpolicy.k + j)) hstep)
      (h.parityPlaced hpool hlen hstart)
    have hn := hconf.offline ecpoolid
    rw [← (h.pools ecpoolid pool hpool).2.1] at hn
    have hplaced := hr.length
    change r.stripeips.length + 0 < conf.agentsIPs.length
    omega
  | recoveryOnline lostobj picks =>
    exact h.length_of_choosesInRecovery hconf (fun _ _ ↦ h.of_onlineStripe hconf) hp
  | recoveryOffline lostobj picks =>
    exact h.length_of_choosesInRecovery hconf (fun _ _ ↦ h.of_offlineStripe hconf) hp
  | recoveryOfflineDelay lostobj lostobjs picks =>
    exact h.length_of_choosesInRecovery hconf (fun _ _ ↦ h.of_offlineStripe hconf) hp

end Inv

theorem inv_of_reachable (hconf : Adequate conf ecPolicyMap poolConf) (hclock : ∀ id, StrictMono (clock id))
    (h : (system conf ecPolicyMap poolConf clock).Reachable s) : Inv conf poolConf clock s :=
  System.Reachable.invariant (fun _ hs ↦ hs ▸ inv_empty) (fun _ _ _ hinv hs ↦ hinv.step hconf hclock hs) h

/-! ## The result -/

variable (conf ecPolicyMap poolConf clock) in
/-- The stripes are spread over the agents, and the next request has a candidate for every object it places exactly
where the free agents in the racks of the group, if there are any, are not all removed. -/
structure WellPlaced (s : Registry) : Prop where
  spread : ∀ l, s.IsStripe l → l.Nodup ∧ Spread conf s.store.locOf l
  candidates : ∀ r, (∀ p, s.Chooses conf ecPolicyMap poolConf clock p r → p.candidates conf ≠ []) ↔
    ∀ p, s.Chooses conf ecPolicyMap poolConf clock p r → p.Fits conf

/-- **Placement.** After every run of requests. -/
theorem wellPlaced_of_reachable (hconf : Adequate conf ecPolicyMap poolConf) (hclock : ∀ id, StrictMono (clock id))
    (h : (system conf ecPolicyMap poolConf clock).Reachable s) : s.WellPlaced conf ecPolicyMap poolConf clock := by
  have hinv := inv_of_reachable hconf hclock h
  refine ⟨fun l hl ↦ ⟨?_, hinv.spread l hl⟩, fun r ↦ forall₂_congr fun p hp ↦ ?_⟩
  · rcases hl with ⟨f, e, he, -, rfl⟩ | ⟨id, p, t, hp, rfl⟩
    · exact (hinv.sound.entries f e he).2.nodup
    · exact (hinv.pools id p hp).2.2.consistent.nodup t
  · exact Placement.candidates_ne_nil_iff hconf.fixedLoc hconf.agents (hinv.length_of_chooses hconf hclock hp)

/-- A file of four objects is registered with an online code whose groups are two objects each, over racks of two
and three agents, and its first object is lost and goes to the other rack. -/
theorem wellPlaced_movedObject : ∃ (conf : Config) (ec : ECPolicy) (s : Registry),
    s.store.locOf (objName ['f'] 0) = some 5 ∧
      s.WellPlaced conf (fun _ ↦ ec) (fun _ ↦ (ec, 1)) fun _ ↦ id := by
  let ec : ECPolicy := ⟨4, 2, 1, [[0, 1], [2, 3]], Nat.succ_pos 1, by decide⟩
  let conf : Config := ⟨[(['a'], 1), (['a'], 2), (['b'], 3), (['b'], 4), (['b'], 5)], false, false, 1⟩
  obtain ⟨s, hs, hq⟩ := System.Reachable.exists_of_run
    (S := system conf (fun _ ↦ ec) (fun _ ↦ (ec, 1)) fun _ ↦ id) (s := empty) (.init rfl)
    [.registerOnlineEC 9 ['f'] ['c'] 2 fun _ ↦ 0, .recoveryOnline (objName ['f'] 0) fun _ ↦ 1]
    (p := fun s ↦ decide (s.store.locOf (objName ['f'] 0) = some 5)) (by decide +kernel)
  exact ⟨conf, ec, s, of_decide_eq_true hq, wellPlaced_of_reachable
    ⟨rfl, by decide, fun _ ↦ by decide, fun _ ↦ by decide⟩ (fun _ ↦ strictMono_id) hs⟩

/-- When the second object is lost after that, there is no candidate for it: the free agents of the rack the first
object is in now hold the third and the fourth object, and the free agents of the other rack are not tried. -/
theorem not_candidates_movedObject : ∃ (conf : Config) (ec : ECPolicy) (s : Registry) (r : RegistryRequest) (p : Placement),
    Adequate conf (fun _ ↦ ec) (fun _ ↦ (ec, 1)) ∧
      (system conf (fun _ ↦ ec) (fun _ ↦ (ec, 1)) fun _ ↦ id).Reachable s ∧
      s.Chooses conf (fun _ ↦ ec) (fun _ ↦ (ec, 1)) (fun _ ↦ id) p r ∧ p.candidates conf = [] := by
  let ec : ECPolicy := ⟨4, 2, 1, [[0, 1], [2, 3]], Nat.succ_pos 1, by decide⟩
  let conf : Config := ⟨[(['a'], 1), (['a'], 2), (['b'], 3), (['b'], 4), (['b'], 5)], false, false, 1⟩
  let objs : List Name := (List.range 4).map (objName ['f'])
  let lost : List Name := [objName ['f'] 1]
  obtain ⟨s, hs, hq⟩ := System.Reachable.exists_of_run
    (S := system conf (fun _ ↦ ec) (fun _ ↦ (ec, 1)) fun _ ↦ id) (s := empty) (.init rfl)
    [.registerOnlineEC 9 ['f'] ['c'] 2 fun _ ↦ 0, .recoveryOnline (objName ['f'] 0) fun _ ↦ 1]
    (p := fun s ↦ decide (s.store.getEntryFromObj (objName ['f'] 1) = some ⟨['f'], 0, 2, ['c'], objs, [5, 2, 3, 4]⟩) &&
      decide (stripeIps s.store objs lost = some [5, 0, 3, 4])) (by decide +kernel)
  obtain ⟨hentry, hips⟩ := (Bool.and_eq_true _ _).mp hq
  have hstripe : s.onlineStripe (fun _ ↦ ec) (objName ['f'] 1) = some (ec, objs) := by
    rw [onlineStripe, of_decide_eq_true hentry]
    rfl
  refine ⟨conf, ec, s, .recoveryOnline (objName ['f'] 1) fun _ ↦ 0,
    relocation ec lost (objs.zip [5, 0, 3, 4]) [5] 1, ⟨rfl, by decide, fun _ ↦ by decide, fun _ ↦ by decide⟩, hs, ?_,
    by decide +kernel⟩
  exact ⟨ec, objs, [5, 0, 3, 4], 1, (s.store, [5]), hstripe, rfl, of_decide_eq_true hips, ⟨[0], [2, 3], rfl, rfl⟩,
    ⟨objName ['f'] 1, rfl, List.mem_cons_self⟩, rfl⟩

end Registry

end UniDedup.Storage
