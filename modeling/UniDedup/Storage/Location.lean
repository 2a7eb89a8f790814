import UniDedup.Lib.Search
import UniDedup.Storage.PlacementRuns

/-!
# Looking up where an object goes

An agent that stores an object asks the coordinator for the location that was chosen for it. The coordinator takes
the name apart: what stands before the first `_oecobj_` is the file, the number behind it the index. The names of
parity objects are looked up as they are.

The name of a file may itself hold such a mark, and then another file is looked up. So the answer is right for the
objects of a file exactly where the mark that ends the file name is the first one (`exact_objName_iff`).
-/

namespace UniDedup.Storage

open Fold Search Transition

/-! ## Reading a name -/

def isSpace (c : Char) : Bool := c = ' ' || ('\t' ≤ c && c ≤ '\r')

/-- The number a text starts with, 0 where there is none. -/
def leadingNumber (l : Name) : ℕ := Nat.ofDigitChars 10 (l.takeWhile Char.isDigit) 0

def atoi (l : Name) : ℤ :=
  let l := l.dropWhile isSpace
  if l.head? = some '-' then -(leadingNumber l.tail : ℤ)
  else if l.head? = some '+' then leadingNumber l.tail
  else leadingNumber l

/-- `substr` from a position to the end, which throws behind the end. -/
def substr (l : Name) (pos : ℕ) : Option Name := if pos ≤ l.length then some (l.drop pos) else none

/-- The mark between a file name and the index of an object. -/
def oecobj : Name := "_oecobj_".toList

/-- The file name and the index that are read from the name of an object. Where the mark is missing, the position
behind it wraps to 7 and the file name is the whole name. -/
def readObjName (objname : Name) : Option (Name × ℤ) :=
  let (filename, idxpos) := match find oecobj objname with
    | some cpos => (objname.take cpos, cpos + oecobj.length)
    | none => (objname, 7)
  (substr objname idxpos).map fun idxstr ↦ (filename, atoi idxstr)

/-- `getLocation` for one replica; `none` where a list is read out of bounds or an assertion fails. -/
def getLocation (conf : Config) (st : StripeStore) (objname : Name) (pick : ℕ) : Option ℕ :=
  if (find "oecobj".toList objname).isSome then do
    let (filename, idx) ← readObjName objname
    match st.ssEntryMap.lookup filename with
    | some e => if 0 ≤ idx then e.objLoc[idx.toNat]? else none
    | none => some 0
  else if (find "oecstripe".toList objname).isSome then do
    let e ← st.ssEntryMap.lookup objname
    e.objLoc[0]?
  else chooseFromCandidates conf.agentsIPs pick

theorem isSpace_of_isDigit {c : Char} (h : c.isDigit) : isSpace c = false := by
  rw [isSpace, Bool.or_eq_false_iff]
  rw [Char.isDigit, Bool.and_eq_true, decide_eq_true_iff, decide_eq_true_iff] at h
  refine ⟨decide_eq_false ?_, ?_⟩
  · rintro rfl
    exact absurd h.1 (by decide)
  · rw [Bool.and_eq_false_iff]
    refine .inr (decide_eq_false fun hle ↦ ?_)
    exact absurd (UInt32.le_trans h.1 hle : '0'.val ≤ '\r'.val) (by decide)

theorem atoi_toDigits (i : ℕ) : atoi (Decimal.toDigits i) = i := by
  have hall : (Decimal.toDigits i).takeWhile Char.isDigit = Decimal.toDigits i :=
    List.takeWhile_eq_self_iff.mpr fun c hc ↦ Decimal.isDigit_of_mem_toDigits hc
  have hnum : leadingNumber (Decimal.toDigits i) = i := by
    rw [leadingNumber, hall]
    simp [Decimal.toDigits]
  obtain ⟨c, l, hl⟩ := List.exists_cons_of_ne_nil (@Decimal.toDigits_ne_nil i)
  have hc : c.isDigit := @Decimal.isDigit_of_mem_toDigits i c (hl ▸ List.mem_cons_self)
  have hdrop : (Decimal.toDigits i).dropWhile isSpace = Decimal.toDigits i := by
    rw [hl, List.dropWhile_cons_of_neg (by rw [isSpace_of_isDigit hc]; exact Bool.false_ne_true)]
  have hhead : ∀ d : Char, d.isDigit = false → (Decimal.toDigits i).head? ≠ some d := by
    intro d hd heq
    rw [hl, List.head?_cons, Option.some_inj] at heq
    rw [heq, hd] at hc
    exact Bool.false_ne_true hc
  rw [atoi, hdrop, if_neg (hhead '-' rfl), if_neg (hhead '+' rfl), hnum]

/-! ## The marks in a name -/

theorem isInfix_objName (f : Name) (i : ℕ) : oecobj <:+: objName f i :=
  ⟨f, Decimal.toDigits i, rfl⟩

theorem isInfix_oecobj : "oecobj".toList <:+: oecobj := by decide

theorem isInfix_parityName (ecpoolid : Name) (now i : ℕ) :
    "oecstripe".toList <:+: parityName ecpoolid (stripeName now) i := by
  rw [parityName, stripeName_eq]
  exact ⟨'/' :: ecpoolid ++ ['-'], '-' :: Decimal.toDigits now ++ '-' :: Decimal.toDigits i, by simp⟩

theorem seven_le_length_parityName (ecpoolid : Name) (now i : ℕ) :
    7 ≤ (parityName ecpoolid (stripeName now) i).length :=
  le_trans (by decide) (isInfix_parityName ecpoolid now i).length_le

theorem length_eq_seven {u : Name} (hne : u ≠ []) (hlt : u.length < oecobj.length) (h : u <+: oecobj)
    (hrest : oecobj.drop u.length <+: oecobj) : u = "_oecobj".toList := by
  rw [List.prefix_iff_eq_take.mp h]
  have hpos := List.length_pos_of_ne_nil hne
  have hlen : u.length = 7 := by
    revert hrest hpos
    generalize u.length = m at hlt
    revert m
    decide
  rw [hlen]
  rfl

theorem find_oecobj_iff (f : Name) (i : ℕ) :
    find oecobj (objName f i) = some f.length ↔ ¬oecobj <:+: f ∧ ¬"_oecobj".toList <:+ f := by
  have hne : oecobj ≠ [] := by decide
  have hself : "_oecobj".toList ≠ [] ∧ "_oecobj".toList.length < oecobj.length ∧ "_oecobj".toList <+: oecobj ∧
      oecobj.drop "_oecobj".toList.length <+: oecobj := by decide
  have hname : objName f i = f ++ oecobj ++ Decimal.toDigits i := rfl
  rw [hname, find_append_iff, find_append_self_iff hne]
  refine and_congr_right fun _ ↦ ⟨fun h hu ↦ ?_, fun h u hne hu hlt hpre hrest ↦ ?_⟩
  · exact h _ hself.1 hu hself.2.1 hself.2.2.1 hself.2.2.2
  · exact h (length_eq_seven hne hlt hpre hrest ▸ hu)

theorem readObjName_objName {f : Name} {i : ℕ} (h : find oecobj (objName f i) = some f.length) :
    readObjName (objName f i) = some (f, (i : ℤ)) := by
  have hname : objName f i = f ++ oecobj ++ Decimal.toDigits i := rfl
  have hlen : f.length + oecobj.length = (f ++ oecobj).length := List.length_append.symm
  rw [readObjName, h]
  dsimp only
  rw [substr, hname, hlen, if_pos (by simp), List.drop_left, Option.map_some, atoi_toDigits, List.append_assoc,
    List.take_left]

/-! ## The objects that are found -/

/-- The location that is recorded for an object is returned for it. -/
def Exact (conf : Config) (st : StripeStore) (objname : Name) : Prop :=
  ∀ loc ∈ st.locOf objname, ∀ pick, getLocation conf st objname pick = some loc

section Exact

variable {conf : Config} {st : StripeStore} {e : SSEntry} {f o : Name} {i loc : ℕ}

namespace SSEntry.Shaped

theorem getLocOfObj_objName (h : e.Shaped) (ho : objName f i ∈ e.objList) :
    e.filename = f ∧ e.getLocOfObj (objName f i) = e.objLoc[i]? := by
  obtain ⟨m, hm⟩ | ⟨⟨id, t, j, hpar⟩, hone⟩ := h.names
  · have hmem := ho
    rw [hm] at hmem
    obtain ⟨j, hj, heq⟩ := List.mem_map.mp hmem
    obtain ⟨hf, rfl⟩ := objName_inj.mp heq
    refine ⟨hf, ?_⟩
    have hlt : j < e.objList.length := by
      rw [hm, List.length_map]
      rwa [List.length_range, ← List.mem_range]
    have hget : e.objList[j] = objName f j := by simp [hm, hf]
    rw [getLocOfObj, if_pos ho, ← hget, h.nodup.idxOf_getElem]
  · rw [hone, List.mem_singleton] at ho
    exact absurd (ho.trans hpar) objName_ne_parityName

theorem getLocOfObj_parityName {ecpoolid t : Name} (h : e.Shaped) (ho : parityName ecpoolid t i ∈ e.objList) :
    e.filename = parityName ecpoolid t i ∧ e.objLoc.length = 1 ∧
      e.getLocOfObj (parityName ecpoolid t i) = e.objLoc[0]? := by
  obtain ⟨m, hm⟩ | ⟨-, hone⟩ := h.names
  · rw [hm] at ho
    obtain ⟨j, -, heq⟩ := List.mem_map.mp ho
    exact absurd heq objName_ne_parityName
  · have hname : parityName ecpoolid t i = e.filename := List.mem_singleton.mp (hone ▸ ho)
    refine ⟨hname.symm, by rw [← h.length, hone, List.length_singleton], ?_⟩
    rw [getLocOfObj, if_pos ho, hname, hone, List.idxOf_cons_self]

end SSEntry.Shaped

theorem StripeStore.Sound.exists_of_locOf (h : st.Sound) (hloc : st.locOf o = some loc) :
    ∃ e, st.ssEntryMap.lookup e.filename = some e ∧ e.Shaped ∧ o ∈ e.objList ∧ e.getLocOfObj o = some loc := by
  obtain ⟨e, he, hloc⟩ := Option.bind_eq_some_iff.mp hloc
  obtain ⟨hlookup, ho⟩ := h.exists_of_getEntryFromObj he
  exact ⟨e, hlookup, (h.entries _ e hlookup).2, ho, hloc⟩

theorem getLocation_eq {idx : ℤ} (hobj : "oecobj".toList <:+: o) (hread : readObjName o = some (f, idx)) (pick : ℕ) :
    getLocation conf st o pick = (st.ssEntryMap.lookup f).elim (some 0)
      fun e ↦ if 0 ≤ idx then e.objLoc[idx.toNat]? else none := by
  rw [getLocation, if_pos (isSome_find.mpr hobj), hread, Option.bind_eq_bind, Option.bind_some]
  dsimp only
  cases st.ssEntryMap.lookup f <;> rfl

theorem exact_objName (h : st.Sound) (hfind : find oecobj (objName f i) = some f.length) :
    Exact conf st (objName f i) := by
  intro loc hloc pick
  obtain ⟨e, hlookup, hshaped, ho, hloc⟩ := h.exists_of_locOf hloc
  obtain ⟨rfl, heq⟩ := hshaped.getLocOfObj_objName ho
  rw [getLocation_eq (isInfix_oecobj.trans (isInfix_objName e.filename i)) (readObjName_objName hfind), hlookup,
    Option.elim_some, if_pos (Int.natCast_nonneg i), Int.toNat_natCast, ← heq, hloc]

theorem readObjName_of_notInfix (hmark : ¬oecobj <:+: o) (hlen : 7 ≤ o.length) :
    readObjName o = some (o, atoi (o.drop 7)) := by
  rw [readObjName, find_eq_none_iff.mpr hmark]
  dsimp only
  rw [substr, if_pos hlen, Option.map_some]

theorem exact_parityName {ecpoolid : Name} {now : ℕ} (h : st.Sound)
    (hmark : ¬oecobj <:+: parityName ecpoolid (stripeName now) i)
    (hidx : "oecobj".toList <:+: parityName ecpoolid (stripeName now) i →
      atoi ((parityName ecpoolid (stripeName now) i).drop 7) = 0) :
    Exact conf st (parityName ecpoolid (stripeName now) i) := by
  intro loc hloc pick
  obtain ⟨e, hlookup, hshaped, ho, hloc⟩ := h.exists_of_locOf hloc
  obtain ⟨hname, -, heq⟩ := hshaped.getLocOfObj_parityName ho
  rw [hname] at hlookup
  rw [heq] at hloc
  by_cases hobj : "oecobj".toList <:+: parityName ecpoolid (stripeName now) i
  · have hread := readObjName_of_notInfix hmark (seven_le_length_parityName ecpoolid now i)
    rw [getLocation_eq hobj hread, hlookup, hidx hobj, Option.elim_some, if_pos le_rfl, Int.toNat_zero, hloc]
  · have hstripe := isInfix_parityName ecpoolid now i
    rw [getLocation, if_neg (mt isSome_find.mp hobj), if_pos (isSome_find.mpr hstripe), hlookup,
      Option.bind_eq_bind, Option.bind_some, hloc]

/-! ### The objects that are not found -/

def StripeStore.single (e : SSEntry) : StripeStore := insertEntry ⟨∅, ∅⟩ e

namespace StripeStore

theorem lookup_single (e : SSEntry) (f : Name) :
    (single e).ssEntryMap.lookup f = if f = e.filename then some e else none := by
  rw [single, Sound.lookup_ssEntryMap_insertEntry (AList.notMem_empty _), AList.lookup_empty]

theorem Sound.single (he : e.Shaped) : (single e).Sound := Sound.empty.insertEntry he

theorem locOf_single (he : e.Shaped) (ho : o ∈ e.objList) : (single e).locOf o = e.getLocOfObj o := by
  rw [single, Sound.empty.locOf_insertEntry he (AList.notMem_empty _), if_pos ho]

end StripeStore

theorem not_exact_single {idx : ℤ} (he : e.Shaped) (ho : o ∈ e.objList) (hloc : e.getLocOfObj o = some 1)
    (hobj : "oecobj".toList <:+: o) (hread : readObjName o = some (f, idx)) (hne : f ≠ e.filename) :
    ¬Exact conf (.single e) o := by
  intro hexact
  have heq := hexact 1 (by rw [StripeStore.locOf_single he ho, hloc]; rfl) 0
  rw [getLocation_eq hobj hread, StripeStore.lookup_single, if_neg hne, Option.elim_none] at heq
  exact absurd (Option.some.inj heq) Nat.zero_ne_one

theorem exists_readObjName (hmark : oecobj <:+: o) :
    ∃ p idx, find oecobj o = some p ∧ readObjName o = some (o.take p, idx) := by
  obtain ⟨p, hp⟩ := Option.isSome_iff_exists.mp (isSome_find.mpr hmark)
  obtain ⟨hle, hocc, -⟩ := find_eq_some_iff.mp hp
  have hlen : p + oecobj.length ≤ o.length := by
    have := hocc.length_le
    rw [List.length_drop] at this
    omega
  refine ⟨p, atoi (o.drop (p + oecobj.length)), hp, ?_⟩
  rw [readObjName, hp]
  dsimp only
  rw [substr, if_pos hlen, Option.map_some]

end Exact

/-! ## Every run -/

namespace Registry

variable {conf : Config} {ecPolicyMap : Name → ECPolicy} {poolConf : Name → ECPolicy × ℕ} {clock : Name → ℕ → ℕ}
  {s s' : Registry}

theorem sound_registerOnlineEC {st st' : StripeStore} {ec : ECPolicy} {clientIp filesizeMB : ℕ} {f ecid : Name}
    {picks : ℕ → ℕ} (h : st.Sound)
    (hs : Storage.registerOnlineEC conf st ec clientIp f ecid filesizeMB picks = some st') : st'.Sound := by
  rw [Storage.registerOnlineEC] at hs
  split_ifs at hs
  obtain ⟨ips, hips, rfl⟩ := Option.map_eq_some_iff.mp hs
  refine h.insertEntry ⟨.inl ⟨_, rfl⟩, ?_⟩
  have hlen : ips.length = ec.n := by
    refine foldlM_range_invariant (I := fun i ips ↦ ips.length = i) (fun i _ ips ips' hI hstep ↦ ?_) rfl hips
    obtain ⟨ip, -, rfl⟩ := Option.map_eq_some_iff.mp hstep
    rw [List.length_append, hI, List.length_singleton]
  rw [List.length_map, List.length_range, hlen]

theorem sound_registerOfflineEC {st : StripeStore} {pool : OfflineECPool} {time : ℕ → ℕ}
    {clientIp filesizeMB : ℕ} {f : Name} {picks : ℕ → ℕ} {r : StripeStore × Placing} (h : st.Sound)
    (hs : Storage.registerOfflineEC conf time st pool clientIp f filesizeMB picks = some r) : r.1.Sound := by
  rw [Storage.registerOfflineEC] at hs
  split_ifs at hs
  obtain ⟨pl, hloop, hs⟩ := Option.bind_eq_some_iff.mp hs
  cases hs
  have hpl := foldlM_range_invariant
    (I := fun i (pl : Placing) ↦ pl.fileobjnames = (List.range i).map (objName f) ∧ pl.fileobjlocs.length = i)
    (fun i _ pl pl' hI hstep ↦ ?_) ⟨rfl, rfl⟩ hloop
  · refine h.insertEntry ⟨.inl ⟨_, hpl.1⟩, ?_⟩
    rw [hpl.1, List.length_map, List.length_range, hpl.2]
  · obtain ⟨stripeips, -, hstep⟩ := Option.bind_eq_some_iff.mp hstep
    obtain ⟨ip, -, hstep⟩ := Option.bind_eq_some_iff.mp hstep
    cases hstep
    refine ⟨?_, ?_⟩
    · rw [List.range_succ, List.map_append, hI.1, List.map_singleton]
    · rw [List.length_append, hI.2, List.length_singleton]

theorem sound_offlineEnc {st : StripeStore} {pool : OfflineECPool} {t : Name} {picks : ℕ → ℕ} {r : Encoding}
    (h : st.Sound) (hs : Storage.offlineEnc conf st pool t picks = some r) : r.store.Sound := by
  rw [offlineEnc_eq] at hs
  obtain ⟨start, hstart, hloop⟩ := Option.bind_eq_some_iff.mp hs
  refine foldlM_invariant (I := fun r : Encoding ↦ r.store.Sound) (fun i _ r r' hI hstep ↦ ?_) ?_ hloop
  · obtain ⟨loc, -, hstep⟩ := Option.bind_eq_some_iff.mp hstep
    cases hstep
    exact hI.insertEntry (shaped_parity _ t i _ loc)
  · obtain ⟨stripeips, -, rfl⟩ := Option.map_eq_some_iff.mp hstart
    exact h

theorem sound_recover {stripe : Option (ECPolicy × List Name)} {lost : List Name} {picks : ℕ → ℕ}
    (h : s.store.Sound) (hs : s.recover conf stripe lost picks = some s') : s'.store.Sound := by
  obtain ⟨⟨ec, l⟩, -, hs⟩ := Option.bind_eq_some_iff.mp hs
  obtain ⟨r, hr, hs⟩ := Option.bind_eq_some_iff.mp hs
  cases hs
  rw [relocate] at hr
  split_ifs at hr
  obtain ⟨stripeips, -, hloop⟩ := Option.bind_eq_some_iff.mp hr
  refine foldlM_invariant (I := fun r : StripeStore × List ℕ ↦ r.1.Sound) (fun i _ r r' hI hstep ↦ ?_) h hloop
  obtain ⟨⟨o, ip⟩, -, hstep⟩ := Option.bind_eq_some_iff.mp hstep
  dsimp only at hstep
  split_ifs at hstep
  · obtain ⟨curip, -, hstep⟩ := Option.bind_eq_some_iff.mp hstep
    obtain ⟨st, hst, hstep⟩ := Option.bind_eq_some_iff.mp hstep
    cases hstep
    exact (hI.updateObjLoc hst).1
  · cases hstep
    exact hI

/-- **One request** keeps the entries and the pointers of their objects in step. -/
theorem sound_next {l : RegistryRequest} (h : s.store.Sound)
    (hs : next conf ecPolicyMap poolConf clock s l = some s') : s'.store.Sound := by
  cases l with
  | registerOnlineEC clientIp f ecid filesizeMB picks =>
    obtain ⟨st, hst, rfl⟩ := Option.map_eq_some_iff.mp hs
    exact sound_registerOnlineEC h hst
  | registerOfflineEC clientIp f ecpoolid filesizeMB picks =>
    obtain ⟨r, hr, rfl⟩ := Option.map_eq_some_iff.mp hs
    exact sound_registerOfflineEC h hr
  | offlineEnc ecpoolid stripename picks =>
    obtain ⟨p, -, hs⟩ := Option.bind_eq_some_iff.mp hs
    split_ifs at hs
    obtain ⟨r, hr, rfl⟩ := Option.map_eq_some_iff.mp hs
    exact sound_offlineEnc h hr
  | recoveryOnline lostobj picks => exact sound_recover h hs
  | recoveryOffline lostobj picks => exact sound_recover h hs
  | recoveryOfflineDelay lostobj lostobjs picks => exact sound_recover h hs

theorem sound_of_reachable (h : (system conf ecPolicyMap poolConf clock).Reachable s) : s.store.Sound := by
  refine System.Reachable.invariant (P := fun s : Registry ↦ s.store.Sound) (fun s hs ↦ ?_)
    (fun _ _ _ hsound hs ↦ sound_next hsound hs) h
  rw [show s = empty from hs]
  exact .empty

end Registry

/-! ## The names -/

/-- The objects of a file are found where the name of the file neither holds the mark nor ends in all of the mark
but its last character. -/
theorem forall_exact_objName_iff (f : Name) (i : ℕ) :
    (∀ conf st, StripeStore.Sound st → Exact conf st (objName f i)) ↔
      ¬oecobj <:+: f ∧ ¬"_oecobj".toList <:+ f := by
  rw [← find_oecobj_iff f i]
  refine ⟨fun hexact ↦ ?_, fun hfind conf st h ↦ exact_objName h hfind⟩
  by_contra hfind
  obtain ⟨p, idx, hp, hread⟩ := exists_readObjName (isInfix_objName f i)
  -- the mark behind the file name is an occurrence, so the first one is before it
  have hlt : p < f.length := by
    refine lt_of_le_of_ne ?_ fun heq ↦ hfind (heq ▸ hp)
    have hocc : oecobj <+: (objName f i).drop f.length := by
      have hname : objName f i = f ++ (oecobj ++ Decimal.toDigits i) := List.append_assoc ..
      rw [hname, List.drop_left]
      exact List.prefix_append _ _
    obtain ⟨q, hq, hfirst⟩ := exists_find_of_prefix hocc
    exact Option.some.inj (hp.symm.trans hfirst) ▸ hq
  set e : SSEntry := ⟨f, 0, 0, [], (List.range (i + 1)).map (objName f), List.replicate (i + 1) 1⟩ with he
  have hshaped : e.Shaped := ⟨.inl ⟨i + 1, rfl⟩, by simp [he]⟩
  have ho : objName f i ∈ e.objList := List.mem_map.mpr ⟨i, List.mem_range.mpr i.lt_succ_self, rfl⟩
  have hloc : e.getLocOfObj (objName f i) = some 1 := by
    rw [(hshaped.getLocOfObj_objName ho).2, List.getElem?_replicate, if_pos i.lt_succ_self]
  refine not_exact_single hshaped ho hloc (isInfix_oecobj.trans (isInfix_objName f i)) hread (fun heq ↦ ?_)
    (hexact ⟨[], false, false, 0⟩ _ (.single hshaped))
  have hlen := congrArg List.length heq
  rw [List.length_take] at hlen
  change min p _ = f.length at hlen
  omega

/-- A parity object is found where its name does not hold the mark, and is not taken for the name of a file's object
with another index. -/
theorem forall_exact_parityName_iff (ecpoolid : Name) (now i : ℕ) :
    (∀ conf st, StripeStore.Sound st → Exact conf st (parityName ecpoolid (stripeName now) i)) ↔
      ¬oecobj <:+: parityName ecpoolid (stripeName now) i ∧
        ("oecobj".toList <:+: parityName ecpoolid (stripeName now) i →
          atoi ((parityName ecpoolid (stripeName now) i).drop 7) = 0) := by
  refine ⟨fun hexact ↦ ?_, fun hname conf st h ↦ exact_parityName h hname.1 hname.2⟩
  set o := parityName ecpoolid (stripeName now) i with ho
  set e : SSEntry := ⟨o, 1, 0, ecpoolid, [o], [1]⟩ with he
  have hshaped : e.Shaped := shaped_parity ecpoolid (stripeName now) i 0 1
  have hmem : o ∈ e.objList := List.mem_singleton_self o
  have hloc : e.getLocOfObj o = some 1 := (hshaped.getLocOfObj_parityName hmem).2.2
  have hexact := hexact ⟨[], false, false, 0⟩ _ (.single hshaped)
  have hmark : ¬oecobj <:+: o := by
    intro hmark
    obtain ⟨p, idx, hp, hread⟩ := exists_readObjName hmark
    have hlt := lt_of_find (by decide) hp
    refine not_exact_single hshaped hmem hloc (isInfix_oecobj.trans hmark) hread (fun heq ↦ ?_) hexact
    have hlen := congrArg List.length heq
    rw [List.length_take] at hlen
    change min p _ = o.length at hlen
    omega
  refine ⟨hmark, fun hobj ↦ ?_⟩
  have hread := readObjName_of_notInfix hmark (seven_le_length_parityName ecpoolid now i)
  have heq := hexact 1 (by rw [StripeStore.locOf_single hshaped hmem, hloc]; rfl) 0
  rw [getLocation_eq hobj hread, StripeStore.lookup_single, if_pos rfl, Option.elim_some] at heq
  split_ifs at heq with hidx
  have hlt : (atoi (o.drop 7)).toNat < [1].length := (List.getElem?_eq_some_iff.mp heq).1
  rw [List.length_singleton] at hlt
  omega

/-- **Looking up locations.** Every run leaves the entries and the pointers of their objects in step, and over such
entries an object is found exactly where the marks in its name allow it. -/
theorem exact_iff (f : Name) (i : ℕ) (ecpoolid : Name) (now j : ℕ) :
    (∀ conf ecPolicyMap poolConf clock s, (Registry.system conf ecPolicyMap poolConf clock).Reachable s →
      s.store.Sound) ∧
    ((∀ conf st, StripeStore.Sound st → Exact conf st (objName f i)) ↔
      ¬oecobj <:+: f ∧ ¬"_oecobj".toList <:+ f) ∧
    ((∀ conf st, StripeStore.Sound st → Exact conf st (parityName ecpoolid (stripeName now) j)) ↔
      ¬oecobj <:+: parityName ecpoolid (stripeName now) j ∧
        ("oecobj".toList <:+: parityName ecpoolid (stripeName now) j →
          atoi ((parityName ecpoolid (stripeName now) j).drop 7) = 0)) :=
  ⟨fun _ _ _ _ _ h ↦ Registry.sound_of_reachable h, forall_exact_objName_iff f i,
    forall_exact_parityName_iff ecpoolid now j⟩

/-- A file is registered whose name holds the mark. Its first object is at the first agent, but the location 0 is
returned for it, as there is no file with the name in front of the mark. -/
theorem not_exact_markedFile : ∃ (conf : Config) (ec : ECPolicy) (s : Registry),
    (Registry.system conf (fun _ ↦ ec) (fun _ ↦ (ec, 1)) fun _ ↦ id).Reachable s ∧
      s.store.locOf (objName "x_oecobj_y".toList 0) = some 1 ∧
      getLocation conf s.store (objName "x_oecobj_y".toList 0) 0 = some 0 := by
  let ec : ECPolicy := ⟨2, 1, 1, [], Nat.succ_pos 0, by decide⟩
  let conf : Config := ⟨[(['a'], 1), (['a'], 2), (['b'], 3)], false, false, 1⟩
  obtain ⟨s, hs, hq⟩ := System.Reachable.exists_of_run
    (S := Registry.system conf (fun _ ↦ ec) (fun _ ↦ (ec, 1)) fun _ ↦ id) (s := Registry.empty) (.init rfl)
    [.registerOnlineEC 9 "x_oecobj_y".toList ['c'] 2 fun _ ↦ 0]
    (p := fun s ↦ decide (s.store.locOf (objName "x_oecobj_y".toList 0) = some 1) &&
      decide (getLocation conf s.store (objName "x_oecobj_y".toList 0) 0 = some 0)) (by decide +kernel)
  obtain ⟨hloc, hget⟩ := (Bool.and_eq_true _ _).mp hq
  exact ⟨conf, ec, s, hs, of_decide_eq_true hloc, of_decide_eq_true hget⟩

end UniDedup.Storage
