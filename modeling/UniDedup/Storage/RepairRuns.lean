import UniDedup.Lib.Transition
import UniDedup.Storage.Repair

/-!
# Delayed repairs

The threads that share the bookkeeping of the repairs, with delayed scheduling. A thread that reports a lost
object looks among the repairs first and enters the object in a second critical section. The thread of
`scanRepair` reads the number of repairs, picks the object with the most requests, and then delays the stripe of
that object, halving the requests, or submits all its lost objects and sends a command. The coordinator asks for
the lost objects of the stripe when it takes the command, rebuilds them, and each is finished when it is
reported as repaired.

The containers agree (`Agree`) as long as no step does one of five things, named in `Proper`; each of
them is a case the code does not treat.
-/

namespace UniDedup.Storage

open Transition

namespace RepairStore

variable (conf : RepairConf) (st : RepairStore)

/-- Start the repair of an object that is lost. -/
def submitOne (st : RepairStore) (objname : Name) : Option RepairStore :=
  (st.startRepair objname).eraseLost objname

/-- What `scanRepair` does with the object it has picked, and whether it sends a command. -/
def repairOrDelay (objname : Name) : Option (RepairStore × Bool) := do
  match ← delayed conf objname with
  | none => return (← st.submitOne objname, true)
  | some (stripename, ecpolicy) =>
    let errnum ← st.stripeErrNum.lookup stripename
    if errnum < (ecpolicy.n - ecpolicy.k : ℕ) then return (st.halve objname, false)
    let objs ← st.offlineLostStripe.lookup stripename
    return (← objs.foldlM submitOne st, true)

end RepairStore

/-- Where the thread of `scanRepair` is. -/
inductive ScanPc
  | start
  | counted (rpInProgressNum : ℕ)
  | picked (objname : Name)
deriving DecidableEq

/-- The object picked by `scanRepair`. -/
def ScanPc.object : ScanPc → Option Name
  | .picked o => some o
  | _ => none

/-- The number of repairs `scanRepair` has read. -/
def ScanPc.number : ScanPc → Option ℕ
  | .counted num => some num
  | _ => none

theorem ScanPc.object_eq_some {pc : ScanPc} {o : Name} : pc.object = some o ↔ pc = .picked o := by
  cases pc <;> simp [ScanPc.object]

structure RepairState where
  store : RepairStore
  /-- The objects found not to be in repair, which `addLostObj` is about to enter. -/
  reporting : List Name
  scan : ScanPc
  /-- The commands sent to the coordinator. -/
  requests : List Name
  /-- The objects that are being rebuilt. -/
  repairing : List Name

/-- The critical sections. -/
inductive RepairStep
  | checkRP (objname : Name)
  | insertLost (objname : Name)
  | readRPNum
  | pick (order : List Name)
  | repairOrDelay
  | getLostObjs (objname : Name)
  | finishRepair (objname : Name)

namespace RepairConf

variable (conf : RepairConf)

def stripeOf (objname : Name) : Option Name :=
  match conf.objEntry objname with
  | some (.offline stripename _) => some stripename
  | _ => none

end RepairConf

namespace RepairState

variable (conf : RepairConf) (s : RepairState)

def empty : RepairState := ⟨.empty, [], .start, [], []⟩

/-- The steps that are possible. Only offline objects are reported, and only objects that are being rebuilt are
reported as repaired. -/
def Enabled : RepairStep → Prop
  | .checkRP o => (conf.stripeOf o).isSome
  | .insertLost o => o ∈ s.reporting
  | .readRPNum => s.scan.object = none
  | .pick order => s.store.lostMap.keys ≠ [] ∧ order.Perm s.store.lostMap.keys ∧
      ∃ num ∈ s.scan.number, num < conf.concurrentNum
  | .repairOrDelay => s.scan.object.isSome
  | .getLostObjs o => o ∈ s.requests
  | .finishRepair o => o ∈ s.repairing

instance : ∀ l, Decidable (s.Enabled conf l)
  | .checkRP o => inferInstanceAs (Decidable ((conf.stripeOf o).isSome = true))
  | .insertLost o => inferInstanceAs (Decidable (o ∈ s.reporting))
  | .readRPNum => inferInstanceAs (Decidable (s.scan.object = none))
  | .pick order => inferInstanceAs (Decidable (s.store.lostMap.keys ≠ [] ∧ order.Perm s.store.lostMap.keys ∧
      ∃ num ∈ s.scan.number, num < conf.concurrentNum))
  | .repairOrDelay => inferInstanceAs (Decidable (s.scan.object.isSome = true))
  | .getLostObjs o => inferInstanceAs (Decidable (o ∈ s.requests))
  | .finishRepair o => inferInstanceAs (Decidable (o ∈ s.repairing))

/-- The effect of a step; `none` where an assertion fails or an entry to erase is missing. -/
def exec : RepairStep → Option RepairState
  | .checkRP o => some (if o ∈ s.store.rpInProgress then s else { s with reporting := s.reporting ++ [o] })
  | .insertLost o =>
    (s.store.insertLost conf o).map fun st ↦ { s with store := st, reporting := s.reporting.erase o }
  | .readRPNum => some { s with scan := .counted s.store.rpInProgress.length }
  | .pick order => some { s with scan := .picked (s.store.pick order) }
  | .repairOrDelay =>
    match s.scan with
    | .picked o =>
      (s.store.repairOrDelay conf o).map fun r ↦
        { s with store := r.1, scan := .start, requests := if r.2 then s.requests ++ [o] else s.requests }
    | _ => none
  | .getLostObjs o => do
    let stripename ← conf.stripeOf o
    if stripename ∈ s.store.offlineLostStripe then
      let r := s.store.getLostObjs stripename
      return { s with store := r.1, requests := s.requests.erase o, repairing := s.repairing ++ r.2 }
    else none
  | .finishRepair o =>
    (s.store.finishRepair conf o).map fun st ↦ { s with store := st, repairing := s.repairing.erase o }

def system : System RepairState RepairStep where
  init s := s = empty
  next s l := if s.Enabled conf l then s.exec conf l else none

/-! ## What the containers should say -/

/-- The lost objects of a stripe and those in repair. -/
def Failed (st : RepairStore) (t o : Name) : Prop :=
  conf.stripeOf o = some t ∧ (o ∈ st.lostMap ∨ o ∈ st.rpInProgress)

/-- The number and the list of a stripe are those of the failed objects. -/
def StripeAgrees (st : RepairStore) (t : Name) : Prop :=
  ∃ objs : List Name, objs.Nodup ∧ (∀ o, o ∈ objs ↔ Failed conf st t o) ∧
    st.stripeErrNum.lookup t = (if objs = [] then none else some (objs.length : ℤ)) ∧
    st.offlineLostStripe.lookup t = if objs = [] then none else some objs

/-- The containers agree, and what is picked is lost. -/
structure Agree : Prop where
  disjoint : ∀ o ∈ s.store.lostMap, o ∉ s.store.rpInProgress
  nodup : s.store.rpInProgress.Nodup
  stripes : ∀ t, StripeAgrees conf s.store t
  picks : ∀ order : List Name, order.Perm s.store.lostMap.keys → order ≠ [] →
    s.store.pick order ∈ s.store.lostMap

/-- The steps that do not do what the code does not treat. An object is entered as lost only if its repair was
not started meanwhile; a stripe is delayed only for an object that was requested twice; it is submitted only
when none of its objects is in repair; its lost objects are asked for only when all are; and one is finished
only when it is the only one of its stripe. -/
def Proper : RepairStep → Prop
  | .insertLost o => o ∉ s.store.rpInProgress
  | .repairOrDelay => ∀ o t ec, s.scan = .picked o → conf.objEntry o = some (.offline t ec) →
      ∀ errnum, s.store.stripeErrNum.lookup t = some errnum →
        if errnum < (ec.n - ec.k : ℕ) then ∀ num, s.store.lostMap.lookup o = some num → 2 ≤ num
        else ∀ objs, s.store.offlineLostStripe.lookup t = some objs → ∀ u ∈ objs, u ∉ s.store.rpInProgress
  | .getLostObjs o => ∀ t objs, conf.stripeOf o = some t → s.store.offlineLostStripe.lookup t = some objs →
      ∀ u ∈ objs, u ∈ s.store.rpInProgress
  | .finishRepair o => ∀ t num, conf.stripeOf o = some t → s.store.stripeErrNum.lookup t = some num → num = 1
  | _ => True

variable {conf} {st st' : RepairStore} {s s' : RepairState} {o t : Name}

theorem exists_of_stripeOf (h : conf.stripeOf o = some t) : ∃ ec, conf.objEntry o = some (.offline t ec) := by
  rw [RepairConf.stripeOf] at h
  split at h
  · next stripename ec he =>
    cases h
    exact ⟨ec, he⟩
  · cases h

/-- The steps that leave the containers of a stripe and its failed objects as they are. -/
theorem StripeAgrees.congr (h : StripeAgrees conf st t) (hfailed : ∀ o, Failed conf st' t o ↔ Failed conf st t o)
    (herr : st'.stripeErrNum.lookup t = st.stripeErrNum.lookup t)
    (hlist : st'.offlineLostStripe.lookup t = st.offlineLostStripe.lookup t) : StripeAgrees conf st' t := by
  obtain ⟨objs, hnodup, hmem, herr', hlist'⟩ := h
  exact ⟨objs, hnodup, fun o ↦ (hmem o).trans (hfailed o).symm, herr.trans herr', hlist.trans hlist'⟩

theorem StripeAgrees.exists_of_failed (h : StripeAgrees conf st t) (ho : Failed conf st t o) :
    ∃ objs : List Name, objs.Nodup ∧ (∀ o, o ∈ objs ↔ Failed conf st t o) ∧ o ∈ objs ∧
      st.stripeErrNum.lookup t = some (objs.length : ℤ) ∧ st.offlineLostStripe.lookup t = some objs := by
  obtain ⟨objs, hnodup, hmem, herr, hlist⟩ := h
  have hin : o ∈ objs := (hmem o).mpr ho
  have hne : objs ≠ [] := List.ne_nil_of_mem hin
  rw [if_neg hne] at herr hlist
  exact ⟨objs, hnodup, hmem, hin, herr, hlist⟩

/-! ## What the critical sections do -/

/-- The object with the most requests is one of them, when each was requested. -/
theorem pick_mem {order : List Name} (hne : order ≠ [])
    (hpos : ∀ o ∈ order, 0 < (st.lostMap.lookup o).getD 0) : st.pick order ∈ order := by
  have hfold : ∀ l : List Name, (∀ o ∈ l, 0 < (st.lostMap.lookup o).getD 0) →
      let best := l.foldl (fun (best : ℕ × Name) objname ↦
        let num := (st.lostMap.lookup objname).getD 0
        if best.1 < num then (num, objname) else best) (0, [])
      l = [] ∧ best.1 = 0 ∨ 0 < best.1 ∧ best.2 ∈ l := by
    intro l hl
    induction l using List.reverseRecOn with
    | nil => exact .inl ⟨rfl, rfl⟩
    | append_singleton l o ih =>
      have ih := ih fun o' ho' ↦ hl o' (List.mem_append_left _ ho')
      have ho := hl o (List.mem_append_right _ List.mem_cons_self)
      dsimp only at ih ⊢
      rw [List.foldl_concat]
      refine .inr ?_
      split_ifs with hlt
      · exact ⟨ho, List.mem_append_right _ List.mem_cons_self⟩
      · rcases ih with ⟨-, hzero⟩ | ⟨hbest, hmem⟩
        · rw [hzero] at hlt
          exact absurd ho hlt
        · exact ⟨hbest, List.mem_append_left _ hmem⟩
  rcases hfold order hpos with ⟨hnil, -⟩ | ⟨-, hmem⟩
  · exact absurd hnil hne
  · exact hmem

theorem insertLost_eq (hdelay : conf.delay = true) {ec : ECPolicy}
    (hentry : conf.objEntry o = some (.offline t ec)) : st.insertLost conf o =
      some (match st.lostMap.lookup o with
        | some num => { st with lostMap := st.lostMap.insert o (num + 1) }
        | none => { st with lostMap := st.lostMap.insert o 1 }.countFailure t o) := by
  rw [RepairStore.insertLost]
  cases st.lostMap.lookup o with
  | some num => rfl
  | none => simp [RepairStore.delayed, hdelay, hentry]

/-- Counting a failure only changes the number and the list of its stripe. -/
theorem countFailure_lookup_of_ne {t' : Name} (h : t' ≠ t) :
    (st.countFailure t o).stripeErrNum.lookup t' = st.stripeErrNum.lookup t' ∧
      (st.countFailure t o).offlineLostStripe.lookup t' = st.offlineLostStripe.lookup t' := by
  rw [RepairStore.countFailure]
  cases st.stripeErrNum.lookup t with
  | none => exact ⟨AList.lookup_insert_ne h, lookup_emplace_of_ne _ _ h⟩
  | some num => exact ⟨AList.lookup_insert_ne h, AList.lookup_insert_ne h⟩

@[simp] theorem lostMap_countFailure : (st.countFailure t o).lostMap = st.lostMap := by
  rw [RepairStore.countFailure]
  cases st.stripeErrNum.lookup t <;> rfl

@[simp] theorem rpInProgress_countFailure : (st.countFailure t o).rpInProgress = st.rpInProgress := by
  rw [RepairStore.countFailure]
  cases st.stripeErrNum.lookup t <;> rfl

theorem StripeAgrees.countFailure (h : StripeAgrees conf st t) (ho : conf.stripeOf o = some t)
    (hnot : ¬Failed conf st t o) :
    StripeAgrees conf ({ st with lostMap := st.lostMap.insert o 1 }.countFailure t o) t := by
  obtain ⟨objs, hnodup, hmem, herr, hlist⟩ := h
  have hnew : o ∉ objs := fun hin ↦ hnot ((hmem o).mp hin)
  refine ⟨objs ++ [o], ?_, fun o' ↦ ?_, ?_, ?_⟩
  · exact List.nodup_append.mpr ⟨hnodup, List.nodup_singleton _, fun a ha b hb ↦ by
      rintro rfl
      exact hnew (List.mem_singleton.mp hb ▸ ha)⟩
  · rw [Failed, lostMap_countFailure, rpInProgress_countFailure, List.mem_append, List.mem_singleton, hmem,
      Failed, AList.mem_insert]
    constructor
    · rintro (⟨hs, hin⟩ | rfl)
      · exact ⟨hs, hin.imp_left .inr⟩
      · exact ⟨ho, .inl (.inl rfl)⟩
    · rintro ⟨hs, (rfl | hin) | hin⟩
      · exact .inr rfl
      · exact .inl ⟨hs, .inl hin⟩
      · exact .inl ⟨hs, .inr hin⟩
  · rw [RepairStore.countFailure]
    dsimp only
    rw [herr]
    split_ifs with hnil happ happ
    · simp at happ
    · simp [hnil]
    · simp at happ
    · simp
  · rw [RepairStore.countFailure]
    dsimp only
    rw [herr]
    split_ifs with hnil happ happ
    · simp at happ
    · rw [if_pos hnil] at hlist
      dsimp only
      rw [lookup_emplace _ _ _ _ (AList.lookup_eq_none.mp hlist), if_pos rfl, hnil, List.nil_append]
    · simp at happ
    · rw [if_neg hnil] at hlist
      dsimp only
      rw [AList.lookup_insert, hlist, Option.getD_some]

theorem submitOne_eq (ho : o ∈ st.lostMap) :
    st.submitOne o = some { st.startRepair o with lostMap := st.lostMap.erase o } := by
  rw [RepairStore.submitOne, RepairStore.eraseLost, if_pos]
  · rfl
  · exact ho

theorem foldlM_submitOne {objs : List Name} (hnodup : objs.Nodup) (hlost : ∀ o ∈ objs, o ∈ st.lostMap) :
    ∃ st', objs.foldlM RepairStore.submitOne st = some st' ∧
      (∀ o, st'.lostMap.lookup o = if o ∈ objs then none else st.lostMap.lookup o) ∧
      st'.rpInProgress = st.rpInProgress ++ objs ∧ st'.stripeErrNum = st.stripeErrNum ∧
      st'.offlineLostStripe = st.offlineLostStripe := by
  induction objs generalizing st with
  | nil => exact ⟨st, rfl, fun o ↦ rfl, (List.append_nil _).symm, rfl, rfl⟩
  | cons o objs ih =>
    obtain ⟨hnew, hnodup⟩ := List.nodup_cons.mp hnodup
    have hstart := submitOne_eq (hlost o List.mem_cons_self)
    obtain ⟨st', hfold, hlookup, hrp, herr, hlist⟩ := @ih { st.startRepair o with
      lostMap := st.lostMap.erase o } hnodup fun o' ho' ↦ AList.mem_erase.mpr
        ⟨fun heq ↦ hnew (heq ▸ ho'), hlost o' (List.mem_cons_of_mem _ ho')⟩
    refine ⟨st', ?_, fun o' ↦ ?_, ?_, herr, hlist⟩
    · rw [List.foldlM_cons, hstart]
      exact hfold
    · rw [hlookup]
      dsimp only
      by_cases hoo : o' = o
      · subst hoo
        rw [AList.lookup_erase, if_pos List.mem_cons_self, ite_self]
      · rw [AList.lookup_erase_ne hoo]
        simp only [List.mem_cons, hoo, false_or]
    · rw [hrp]
      simp [RepairStore.startRepair]

theorem finishRepair_eq (hdelay : conf.delay = true) {ec : ECPolicy}
    (hentry : conf.objEntry o = some (.offline t ec)) (hone : st.stripeErrNum.lookup t = some 1) :
    ∃ st', st.finishRepair conf o = some st' ∧ st'.lostMap = st.lostMap ∧
      st'.rpInProgress = st.rpInProgress.erase o ∧ st'.stripeErrNum = st.stripeErrNum.erase t ∧
      st'.offlineLostStripe = st.offlineLostStripe.erase t := by
  have hunfold : st.finishRepair conf o =
      if (st.rpInProgress.erase o).isEmpty && st.lostMap.keys.isEmpty && st.startTime then
        some ⟨st.lostMap, st.rpInProgress.erase o, st.stripeErrNum.erase t, st.offlineLostStripe.erase t,
          false, st.enableSetStart⟩
      else some ⟨st.lostMap, st.rpInProgress.erase o, st.stripeErrNum.erase t, st.offlineLostStripe.erase t,
        st.startTime, st.enableSetStart⟩ := by
    simp [RepairStore.finishRepair, RepairStore.delayed, RepairStore.uncountFailure, hdelay, hentry, hone]
  rw [hunfold]
  split_ifs
  · exact ⟨_, rfl, rfl, rfl, rfl, rfl⟩
  · exact ⟨_, rfl, rfl, rfl, rfl, rfl⟩

theorem repairOrDelay_eq (hdelay : conf.delay = true) {ec : ECPolicy} {errnum : ℤ} {objs : List Name}
    (hentry : conf.objEntry o = some (.offline t ec)) (herr : st.stripeErrNum.lookup t = some errnum)
    (hlist : st.offlineLostStripe.lookup t = some objs) : st.repairOrDelay conf o =
      if errnum < (ec.n - ec.k : ℕ) then some (st.halve o, false)
      else (objs.foldlM RepairStore.submitOne st).map fun st ↦ (st, true) := by
  simp only [RepairStore.repairOrDelay, RepairStore.delayed, hdelay, if_true, hentry, Option.map_some,
    Option.bind_eq_bind, Option.bind_some, herr, hlist]
  split_ifs
  · rfl
  · cases objs.foldlM RepairStore.submitOne st <;> rfl

/-! ## The invariant -/

variable (conf s) in
/-- What holds between two critical sections. -/
structure Inv : Prop where
  disjoint : ∀ o ∈ s.store.lostMap, o ∉ s.store.rpInProgress
  nodup : s.store.rpInProgress.Nodup
  stripes : ∀ t, StripeAgrees conf s.store t
  offline : ∀ o, o ∈ s.store.lostMap ∨ o ∈ s.store.rpInProgress ∨ o ∈ s.reporting →
    ∃ t, conf.stripeOf o = some t
  counts : ∀ o n, s.store.lostMap.lookup o = some n → 0 < n
  picked : ∀ o, s.scan = .picked o → o ∈ s.store.lostMap
  /-- The stripes of the commands are in repair, one command each, and are not being rebuilt yet. -/
  requests : ∀ o ∈ s.requests, o ∈ s.store.rpInProgress
  requests_apart : s.requests.Pairwise fun o o' ↦ conf.stripeOf o ≠ conf.stripeOf o'
  repairing_apart : ∀ o ∈ s.requests, ∀ u ∈ s.repairing, conf.stripeOf u ≠ conf.stripeOf o
  repairing : ∀ u ∈ s.repairing, u ∈ s.store.rpInProgress
  repairing_nodup : s.repairing.Nodup

theorem inv_empty : Inv conf empty where
  disjoint o ho := absurd ho (by simp [empty, RepairStore.empty])
  nodup := List.nodup_nil
  stripes t := ⟨[], List.nodup_nil, fun o ↦ by simp [Failed, empty, RepairStore.empty], by simp [empty,
    RepairStore.empty], by simp [empty, RepairStore.empty]⟩
  offline o ho := absurd ho (by simp [empty, RepairStore.empty])
  counts o n ho := absurd ho (by simp [empty, RepairStore.empty])
  picked o ho := absurd ho (by simp [empty])
  requests o ho := absurd ho List.not_mem_nil
  requests_apart := .nil
  repairing_apart o ho := absurd ho List.not_mem_nil
  repairing o ho := absurd ho List.not_mem_nil
  repairing_nodup := List.nodup_nil

namespace Inv

variable (h : Inv conf s)

include h

theorem pick_mem {order : List Name} (horder : order.Perm s.store.lostMap.keys) (hne : order ≠ []) :
    s.store.pick order ∈ s.store.lostMap := by
  refine AList.mem_keys.mpr (horder.mem_iff.mp (RepairState.pick_mem hne fun o ho ↦ ?_))
  obtain ⟨n, hn⟩ := Option.isSome_iff_exists.mp (AList.lookup_isSome.mpr
    (AList.mem_keys.mpr (horder.mem_iff.mp ho)))
  rw [hn]
  exact h.counts o n hn

theorem agree : s.Agree conf :=
  ⟨h.disjoint, h.nodup, h.stripes, fun _ horder hne ↦ h.pick_mem horder hne⟩

theorem failed_of_mem_lostMap (ho : o ∈ s.store.lostMap) : ∃ t, Failed conf s.store t o := by
  obtain ⟨t, ht⟩ := h.offline o (.inl ho)
  exact ⟨t, ht, .inl ho⟩

theorem failed_of_mem_rpInProgress (ho : o ∈ s.store.rpInProgress) : ∃ t, Failed conf s.store t o := by
  obtain ⟨t, ht⟩ := h.offline o (.inr (.inl ho))
  exact ⟨t, ht, .inr ho⟩

/-! ### Reporting -/

theorem checkRP (hen : s.Enabled conf (.checkRP o)) : ∃ s', s.exec conf (.checkRP o) = some s' ∧ Inv conf s' := by
  refine ⟨_, rfl, ?_⟩
  split_ifs with hrp
  · exact h
  · refine { h with offline := fun o' ho' ↦ ?_ }
    rcases ho' with ho' | ho' | ho'
    · exact h.offline o' (.inl ho')
    · exact h.offline o' (.inr (.inl ho'))
    · rw [List.mem_append, List.mem_singleton] at ho'
      rcases ho' with ho' | rfl
      · exact h.offline o' (.inr (.inr ho'))
      · exact Option.isSome_iff_exists.mp hen

theorem insertLost (hdelay : conf.delay = true) (hen : s.Enabled conf (.insertLost o))
    (hp : s.Proper conf (.insertLost o)) : ∃ s', s.exec conf (.insertLost o) = some s' ∧ Inv conf s' := by
  obtain ⟨t, ht⟩ := h.offline o (.inr (.inr hen))
  obtain ⟨ec, hentry⟩ := exists_of_stripeOf ht
  have hreporting : ∀ o' ∈ s.reporting.erase o, ∃ t, conf.stripeOf o' = some t := fun o' ho' ↦
    h.offline o' (.inr (.inr (List.mem_of_mem_erase ho')))
  rw [exec, insertLost_eq hdelay hentry]
  refine ⟨_, rfl, ?_⟩
  cases hlookup : s.store.lostMap.lookup o with
  | some num =>
    have hmem : o ∈ s.store.lostMap := AList.lookup_isSome.mp (Option.isSome_iff_exists.mpr ⟨num, hlookup⟩)
    have hkeys : ∀ o', o' ∈ s.store.lostMap.insert o (num + 1) ↔ o' ∈ s.store.lostMap := by
      intro o'
      rw [AList.mem_insert]
      exact ⟨fun ho' ↦ ho'.elim (fun heq ↦ heq ▸ hmem) id, .inr⟩
    exact
      { h with
        disjoint := fun o' ho' ↦ h.disjoint o' ((hkeys o').mp ho')
        stripes := fun t' ↦ (h.stripes t').congr (fun o' ↦ by rw [Failed, Failed, hkeys]) rfl rfl
        offline := fun o' ho' ↦ by
          rcases ho' with ho' | ho' | ho'
          · exact h.offline o' (.inl ((hkeys o').mp ho'))
          · exact h.offline o' (.inr (.inl ho'))
          · exact hreporting o' ho'
        counts := fun o' n hn ↦ by
          by_cases hoo : o' = o
          · subst hoo
            rw [AList.lookup_insert] at hn
            rw [← Option.some.inj hn]
            exact Nat.succ_pos _
          · rw [AList.lookup_insert_ne hoo] at hn
            exact h.counts o' n hn
        picked := fun o' ho' ↦ (hkeys o').mpr (h.picked o' ho') }
  | none =>
    have hnot : o ∉ s.store.lostMap := AList.lookup_eq_none.mp hlookup
    have hnf : ¬Failed conf s.store t o := fun hf ↦ hf.2.elim hnot hp
    exact
      { h with
        disjoint := fun o' ho' ↦ by
          rw [lostMap_countFailure, AList.mem_insert] at ho'
          rw [rpInProgress_countFailure]
          rcases ho' with rfl | ho'
          · exact hp
          · exact h.disjoint o' ho'
        nodup := by
          rw [rpInProgress_countFailure]
          exact h.nodup
        stripes := fun t' ↦ by
          by_cases htt : t' = t
          · subst htt
            exact (h.stripes t').countFailure ht hnf
          · obtain ⟨herr, hlist⟩ := @countFailure_lookup_of_ne
              { s.store with lostMap := s.store.lostMap.insert o 1 } o _ t' htt
            refine (h.stripes t').congr (fun o' ↦ ?_) herr hlist
            rw [Failed, Failed, lostMap_countFailure, rpInProgress_countFailure, AList.mem_insert]
            refine and_congr_right fun hs ↦ ?_
            have hoo : o' ≠ o := fun heq ↦ htt (Option.some.inj (hs.symm.trans (heq ▸ ht)))
            simp only [hoo, false_or]
        offline := fun o' ho' ↦ by
          rw [lostMap_countFailure, rpInProgress_countFailure, AList.mem_insert] at ho'
          rcases ho' with (rfl | ho') | ho' | ho'
          · exact ⟨t, ht⟩
          · exact h.offline o' (.inl ho')
          · exact h.offline o' (.inr (.inl ho'))
          · exact hreporting o' ho'
        counts := fun o' n hn ↦ by
          rw [lostMap_countFailure] at hn
          by_cases hoo : o' = o
          · subst hoo
            rw [AList.lookup_insert] at hn
            rw [← Option.some.inj hn]
            exact Nat.one_pos
          · rw [AList.lookup_insert_ne hoo] at hn
            exact h.counts o' n hn
        picked := fun o' ho' ↦ by
          rw [lostMap_countFailure, AList.mem_insert]
          exact .inr (h.picked o' ho')
        requests := fun o' ho' ↦ by
          rw [rpInProgress_countFailure]
          exact h.requests o' ho'
        repairing := fun o' ho' ↦ by
          rw [rpInProgress_countFailure]
          exact h.repairing o' ho' }

/-! ### Scanning -/

theorem readRPNum : ∃ s', s.exec conf .readRPNum = some s' ∧ Inv conf s' :=
  ⟨_, rfl, { h with picked := fun _ ho ↦ absurd ho (by simp) }⟩

theorem pick {order : List Name} (hen : s.Enabled conf (.pick order)) :
    ∃ s', s.exec conf (.pick order) = some s' ∧ Inv conf s' := by
  obtain ⟨hne, horder, -⟩ := hen
  have hne' : order ≠ [] := fun hnil ↦ hne (List.nil_perm.mp (hnil ▸ horder))
  refine ⟨_, rfl, { h with picked := fun o ho ↦ ?_ }⟩
  cases ho
  exact h.pick_mem horder hne'

theorem halve (ho : o ∈ s.store.lostMap) (htwo : ∀ num, s.store.lostMap.lookup o = some num → 2 ≤ num) :
    Inv conf { s with store := s.store.halve o, scan := .start } := by
  obtain ⟨num, hnum⟩ := Option.isSome_iff_exists.mp (AList.lookup_isSome.mpr ho)
  have hkeys : ∀ o', o' ∈ (s.store.halve o).lostMap ↔ o' ∈ s.store.lostMap := by
    intro o'
    rw [RepairStore.halve, AList.mem_insert]
    exact ⟨fun ho' ↦ ho'.elim (fun heq ↦ heq ▸ ho) id, .inr⟩
  exact
    { h with
      disjoint := fun o' ho' ↦ h.disjoint o' ((hkeys o').mp ho')
      stripes := fun t ↦ (h.stripes t).congr (fun o' ↦ by rw [Failed, Failed, hkeys]; rfl) rfl rfl
      offline := fun o' ho' ↦ h.offline o' (ho'.imp_left (hkeys o').mp)
      counts := fun o' n hn ↦ by
        have hn : (s.store.lostMap.insert o ((s.store.lostMap.lookup o).getD 0 / 2)).lookup o' = some n := hn
        by_cases hoo : o' = o
        · subst hoo
          rw [AList.lookup_insert, hnum, Option.getD_some] at hn
          rw [← Option.some.inj hn]
          exact Nat.div_pos (htwo num hnum) Nat.two_pos
        · rw [AList.lookup_insert_ne hoo] at hn
          exact h.counts o' n hn
      picked := fun o' ho' ↦ absurd ho' (by simp) }

theorem submit {objs : List Name} {st : RepairStore} (ht : conf.stripeOf o = some t) (hin : o ∈ objs)
    (hmem : ∀ u, u ∈ objs ↔ Failed conf s.store t u) (hnodup : objs.Nodup)
    (hfree : ∀ u ∈ objs, u ∉ s.store.rpInProgress)
    (hlookup : ∀ u, st.lostMap.lookup u = if u ∈ objs then none else s.store.lostMap.lookup u)
    (hrp : st.rpInProgress = s.store.rpInProgress ++ objs) (herr : st.stripeErrNum = s.store.stripeErrNum)
    (hlist : st.offlineLostStripe = s.store.offlineLostStripe) :
    Inv conf { s with store := st, scan := .start, requests := s.requests ++ [o] } := by
  have hlost : ∀ u, u ∈ st.lostMap ↔ u ∈ s.store.lostMap ∧ u ∉ objs := by
    intro u
    rw [← AList.lookup_isSome, hlookup]
    split_ifs with hu
    · simp [hu]
    · rw [AList.lookup_isSome]
      simp [hu]
  have hobjs : ∀ u ∈ objs, u ∈ s.store.lostMap := fun u hu ↦
    ((hmem u).mp hu).2.resolve_right (hfree u hu)
  -- an object in repair is of another stripe, since the objects of this one are all lost
  have hother : ∀ u ∈ s.store.rpInProgress, conf.stripeOf u ≠ some t := fun u hu hs ↦
    hfree u ((hmem u).mpr ⟨hs, .inr hu⟩) hu
  refine
    { disjoint := fun u hu ↦ ?_
      nodup := ?_
      stripes := fun t' ↦ ?_
      offline := fun u hu ↦ ?_
      counts := fun u n hn ↦ ?_
      picked := fun u hu ↦ absurd hu (by simp)
      requests := fun u hu ↦ ?_
      requests_apart := ?_
      repairing_apart := fun u hu v hv ↦ ?_
      repairing := fun u hu ↦ ?_
      repairing_nodup := h.repairing_nodup }
  · rw [hlost] at hu
    dsimp only
    rw [hrp, List.mem_append, not_or]
    exact ⟨h.disjoint u hu.1, hu.2⟩
  · dsimp only
    rw [hrp]
    exact List.nodup_append.mpr ⟨h.nodup, hnodup, fun a ha b hb heq ↦ hfree b hb (heq ▸ ha)⟩
  · refine (h.stripes t').congr (fun u ↦ ?_) (by rw [herr]) (by rw [hlist])
    rw [Failed, Failed, hlost, hrp, List.mem_append]
    refine and_congr_right fun _ ↦ ⟨?_, ?_⟩
    · rintro (⟨hu, -⟩ | hu | hu)
      · exact .inl hu
      · exact .inr hu
      · exact .inl (hobjs u hu)
    · rintro (hu | hu)
      · by_cases huo : u ∈ objs
        · exact .inr (.inr huo)
        · exact .inl ⟨hu, huo⟩
      · exact .inr (.inl hu)
  · dsimp only at hu
    rw [hlost, hrp, List.mem_append] at hu
    rcases hu with hu | (hu | hu) | hu
    · exact h.offline u (.inl hu.1)
    · exact h.offline u (.inr (.inl hu))
    · exact h.offline u (.inl (hobjs u hu))
    · exact h.offline u (.inr (.inr hu))
  · dsimp only at hn
    rw [hlookup] at hn
    split_ifs at hn
    exact h.counts u n hn
  · dsimp only at hu ⊢
    rw [hrp]
    rw [List.mem_append, List.mem_singleton] at hu
    rcases hu with hu | rfl
    · exact List.mem_append_left _ (h.requests u hu)
    · exact List.mem_append_right _ hin
  · rw [List.pairwise_append]
    refine ⟨h.requests_apart, List.pairwise_singleton _ _, fun u hu v hv ↦ ?_⟩
    rw [List.mem_singleton.mp hv, ht]
    exact hother u (h.requests u hu)
  · rw [List.mem_append, List.mem_singleton] at hu
    rcases hu with hu | rfl
    · exact h.repairing_apart u hu v hv
    · rw [ht]
      exact hother v (h.repairing v hv)
  · dsimp only
    rw [hrp]
    exact List.mem_append_left _ (h.repairing u hu)

theorem repairOrDelay (hdelay : conf.delay = true) (hen : s.Enabled conf .repairOrDelay)
    (hp : s.Proper conf .repairOrDelay) : ∃ s', s.exec conf .repairOrDelay = some s' ∧ Inv conf s' := by
  obtain ⟨o, hscan⟩ := Option.isSome_iff_exists.mp hen
  rw [ScanPc.object_eq_some] at hscan
  have ho := h.picked o hscan
  obtain ⟨t, hfailed⟩ := h.failed_of_mem_lostMap ho
  obtain ⟨objs, hnodup, hmem, hin, herr, hlist⟩ := (h.stripes t).exists_of_failed hfailed
  obtain ⟨ec, hentry⟩ := exists_of_stripeOf hfailed.1
  have hp := hp o t ec hscan hentry objs.length herr
  have hexec : s.exec conf .repairOrDelay = (s.store.repairOrDelay conf o).map fun r ↦
      { s with store := r.1, scan := .start, requests := if r.2 then s.requests ++ [o] else s.requests } := by
    rw [exec, hscan]
  rw [hexec, repairOrDelay_eq hdelay hentry herr hlist]
  split_ifs at hp ⊢ with hbelow
  · exact ⟨_, rfl, h.halve ho hp⟩
  · have hfree := hp objs hlist
    obtain ⟨st, hfold, hlookup, hrp, herr', hlist'⟩ := foldlM_submitOne hnodup fun u hu ↦
      ((hmem u).mp hu).2.resolve_right (hfree u hu)
    rw [hfold]
    exact ⟨_, rfl, h.submit hfailed.1 hin hmem hnodup hfree hlookup hrp herr' hlist'⟩

/-! ### Repairing -/

theorem getLostObjs (hen : s.Enabled conf (.getLostObjs o)) (hp : s.Proper conf (.getLostObjs o)) :
    ∃ s', s.exec conf (.getLostObjs o) = some s' ∧ Inv conf s' := by
  obtain ⟨t, hfailed⟩ := h.failed_of_mem_rpInProgress (h.requests o hen)
  obtain ⟨objs, hnodup, hmem, -, -, hlist⟩ := (h.stripes t).exists_of_failed hfailed
  have hfound : t ∈ s.store.offlineLostStripe :=
    AList.lookup_isSome.mp (Option.isSome_iff_exists.mpr ⟨objs, hlist⟩)
  have hrp := hp t objs hfailed.1 hlist
  have hexec : s.exec conf (.getLostObjs o) =
      some { s with requests := s.requests.erase o, repairing := s.repairing ++ objs } := by
    rw [exec, hfailed.1]
    simp only [Option.bind_eq_bind, Option.bind_some, if_pos hfound, RepairStore.getLostObjs, emplace, hlist,
      Option.getD_some]
    rfl
  have hobjs : ∀ u ∈ objs, conf.stripeOf u = conf.stripeOf o := fun u hu ↦
    ((hmem u).mp hu).1.trans hfailed.1.symm
  refine ⟨_, hexec,
    { h with
      requests := fun u hu ↦ h.requests u (List.mem_of_mem_erase hu)
      requests_apart := h.requests_apart.sublist List.erase_sublist
      repairing_apart := fun u hu v hv ↦ ?_
      repairing := fun u hu ↦ ?_
      repairing_nodup := ?_ }⟩
  · rw [List.mem_append] at hv
    rcases hv with hv | hv
    · exact h.repairing_apart u (List.mem_of_mem_erase hu) v hv
    · rw [hobjs v hv]
      have hperm := h.requests_apart.perm (List.perm_cons_erase hen) fun hne ↦ Ne.symm hne
      exact (List.pairwise_cons.mp hperm).1 u hu
  · rw [List.mem_append] at hu
    exact hu.elim (h.repairing u) (hrp u)
  · refine List.nodup_append.mpr ⟨h.repairing_nodup, hnodup, fun a ha b hb heq ↦ ?_⟩
    exact h.repairing_apart o hen a ha (heq ▸ hobjs b hb)

theorem finishRepair (hdelay : conf.delay = true) (hen : s.Enabled conf (.finishRepair o))
    (hp : s.Proper conf (.finishRepair o)) : ∃ s', s.exec conf (.finishRepair o) = some s' ∧ Inv conf s' := by
  have ho := h.repairing o hen
  obtain ⟨t, hfailed⟩ := h.failed_of_mem_rpInProgress ho
  obtain ⟨objs, -, hmem, hin, herr, hlist⟩ := (h.stripes t).exists_of_failed hfailed
  obtain ⟨ec, hentry⟩ := exists_of_stripeOf hfailed.1
  have hlen : objs.length = 1 := by exact_mod_cast hp t objs.length hfailed.1 herr
  obtain ⟨u, rfl⟩ := List.length_eq_one_iff.mp hlen
  obtain rfl := List.mem_singleton.mp hin
  rw [hlen] at herr
  obtain ⟨st, hst, hlost, hrp, herr', hlist'⟩ := finishRepair_eq hdelay hentry herr
  have hmem_erase : ∀ u, u ∈ s.store.rpInProgress.erase o ↔ u ≠ o ∧ u ∈ s.store.rpInProgress := fun u ↦
    h.nodup.mem_erase_iff
  -- the commands and the other objects being rebuilt are of other stripes, or not this object
  have hreq : ∀ u ∈ s.requests, u ≠ o := fun u hu heq ↦ h.repairing_apart u hu o hen (heq ▸ rfl)
  rw [exec, hst]
  refine ⟨_, rfl,
    { disjoint := fun u hu ↦ ?_
      nodup := ?_
      stripes := fun t' ↦ ?_
      offline := fun u hu ↦ ?_
      counts := fun u n hn ↦ ?_
      picked := fun u hu ↦ ?_
      requests := fun u hu ↦ ?_
      requests_apart := h.requests_apart
      repairing_apart := fun u hu v hv ↦ h.repairing_apart u hu v (List.mem_of_mem_erase hv)
      repairing := fun u hu ↦ ?_
      repairing_nodup := h.repairing_nodup.erase _ }⟩
  · dsimp only at hu ⊢
    rw [hrp]
    rw [hlost] at hu
    exact fun hmem' ↦ h.disjoint u hu (List.mem_of_mem_erase hmem')
  · dsimp only
    rw [hrp]
    exact h.nodup.erase _
  · by_cases htt : t' = t
    · subst htt
      refine ⟨[], List.nodup_nil, fun u ↦ iff_of_false List.not_mem_nil fun hf ↦ ?_, ?_, ?_⟩
      · rw [Failed, hlost, hrp, hmem_erase] at hf
        obtain ⟨hs, hu | ⟨hne, hu⟩⟩ := hf
        · obtain rfl := List.mem_singleton.mp ((hmem u).mpr ⟨hs, .inl hu⟩)
          exact h.disjoint u hu ho
        · exact hne (List.mem_singleton.mp ((hmem u).mpr ⟨hs, .inr hu⟩))
      · rw [herr', AList.lookup_erase, if_pos rfl]
      · rw [hlist', AList.lookup_erase, if_pos rfl]
    · refine (h.stripes t').congr (fun u ↦ ?_) ?_ ?_
      · rw [Failed, Failed, hlost, hrp, hmem_erase]
        refine and_congr_right fun hs ↦ or_congr_right ⟨And.right, fun hu ↦ ⟨fun heq ↦ htt ?_, hu⟩⟩
        exact Option.some.inj (hs.symm.trans (heq ▸ hfailed.1))
      · rw [herr', AList.lookup_erase_ne htt]
      · rw [hlist', AList.lookup_erase_ne htt]
  · dsimp only at hu
    rw [hlost, hrp] at hu
    exact h.offline u (hu.imp_right (Or.imp_left List.mem_of_mem_erase))
  · dsimp only at hn
    rw [hlost] at hn
    exact h.counts u n hn
  · dsimp only
    rw [hlost]
    exact h.picked u hu
  · dsimp only
    rw [hrp, hmem_erase]
    exact ⟨hreq u hu, h.requests u hu⟩
  · dsimp only
    rw [hrp, hmem_erase]
    rw [h.repairing_nodup.mem_erase_iff] at hu
    exact ⟨hu.1, h.repairing u hu.2⟩

/-- **One critical section.** It runs through and keeps the invariant. -/
theorem exec (hdelay : conf.delay = true) {l : RepairStep} (hen : s.Enabled conf l) (hp : s.Proper conf l) :
    ∃ s', s.exec conf l = some s' ∧ Inv conf s' := by
  cases l with
  | checkRP o => exact h.checkRP hen
  | insertLost o => exact h.insertLost hdelay hen hp
  | readRPNum => exact h.readRPNum
  | pick order => exact h.pick hen
  | repairOrDelay => exact h.repairOrDelay hdelay hen hp
  | getLostObjs o => exact h.getLostObjs hen hp
  | finishRepair o => exact h.finishRepair hdelay hen hp

end Inv

theorem inv_of_reach (hdelay : conf.delay = true)
    (h : (system conf).Reach (fun s l ↦ s.Proper conf l) s) : Inv conf s := by
  refine System.Reach.invariant (P := fun s ↦ Inv conf s) (fun s (hs : s = empty) ↦ hs ▸ inv_empty)
    (fun s l s' hinv hp hs ↦ ?_) h
  change (if s.Enabled conf l then s.exec conf l else none) = some s' at hs
  split_ifs at hs with hen
  obtain ⟨s'', hs'', hinv'⟩ := hinv.exec hdelay hen hp
  obtain rfl : s'' = s' := Option.some.inj (hs''.symm.trans hs)
  exact hinv'

/-- **The bookkeeping of delayed repairs.** In every state of every run of proper steps the containers agree
and what is picked is lost, and no assertion and no `erase` fails in a proper step. -/
theorem agree_of_reach (hdelay : conf.delay = true)
    (h : (system conf).Reach (fun s l ↦ s.Proper conf l) s) :
    s.Agree conf ∧ ∀ l, s.Enabled conf l → s.Proper conf l → (s.exec conf l).isSome := by
  have hinv := inv_of_reach hdelay h
  refine ⟨hinv.agree, fun l hen hp ↦ ?_⟩
  obtain ⟨s', hs', -⟩ := hinv.exec hdelay hen hp
  rw [hs']
  rfl

/-- A stripe with one parity object loses an object, which is submitted for repair. -/
theorem agree_oneParity : ∃ (conf : RepairConf) (s : RepairState),
    s.store.rpInProgress = [['a']] ∧ s.requests = [['a']] ∧ s.Agree conf := by
  let policy : ECPolicy := ⟨2, 1, 1, [], Nat.succ_pos 0, Nat.lt_succ_self 1⟩
  let conf : RepairConf := ⟨true, 1, fun _ ↦ some (.offline ['s'] policy)⟩
  let lost : RepairStore := ⟨AList.singleton ['a'] 1, [], AList.singleton ['s'] 1,
    AList.singleton ['s'] [['a']], false, false⟩
  have hs : ∀ l s', (if Enabled conf empty l then empty.exec conf l else none) = some s' →
      empty.Proper conf l → (system conf).Reach (fun s l ↦ s.Proper conf l) s' := fun l s' hs hp ↦
    .step (.init rfl) hp hs
  have h₁ := hs (.checkRP ['a']) ⟨.empty, [['a']], .start, [], []⟩ rfl trivial
  have h₂ : (system conf).Reach (fun s l ↦ s.Proper conf l) ⟨lost, [], .start, [], []⟩ :=
    h₁.step (l := RepairStep.insertLost ['a']) List.not_mem_nil rfl
  have h₃ : (system conf).Reach (fun s l ↦ s.Proper conf l) ⟨lost, [], .counted 0, [], []⟩ :=
    h₂.step (l := RepairStep.readRPNum) trivial rfl
  have h₄ : (system conf).Reach (fun s l ↦ s.Proper conf l) ⟨lost, [], .picked ['a'], [], []⟩ :=
    h₃.step (l := RepairStep.pick [['a']]) trivial rfl
  have hp : Proper conf ⟨lost, [], .picked ['a'], [], []⟩ .repairOrDelay := by
    intro o t ec hscan hentry errnum herr
    cases hentry
    cases herr
    exact fun objs _ u _ ↦ List.not_mem_nil
  have h₅ : (system conf).Reach (fun s l ↦ s.Proper conf l)
      ⟨⟨∅, [['a']], AList.singleton ['s'] 1, AList.singleton ['s'] [['a']], false, true⟩, [], .start,
        [['a']], []⟩ := h₄.step (l := RepairStep.repairOrDelay) hp rfl
  exact ⟨conf, _, rfl, rfl, (agree_of_reach rfl h₅).1⟩

/-- A stripe with two parity objects loses one object, which is reported once. When the stripe is delayed the
number of requests is halved to zero, and the next time the name that is picked is empty. -/
theorem not_agree_halved : ∃ (conf : RepairConf) (s : RepairState), conf.delay = true ∧
    (system conf).Reachable s ∧ ¬s.Agree conf := by
  let policy : ECPolicy := ⟨4, 2, 1, [], Nat.succ_pos 1, Nat.lt_of_sub_pos (Nat.succ_pos 1)⟩
  let conf : RepairConf := ⟨true, 1, fun _ ↦ some (.offline ['s'] policy)⟩
  obtain ⟨s, hs, hq⟩ := System.Reachable.exists_of_run (S := system conf) (s := empty) (.init rfl)
    [.checkRP ['a'], .insertLost ['a'], .readRPNum, .pick [['a']], .repairOrDelay]
    (p := fun s ↦ decide (s.store.lostMap.keys ≠ [] ∧ s.store.pick s.store.lostMap.keys ∉ s.store.lostMap))
    (by decide +kernel)
  obtain ⟨hne, hnot⟩ := of_decide_eq_true hq
  exact ⟨conf, s, rfl, hs, fun hagree ↦ hnot (hagree.picks _ (.refl _) hne)⟩

end RepairState

end UniDedup.Storage
