import UniDedup.Lib.Mutex
import UniDedup.Storage.Repair

/-!
# The mutexes of the repair

The scripts of the functions that share the bookkeeping of the repairs: which mutex is taken when, and what is
done to the containers in between. Most of them take `_lockLostMap` before `_lockRPInProgress`, that before
`_lockStripeErrNum` and that before `_lockOfflineLostStripe`. The branch of `scanRepair` for delayed
stripes begins with `_lockStripeErrNum` and takes `_lockLostMap` and `_lockRPInProgress` behind it, so it
can wait for `addLostObj` or `finishRepair` while these wait for it.

As long as that branch does not overlap with these two, there is an order for the rest in every state, and
so no deadlock.
-/

namespace UniDedup.Storage

open Mutex Transition

inductive RepairMutex
  | lostMap
  | rpInProgress
  | stripeErrNum
  | offlineLostStripe
  | enableSetStart
deriving DecidableEq

inductive RepairCall
  | addLostObj (objname : Name)
  /-- One round of the loops of `scanRepair`. -/
  | scanRepair
  | finishRepair (objname : Name)
  | findIfInLostMapOrRPProc (objname : Name)
  | getLostObjs (stripename : Name)
deriving DecidableEq

/-- What is done between taking and releasing mutexes. -/
inductive RepairAct
  | checkRP (objname : Name)
  | insertLost (objname : Name)
  | readRPNum
  | checkRPNum (rpInProgressNum : ℕ)
  | pick
  | chooseBranch (objname : Name)
  | readErrNum (objname stripename : Name) (ecpolicyM : ℕ)
  | decideDelay (objname stripename : Name) (errnum : ℤ) (threshold : ℕ)
  | startRepair (objname : Name)
  | eraseLost (objname : Name)
  | finishRepair (objname : Name)
  | findIfInLostMapOrRPProc (objname : Name)
  | assertStripe (stripename : Name)
  | getLostObjs (stripename : Name)
deriving DecidableEq

namespace Repair

abbrev Script := List (Instr RepairMutex RepairAct)

open RepairMutex Instr

/-- `startRepair`. -/
def startRepairScript (objname : Name) : Script :=
  [lock rpInProgress, lock enableSetStart, act (.startRepair objname), unlock rpInProgress,
    unlock enableSetStart]

/-- The releases at the end of `addLostObj`. -/
def addRelease : Script := [unlock lostMap, unlock stripeErrNum, unlock offlineLostStripe]

/-- The releases at the end of the branch of `scanRepair` for delayed stripes. -/
def delayRelease : Script := [unlock stripeErrNum, unlock lostMap, unlock offlineLostStripe]

/-- The loop of that branch over the objects of the stripe. -/
def delayLoop (objs : List Name) : Script := objs.flatMap fun o ↦ startRepairScript o ++ [act (.eraseLost o)]

/-- The beginning of each function, up to where it branches. -/
def script : RepairCall → Script
  | .addLostObj objname => [lock rpInProgress, act (.checkRP objname)]
  | .scanRepair => [lock rpInProgress, act .readRPNum]
  | .finishRepair objname =>
    [lock rpInProgress, lock stripeErrNum, act (.finishRepair objname), unlock rpInProgress, unlock stripeErrNum]
  | .findIfInLostMapOrRPProc objname =>
    [lock lostMap, lock rpInProgress, act (.findIfInLostMapOrRPProc objname), unlock lostMap,
      unlock rpInProgress]
  | .getLostObjs stripename =>
    [act (.assertStripe stripename), lock offlineLostStripe, act (.getLostObjs stripename),
      unlock offlineLostStripe]

/-- What is done at each point, and how the function goes on. The order is the one in which the map of lost
objects is run through. -/
def run (conf : RepairConf) (order : List Name) (a : RepairAct) (st : RepairStore) :
    Option (RepairStore × Script) :=
  match a with
  | .checkRP o =>
    some (st, unlock rpInProgress :: if o ∈ st.rpInProgress then [] else
      [lock lostMap, lock stripeErrNum, lock offlineLostStripe, act (.insertLost o)] ++ addRelease)
  | .insertLost o => (st.insertLost conf o).map fun st ↦ (st, [])
  | .readRPNum => some (st, [unlock rpInProgress, act (.checkRPNum st.rpInProgress.length)])
  | .checkRPNum num =>
    some (st, if st.lostMap.keys ≠ [] ∧ num < conf.concurrentNum then [lock lostMap, act .pick] else [])
  | .pick =>
    if order.Perm st.lostMap.keys then some (st, [unlock lostMap, act (.chooseBranch (st.pick order))]) else none
  | .chooseBranch o =>
    (RepairStore.delayed conf o).map fun d ↦ (st,
      match d with
      | none => startRepairScript o ++ [lock lostMap, act (.eraseLost o), unlock lostMap]
      | some (stripename, ec) => [lock stripeErrNum, act (.readErrNum o stripename (ec.n - ec.k))])
  | .readErrNum o stripename threshold =>
    (st.stripeErrNum.lookup stripename).map fun errnum ↦
      (st, [lock lostMap, lock offlineLostStripe, act (.decideDelay o stripename errnum threshold)])
  | .decideDelay o stripename errnum threshold =>
    if errnum < threshold then some (st.halve o, delayRelease) else
    (st.offlineLostStripe.lookup stripename).map fun objs ↦ (st, delayLoop objs ++ delayRelease)
  | .startRepair o => some (st.startRepair o, [])
  | .eraseLost o => (st.eraseLost o).map fun st ↦ (st, [])
  | .finishRepair o => (st.finishRepair conf o).map fun st ↦ (st, [])
  | .findIfInLostMapOrRPProc _ => some (st, [])
  | .assertStripe stripename => if stripename ∈ st.offlineLostStripe then some (st, []) else none
  | .getLostObjs stripename => some ((st.getLostObjs stripename).1, [])

def procedures (conf : RepairConf) : Procedures RepairCall RepairMutex RepairAct (List Name) RepairStore :=
  ⟨script, run conf⟩

/-- Any number of threads, on any contents of the containers. -/
def lockSystem (conf : RepairConf) :
    System (State RepairCall RepairMutex RepairAct RepairStore) (Label RepairCall (List Name)) :=
  (procedures conf).system fun _ ↦ True

/-! ## The acquisitions -/

/-- The acquisitions a function makes: what it holds, the mutex taken last first, and what it takes. -/
abbrev Table := List (List RepairMutex × RepairMutex)

def addTable : Table := [([], rpInProgress), ([], lostMap), ([lostMap], stripeErrNum),
  ([stripeErrNum, lostMap], offlineLostStripe)]

def scanTable : Table := [([], rpInProgress), ([rpInProgress], enableSetStart), ([], lostMap),
  ([], stripeErrNum), ([stripeErrNum], lostMap), ([lostMap, stripeErrNum], offlineLostStripe),
  ([offlineLostStripe, lostMap, stripeErrNum], rpInProgress),
  ([rpInProgress, offlineLostStripe, lostMap, stripeErrNum], enableSetStart)]

def finishTable : Table := [([], rpInProgress), ([rpInProgress], stripeErrNum)]

def findTable : Table := [([], lostMap), ([lostMap], rpInProgress)]

def getTable : Table := [([], offlineLostStripe)]

def table : RepairCall → Table
  | .addLostObj _ => addTable
  | .scanRepair => scanTable
  | .finishRepair _ => finishTable
  | .findIfInLostMapOrRPProc _ => findTable
  | .getLostObjs _ => getTable

def Takes (table : Table) (held : List RepairMutex) (m : RepairMutex) : Prop := (held, m) ∈ table

instance (table : Table) (held : List RepairMutex) (m : RepairMutex) : Decidable (Takes table held m) :=
  inferInstanceAs (Decidable ((held, m) ∈ table))

variable {conf : RepairConf}

theorem disciplined_act {ok : List RepairMutex → RepairMutex → Prop} {held : List RepairMutex} {a : RepairAct}
    {rest : Script} (ha : ∀ order st r, run conf order a st = some r → r.2 = [])
    (hrest : (procedures conf).Disciplined ok held rest) :
    (procedures conf).Disciplined ok held (act a :: rest) :=
  .act fun order st r hr ↦ by
    rw [ha order st r hr]
    exact hrest

theorem run_insertLost {o : Name} (order : List Name) (st : RepairStore) (r : RepairStore × Script)
    (hr : run conf order (.insertLost o) st = some r) : r.2 = [] := by
  obtain ⟨_, -, rfl⟩ := Option.map_eq_some_iff.mp hr
  rfl

theorem run_eraseLost {o : Name} (order : List Name) (st : RepairStore) (r : RepairStore × Script)
    (hr : run conf order (.eraseLost o) st = some r) : r.2 = [] := by
  obtain ⟨_, -, rfl⟩ := Option.map_eq_some_iff.mp hr
  rfl

theorem run_finishRepair {o : Name} (order : List Name) (st : RepairStore) (r : RepairStore × Script)
    (hr : run conf order (.finishRepair o) st = some r) : r.2 = [] := by
  obtain ⟨_, -, rfl⟩ := Option.map_eq_some_iff.mp hr
  rfl

theorem run_startRepair {o : Name} (order : List Name) (st : RepairStore) (r : RepairStore × Script)
    (hr : run conf order (.startRepair o) st = some r) : r.2 = [] := by
  cases hr
  rfl

theorem run_assertStripe {t : Name} (order : List Name) (st : RepairStore) (r : RepairStore × Script)
    (hr : run conf order (.assertStripe t) st = some r) : r.2 = [] := by
  rw [run] at hr
  split_ifs at hr
  cases hr
  rfl

/-! ### The functions obey their tables -/

theorem disciplined_addLostObj (o : Name) :
    (procedures conf).Disciplined (Takes addTable) [] (script (.addLostObj o)) := by
  refine .lock (by decide) (by decide) (.act fun order st r hr ↦ ?_)
  cases hr
  dsimp only
  split_ifs with hrp
  · exact .unlock (by decide) .done
  · refine .unlock (by decide) (.lock (by decide) (by decide) (.lock (by decide) (by decide)
      (.lock (by decide) (by decide) (disciplined_act run_insertLost ?_))))
    exact .unlock (by decide) (.unlock (by decide) (.unlock (by decide) .done))

/-- The loop over the objects of a stripe, with the three mutexes of the branch held. -/
theorem disciplined_delayLoop (objs : List Name) :
    (procedures conf).Disciplined (Takes scanTable) [offlineLostStripe, lostMap, stripeErrNum]
      (delayLoop objs ++ delayRelease) := by
  induction objs with
  | nil => exact .unlock (by decide) (.unlock (by decide) (.unlock (by decide) .done))
  | cons o objs ih =>
    refine .lock (by decide) (by decide) (.lock (by decide) (by decide) (disciplined_act run_startRepair ?_))
    exact .unlock (by decide) (.unlock (by decide) (disciplined_act run_eraseLost ih))

theorem disciplined_chooseBranch (o : Name) :
    (procedures conf).Disciplined (Takes scanTable) [] [act (.chooseBranch o)] := by
  refine .act fun order st r hr ↦ ?_
  obtain ⟨d, -, rfl⟩ := Option.map_eq_some_iff.mp hr
  rcases d with _ | ⟨stripename, ec⟩
  · refine .lock (by decide) (by decide) (.lock (by decide) (by decide) (disciplined_act run_startRepair ?_))
    refine .unlock (by decide) (.unlock (by decide) (.lock (by decide) (by decide) ?_))
    exact disciplined_act run_eraseLost (.unlock (by decide) .done)
  · refine .lock (by decide) (by decide) (.act fun order st r hr ↦ ?_)
    obtain ⟨errnum, -, rfl⟩ := Option.map_eq_some_iff.mp hr
    refine .lock (by decide) (by decide) (.lock (by decide) (by decide) (.act fun order st r hr ↦ ?_))
    simp only [procedures, run] at hr
    split_ifs at hr with hbelow
    · cases hr
      exact .unlock (by decide) (.unlock (by decide) (.unlock (by decide) .done))
    · obtain ⟨objs, -, rfl⟩ := Option.map_eq_some_iff.mp hr
      change (procedures conf).Disciplined _ _ ((delayLoop objs ++ delayRelease) ++ [])
      rw [List.append_nil]
      exact disciplined_delayLoop objs

theorem disciplined_scanRepair :
    (procedures conf).Disciplined (Takes scanTable) [] (script .scanRepair) := by
  refine .lock (by decide) (by decide) (.act fun order st r hr ↦ ?_)
  cases hr
  refine .unlock (by decide) (.act fun order st r hr ↦ ?_)
  cases hr
  dsimp only
  split_ifs with hgo
  · refine .lock (by decide) (by decide) (.act fun order st r hr ↦ ?_)
    simp only [procedures, run] at hr
    split_ifs at hr with horder
    cases hr
    exact .unlock (by decide) (disciplined_chooseBranch _)
  · exact .done

theorem disciplined_finishRepair (o : Name) :
    (procedures conf).Disciplined (Takes finishTable) [] (script (.finishRepair o)) := by
  refine .lock (by decide) (by decide) (.lock (by decide) (by decide) (disciplined_act run_finishRepair ?_))
  exact .unlock (by decide) (.unlock (by decide) .done)

theorem disciplined_find (o : Name) :
    (procedures conf).Disciplined (Takes findTable) [] (script (.findIfInLostMapOrRPProc o)) := by
  refine .lock (by decide) (by decide) (.lock (by decide) (by decide) (disciplined_act ?_ ?_))
  · intro order st r hr
    cases hr
    rfl
  · exact .unlock (by decide) (.unlock (by decide) .done)

theorem disciplined_getLostObjs (t : Name) :
    (procedures conf).Disciplined (Takes getTable) [] (script (.getLostObjs t)) := by
  refine disciplined_act run_assertStripe (.lock (by decide) (by decide) (disciplined_act ?_ ?_))
  · intro order st r hr
    cases hr
    rfl
  · exact .unlock (by decide) .done

theorem disciplined_script (c : RepairCall) :
    (procedures conf).Disciplined (Takes (table c)) [] ((procedures conf).script c) := by
  cases c with
  | addLostObj o => exact disciplined_addLostObj o
  | scanRepair => exact disciplined_scanRepair
  | finishRepair o => exact disciplined_finishRepair o
  | findIfInLostMapOrRPProc o => exact disciplined_find o
  | getLostObjs t => exact disciplined_getLostObjs t

/-! ## Where the branch for delayed stripes overlaps with the others -/

abbrev LockState := State RepairCall RepairMutex RepairAct RepairStore

/-- In the branch of `scanRepair` for delayed stripes. -/
def InDelay (s : LockState) (t : ℕ) : Prop :=
  (s.threads t).call = some .scanRepair ∧ s.Holds t stripeErrNum

/-- In the part of `addLostObj` behind `_lockLostMap`. -/
def InAdd (s : LockState) (t : ℕ) : Prop :=
  (∃ o, (s.threads t).call = some (.addLostObj o)) ∧ s.Holds t lostMap

/-- In the part of `finishRepair` behind `_lockRPInProgress`. -/
def InFinish (s : LockState) (t : ℕ) : Prop :=
  (∃ o, (s.threads t).call = some (.finishRepair o)) ∧ s.Holds t rpInProgress

/-- The branch for delayed stripes is not entered while `addLostObj` or `finishRepair` is in the part that the
branch conflicts with, nor the other way round. -/
def Apart (s : LockState) : Label RepairCall (List Name) → Prop
  | .start _ _ => True
  | .step t _ =>
    ((s.threads t).call = some .scanRepair → s.Wants t stripeErrNum → ∀ u, ¬InAdd s u ∧ ¬InFinish s u) ∧
    ((∃ o, (s.threads t).call = some (.addLostObj o)) → s.Wants t lostMap → ∀ u, ¬InDelay s u) ∧
    ((∃ o, (s.threads t).call = some (.finishRepair o)) → s.Wants t rpInProgress → ∀ u, ¬InDelay s u)

/-! Only the thread that holds the mutex can be in such a part, so one look at its holder decides. -/

instance (c : Option RepairCall) : Decidable (∃ o, c = some (.addLostObj o)) :=
  match c with
  | none => isFalse fun ⟨_, h⟩ ↦ by cases h
  | some (.addLostObj o) => isTrue ⟨o, rfl⟩
  | some .scanRepair => isFalse fun ⟨_, h⟩ ↦ by cases h
  | some (.finishRepair _) => isFalse fun ⟨_, h⟩ ↦ by cases h
  | some (.findIfInLostMapOrRPProc _) => isFalse fun ⟨_, h⟩ ↦ by cases h
  | some (.getLostObjs _) => isFalse fun ⟨_, h⟩ ↦ by cases h

instance (c : Option RepairCall) : Decidable (∃ o, c = some (.finishRepair o)) :=
  match c with
  | none => isFalse fun ⟨_, h⟩ ↦ by cases h
  | some (.addLostObj _) => isFalse fun ⟨_, h⟩ ↦ by cases h
  | some .scanRepair => isFalse fun ⟨_, h⟩ ↦ by cases h
  | some (.finishRepair o) => isTrue ⟨o, rfl⟩
  | some (.findIfInLostMapOrRPProc _) => isFalse fun ⟨_, h⟩ ↦ by cases h
  | some (.getLostObjs _) => isFalse fun ⟨_, h⟩ ↦ by cases h

instance (s : LockState) (t : ℕ) : Decidable (InDelay s t) := inferInstanceAs (Decidable (_ ∧ _))

instance (s : LockState) (t : ℕ) : Decidable (InAdd s t) := inferInstanceAs (Decidable (_ ∧ _))

instance (s : LockState) (t : ℕ) : Decidable (InFinish s t) := inferInstanceAs (Decidable (_ ∧ _))

theorem forall_not_iff_holder {s : LockState} {m : RepairMutex} {p : ℕ → Prop} (hp : ∀ u, p u → s.Holds u m) :
    (∀ u ∈ s.holder m, ¬p u) ↔ ∀ u, ¬p u :=
  ⟨fun h u hu ↦ h u (hp u hu) hu, fun h u _ ↦ h u⟩

instance (s : LockState) : Decidable (∀ u, ¬InDelay s u) :=
  decidable_of_iff _ (forall_not_iff_holder fun _ h ↦ h.2)

instance (s : LockState) : Decidable (∀ u, ¬InAdd s u ∧ ¬InFinish s u) :=
  decidable_of_iff ((∀ u ∈ s.holder lostMap, ¬InAdd s u) ∧ ∀ u ∈ s.holder rpInProgress, ¬InFinish s u) <|
    (and_congr (forall_not_iff_holder fun _ h ↦ h.2) (forall_not_iff_holder fun _ h ↦ h.2)).trans forall_and.symm

instance (s : LockState) (l : Label RepairCall (List Name)) : Decidable (Apart s l) :=
  match l with
  | .start _ _ => isTrue trivial
  | .step _ _ => inferInstanceAs (Decidable (_ ∧ _ ∧ _))

/-- The branch and the two functions exclude each other. -/
def Exclusive (s : LockState) : Prop := ∀ t, InDelay s t → ∀ u, ¬InAdd s u ∧ ¬InFinish s u

variable {s s' : LockState}

theorem exclusive_start (hobeys : ∀ t, (procedures conf).Obeys (fun c ↦ Takes (table c)) s t)
    (h : Exclusive s) {t : ℕ} {c : RepairCall} (hs : (procedures conf).next s (.start t c) = some s') :
    Exclusive s' := by
  obtain ⟨hnil, rfl⟩ := Procedures.next_start_eq hs
  -- the thread that begins a call holds nothing
  have hold : ∀ u m, s.Holds u m → (s.setThread t ⟨some c, (procedures conf).script c⟩).threads u =
      s.threads u := by
    intro u m hm
    refine s.threads_setThread_of_ne (fun hut ↦ ?_) _
    exact (hobeys t).not_holds_of_nil hnil m (hut ▸ hm)
  rintro a ⟨hcall, hheld⟩ b
  have hdelay : InDelay s a := ⟨by rw [← hold a _ hheld]; exact hcall, hheld⟩
  refine ⟨fun hadd ↦ (h a hdelay b).1 ⟨?_, hadd.2⟩, fun hfin ↦ (h a hdelay b).2 ⟨?_, hfin.2⟩⟩
  · rw [← hold b _ hadd.2]
    exact hadd.1
  · rw [← hold b _ hfin.2]
    exact hfin.1

theorem exclusive_step (h : Exclusive s) {t : ℕ} {order : List Name} (hapart : Apart s (.step t order))
    (hs : (procedures conf).next s (.step t order) = some s') : Exclusive s' := by
  obtain ⟨hscan, hadd, hfin⟩ := hapart
  rintro a ⟨hcall, hheld⟩ b
  rw [Procedures.call_step hs] at hcall
  have hnew : ¬s.Holds a stripeErrNum → ∀ u, ¬InAdd s u ∧ ¬InFinish s u := by
    intro hno
    obtain ⟨rfl, hwants⟩ := (Procedures.holds_step hs hheld).resolve_left hno
    exact hscan hcall hwants
  refine ⟨?_, ?_⟩
  · rintro ⟨hcall', hheld'⟩
    rw [Procedures.call_step hs] at hcall'
    rcases Procedures.holds_step hs hheld' with hold' | ⟨rfl, hwants⟩
    · by_cases hold : s.Holds a stripeErrNum
      · exact (h a ⟨hcall, hold⟩ b).1 ⟨hcall', hold'⟩
      · exact (hnew hold b).1 ⟨hcall', hold'⟩
    · rcases Procedures.holds_step hs hheld with hold | ⟨rfl, -⟩
      · exact hadd hcall' hwants a ⟨hcall, hold⟩
      · obtain ⟨o, ho⟩ := hcall'
        exact absurd (hcall.symm.trans ho) (by simp)
  · rintro ⟨hcall', hheld'⟩
    rw [Procedures.call_step hs] at hcall'
    rcases Procedures.holds_step hs hheld' with hold' | ⟨rfl, hwants⟩
    · by_cases hold : s.Holds a stripeErrNum
      · exact (h a ⟨hcall, hold⟩ b).2 ⟨hcall', hold'⟩
      · exact (hnew hold b).2 ⟨hcall', hold'⟩
    · rcases Procedures.holds_step hs hheld with hold | ⟨rfl, -⟩
      · exact hfin hcall' hwants a ⟨hcall, hold⟩
      · obtain ⟨o, ho⟩ := hcall'
        exact absurd (hcall.symm.trans ho) (by simp)

theorem exclusive_of_reach (h : (lockSystem conf).Reach Apart s) : Exclusive s := by
  have hobeys : ∀ s, (lockSystem conf).Reach Apart s →
      ∀ t, (procedures conf).Obeys (fun c ↦ Takes (table c)) s t :=
    fun s hs t ↦ Procedures.obeys_of_reach disciplined_script hs t
  induction h with
  | init h =>
    rintro a ⟨-, hheld⟩
    rw [State.Holds, h.2.1] at hheld
    exact absurd hheld (by simp)
  | @step s s' l hreach hapart hs ih =>
    cases l with
    | start t c => exact exclusive_start (hobeys s hreach) ih hs
    | step t order => exact exclusive_step ih hapart hs

/-! ## No deadlock -/

/-- The order of the mutexes outside the branch for delayed stripes. -/
def usualRank : RepairMutex → ℕ
  | lostMap => 0
  | rpInProgress => 1
  | stripeErrNum => 2
  | offlineLostStripe => 3
  | enableSetStart => 4

/-- Their order while a thread is in that branch. -/
def delayRank : RepairMutex → ℕ
  | stripeErrNum => 0
  | lostMap => 1
  | offlineLostStripe => 2
  | rpInProgress => 3
  | enableSetStart => 4

theorem rank_scan : ∀ p ∈ scanTable, stripeErrNum ∉ p.1 → ∀ m ∈ p.1, usualRank m < usualRank p.2 := by decide

theorem rank_others : ∀ p ∈ addTable ++ finishTable ++ findTable ++ getTable,
    ∀ m ∈ p.1, usualRank m < usualRank p.2 := by decide

theorem delayRank_scan : ∀ p ∈ scanTable ++ findTable ++ getTable, ∀ m ∈ p.1, delayRank m < delayRank p.2 := by
  decide

theorem lostMap_mem : ∀ p ∈ addTable, ∀ m ∈ p.1, lostMap ∈ p.1 := by decide

theorem rpInProgress_mem : ∀ p ∈ finishTable, ∀ m ∈ p.1, rpInProgress ∈ p.1 := by decide

theorem not_deadlocked_of_inDelay (hobeys : ∀ t, (procedures conf).Obeys (fun c ↦ Takes (table c)) s t)
    (h : Exclusive s) {a : ℕ} (ha : InDelay s a) : ¬s.Deadlocked := by
  refine not_deadlocked_of_rank delayRank fun t m m' hm hm' ↦ ?_
  obtain ⟨c, held, hc, hheld, htakes⟩ := (hobeys t).wants hm
  have hmem : m' ∈ held := (hheld m').mp hm'
  cases c with
  | addLostObj o =>
    have hlost := (hheld lostMap).mpr (lostMap_mem _ htakes m' hmem)
    exact absurd ⟨⟨o, hc⟩, hlost⟩ (h a ha t).1
  | scanRepair =>
    exact delayRank_scan _ (List.mem_append_left _ (List.mem_append_left _ htakes)) m' hmem
  | finishRepair o =>
    have hrp := (hheld rpInProgress).mpr (rpInProgress_mem _ htakes m' hmem)
    exact absurd ⟨⟨o, hc⟩, hrp⟩ (h a ha t).2
  | findIfInLostMapOrRPProc o =>
    exact delayRank_scan _ (List.mem_append_left _ (List.mem_append_right _ htakes)) m' hmem
  | getLostObjs t => exact delayRank_scan _ (List.mem_append_right _ htakes) m' hmem

theorem not_deadlocked_of_not_inDelay
    (hobeys : ∀ t, (procedures conf).Obeys (fun c ↦ Takes (table c)) s t) (h : ∀ a, ¬InDelay s a) :
    ¬s.Deadlocked := by
  refine not_deadlocked_of_rank usualRank fun t m m' hm hm' ↦ ?_
  obtain ⟨c, held, hc, hheld, htakes⟩ := (hobeys t).wants hm
  have hmem : m' ∈ held := (hheld m').mp hm'
  cases c with
  | addLostObj o =>
    exact rank_others _ (List.mem_append_left _ (List.mem_append_left _ (List.mem_append_left _ htakes))) m' hmem
  | scanRepair =>
    refine rank_scan _ htakes (fun hS ↦ ?_) m' hmem
    exact h t ⟨hc, (hheld stripeErrNum).mpr hS⟩
  | finishRepair o =>
    exact rank_others _ (List.mem_append_left _ (List.mem_append_left _ (List.mem_append_right _ htakes))) m' hmem
  | findIfInLostMapOrRPProc o =>
    exact rank_others _ (List.mem_append_left _ (List.mem_append_right _ htakes)) m' hmem
  | getLostObjs t => exact rank_others _ (List.mem_append_right _ htakes) m' hmem

/-- **No deadlock while the branch for delayed stripes stays apart.** In every state of every run in which it
does not overlap with `addLostObj` and `finishRepair`. -/
theorem not_deadlocked_of_apart (h : (lockSystem conf).Reach Apart s) : ¬s.Deadlocked := by
  have hobeys : ∀ t, (procedures conf).Obeys (fun c ↦ Takes (table c)) s t :=
    fun t ↦ Procedures.obeys_of_reach disciplined_script h t
  by_cases hdelay : ∃ a, InDelay s a
  · obtain ⟨a, ha⟩ := hdelay
    exact not_deadlocked_of_inDelay hobeys (exclusive_of_reach h) ha
  · exact not_deadlocked_of_not_inDelay hobeys fun a ha ↦ hdelay ⟨a, ha⟩

/-- A stripe with a code of one parity object, which is lost: `scanRepair` is in the branch for delayed stripes, starts the
repair and is about to take its fifth mutex, while two threads that look at the stripe wait for it. -/
theorem not_deadlocked_delayed : ∃ (conf : RepairConf) (s : LockState), (lockSystem conf).Reach Apart s ∧
    InDelay s 1 ∧ s.Wants 1 enableSetStart ∧ s.WaitsFor 2 1 ∧ s.WaitsFor 3 1 ∧ ¬s.Deadlocked := by
  let policy : ECPolicy := ⟨3, 2, 1, [], Nat.succ_pos 1, Nat.lt_of_sub_pos Nat.one_pos⟩
  let conf : RepairConf := ⟨true, 1, fun _ ↦ some (.offline ['s'] policy)⟩
  let steps (t n : ℕ) : List (Label RepairCall (List Name)) := List.replicate n (.step t [['a']])
  have hinit : (lockSystem conf).Reach Apart ⟨.empty, fun _ ↦ none, fun _ ↦ ⟨none, []⟩⟩ :=
    .init ⟨trivial, fun _ ↦ rfl, fun _ ↦ rfl⟩
  obtain ⟨s, hs, hq⟩ := hinit.exists_of_runIf
    (.start 0 (.addLostObj ['a']) :: steps 0 10 ++ .start 1 .scanRepair :: steps 1 14 ++
      .start 2 (.findIfInLostMapOrRPProc ['a']) :: .start 3 (.getLostObjs ['s']) :: steps 3 1)
    (p := fun s ↦ decide ((InDelay s 1 ∧ s.Wants 1 enableSetStart) ∧ (s.Wants 2 lostMap ∧ s.Holds 1 lostMap) ∧
      s.Wants 3 offlineLostStripe ∧ s.Holds 1 offlineLostStripe)) (by decide +kernel)
  obtain ⟨⟨hdelay, hwants⟩, hlost, hstripe⟩ := of_decide_eq_true hq
  exact ⟨conf, s, hs, hdelay, hwants, ⟨lostMap, hlost⟩, ⟨offlineLostStripe, hstripe⟩, not_deadlocked_of_apart hs⟩

/-- A stripe with a code of two parity objects, of which one object is lost: `scanRepair` is about to delay the
stripe while `addLostObj` reports another one. -/
theorem deadlocked_scan_add : ∃ (conf : RepairConf) (s : LockState), (lockSystem conf).Reachable s ∧ s.Deadlocked := by
  let policy : ECPolicy := ⟨4, 2, 1, [], Nat.succ_pos 1, Nat.lt_of_sub_pos (Nat.succ_pos 1)⟩
  let conf : RepairConf := ⟨true, 1, fun _ ↦ some (.offline ['s'] policy)⟩
  let steps (t n : ℕ) : List (Label RepairCall (List Name)) := List.replicate n (.step t [['a']])
  obtain ⟨s, hs, hq⟩ := System.Reachable.exists_of_run (S := lockSystem conf)
    (s := ⟨.empty, fun _ ↦ none, fun _ ↦ ⟨none, []⟩⟩) (.init ⟨trivial, fun _ ↦ rfl, fun _ ↦ rfl⟩)
    (.start 0 (.addLostObj ['a']) :: steps 0 10 ++ .start 1 .scanRepair :: steps 1 10 ++
      .start 2 (.addLostObj ['b']) :: steps 2 4)
    (p := fun s ↦ decide ((s.Wants 1 lostMap ∧ s.Holds 2 lostMap) ∧ s.Wants 2 stripeErrNum ∧
      s.Holds 1 stripeErrNum)) (by decide +kernel)
  obtain ⟨h₁, h₂⟩ := of_decide_eq_true hq
  exact ⟨conf, s, hs, 1, .tail (.single ⟨lostMap, h₁⟩) ⟨stripeErrNum, h₂⟩⟩

/-! ### Without delayed scheduling -/

/-- What `scanRepair` takes outside the branch for delayed stripes. -/
def usualScanTable : Table := [([], rpInProgress), ([rpInProgress], enableSetStart), ([], lostMap)]

def usualTable : RepairCall → Table
  | .scanRepair => usualScanTable
  | c => table c

theorem disciplined_scanRepair_usual (hconf : conf.delay = false) :
    (procedures conf).Disciplined (Takes usualScanTable) [] (script .scanRepair) := by
  refine .lock (by decide) (by decide) (.act fun order st r hr ↦ ?_)
  cases hr
  refine .unlock (by decide) (.act fun order st r hr ↦ ?_)
  cases hr
  dsimp only
  split_ifs with hgo
  · refine .lock (by decide) (by decide) (.act fun order st r hr ↦ ?_)
    simp only [procedures, run] at hr
    split_ifs at hr with horder
    cases hr
    refine .unlock (by decide) (.act fun order st r hr ↦ ?_)
    simp only [procedures, run, RepairStore.delayed, hconf, Bool.false_eq_true, if_false, Option.map_some,
      Option.some.injEq] at hr
    subst hr
    refine .lock (by decide) (by decide) (.lock (by decide) (by decide) (disciplined_act run_startRepair ?_))
    refine .unlock (by decide) (.unlock (by decide) (.lock (by decide) (by decide) ?_))
    exact disciplined_act run_eraseLost (.unlock (by decide) .done)
  · exact .done

theorem rank_usual : ∀ p ∈ usualScanTable, ∀ m ∈ p.1, usualRank m < usualRank p.2 := by decide

theorem not_deadlocked_of_not_delay (hconf : conf.delay = false) (h : (lockSystem conf).Reachable s) :
    ¬s.Deadlocked := by
  have hscript : ∀ c, (procedures conf).Disciplined (Takes (usualTable c)) [] ((procedures conf).script c) := by
    intro c
    cases c with
    | scanRepair => exact disciplined_scanRepair_usual hconf
    | addLostObj o => exact disciplined_addLostObj o
    | finishRepair o => exact disciplined_finishRepair o
    | findIfInLostMapOrRPProc o => exact disciplined_find o
    | getLostObjs t => exact disciplined_getLostObjs t
  refine not_deadlocked_of_rank usualRank fun t m m' hm hm' ↦ ?_
  obtain ⟨c, held, -, hheld, htakes⟩ := (Procedures.obeys_of_reach hscript h t).wants hm
  have hmem : m' ∈ held := (hheld m').mp hm'
  have hothers := rank_others
  simp only [List.mem_append, or_imp, forall_and] at hothers
  obtain ⟨⟨⟨hadd, hfin⟩, hfind⟩, hget⟩ := hothers
  cases c with
  | scanRepair => exact rank_usual _ htakes m' hmem
  | addLostObj o => exact hadd _ htakes m' hmem
  | finishRepair o => exact hfin _ htakes m' hmem
  | findIfInLostMapOrRPProc o => exact hfind _ htakes m' hmem
  | getLostObjs t => exact hget _ htakes m' hmem

end Repair

end UniDedup.Storage
