import UniDedup.Storage.Pool

/-!
# The bookkeeping of repairs

Lost objects wait in `_lostMap` with the number of requests for them, and move to `_RPInProgress` when their
repair is started. With delayed scheduling the objects of a stripe wait until as many of them are lost as the
code has parity objects; `_stripeErrNum` counts the failures of a stripe and `_offlineLostStripe` lists them.

Each definition here is what one piece of code does to the four containers while it holds the mutexes they
need. `none` is a failed assertion, or an `erase` of an entry that is not there.
-/

namespace UniDedup.Storage

/-- What the entry of an object says that the repair asks for. -/
inductive ObjEntry
  | online
  | offline (stripename : Name) (ecpolicy : ECPolicy)

/-- The settings of the repair, and the entries of the objects, which do not change meanwhile. -/
structure RepairConf where
  /-- `_repair_scheduling == "delay"`. -/
  delay : Bool
  /-- `_ec_concurrent`. -/
  concurrentNum : ℕ
  objEntry : Name → Option ObjEntry

structure RepairStore where
  lostMap : AList fun _ : Name ↦ ℕ
  rpInProgress : List Name
  stripeErrNum : AList fun _ : Name ↦ ℤ
  offlineLostStripe : AList fun _ : Name ↦ List Name
  startTime : Bool
  enableSetStart : Bool

namespace RepairStore

variable (conf : RepairConf) (st : RepairStore)

def empty : RepairStore := ⟨∅, [], ∅, ∅, false, false⟩

/-- The stripe and the code of an object whose failures are counted; `none` where `objIsOffline` asserts. -/
def delayed (conf : RepairConf) (objname : Name) : Option (Option (Name × ECPolicy)) :=
  if conf.delay then
    (conf.objEntry objname).map fun e ↦
      match e with
      | .online => none
      | .offline stripename ecpolicy => some (stripename, ecpolicy)
  else some none

/-- The failure of an object is counted for its stripe. -/
def countFailure (stripename objname : Name) : RepairStore :=
  match st.stripeErrNum.lookup stripename with
  | none =>
    { st with
      stripeErrNum := st.stripeErrNum.insert stripename 1
      offlineLostStripe := emplace st.offlineLostStripe stripename [objname] }
  | some num =>
    { st with
      stripeErrNum := st.stripeErrNum.insert stripename (num + 1)
      offlineLostStripe := st.offlineLostStripe.insert stripename
        ((st.offlineLostStripe.lookup stripename).getD [] ++ [objname]) }

/-- `addLostObj`, once the object was not found among the repairs. -/
def insertLost (objname : Name) : Option RepairStore :=
  match st.lostMap.lookup objname with
  | some num => some { st with lostMap := st.lostMap.insert objname (num + 1) }
  | none =>
    let st := { st with lostMap := st.lostMap.insert objname 1 }
    (delayed conf objname).map fun d ↦
      match d with
      | none => st
      | some (stripename, _) => st.countFailure stripename objname

/-- The object with the most requests, when the map is run through in the given order. -/
def pick (order : List Name) : Name :=
  (order.foldl (fun (best : ℕ × Name) objname ↦
    let num := (st.lostMap.lookup objname).getD 0
    if best.1 < num then (num, objname) else best) (0, [])).2

/-- The branch of `scanRepair` that delays a stripe. -/
def halve (objname : Name) : RepairStore :=
  { st with lostMap := st.lostMap.insert objname ((st.lostMap.lookup objname).getD 0 / 2) }

def startRepair (objname : Name) : RepairStore :=
  { st with
    enableSetStart := st.enableSetStart || (!st.startTime && st.rpInProgress.isEmpty)
    rpInProgress := st.rpInProgress ++ [objname] }

/-- `_lostMap.erase(_lostMap.find(objname))`. -/
def eraseLost (objname : Name) : Option RepairStore :=
  if objname ∈ st.lostMap then some { st with lostMap := st.lostMap.erase objname } else none

def uncountFailure (stripename : Name) : Option RepairStore :=
  (st.stripeErrNum.lookup stripename).map fun num ↦
    if num - 1 = 0 then
      { st with
        stripeErrNum := st.stripeErrNum.erase stripename
        offlineLostStripe := st.offlineLostStripe.erase stripename }
    else { st with stripeErrNum := st.stripeErrNum.insert stripename (num - 1) }

def finishRepair (objname : Name) : Option RepairStore := do
  let st := { st with rpInProgress := st.rpInProgress.erase objname }
  let st ← match ← delayed conf objname with
    | none => some st
    | some (stripename, _) => st.uncountFailure stripename
  if st.rpInProgress.isEmpty && st.lostMap.keys.isEmpty && st.startTime then
    (conf.objEntry objname).map fun _ ↦ { st with startTime := false }
  else some st

/-- `getLostObjs`, once the stripe was found: reading the entry makes an empty one if it is gone. -/
def getLostObjs (stripename : Name) : RepairStore × List Name :=
  ({ st with offlineLostStripe := emplace st.offlineLostStripe stripename [] },
    (st.offlineLostStripe.lookup stripename).getD [])

def findIfInLostMapOrRPProc (objname : Name) : Bool :=
  decide (objname ∈ st.lostMap) || decide (objname ∈ st.rpInProgress)

end RepairStore

end UniDedup.Storage
