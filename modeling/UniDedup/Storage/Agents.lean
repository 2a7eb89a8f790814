import UniDedup.Lib.Workers
import UniDedup.Storage.AGCommand

/-!
# The workers of the agents

The coordinator pushes the commands of an operation to `dist_request`, and the threads of `CmdDistributor` forward each to
the list `ag_request` of its agent. Every agent has some worker threads. A worker takes one command from the list and runs
it to its end: a command that loads ends, and one that fetches waits until all its inputs are cached.

An order of delivery can bring the workers to a deadlock exactly if it has a jam in the sense of `Workers`. The code does
not exclude them: `recoveryOffline` and `recoveryOfflineDelay` sort the commands by type, so that loads come first but those
that compute stay in any order, the other operations push the commands as the hash map has them, and several distributors
change the order once more.
-/

namespace UniDedup.Storage

open ECDAG Workers

namespace AGCommand

def sendIp : AGCommand → ℕ
  | readDisk ip .. => ip
  | fetchCompute ip .. => ip
  | persist ip .. => ip

/-- The sub-packets that the command fetches, each with the address. -/
def fetches : AGCommand → List (ℕ × ℕ)
  | readDisk .. => []
  | fetchCompute _ prevs _ _ => prevs
  | persist _ prevs _ => prevs

/-- `cacheWorker` pushes nothing for a count of 0. -/
def cached (refs : RefMap) (cid : ℕ) : Bool := 0 < (refs.lookup cid).getD 0

/-- The sub-packets that the command caches, each with the address. -/
def caches : AGCommand → List (ℕ × ℕ)
  | readDisk ip _ cidlist refs => (cidlist.filter (cached refs)).map fun cid ↦ (cid, ip)
  | fetchCompute ip _ coefs refs => (coefs.keys.filter (cached refs)).map fun cid ↦ (cid, ip)
  | persist .. => []

/-- The commands as jobs of the agents, in the order in which they are delivered. -/
def work (cmds : List AGCommand) : Work ℕ (ℕ × ℕ) where
  num := cmds.length
  place i := (cmds[i]?.map sendIp).getD 0
  needs i := (cmds[i]?.map fetches).getD []
  gives i := (cmds[i]?.map caches).getD []

end AGCommand

/-- An order in which the commands of an operation are delivered. -/
structure Delivery (dag : ECDAG) (order : List ℕ) (cid2ip objIp : ℕ → ℕ) (n w : ℕ) where
  cmds : List AGCommand
  perm : cmds.Perm (dag.commands order cid2ip objIp n w)

namespace Delivery

variable {dag : ECDAG} {order : List ℕ} {cid2ip objIp : ℕ → ℕ} {n w : ℕ}

def work (d : Delivery dag order cid2ip objIp n w) : Work ℕ (ℕ × ℕ) := AGCommand.work d.cmds

/-- With `T` workers for each agent no deadlock is reached. -/
def DeadlockFree (d : Delivery dag order cid2ip objIp n w) (T : ℕ) : Prop :=
  ∀ s, (d.work.system T).Reachable s → ¬d.work.Deadlocked s

/-- **When the agents cannot come to a deadlock**: when the commands have no jam, as they are delivered. -/
theorem agents_deadlockFree_iff (d : Delivery dag order cid2ip objIp n w) (T : ℕ) : d.DeadlockFree T ↔ ¬d.work.Jams T := by
  rw [← Work.deadlocks_iff, not_exists]
  exact forall_congr' fun s ↦ not_and.symm

/-- When all a command fetches is cached by commands that are delivered before, one worker is enough. -/
theorem deadlockFree_of_sorted (d : Delivery dag order cid2ip objIp n w)
    (hsorted : ∀ i < d.work.num, ∀ k ∈ d.work.needs i, ∃ j < i, k ∈ d.work.gives j) {T : ℕ} (hT : 0 < T) :
    d.DeadlockFree T := (d.agents_deadlockFree_iff T).mpr (Work.not_jams_of_sorted hsorted hT)

end Delivery

/-! ## A command that waits for one behind it -/

/-- The first block of three, as the sum of the others. -/
def sumDag : ECDAG := ({} : ECDAG).join 0 [1, 2] [1, 1]

/-- The repair at agent 1, where block 1 is. -/
def sumCommands : List AGCommand := sumDag.commands [0, 1, 2] (fun cid ↦ max 1 cid) (fun _ ↦ 1) 3 1

/-- The command that computes is delivered before the one that loads block 1. -/
def computeFirst : Delivery sumDag [0, 1, 2] (fun cid ↦ max 1 cid) (fun _ ↦ 1) 3 1 where
  cmds := (sumCommands.take 3).reverse ++ sumCommands.drop 3
  perm := ((List.reverse_perm _).append_right _).trans (.of_eq (List.take_append_drop 3 sumCommands))

theorem jam_computeFirst : computeFirst.work.Jam 1 {0, 2} where
  nonempty := Finset.insert_nonempty 0 {2}
  lt_num := by decide
  stays i hi := by
    rcases Finset.mem_insert.mp hi with rfl | hi
    · exact .inl ⟨(1, 1), by decide, by decide⟩
    · obtain rfl := Finset.mem_singleton.mp hi
      exact .inr (by decide)

/-- The only worker of agent 1 takes the command that computes, and the one that loads block 1 stays in the list. -/
theorem not_deadlockFree_computeFirst : ¬computeFirst.DeadlockFree 1 := by
  intro h
  obtain ⟨s, hs, hdead⟩ := Work.deadlocks_iff.mpr ⟨_, jam_computeFirst⟩
  exact h s hs hdead

end UniDedup.Storage
