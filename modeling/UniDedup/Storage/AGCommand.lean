import Mathlib.Data.List.AList
import Mathlib.Data.List.Sort
import UniDedup.Storage.Tasks

/-!
# Commands for the agents

`parseForOEC` goes through the sorted nodes of a graph, gives each its address and makes a command of its tasks:
to load a sub-packet, or to fetch sub-packets from where they are cached and compute others from them. Loads of
sub-packets of one block are merged. `persist` adds a command for every block of headers.
-/

namespace UniDedup.Storage

open ECDAG

/-- The reference counts that sub-packets are cached with. -/
abbrev RefMap := AList fun _ : ℕ ↦ ℤ

/-- `AGCommand`, of the types that encode and repair a stripe. An object is known by its number in the stripe, a
previous sub-packet by its number and the address it is fetched from. -/
inductive AGCommand
  | readDisk (sendIp readObj : ℕ) (cidlist : List ℕ) (refs : RefMap)
  | fetchCompute (sendIp : ℕ) (prevs : List (ℕ × ℕ)) (coefs : CoefMap) (refs : RefMap)
  | persist (sendIp : ℕ) (prevs : List (ℕ × ℕ)) (writeObj : ℕ)

namespace ECDAG

/-! ## Compiling -/

/-- The headers are fetched once more than they have parents, to be persisted. -/
def countHeaders (dag : ECDAG) : ECDAG := dag.headers.foldl (fun dag nid ↦ dag.incRefNumFor nid nid) dag

/-- `parseAGCommand` of a node that has its tasks. -/
def parseAGCommand (w : ℕ) (nodeIp : ℕ → ℕ) (tasks : OECTasks) : Option AGCommand :=
  match tasks.load, tasks.fetch, tasks.compute, tasks.cache with
  | some indices, none, none, some refs => some (.readDisk tasks.ip (indices.headD 0 / w) indices refs)
  | none, some prevCids, some task, some refs =>
    some (.fetchCompute tasks.ip (prevCids.map fun c ↦ (c, nodeIp c)) task.coefMap refs)
  | _, _, _, _ => none

/-- What `parseForOEC` has made: the addresses of the nodes, and the commands under the numbers of their nodes. -/
structure Parsed where
  nodeIp : ℕ → ℕ := fun _ ↦ 0
  agCmds : List (ℕ × AGCommand) := []

/-- One turn of the loop of `parseForOEC` over the sorted nodes. -/
def parseTurn (dag : ECDAG) (w : ℕ) (cid2ip : ℕ → ℕ) (s : Parsed) (cidx : ℕ) : Parsed :=
  match dag.parseForOEC s.nodeIp (cid2ip cidx) cidx with
  | none => s
  | some tasks =>
    let nodeIp := Function.update s.nodeIp cidx tasks.ip
    ⟨nodeIp, s.agCmds ++ (parseAGCommand w nodeIp tasks).toList.map fun cmd ↦ (cidx, cmd)⟩

def parseTurns (dag : ECDAG) (order : List ℕ) (w : ℕ) (cid2ip : ℕ → ℕ) : Parsed :=
  (dag.toposort order).foldl (dag.parseTurn w cid2ip) {}

end ECDAG

namespace AGCommand

/-- Put a load in front of a merged one of the same block. -/
def mergeInto : AGCommand → AGCommand → AGCommand
  | readDisk ip obj cids refs, readDisk _ _ cids' refs' => readDisk ip obj (cids ++ cids') (refs ∪ refs')
  | cmd, _ => cmd

def isLoad : AGCommand → Bool
  | readDisk .. => true
  | _ => false

end AGCommand

/-- Merge commands into the first of them. -/
def mergeGroup : List (ℕ × AGCommand) → Option AGCommand
  | [] => none
  | [cmd] => some cmd.2
  | cmd :: rest => (mergeGroup rest).map cmd.2.mergeInto

/-- The merged loads of `parseForOEC`. A merged command takes the place of all commands under the numbers of its
block. -/
def mergeLoads (n w : ℕ) (agCmds : List (ℕ × AGCommand)) : List AGCommand :=
  if w ≤ 1 then agCmds.map Prod.snd
  else
    let sid22merge := agCmds.filter fun cmd ↦ cmd.2.isLoad && decide (cmd.1 / w < n)
    let sids := (sid22merge.map (·.1 / w)).dedup
    (agCmds.filter fun cmd ↦ cmd.1 / w ∉ sids).map Prod.snd ++
      sids.filterMap fun sid ↦ mergeGroup (sid22merge.filter (·.1 / w = sid))

namespace ECDAG

/-- `parseForOEC` of a graph, when the nodes of the map are run through in the given order. -/
def agCmds (dag : ECDAG) (order : List ℕ) (cid2ip : ℕ → ℕ) (n w : ℕ) : List AGCommand :=
  mergeLoads n w (dag.countHeaders.parseTurns order w cid2ip).agCmds

/-- `persist`, where `objIp` gives the places of the objects. -/
def persistCmds (dag : ECDAG) (order : List ℕ) (cid2ip objIp : ℕ → ℕ) (w : ℕ) : List AGCommand :=
  let nodeIp := (dag.countHeaders.parseTurns order w cid2ip).nodeIp
  let headers := dag.headers.insertionSort (· ≤ ·)
  (List.range (headers.length / w)).map fun i ↦
    let sid := headers.getD (i * w) 0 / w
    .persist (objIp sid) ((List.range w).map fun j ↦ (sid * w + j, nodeIp (sid * w + j))) sid

def commands (dag : ECDAG) (order : List ℕ) (cid2ip objIp : ℕ → ℕ) (n w : ℕ) : List AGCommand :=
  dag.agCmds order cid2ip n w ++ dag.persistCmds order cid2ip objIp w

end ECDAG

/-! ## What the commands load -/

namespace AGCommand

/-- The command of a node: if it loads, then the sub-packet of the node. -/
def OfNode (w id : ℕ) : AGCommand → Prop
  | readDisk _ obj cids _ => obj = id / w ∧ cids = [id]
  | fetchCompute .. => True
  | persist .. => False

/-- A command of `parseForOEC`: if it loads, then from one block. -/
def OfBlock (w : ℕ) : AGCommand → Prop
  | readDisk _ obj cids _ => cids ≠ [] ∧ ∀ cid ∈ cids, cid / w = obj
  | fetchCompute .. => True
  | persist .. => False

theorem OfNode.ofBlock {w id : ℕ} {cmd : AGCommand} (h : cmd.OfNode w id) : cmd.OfBlock w := by
  cases cmd with
  | readDisk ip obj cids refs =>
    obtain ⟨rfl, rfl⟩ := h
    exact ⟨List.cons_ne_nil _ _, fun cid hcid ↦ by rw [List.mem_singleton.mp hcid]⟩
  | fetchCompute => exact trivial
  | persist => exact h

theorem OfNode.eq_readDisk {w id : ℕ} {cmd : AGCommand} (h : cmd.OfNode w id) (hload : cmd.isLoad) :
    ∃ ip refs, cmd = .readDisk ip (id / w) [id] refs := by
  cases cmd with
  | readDisk ip obj cids refs => exact ⟨ip, refs, by rw [h.1, h.2]⟩
  | fetchCompute => exact absurd hload Bool.false_ne_true
  | persist => exact absurd hload Bool.false_ne_true

end AGCommand

open AGCommand

theorem ofBlock_mergeGroup {w sid : ℕ} {cmds : List (ℕ × AGCommand)} {cmd : AGCommand}
    (h : ∀ x ∈ cmds, x.2.isLoad ∧ x.2.OfNode w x.1 ∧ x.1 / w = sid) (hcmd : mergeGroup cmds = some cmd) :
    ∃ ip cids refs, cmd = .readDisk ip sid cids refs ∧ cids ≠ [] ∧ ∀ cid ∈ cids, cid / w = sid := by
  induction cmds generalizing cmd with
  | nil => exact absurd hcmd.symm (Option.some_ne_none cmd)
  | cons x rest ih =>
    obtain ⟨hload, hnode, hsid⟩ := h x List.mem_cons_self
    obtain ⟨ip, refs, heq⟩ := hnode.eq_readDisk hload
    rw [hsid] at heq
    cases rest with
    | nil =>
      obtain rfl : x.2 = cmd := Option.some.inj hcmd
      exact ⟨ip, _, refs, heq, List.cons_ne_nil _ _, fun cid hcid ↦ by rw [List.mem_singleton.mp hcid, hsid]⟩
    | cons y rest =>
      obtain ⟨merged, hmerged, rfl⟩ := Option.map_eq_some_iff.mp hcmd
      obtain ⟨ip', cids', refs', rfl, -, hall⟩ := ih (fun z hz ↦ h z (List.mem_cons_of_mem x hz)) hmerged
      rw [heq]
      refine ⟨ip, x.1 :: cids', _, rfl, List.cons_ne_nil _ _, fun cid hcid ↦ ?_⟩
      rcases List.mem_cons.mp hcid with rfl | hcid
      · exact hsid
      · exact hall cid hcid

theorem ofBlock_mergeLoads {n w : ℕ} {cmds : List (ℕ × AGCommand)} (h : ∀ x ∈ cmds, x.2.OfNode w x.1)
    {cmd : AGCommand} (hcmd : cmd ∈ mergeLoads n w cmds) : cmd.OfBlock w := by
  have hkept : ∀ {l : List (ℕ × AGCommand)}, (∀ x ∈ l, x ∈ cmds) → cmd ∈ l.map Prod.snd → cmd.OfBlock w := by
    intro l hl hmem
    obtain ⟨x, hx, rfl⟩ := List.mem_map.mp hmem
    exact (h x (hl x hx)).ofBlock
  rw [mergeLoads] at hcmd
  split_ifs at hcmd
  · exact hkept (fun _ hx ↦ hx) hcmd
  · rcases List.mem_append.mp hcmd with hmem | hmem
    · exact hkept (fun x hx ↦ (List.mem_filter.mp hx).1) hmem
    · obtain ⟨sid, -, hgroup⟩ := List.mem_filterMap.mp hmem
      have hall : ∀ x ∈ (cmds.filter fun cmd ↦ cmd.2.isLoad && decide (cmd.1 / w < n)).filter (·.1 / w = sid),
          x.2.isLoad ∧ x.2.OfNode w x.1 ∧ x.1 / w = sid := by
        intro x hx
        obtain ⟨hx, hsid⟩ := List.mem_filter.mp hx
        obtain ⟨hx, hload⟩ := List.mem_filter.mp hx
        exact ⟨((Bool.and_eq_true _ _).mp hload).1, h x hx, of_decide_eq_true hsid⟩
      obtain ⟨ip, cids, refs, rfl, hblock⟩ := ofBlock_mergeGroup hall hgroup
      exact hblock

namespace ECDAG

theorem shape_countHeaders (dag : ECDAG) : dag.countHeaders.shape = dag.shape := by
  rw [countHeaders]
  generalize dag.headers = l
  induction l generalizing dag with
  | nil => rfl
  | cons nid l ih => rw [List.foldl_cons, ih, shape_incRefNumFor]

theorem ofNode_parseTurn {dag : ECDAG} {w : ℕ} {cid2ip : ℕ → ℕ} {s : Parsed}
    (hs : ∀ x ∈ s.agCmds, x.2.OfNode w x.1) (cidx : ℕ) :
    ∀ x ∈ (dag.parseTurn w cid2ip s cidx).agCmds, x.2.OfNode w x.1 := by
  rw [parseTurn]
  cases htasks : dag.parseForOEC s.nodeIp (cid2ip cidx) cidx with
  | none => exact hs
  | some tasks =>
    intro x hx
    rcases List.mem_append.mp hx with hx | hx
    · exact hs x hx
    · obtain ⟨cmd, hcmd, rfl⟩ := List.mem_map.mp hx
      rw [Option.mem_toList] at hcmd
      obtain ⟨nd, -, rfl⟩ := Option.map_eq_some_iff.mp htasks
      rcases hcs : nd.childNodes with _ | ⟨c, _ | ⟨d, rest⟩⟩
      · rw [hcs] at hcmd
        rw [← Option.some.inj hcmd]
        exact ⟨rfl, rfl⟩
      · rw [hcs] at hcmd
        by_cases hbind : 1 < dag.coefNum c
        · dsimp only at hcmd
          rw [if_pos hbind] at hcmd
          exact absurd hcmd.symm (Option.some_ne_none cmd)
        · dsimp only at hcmd
          rw [if_neg hbind] at hcmd
          rw [← Option.some.inj hcmd]
          exact trivial
      · rw [hcs] at hcmd
        rw [← Option.some.inj hcmd]
        exact trivial

/-- **Every load is from one block.** -/
theorem ofBlock_agCmds {dag : ECDAG} {order : List ℕ} {cid2ip : ℕ → ℕ} {n w : ℕ} {cmd : AGCommand}
    (hcmd : cmd ∈ dag.agCmds order cid2ip n w) : cmd.OfBlock w := by
  refine ofBlock_mergeLoads ?_ hcmd
  rw [parseTurns]
  generalize dag.countHeaders.toposort order = l
  suffices h : ∀ s : Parsed, (∀ x ∈ s.agCmds, x.2.OfNode w x.1) →
      ∀ x ∈ (l.foldl (dag.countHeaders.parseTurn w cid2ip) s).agCmds, x.2.OfNode w x.1 by
    exact h {} fun x hx ↦ absurd hx List.not_mem_nil
  induction l with
  | nil => exact fun _ hs ↦ hs
  | cons cidx l ih => exact fun s hs ↦ ih _ (ofNode_parseTurn hs cidx)

theorem ofBlock_commands {dag : ECDAG} {order : List ℕ} {cid2ip objIp : ℕ → ℕ} {n w : ℕ} {cmd : AGCommand}
    (hcmd : cmd ∈ dag.commands order cid2ip objIp n w) (hload : cmd.isLoad) : cmd.OfBlock w := by
  rcases List.mem_append.mp hcmd with hcmd | hcmd
  · exact ofBlock_agCmds hcmd
  · obtain ⟨i, -, rfl⟩ := List.mem_map.mp hcmd
    exact absurd hload Bool.false_ne_true

theorem prevs_of_persist {dag : ECDAG} {order : List ℕ} {cid2ip objIp : ℕ → ℕ} {n w ip obj : ℕ}
    {prevs : List (ℕ × ℕ)} (hcmd : .persist ip prevs obj ∈ dag.commands order cid2ip objIp n w) :
    ∃ nodeIp : ℕ → ℕ, prevs = (List.range w).map fun j ↦ (obj * w + j, nodeIp (obj * w + j)) := by
  rcases List.mem_append.mp hcmd with hcmd | hcmd
  · exact (ofBlock_agCmds hcmd).elim
  · obtain ⟨i, -, hcmd⟩ := List.mem_map.mp hcmd
    obtain ⟨-, rfl, rfl⟩ := AGCommand.persist.inj hcmd
    exact ⟨_, rfl⟩

end ECDAG

end UniDedup.Storage
