import UniDedup.Client.RedisCluster
import UniDedup.Lib.Outcome
import Mathlib

/-!
# Routing groups to nodes

`split2Groups` chooses a node for every group it closes. Stateless routing hashes the delegate of the
group. Stateful routing asks Redis, for every node, which features the node has seen, scores the nodes
by the features they share with the group, picks one of those with the best score, and records the
features of the group for it.

The second way can go wrong. When Redis answers one of the commands with an error,
`getNodeForStatefulRouting` returns `-1`; `split2Groups` stores the value in the unsigned 64-bit field
`nodeId`, prints a message and goes on. When there is no answer at all the worker stops, by an
exception or by following a null pointer, and the write with it.

The model of the cluster in `UniDedup.Client.RedisCluster` has a Redis that answers by its contents and
takes the selected node as given. Here the answers are arbitrary and the selection is spelled out. The
scores are floating point numbers. All that matters here is that one of the positions of the list
of scores is chosen, which holds whatever the comparisons answer; so the scores are of an arbitrary
type.
-/

namespace UniDedup.Client.Routing

open Decimal Outcome

/-! ## Stateless routing -/

/-- `fp2Int`. The inner loop reads the first `INT_SIZE` bytes each time. -/
def fp2Int (fp : Fingerprint) : UInt64 :=
  (List.range (fpLength / 4)).foldl (fun res _ ↦
    (fp.toList.take 4).foldl (fun res b ↦ (res ^^^ b.toUInt64) <<< 8) res) 0

def consistentHash (fp : Fingerprint) (num : ℕ) : ℕ :=
  if num = 0 then 0 else (fp2Int fp).toNat % num

/-! ## Stateful routing -/

/-- The fields of `Config` that routing reads. -/
structure Config where
  nodeNum : ℕ
  /-- The number of nodes is an `int`. -/
  nodeNum_lt : nodeNum < 2 ^ 31
  redisClusterEnabled : Bool
  statefulRoutingEnabled : Bool
  computingPowerVec : List ℤ

def defaultSampleUnitSize : ℕ := 128

/-- One iteration of the loop that collects the sample units of a group of `groupCnt` chunks: the
index, the unit and the units finished so far. Only the last group of a file pushes a unit that has
fewer chunks. -/
def sampleStep (groupCnt : ℕ) (last : Bool) (st : ℕ × SampleUnit × List SampleUnit) (c : Chunk) :
    ℕ × SampleUnit × List SampleUnit :=
  let (i, su, units) := st
  let su := if i % defaultSampleUnitSize = 0 then ⟨Fingerprint.fill 255, 0⟩ else su
  let su : SampleUnit :=
    ⟨if Fingerprint.cmp c.fp su.feature = .lt then c.fp else su.feature, su.size + c.data.length⟩
  if (i + 1) % defaultSampleUnitSize = 0 ∨ (last ∧ i + 1 = groupCnt) then (i + 1, su, units ++ [su])
  else (i + 1, su, units)

/-- `sample_unit_list` of a group. -/
def sampleUnitList (cs : List Chunk) : List SampleUnit :=
  (cs.foldl (sampleStep cs.length (cs.length ≠ defaultGroupSize)) (0, ⟨Fingerprint.fill 255, 0⟩, [])).2.2

/-- The answer to `smembers`. -/
inductive SmembersReply
  /-- No answer: a null pointer, or an exception that is not an error of Redis. -/
  | null
  /-- An error, or an answer that is not an array. -/
  | other
  | array (members : List Name)

/-- The answer to `sadd`. -/
inductive SaddReply
  | null
  | error
  | other

/-- What a routing call meets outside the worker. -/
structure RoutingEnv where
  /-- The connection is made, at the start of the call. -/
  connected : Bool
  /-- The answers to `smembers`, by node. -/
  smembers : ℕ → SmembersReply
  /-- In cluster mode there is a second connection, for `sadd`. -/
  reconnected : Bool
  /-- The answer to `sadd`. -/
  sadd : SaddReply
  /-- The value of `rand()`. -/
  rand : ℕ

/-- The worker stops in a routing call. -/
inductive RoutingFault
  /-- An exception that nothing catches. -/
  | uncaught
  /-- A null pointer is followed, or a vector is indexed past its end. -/
  | memory
deriving DecidableEq

/-- The arithmetic of the scores: `double` in the source. -/
structure Scoring (S : Type) where
  /-- The initial `max_score`. -/
  zero : S
  /-- `match_num * (match_size / group_size) * (power / total_power)`. -/
  score (matchNum matchSize groupSize : ℕ) (power totalPower : ℤ) : S
  /-- `>`. -/
  gt : S → S → Bool
  /-- `==`. -/
  eq : S → S → Bool

section Stateful

variable {S : Type} (d : Scoring S) (conf : Config) (env : RoutingEnv)

def getSelectedNode (nodeScore : List S) (rand : ℕ) : ℕ :=
  let (maxScore, selectNode) :=
    nodeScore.zipIdx.foldl (fun st p ↦ if d.gt p.1 st.1 then p else st) (d.zero, 0)
  let equalMaxNode := (nodeScore.zipIdx.filter fun p ↦ d.eq p.1 maxScore).map Prod.snd
  if equalMaxNode.length = 0 then selectNode
  else equalMaxNode.getD (rand % equalMaxNode.length) selectNode

/-- The number and the total size of the units whose feature a node has. -/
def matchNode (units : List SampleUnit) (members : List Name) : ℕ × ℕ :=
  members.foldl (fun st m ↦ units.foldl (fun st u ↦
    if featureText u.feature = m then (st.1 + 1, st.2 + u.size) else st) st) (0, 0)

/-- The loop over the nodes; `none` when a command fails. -/
def matchNodes (units : List SampleUnit) :
    List ℕ → Except RoutingFault (Option (List (ℕ × ℕ)))
  | [] => .ok (some [])
  | i :: is =>
    match env.smembers i with
    | .null => .error .memory
    | .other => .ok none
    | .array members => do
      let rest ← matchNodes units is
      return rest.map (matchNode units members :: ·)

/-- The part of `getNodeForStatefulRouting` after the loop: score, select, record. -/
def selectAndRecord (units : List SampleUnit) (found : List (ℕ × ℕ)) : Except RoutingFault ℤ := do
  let groupSize := (units.map SampleUnit.size).sum
  let total := conf.computingPowerVec.sum
  -- `computing_power_vec[i]` for every node
  check (conf.nodeNum ≤ conf.computingPowerVec.length) .memory
  let nodeScore := List.zipWith (fun m p ↦ d.score m.1 m.2 groupSize p total) found
    conf.computingPowerVec
  let selectedNode := getSelectedNode d nodeScore env.rand
  check (conf.redisClusterEnabled → env.reconnected) .uncaught
  match env.sadd with
  | .null => .error .memory
  | .error => return -1
  | .other =>
    -- `count_byte_for_each_node[selected_node]`
    check (selectedNode < conf.nodeNum) .memory
    return selectedNode

def getNodeForStatefulRouting (units : List SampleUnit) : Except RoutingFault ℤ := do
  check (env.connected = true) .uncaught
  match ← matchNodes env units (List.range conf.nodeNum) with
  | none => return -1
  | some found => selectAndRecord d conf env units found

end Stateful

/-! ## Splitting with routing -/

/-- The conversion of an `int` to `uint64_t`. -/
def toUInt64 (x : ℤ) : ℕ := (x % 2 ^ 64).toNat

section Write

variable {S : Type} (d : Scoring S) (conf : Config) (env : ℕ → RoutingEnv)

/-- The value `split2Groups` assigns to `gp->nodeId` of the group of index `id`. -/
def routeGroup (id : ℕ) (delegate : Fingerprint) (cs : List Chunk) : Except RoutingFault ℕ :=
  if conf.statefulRoutingEnabled = false then .ok (consistentHash delegate conf.nodeNum)
  else do
    -- a value of `-1` is reported and kept
    let ret ← getNodeForStatefulRouting d conf (env id) (sampleUnitList cs)
    return toUInt64 ret

/-- One iteration of the loop of `split2Groups`, with the routing call. -/
def splitStepRouted (filename : Name) (st : SplitState) (c : Chunk) : Except RoutingFault SplitState := do
  let chunkList := st.chunkList ++ [c]
  if chunkList.length = defaultGroupSize then
    let delegate := delegateOfFull chunkList
    let nodeId ← routeGroup d conf env st.id delegate chunkList
    return { chunkList := []
             id := st.id + 1
             result := st.result ++ [newGroup filename st.id delegate nodeId (chunksData chunkList)] }
  else
    return { st with chunkList := chunkList }

/-- `split2Groups`, with the routing calls. -/
def split2GroupsRouted (filename : Name) (chunks : List Chunk) : Except RoutingFault (List Group) := do
  let st ← chunks.foldlM (splitStepRouted d conf env filename) ⟨[], 0, []⟩
  if st.chunkList = [] then return st.result
  else
    let delegate := delegateOfLast st.chunkList
    let nodeId ← routeGroup d conf env st.id delegate st.chunkList
    return st.result ++ [newGroup filename st.id delegate nodeId (chunksData st.chunkList)]

/-- The recipe `Worker::clientWrite` hands to `setFileRecipe` or to `setFileRecipeToRedis`. When the
worker stops before, none is stored. -/
def clientWriteRecipe (filename : Name) (chunks : List Chunk) : Except RoutingFault FileRecipe := do
  let gps ← split2GroupsRouted d conf env filename chunks
  return genFileRecipe filename gps

end Write

/-! ## When a routing call fails

The steps of a routing call that depend on something outside the group, in order. The first that does
not go well decides what the call does. -/

/-- How a step of a routing call ends. -/
inductive Answer
  | fine
  | refused
  | lost
deriving DecidableEq

/-- The outcome of `smembers`. -/
def SmembersReply.answer : SmembersReply → Answer
  | .null => .lost
  | .other => .refused
  | .array _ => .fine

/-- The outcome of `sadd`. -/
def SaddReply.answer : SaddReply → Answer
  | .null => .lost
  | .error => .refused
  | .other => .fine

/-- A step that goes well or stops the worker. -/
def stopUnless (p : Prop) [Decidable p] : Answer := if p then .fine else .lost

/-- The steps after the loop over the nodes: read the computing powers, connect again in cluster mode,
record the features, and count the bytes of the selected node. -/
def RoutingEnv.lastAnswers (conf : Config) (env : RoutingEnv) : List Answer :=
  [stopUnless (conf.nodeNum ≤ conf.computingPowerVec.length),
    stopUnless (conf.redisClusterEnabled → env.reconnected), env.sadd.answer,
    stopUnless (0 < conf.nodeNum)]

def RoutingEnv.answers (conf : Config) (env : RoutingEnv) : List Answer :=
  stopUnless (env.connected = true) ::
    ((List.range conf.nodeNum).map (fun i ↦ (env.smembers i).answer) ++ env.lastAnswers conf)

/-- The first step that does not go well, if any. -/
def firstBad (as : List Answer) : Option Answer := as.find? (· ≠ .fine)

theorem firstBad_cons_fine (as : List Answer) : firstBad (.fine :: as) = firstBad as := rfl

theorem firstBad_cons_refused (as : List Answer) : firstBad (.refused :: as) = some .refused := rfl

theorem firstBad_cons_lost (as : List Answer) : firstBad (.lost :: as) = some .lost := rfl

theorem firstBad_append (as bs : List Answer) : firstBad (as ++ bs) = (firstBad as).or (firstBad bs) :=
  List.find?_append

theorem stopUnless_pos {p : Prop} [Decidable p] (h : p) : stopUnless p = .fine := if_pos h

theorem stopUnless_neg {p : Prop} [Decidable p] (h : ¬p) : stopUnless p = .lost := if_neg h

section Verdict

variable {S : Type} {d : Scoring S} {conf : Config} {env : RoutingEnv} {units : List SampleUnit}

theorem mem_zipIdx_foldl {α : Type} {p : α × ℕ → α × ℕ → Bool} {l : List (α × ℕ)} {n : ℕ}
    {st : α × ℕ} (h : st.2 < n) (hl : ∀ x ∈ l, x.2 < n) :
    (l.foldl (fun st x ↦ if p x st then x else st) st).2 < n := by
  induction l generalizing st with
  | nil => exact h
  | cons x l ih =>
    refine ih ?_ fun y hy ↦ hl y (List.mem_cons_of_mem x hy)
    dsimp only
    split_ifs
    · exact hl x List.mem_cons_self
    · exact h

theorem getSelectedNode_lt {nodeScore : List S} (h : 0 < nodeScore.length) (rand : ℕ) :
    getSelectedNode d nodeScore rand < nodeScore.length := by
  have hidx : ∀ x ∈ nodeScore.zipIdx, x.2 < nodeScore.length := by
    intro x hx
    simpa using (List.mem_zipIdx hx).2.1
  have hselect : (nodeScore.zipIdx.foldl (fun st p ↦ if d.gt p.1 st.1 then p else st)
      (d.zero, 0)).2 < nodeScore.length :=
    mem_zipIdx_foldl (p := fun x st ↦ d.gt x.1 st.1) h hidx
  unfold getSelectedNode
  dsimp only
  split_ifs with hnil
  · exact hselect
  · rw [List.getD_eq_getElem _ _ (Nat.mod_lt _ (Nat.pos_of_ne_zero hnil))]
    obtain ⟨x, hx, hxi⟩ := List.mem_map.mp (List.getElem_mem (Nat.mod_lt rand (Nat.pos_of_ne_zero hnil)))
    rw [← hxi]
    exact hidx x (List.mem_filter.mp hx).1

theorem post_matchNodes (is : List ℕ) :
    Post (matchNodes env units is)
      (fun o ↦ (firstBad (is.map fun i ↦ (env.smembers i).answer) = some .refused ∧ o = none) ∨
        (firstBad (is.map fun i ↦ (env.smembers i).answer) = none ∧
          ∃ found, o = some found ∧ found.length = is.length))
      fun _ ↦ firstBad (is.map fun i ↦ (env.smembers i).answer) = some .lost := by
  induction is with
  | nil => exact .inr ⟨rfl, [], rfl, rfl⟩
  | cons i is ih =>
    unfold matchNodes
    rw [List.map_cons]
    cases hreply : env.smembers i with
    | null => exact firstBad_cons_lost _
    | other => exact .inl ⟨firstBad_cons_refused _, rfl⟩
    | array members =>
      simp only [SmembersReply.answer, firstBad_cons_fine] at ih ⊢
      refine ih.bind fun o ho ↦ ?_
      rcases ho with ⟨hbad, rfl⟩ | ⟨hbad, found, rfl, hlen⟩
      · exact .inl ⟨hbad, rfl⟩
      · exact .inr ⟨hbad, _, rfl, congrArg (· + 1) hlen⟩

theorem post_selectAndRecord {found : List (ℕ × ℕ)} (hlen : found.length = conf.nodeNum) :
    Post (selectAndRecord d conf env units found)
      (fun ret ↦ (firstBad (env.lastAnswers conf) = some .refused ∧ ret = -1) ∨
        (firstBad (env.lastAnswers conf) = none ∧ ∃ n < conf.nodeNum, ret = (n : ℕ)))
      fun _ ↦ firstBad (env.lastAnswers conf) = some .lost := by
  unfold selectAndRecord RoutingEnv.lastAnswers
  refine (post_check fun hpower ↦ ?_).bind fun _ hpower ↦ ?_
  · rw [stopUnless_neg hpower, firstBad_cons_lost]
  rw [stopUnless_pos hpower, firstBad_cons_fine]
  refine (post_check fun hcon ↦ ?_).bind fun _ hcon ↦ ?_
  · rw [stopUnless_neg hcon, firstBad_cons_lost]
  rw [stopUnless_pos hcon, firstBad_cons_fine]
  cases hadd : env.sadd with
  | null => exact firstBad_cons_lost _
  | error => exact .inl ⟨firstBad_cons_refused _, rfl⟩
  | other =>
    simp only [SaddReply.answer, firstBad_cons_fine]
    by_cases hpos : 0 < conf.nodeNum
    · refine (post_check fun hsel ↦ absurd ?_ hsel).bind fun _ hsel ↦ ?_
      · refine lt_of_lt_of_le (getSelectedNode_lt ?_ _) ?_
        · rw [List.length_zipWith]
          omega
        · rw [List.length_zipWith]
          omega
      · exact .inr ⟨by rw [stopUnless_pos hpos]; rfl, _, hsel, rfl⟩
    · refine (post_check fun _ ↦ ?_).bind fun _ hsel ↦ ?_
      · rw [stopUnless_neg hpos, firstBad_cons_lost]
      · omega

/-- **What a routing call returns** depends on the first step that does not go well: `-1` if Redis
refuses it, and a node if there is none. -/
theorem post_getNodeForStatefulRouting :
    Post (getNodeForStatefulRouting d conf env units)
      (fun ret ↦ (firstBad (env.answers conf) = some .refused ∧ ret = -1) ∨
        (firstBad (env.answers conf) = none ∧ ∃ n < conf.nodeNum, ret = (n : ℕ)))
      fun _ ↦ firstBad (env.answers conf) = some .lost := by
  unfold getNodeForStatefulRouting RoutingEnv.answers
  refine (post_check fun hcon ↦ ?_).bind fun _ hcon ↦ ?_
  · rw [stopUnless_neg hcon, firstBad_cons_lost]
  rw [stopUnless_pos hcon, firstBad_cons_fine, firstBad_append]
  refine ((post_matchNodes _).mono (fun _ h ↦ h) fun _ h ↦ ?_).bind fun o ho ↦ ?_
  · rw [h]
    rfl
  rcases ho with ⟨hbad, rfl⟩ | ⟨hbad, found, rfl, hlen⟩
  · exact .inl ⟨by rw [hbad]; rfl, rfl⟩
  · rw [List.length_range] at hlen
    rw [hbad, Option.none_or]
    exact post_selectAndRecord hlen

end Verdict

/-! ## What a write stores -/

section Store

variable {S : Type} {d : Scoring S} {conf : Config} {env : ℕ → RoutingEnv} {filename : Name}

/-- What is known of the node of a group after its routing call has returned. -/
def Routed (conf : Config) (env : RoutingEnv) (nodeId : ℕ) : Prop :=
  if conf.statefulRoutingEnabled = false then nodeId = 0 ∨ nodeId < conf.nodeNum
  else (firstBad (env.answers conf) = some .refused ∧ nodeId = 2 ^ 64 - 1) ∨
    (firstBad (env.answers conf) = none ∧ nodeId < conf.nodeNum)

/-- The routing call of a group stops the worker. -/
def Stops (conf : Config) (env : RoutingEnv) : Prop :=
  conf.statefulRoutingEnabled = true ∧ firstBad (env.answers conf) = some .lost

/-- The routing call of a group returns `-1`. -/
def Fails (conf : Config) (env : RoutingEnv) : Prop :=
  conf.statefulRoutingEnabled = true ∧ firstBad (env.answers conf) = some .refused

theorem post_routeGroup (id : ℕ) (delegate : Fingerprint) (cs : List Chunk) :
    Post (routeGroup d conf env id delegate cs) (Routed conf (env id)) fun _ ↦ Stops conf (env id) := by
  unfold routeGroup Routed
  by_cases hstate : conf.statefulRoutingEnabled = false
  · rw [if_pos hstate]
    simp only [if_pos hstate]
    unfold consistentHash
    split_ifs with hnum
    · exact .inl rfl
    · exact .inr (Nat.mod_lt _ (Nat.pos_of_ne_zero hnum))
  · rw [if_neg hstate]
    simp only [if_neg hstate]
    refine (post_getNodeForStatefulRouting.mono (fun _ h ↦ h) fun _ h ↦ ?_).bind fun ret hret ↦ ?_
    · exact ⟨by simpa using hstate, h⟩
    rcases hret with ⟨hbad, rfl⟩ | ⟨hgood, n, hn, rfl⟩
    · exact .inl ⟨hbad, by decide⟩
    · refine .inr ⟨hgood, ?_⟩
      have := conf.nodeNum_lt
      simp only [toUInt64]
      omega

/-- The groups carry the nodes of the routing calls that have returned. -/
structure SplitRouted (conf : Config) (env : ℕ → RoutingEnv) (cs : List Chunk) (st : SplitState) :
    Prop where
  id : st.id = cs.length / defaultGroupSize
  open_length : st.chunkList.length = cs.length % defaultGroupSize
  length : st.result.length = st.id
  routed : ∀ i g, st.result[i]? = some g → Routed conf (env i) g.nodeId

theorem routed_append {gps : List Group} {g : Group} {n : ℕ} (hlen : gps.length = n)
    (h : ∀ i g, gps[i]? = some g → Routed conf (env i) g.nodeId) (hg : Routed conf (env n) g.nodeId) :
    ∀ i g', (gps ++ [g])[i]? = some g' → Routed conf (env i) g'.nodeId := by
  intro i g' hi
  rcases lt_trichotomy i gps.length with hlt | rfl | hgt
  · rw [List.getElem?_append_left hlt] at hi
    exact h i g' hi
  · rw [List.getElem?_concat_length] at hi
    obtain rfl := Option.some.inj hi
    rwa [hlen]
  · rw [List.getElem?_eq_none (by rw [List.length_append, List.length_singleton]; omega)] at hi
    cases hi

theorem SplitRouted.step {cs : List Chunk} {st : SplitState} (h : SplitRouted conf env cs st)
    (c : Chunk) {E : RoutingFault → Prop}
    (hE : (cs ++ [c]).length / defaultGroupSize = st.id + 1 → Stops conf (env st.id) → ∀ e, E e) :
    Post (splitStepRouted d conf env filename st c) (SplitRouted conf env (cs ++ [c])) E := by
  have hid := h.id
  have hopen := h.open_length
  unfold splitStepRouted
  dsimp only
  by_cases hfull : (st.chunkList ++ [c]).length = defaultGroupSize
  · rw [if_pos hfull]
    have hlen : cs.length % defaultGroupSize + 1 = defaultGroupSize := by
      rwa [List.length_append, hopen, List.length_singleton] at hfull
    have hdiv : (cs ++ [c]).length / defaultGroupSize = st.id + 1 := by
      rw [hid, List.length_append, List.length_singleton]
      simp only [defaultGroupSize] at *
      omega
    refine ((post_routeGroup st.id _ _).mono (fun _ hr ↦ hr) fun e he ↦ hE hdiv he e).bind
      fun nodeId hnode ↦ ?_
    refine ⟨hdiv.symm, ?_, ?_, routed_append h.length h.routed hnode⟩
    · rw [List.length_append, List.length_singleton, List.length_nil]
      simp only [defaultGroupSize] at *
      omega
    · rw [List.length_append, List.length_singleton, h.length]
  · rw [if_neg hfull]
    have hlen : cs.length % defaultGroupSize + 1 ≠ defaultGroupSize := by
      rwa [List.length_append, hopen, List.length_singleton] at hfull
    refine ⟨?_, ?_, h.length, h.routed⟩
    · rw [List.length_append, List.length_singleton]
      simp only [defaultGroupSize] at *
      omega
    · simp only [List.length_append, List.length_singleton, hopen, defaultGroupSize] at *
      omega

theorem post_foldlM_splitStepRouted (chunks : List Chunk) :
    Post (chunks.foldlM (splitStepRouted d conf env filename) ⟨[], 0, []⟩)
      (SplitRouted conf env chunks)
      fun _ ↦ ∃ i < groupNum chunks.length, Stops conf (env i) := by
  have hstart : SplitRouted conf env [] ⟨[], 0, []⟩ :=
    ⟨rfl, rfl, rfl, fun i g hi ↦ by simp at hi⟩
  have hloop := Post.foldlM (f := splitStepRouted d conf env filename)
    (I := fun done todo st ↦ done ++ todo = chunks ∧ SplitRouted conf env done st)
    (E := fun _ ↦ ∃ i < groupNum chunks.length, Stops conf (env i)) ?_ chunks [] ⟨[], 0, []⟩
    ⟨rfl, hstart⟩
  · exact hloop.mono (fun st hst ↦ hst.2) fun _ h ↦ h
  · rintro done c todo st ⟨rfl, hst⟩
    refine (hst.step c ?_).mono (fun st' hst' ↦ ⟨by simp, hst'⟩) fun _ h ↦ h
    intro hdiv hstop e
    refine ⟨st.id, ?_, hstop⟩
    simp only [groupNum, List.length_append, List.length_cons, List.length_nil, defaultGroupSize] at *
    omega

theorem post_split2GroupsRouted (chunks : List Chunk) :
    Post (split2GroupsRouted d conf env filename chunks)
      (fun gps ↦ gps.length = groupNum chunks.length ∧
        ∀ i g, gps[i]? = some g → Routed conf (env i) g.nodeId)
      fun _ ↦ ∃ i < groupNum chunks.length, Stops conf (env i) := by
  unfold split2GroupsRouted
  refine (post_foldlM_splitStepRouted chunks).bind fun st hst ↦ ?_
  have hid := hst.id
  have hopen := hst.open_length
  split_ifs with hnil
  · refine ⟨?_, hst.routed⟩
    rw [hnil, List.length_nil] at hopen
    rw [hst.length]
    simp only [groupNum, defaultGroupSize] at *
    omega
  · have hpos := List.length_pos_iff.mpr hnil
    have hnum : groupNum chunks.length = st.id + 1 := by
      simp only [groupNum, defaultGroupSize] at *
      omega
    refine ((post_routeGroup st.id _ _).mono (fun _ hr ↦ hr) fun e he ↦ ?_).bind fun nodeId hnode ↦ ?_
    · exact ⟨st.id, by omega, he⟩
    · refine ⟨?_, routed_append hst.length hst.routed hnode⟩
      rw [List.length_append, List.length_singleton, hst.length, hnum]

/-- The chunks of the group of index `i`. -/
def groupChunks (chunks : List Chunk) (i : ℕ) : List Chunk :=
  (chunks.drop (defaultGroupSize * i)).take defaultGroupSize

variable (d conf env filename)

/-- If the write gets as far as storing a recipe, every group of the recipe is on one of the nodes and
routing has failed for none. -/
def RecipeRoutable (chunks : List Chunk) : Prop :=
  ∀ fr, clientWriteRecipe d conf env filename chunks = .ok fr →
    (∀ m ∈ fr.gm, m.nodeId < conf.nodeNum) ∧
    ∀ i < groupNum chunks.length, conf.statefulRoutingEnabled = true →
      getNodeForStatefulRouting d conf (env i) (sampleUnitList (groupChunks chunks i)) ≠ .ok (-1)

/-- The condition, for a file of `n` groups. With stateless routing there is a node. With stateful
routing no command of any of the calls is refused, or the worker stops. -/
def Routable (n : ℕ) : Prop :=
  if conf.statefulRoutingEnabled = false then n = 0 ∨ 0 < conf.nodeNum
  else (∃ i < n, Stops conf (env i)) ∨ ∀ i < n, ¬Fails conf (env i)

variable {d conf env filename}

theorem Routed.not_stops {env : RoutingEnv} {nodeId : ℕ} (h : Routed conf env nodeId) :
    ¬Stops conf env := by
  rintro ⟨hstate, hlost⟩
  rw [Routed, if_neg (by simp [hstate]), hlost] at h
  rcases h with ⟨h, -⟩ | ⟨h, -⟩ <;> simp at h

theorem Routed.lt_iff {env : RoutingEnv} {nodeId : ℕ} (h : Routed conf env nodeId)
    (hstate : conf.statefulRoutingEnabled = true) : nodeId < conf.nodeNum ↔ ¬Fails conf env := by
  have hnum := conf.nodeNum_lt
  rw [Routed, if_neg (by simp [hstate])] at h
  rcases h with ⟨hbad, rfl⟩ | ⟨hgood, hlt⟩
  · exact iff_of_false (by omega) fun hfails ↦ hfails ⟨hstate, hbad⟩
  · refine iff_of_true hlt ?_
    rintro ⟨-, hbad⟩
    rw [hgood] at hbad
    cases hbad

theorem fails_of_eq_neg_one {env : RoutingEnv} {units : List SampleUnit}
    (hstate : conf.statefulRoutingEnabled = true)
    (h : getNodeForStatefulRouting d conf env units = .ok (-1)) : Fails conf env := by
  rcases Post.ok post_getNodeForStatefulRouting h with ⟨hbad, -⟩ | ⟨-, n, -, hn⟩
  · exact ⟨hstate, hbad⟩
  · omega

theorem post_clientWriteRecipe (chunks : List Chunk) :
    Post (clientWriteRecipe d conf env filename chunks)
      (fun fr ↦ fr.gm.length = groupNum chunks.length ∧
        ∀ i m, fr.gm[i]? = some m → Routed conf (env i) m.nodeId)
      fun _ ↦ ∃ i < groupNum chunks.length, Stops conf (env i) := by
  refine (post_split2GroupsRouted chunks).bind fun gps hgps ↦ ⟨?_, ?_⟩
  · exact (List.length_map _).trans hgps.1
  · intro i m hm
    rw [genFileRecipe, List.getElem?_map] at hm
    obtain ⟨g, hg, rfl⟩ := Option.map_eq_some_iff.mp hm
    exact hgps.2 i g hg

theorem exists_clientWriteRecipe {chunks : List Chunk}
    (h : ∀ i < groupNum chunks.length, ¬Stops conf (env i)) :
    ∃ fr, clientWriteRecipe d conf env filename chunks = .ok fr := by
  cases hfr : clientWriteRecipe d conf env filename chunks with
  | ok fr => exact ⟨fr, rfl⟩
  | error e =>
    obtain ⟨i, hi, hstop⟩ := Post.error (post_clientWriteRecipe chunks) hfr
    exact absurd hstop (h i hi)

theorem recipeRoutable_stateless (hstate : conf.statefulRoutingEnabled = false) (chunks : List Chunk) :
    RecipeRoutable d conf env filename chunks ↔ groupNum chunks.length = 0 ∨ 0 < conf.nodeNum := by
  constructor
  · intro h
    obtain ⟨fr, hfr⟩ : ∃ fr, clientWriteRecipe d conf env filename chunks = .ok fr := by
      refine exists_clientWriteRecipe fun i _ hstop ↦ ?_
      rw [hstop.1] at hstate
      cases hstate
    obtain ⟨hlen, -⟩ := Post.ok (post_clientWriteRecipe chunks) hfr
    cases hgm : fr.gm with
    | nil =>
      rw [hgm] at hlen
      exact .inl hlen.symm
    | cons m ms =>
      have hlt := (h fr hfr).1 m (by rw [hgm]; exact List.mem_cons_self)
      exact .inr (by omega)
  · intro h fr hfr
    obtain ⟨hlen, hrouted⟩ := Post.ok (post_clientWriteRecipe chunks) hfr
    refine ⟨fun m hm ↦ ?_, fun i _ hstate' ↦ absurd (hstate.symm.trans hstate') (by decide)⟩
    obtain ⟨i, hi⟩ := List.getElem?_of_mem hm
    have hm' := hrouted i m hi
    rw [Routed, if_pos hstate] at hm'
    have hpos : 0 < fr.gm.length := List.length_pos_of_mem hm
    omega

theorem recipeRoutable_stateful (hstate : conf.statefulRoutingEnabled = true) (chunks : List Chunk) :
    RecipeRoutable d conf env filename chunks ↔
      (∃ i < groupNum chunks.length, Stops conf (env i)) ∨
        ∀ i < groupNum chunks.length, ¬Fails conf (env i) := by
  constructor
  · intro h
    by_cases hstops : ∃ i < groupNum chunks.length, Stops conf (env i)
    · exact .inl hstops
    · refine .inr fun i hi ↦ ?_
      obtain ⟨fr, hfr⟩ : ∃ fr, clientWriteRecipe d conf env filename chunks = .ok fr :=
        exists_clientWriteRecipe fun i hi hstop ↦ hstops ⟨i, hi, hstop⟩
      obtain ⟨hlen, hrouted⟩ := Post.ok (post_clientWriteRecipe chunks) hfr
      rw [← hlen] at hi
      have hm := hrouted i fr.gm[i] (List.getElem?_eq_getElem hi)
      exact (hm.lt_iff hstate).mp ((h fr hfr).1 _ (List.getElem_mem hi))
  · intro h fr hfr
    obtain ⟨hlen, hrouted⟩ := Post.ok (post_clientWriteRecipe chunks) hfr
    have hfails : ∀ i < groupNum chunks.length, ¬Fails conf (env i) := by
      refine h.resolve_left ?_
      rintro ⟨i, hi, hstop⟩
      rw [← hlen] at hi
      exact (hrouted i fr.gm[i] (List.getElem?_eq_getElem hi)).not_stops hstop
    refine ⟨fun m hm ↦ ?_, fun i hi _ hret ↦ hfails i hi (fails_of_eq_neg_one hstate hret)⟩
    obtain ⟨i, hi⟩ := List.getElem?_of_mem hm
    refine ((hrouted i m hi).lt_iff hstate).mpr (hfails i ?_)
    obtain ⟨hi, -⟩ := List.getElem?_eq_some_iff.mp hi
    omega

/-- **A stored recipe is routable exactly when no command of the routing calls was refused.** -/
theorem recipeRoutable_iff (chunks : List Chunk) :
    RecipeRoutable d conf env filename chunks ↔ Routable conf env (groupNum chunks.length) := by
  rw [Routable]
  split_ifs with hstate
  · exact recipeRoutable_stateless hstate chunks
  · exact recipeRoutable_stateful (by simpa using hstate) chunks

end Store

def exactScoring : Scoring ℚ where
  zero := 0
  score m s g p t := m * (s / g) * (p / t)
  gt a b := a > b
  eq a b := a == b

def oneNode : Config := ⟨1, by decide, false, true, [1]⟩

/-- Redis knows no feature, and refuses `sadd`. -/
def readOnlyRedis : RoutingEnv := ⟨true, fun _ ↦ .array [], true, .error, 0⟩

/-- A file of one chunk, when Redis takes no writes: the recipe has the node `2 ^ 64 - 1`. -/
theorem not_recipeRoutable_readOnly :
    ¬RecipeRoutable exactScoring oneNode (fun _ ↦ readOnlyRedis) ['a'] [⟨Fingerprint.fill 0, [0]⟩] := by
  rw [recipeRoutable_iff, Routable, if_neg (by decide)]
  rintro (⟨i, -, hstop⟩ | h)
  · exact absurd hstop.2 (by decide)
  · exact h 0 (by decide) ⟨rfl, by decide⟩

end UniDedup.Client.Routing
