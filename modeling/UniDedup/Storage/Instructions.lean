import Mathlib.Algebra.BigOperators.Group.Finset.Basic
import UniDedup.Storage.CommandSizes
import UniDedup.Storage.Decoding
import UniDedup.Storage.Reconstruct

/-!
# The messages of the coordinator

The coordinator makes commands and tasks of a graph and sends them, and for a degraded read it also sends the client an
instruction, in a buffer of 1024 bytes: which sub-packets to read, or where to fetch what is repaired. No function that
writes a message looks at the size of its buffer. Whether all messages of an operation fit is decided by the graph and
by the lengths of the names.

## The proof

The length of a message is a function of the node it is made for, so `Small` says in numbers of children, targets
and leaves what `AllFit` says of the writers. That the two agree does not use how the graph came about, only that
its rows fit its children (`Regular`). The codes that join whole blocks then need a bound on the name of the stripe
and on `w` (`JoinPlan.allFit`).
-/

namespace UniDedup.Storage

open Codec Wire

/-- The size of the buffer of an instruction. -/
def instructionLen : ℕ := 1024

/-! ## Instructions -/

/-- The instruction of `onlineDegradedInst`: `|loadn|loadidx|computen|`. -/
def writeOnlineDegradedInst (loadidx : List ℕ) (computen : ℕ) : Program Unit := do
  writeInt (size loadidx)
  loadidx.forM fun tmpidx ↦ writeInt (wireInt tmpidx)
  writeInt (wireInt computen)

/-- The instruction of `optOfflineDegrade`: `|opt|stripename|num|key-ip|key-ip|...|`. -/
def writeOptOfflineDegrade (opt : ℕ) (stripename : Bytes) (rootinfo : List (ℕ × ℕ)) : Program Unit := do
  writeInt (wireInt opt)
  writeString stripename
  writeInt (size rootinfo)
  rootinfo.forM fun curpair ↦ do
    writeInt (wireInt curpair.1)
    writeInt (wireInt curpair.2)

/-- The instruction of `nonOptOfflineDegrade`: `|opt|lostidx|ecn|eck|ecw|loadn|loadidx-objname|cidnum|cidxs|..|computen|`,
where a load is a block with its leaves. -/
def writeNonOptOfflineDegrade (opt : ℤ) (lostidx ecn eck ecw : ℕ) (objname : ℕ → Bytes) (loads : List (ℕ × List ℕ))
    (computen : ℕ) : Program Unit := do
  writeInt (.ofInt 32 opt)
  writeInt (wireInt lostidx)
  writeInt (wireInt ecn)
  writeInt (wireInt eck)
  writeInt (wireInt ecw)
  writeInt (size loads)
  loads.forM fun load ↦ do
    writeInt (wireInt load.1)
    writeString (objname load.1)
    writeInt (size load.2)
    load.2.forM fun curcid ↦ writeInt (wireInt curcid)
  writeInt (wireInt computen)

/-- `loadidx` of `onlineDegradedInst`: the blocks of the leaves, and the data blocks that are there. -/
def onlineLoads (leaves : List ℕ) (eck ecw : ℕ) (corruptIdx : List ℕ) : List ℕ :=
  let loadidx := (leaves.map (· / ecw)).foldl addIdx []
  (((List.range eck).filter (· ∉ corruptIdx)).foldl addIdx loadidx).insertionSort (· ≤ ·)

theorem ClientCode.onlineDegradedInst_fst (c : ClientCode) (corruptIdx : List ℕ) :
    (c.onlineDegradedInst corruptIdx).1 =
      onlineLoads (c.decode (blockSubPackets c.w ((List.range c.n).filter (· ∉ corruptIdx)))
        (blockSubPackets c.w ((List.range c.k).filter (· ∈ corruptIdx)))).getLeaves c.k c.w corruptIdx :=
  rfl

/-- One turn of the loop of `nonOptOfflineDegrade` over the leaves, with `loadidx` and `sid2Cids`. -/
def addLeaf (ecw : ℕ) (loads : List (ℕ × List ℕ)) (leaf : ℕ) : List (ℕ × List ℕ) :=
  if leaf / ecw ∈ loads.map Prod.fst then
    loads.map fun load ↦ if load.1 = leaf / ecw then (load.1, load.2 ++ [leaf]) else load
  else loads ++ [(leaf / ecw, [leaf])]

def offlineLoads (leaves : List ℕ) (ecw : ℕ) : List (ℕ × List ℕ) := leaves.foldl (addLeaf ecw) []

/-! ## Operations -/

/-- All commands that `parseForOEC` builds: those of the nodes, and the loads it merges. -/
def ECDAG.builtCmds (dag : ECDAG) (order : List ℕ) (cid2ip : ℕ → ℕ) (n w : ℕ) : List AGCommand :=
  (dag.countHeaders.parseTurns order w cid2ip).agCmds.map Prod.snd ++ dag.agCmds order cid2ip n w

/-- An operation of the coordinator, on the graph it has made by `Encode` or `Decode` and by its optimizations. The
nodes of the map are run through in the given order. -/
inductive Operation
  | registerOnlineEC (dag : ECDAG) (order : List ℕ)
  /-- `offlineEnc`, `recoveryOnline`, `recoveryOffline`, `recoveryOfflineDelay` and `coorBenchmark`. -/
  | encodeOrRecover (dag : ECDAG) (order : List ℕ) (s : StripeNames) (n : ℕ) (cid2ip objIp : ℕ → ℕ)
  /-- `onlineDegradedInst`. -/
  | onlineDegraded (dag : ECDAG) (order : List ℕ) (eck ecw : ℕ) (corruptIdx : List ℕ)
  | optOfflineDegrade (dag : ECDAG) (order : List ℕ) (s : StripeNames) (n : ℕ) (cid2ip : ℕ → ℕ) (opt : ℕ)
  | nonOptOfflineDegrade (dag : ECDAG) (order : List ℕ) (s : StripeNames) (ecn eck : ℕ) (opt : ℤ) (lostidx : ℕ)

namespace Operation

/-- All messages of the operation fit into their buffers. -/
def AllFit : Operation → Prop
  | registerOnlineEC dag order => ∀ task ∈ dag.computeTasks order, Fits Wire.maxCommandLen task.toWire.build
  | encodeOrRecover dag order s n cid2ip objIp =>
    ∀ cmd ∈ dag.builtCmds order cid2ip n s.w ++ dag.persistCmds order cid2ip objIp s.w,
      Fits Wire.maxCommandLen (cmd.toWire s).build
  | onlineDegraded dag order eck ecw corruptIdx =>
    (∀ task ∈ dag.computeTasks order, Fits Wire.maxCommandLen task.toWire.build) ∧
    Fits instructionLen (writeOnlineDegradedInst (onlineLoads dag.getLeaves eck ecw corruptIdx)
      (dag.computeTasks order).length)
  | optOfflineDegrade dag order s n cid2ip opt =>
    (∀ cmd ∈ dag.builtCmds order cid2ip n s.w, Fits Wire.maxCommandLen (cmd.toWire s).build) ∧
    Fits instructionLen (writeOptOfflineDegrade opt s.stripename
      ((dag.headers.insertionSort (· ≤ ·)).map fun cid ↦
        (cid, (dag.countHeaders.parseTurns order s.w cid2ip).nodeIp cid)))
  | nonOptOfflineDegrade dag order s ecn eck opt lostidx =>
    (∀ task ∈ dag.computeTasks order, Fits Wire.maxCommandLen task.toWire.build) ∧
    Fits instructionLen (writeNonOptOfflineDegrade opt lostidx ecn eck s.w s.objname
      (offlineLoads dag.getLeaves s.w) (dag.computeTasks order).length)

end Operation

/-! ## Commands and tasks of a graph -/

namespace ECDAG

/-- What holds of the graphs of all codes: the numbers are `int`s, and a row has a coefficient for each child. -/
structure Regular (S : ℕ → Option Shape) : Prop where
  childs : ∀ id cs M, S id = some (cs, M) → cs.length < 2 ^ 31
  targets : ∀ id cs M, S id = some (cs, M) → ∀ t ∈ M, t < 2 ^ 31
  rows : ∀ id cs M, S id = some (cs, M) → ∀ t co, M.lookup t = some co → co.length = cs.length

/-- The messages for the tasks of the sorted nodes are small enough for their buffers. -/
def SmallTasks (dag : ECDAG) (order : List ℕ) : Prop :=
  ∀ id ∈ dag.toposort order, ∀ nd, dag.nodes.lookup id = some nd → dag.computebool nd →
    taskLength nd.childNodes.length nd.coefMap.keys.length ≤ Wire.maxCommandLen

/-- The blocks that `persist` writes, one for `w` headers. -/
def persisted (dag : ECDAG) (w : ℕ) : List ℕ :=
  (List.range (dag.headers.length / w)).map fun i ↦ (dag.headers.insertionSort (· ≤ ·)).getD (i * w) 0 / w

section Graph

variable {dag : ECDAG} {order : List ℕ} {s : StripeNames} {n : ℕ}

theorem rows_of_formed (h : Formed dag) {id : ℕ} {cs : List ℕ} {M : CoefMap}
    (hS : dag.shape id = some (cs, M)) {t : ℕ} {co : List GF256} (ht : M.lookup t = some co) :
    co.length = cs.length := by
  cases h.role id _ hS with
  | leaf => exact absurd ht.symm (Option.some_ne_none co)
  | own hne hlen =>
    rw [lookup_singleton] at ht
    split at ht
    · rw [← Option.some.inj ht, hlen]
    · exact absurd ht.symm (Option.some_ne_none co)
  | bound =>
    rw [lookup_singleton] at ht
    split at ht
    · rw [← Option.some.inj ht]
      rfl
    · exact absurd ht.symm (Option.some_ne_none co)
  | bind _ _ _ hlen => exact hlen t co ht

theorem computeTasks_fit_iff (hreg : Regular dag.shape) :
    (∀ task ∈ dag.computeTasks order, Fits Wire.maxCommandLen task.toWire.build) ↔ SmallTasks dag order := by
  have htask : ∀ {id nd}, dag.nodes.lookup id = some nd →
      (Fits Wire.maxCommandLen (ComputeTask.toWire ⟨nd.childNodes, nd.coefMap⟩).build ↔
        taskLength nd.childNodes.length nd.coefMap.keys.length ≤ Wire.maxCommandLen) :=
    fun hnd ↦ ComputeTask.fits_iff (hreg.targets _ _ _ (shape_of_lookup hnd))
      (hreg.rows _ _ _ (shape_of_lookup hnd))
  constructor
  · intro hall id hid nd hnd hcompute
    refine (htask hnd).mp (hall _ (List.mem_filterMap.mpr ⟨id, hid, ?_⟩))
    rw [parseForClient, hnd, Option.bind_some, if_pos hcompute]
  · intro hsmall task htask'
    obtain ⟨id, hid, hparse⟩ := List.mem_filterMap.mp htask'
    obtain ⟨nd, hnd, hif⟩ := Option.bind_eq_some_iff.mp hparse
    split at hif
    · next hcompute =>
      obtain rfl := Option.some.inj hif
      exact (htask hnd).mpr (hsmall id hid nd hnd hcompute)
    · exact absurd hif.symm (Option.some_ne_none task)

theorem mem_nodes_of_toposort (horder : order.Perm dag.nodes.keys) {id : ℕ} (hid : id ∈ dag.toposort order) :
    id ∈ dag.nodes := by
  obtain ⟨-, hsubset, -⟩ := Toposort.toposort_spec dag.childs (horder.nodup_iff.mpr dag.nodes.keys_nodup)
  exact AList.mem_keys.mpr (horder.mem_iff.mp (hsubset hid))

/-- The commands before the loads are merged, as the shape of the graph has them. -/
theorem forall₂_agCmds (horder : order.Perm dag.nodes.keys) (w : ℕ) (cid2ip : ℕ → ℕ) :
    List.Forall₂ (Entry dag.shape w) (dag.countHeaders.parseTurns order w cid2ip).agCmds
      ((dag.toposort order).filter (commanded dag.shape)) := by
  have hshape := shape_countHeaders dag
  have hsorted : dag.countHeaders.toposort order = dag.toposort order := by
    rw [toposort, childs_congr hshape]
    rfl
  have hparse := @forall₂_parseTurns dag.countHeaders w cid2ip order fun id hid ↦
    (nodes_congr hshape id).mpr (mem_nodes_of_toposort horder (hsorted ▸ hid))
  rwa [hshape, hsorted] at hparse

theorem writable_builtCmds (hreg : Regular dag.shape) (horder : order.Perm dag.nodes.keys) {cid2ip : ℕ → ℕ}
    {cmd : AGCommand} (hcmd : cmd ∈ dag.builtCmds order cid2ip n s.w) : cmd.Writable s := by
  have hentries := forall₂_agCmds horder s.w cid2ip
  have hnode : ∀ x ∈ (dag.countHeaders.parseTurns order s.w cid2ip).agCmds, x.2.Writable s := by
    intro x hx
    obtain ⟨id, -, -, hof⟩ := hentries.exists_of_mem_left hx
    generalize x.2 = cmd at hof
    cases hof with
    | load => exact trivial
    | compute hS hne hprevs =>
      have hlen := congrArg List.length hprevs
      rw [List.length_map] at hlen
      rw [AGCommand.Writable, hlen]
      exact ⟨hreg.childs _ _ _ hS, hreg.targets _ _ _ hS, hreg.rows _ _ _ hS⟩
  rcases List.mem_append.mp hcmd with hcmd | hcmd
  · obtain ⟨x, hx, rfl⟩ := List.mem_map.mp hcmd
    exact hnode x hx
  · rcases (mem_mergeLoads_iff hentries).mp hcmd with ⟨x, hx, -, rfl⟩ | ⟨sid, hm, hleaf, hgroup⟩
    · exact hnode x hx
    · obtain ⟨ip, cids, refs, hload⟩ := exists_load_of_hasLeaf hentries hm.2 hleaf
      obtain rfl := Option.some.inj (hgroup.symm.trans hload.1)
      exact trivial

/-- **The commands of `parseForOEC` fit** exactly when the nodes are small. -/
theorem builtCmds_fit_iff (hs : s.Short) (hreg : Regular dag.shape) (horder : order.Perm dag.nodes.keys)
    (cid2ip : ℕ → ℕ) :
    (∀ cmd ∈ dag.builtCmds order cid2ip n s.w, Fits Wire.maxCommandLen (cmd.toWire s).build) ↔
      SmallNodes dag.shape (dag.toposort order) s n := by
  refine Iff.trans ?_ (forall_builtCmds_iff (forall₂_agCmds horder s.w cid2ip))
  exact forall₂_congr fun cmd hcmd ↦ AGCommand.fits_iff hs (writable_builtCmds hreg horder hcmd)

/-- **The commands of `persist` fit** exactly when the names of the blocks are short enough. -/
theorem persistCmds_fit_iff (hs : s.Short) (hw : s.w < 2 ^ 31) (order : List ℕ) (cid2ip objIp : ℕ → ℕ) :
    (∀ cmd ∈ dag.persistCmds order cid2ip objIp s.w, Fits Wire.maxCommandLen (cmd.toWire s).build) ↔
      ∀ sid ∈ dag.persisted s.w, s.blockLength sid s.w ≤ Wire.maxCommandLen := by
  rw [persistCmds, persisted, List.forall_mem_map, List.forall_mem_map, List.length_insertionSort]
  refine forall₂_congr fun i _ ↦ ?_
  dsimp only
  rw [AGCommand.fits_iff hs, AGCommand.messageLength, List.length_map, List.length_range]
  exact ⟨hw, by rw [List.length_map, List.length_range]⟩

end Graph

end ECDAG

/-! ## The lengths of instructions -/

theorem wireInts_length (ids : List ℕ) : (ids.flatMap fun id ↦ intBytes (wireInt id)).length = 4 * ids.length := by
  rw [length_flatMap_of_eq fun id _ ↦ length_intBytes (wireInt id), Nat.mul_comm]

theorem onlineDegradedInst_fits_iff (loadidx : List ℕ) (computen : ℕ) :
    Fits instructionLen (writeOnlineDegradedInst loadidx computen) ↔ 8 + 4 * loadidx.length ≤ instructionLen := by
  have hloop : Fills (loadidx.forM fun tmpidx ↦ writeInt (wireInt tmpidx))
      (loadidx.flatMap fun id ↦ intBytes (wireInt id)) () := Fills.forM fun _ _ ↦ fills_int _
  refine ((fills_int (size loadidx)).bind (hloop.bind (fills_int (wireInt computen)))).encode_iff.trans ?_
  rw [List.length_append, List.length_append, length_intBytes, length_intBytes, wireInts_length]
  omega

theorem optOfflineDegrade_fits_iff {stripename : Bytes} (hs : stripename.length < 2 ^ 31) (opt : ℕ)
    (rootinfo : List (ℕ × ℕ)) :
    Fits instructionLen (writeOptOfflineDegrade opt stripename rootinfo) ↔
      12 + stripename.length + 8 * rootinfo.length ≤ instructionLen := by
  have hloop : Fills (rootinfo.forM fun curpair ↦ do
      writeInt (wireInt curpair.1)
      writeInt (wireInt curpair.2))
      (rootinfo.flatMap fun p ↦ intBytes (wireInt p.1) ++ intBytes (wireInt p.2)) () :=
    Fills.forM fun p _ ↦ (fills_int (wireInt p.1)).bind (fills_int (wireInt p.2))
  have hlength : (rootinfo.flatMap fun p ↦ intBytes (wireInt p.1) ++ intBytes (wireInt p.2)).length =
      rootinfo.length * 8 :=
    length_flatMap_of_eq fun p _ ↦ by rw [List.length_append, length_intBytes, length_intBytes]
  refine ((fills_int (wireInt opt)).bind ((fills_string hs).bind
    ((fills_int (size rootinfo)).bind hloop))).encode_iff.trans ?_
  rw [List.length_append, List.length_append, List.length_append, length_intBytes, length_intBytes,
    length_stringBytes, hlength]
  omega

theorem nonOptOfflineDegrade_fits_iff {objname : ℕ → Bytes} (ho : ∀ sid, (objname sid).length < 2 ^ 31) (opt : ℤ)
    (lostidx ecn eck ecw : ℕ) (loads : List (ℕ × List ℕ)) (computen : ℕ) :
    Fits instructionLen (writeNonOptOfflineDegrade opt lostidx ecn eck ecw objname loads computen) ↔
      28 + (loads.map fun load ↦ 12 + (objname load.1).length + 4 * load.2.length).sum ≤ instructionLen := by
  let bytesOf := fun load : ℕ × List ℕ ↦ intBytes (wireInt load.1) ++ (stringBytes (objname load.1) ++
    (intBytes (size load.2) ++ load.2.flatMap fun id ↦ intBytes (wireInt id)))
  have hloop : Fills (loads.forM fun load ↦ do
      writeInt (wireInt load.1)
      writeString (objname load.1)
      writeInt (size load.2)
      load.2.forM fun curcid ↦ writeInt (wireInt curcid)) (loads.flatMap bytesOf) () :=
    Fills.forM fun load _ ↦ (fills_int _).bind ((fills_string (ho load.1)).bind
      ((fills_int _).bind (Fills.forM fun _ _ ↦ fills_int _)))
  have hlength : (loads.flatMap bytesOf).length =
      (loads.map fun load ↦ 12 + (objname load.1).length + 4 * load.2.length).sum := by
    rw [List.length_flatMap]
    refine congrArg List.sum (List.map_congr_left fun load _ ↦ ?_)
    simp only [bytesOf, List.length_append, length_intBytes, length_stringBytes, wireInts_length]
    omega
  refine ((fills_int _).bind ((fills_int _).bind ((fills_int _).bind ((fills_int _).bind ((fills_int _).bind
    ((fills_int _).bind (hloop.bind (fills_int _)))))))).encode_iff.trans ?_
  simp only [List.length_append, length_intBytes, hlength]
  omega

/-! ## What the loops over the leaves make -/

def ECDAG.leafBlocks (dag : ECDAG) (w : ℕ) : Finset ℕ := (dag.getLeaves.map (· / w)).toFinset

theorem foldl_addIdx (xs : List ℕ) {l : List ℕ} (h : l.Nodup) :
    (xs.foldl addIdx l).Nodup ∧ (xs.foldl addIdx l).toFinset = l.toFinset ∪ xs.toFinset := by
  induction xs generalizing l with
  | nil => exact ⟨h, by rw [List.foldl_nil, List.toFinset_nil, Finset.union_empty]⟩
  | cons x xs ih =>
    have hadd : (addIdx l x).Nodup ∧ (addIdx l x).toFinset = insert x l.toFinset := by
      rw [addIdx]
      split_ifs with hx
      · exact ⟨h, (Finset.insert_eq_of_mem (List.mem_toFinset.mpr hx)).symm⟩
      · refine ⟨List.nodup_append.mpr ⟨h, List.nodup_singleton x, fun a ha b hb hab ↦ ?_⟩, ?_⟩
        · rw [List.mem_singleton] at hb
          exact hx (hb ▸ hab ▸ ha)
        · rw [List.toFinset_append, List.toFinset_cons, List.toFinset_nil, Finset.union_comm, Finset.insert_union,
            Finset.empty_union]
    obtain ⟨hnodup, heq⟩ := ih hadd.1
    refine ⟨hnodup, ?_⟩
    rw [List.foldl_cons, heq, hadd.2, List.toFinset_cons, Finset.insert_union, Finset.union_insert]

theorem length_onlineLoads (leaves : List ℕ) (eck ecw : ℕ) (corruptIdx : List ℕ) :
    (onlineLoads leaves eck ecw corruptIdx).length =
      ((leaves.map (· / ecw)).toFinset ∪ ((List.range eck).filter (· ∉ corruptIdx)).toFinset).card := by
  obtain ⟨hnodup, heq⟩ := foldl_addIdx (leaves.map (· / ecw)) List.nodup_nil
  obtain ⟨hnodup', heq'⟩ := foldl_addIdx ((List.range eck).filter (· ∉ corruptIdx)) hnodup
  rw [onlineLoads, List.length_insertionSort, ← List.toFinset_card_of_nodup hnodup', heq', heq, List.toFinset_nil,
    Finset.empty_union]

/-- One more leaf in the loads: its block is there, and there is one number more. -/
structure Loads (ecw : ℕ) (leaves : List ℕ) (loads : List (ℕ × List ℕ)) : Prop where
  nodup : (loads.map Prod.fst).Nodup
  blocks : (loads.map Prod.fst).toFinset = (leaves.map (· / ecw)).toFinset
  cids : (loads.map fun load ↦ load.2.length).sum = leaves.length

theorem sum_length_append {loads : List (ℕ × List ℕ)} (hnodup : (loads.map Prod.fst).Nodup) {sid : ℕ}
    (hsid : sid ∈ loads.map Prod.fst) (leaf : ℕ) :
    ((loads.map fun load ↦ if load.1 = sid then (load.1, load.2 ++ [leaf]) else load).map
      fun load ↦ load.2.length).sum = (loads.map fun load ↦ load.2.length).sum + 1 := by
  induction loads with
  | nil => exact absurd hsid List.not_mem_nil
  | cons load loads ih =>
    rw [List.map_cons, List.nodup_cons] at hnodup
    rw [List.map_cons, List.map_cons, List.sum_cons, List.map_cons, List.sum_cons]
    by_cases hload : load.1 = sid
    · -- the other lists are not changed
      have hrest : (loads.map fun load ↦ if load.1 = sid then (load.1, load.2 ++ [leaf]) else load) = loads := by
        refine (List.map_congr_left fun load' hload' ↦ ?_).trans (List.map_id loads)
        have hne : load'.1 ≠ sid := fun h ↦ hnodup.1 (List.mem_map.mpr ⟨load', hload', h.trans hload.symm⟩)
        exact if_neg hne
      rw [if_pos hload, hrest, List.length_append, List.length_singleton]
      omega
    · rw [if_neg hload, ih hnodup.2 ((List.mem_cons.mp hsid).resolve_left fun h ↦ hload h.symm)]
      omega

theorem Loads.addLeaf {ecw : ℕ} {leaves : List ℕ} {loads : List (ℕ × List ℕ)} (h : Loads ecw leaves loads)
    (leaf : ℕ) : Loads ecw (leaves ++ [leaf]) (addLeaf ecw loads leaf) := by
  have hblocks : ((leaves ++ [leaf]).map (· / ecw)).toFinset = insert (leaf / ecw) (loads.map Prod.fst).toFinset := by
    rw [h.blocks, List.map_append, List.toFinset_append, List.map_singleton, List.toFinset_cons, List.toFinset_nil,
      Finset.union_comm, Finset.insert_union, Finset.empty_union]
  rw [Storage.addLeaf]
  split_ifs with hin
  · have hkeys : (loads.map fun load ↦ if load.1 = leaf / ecw then (load.1, load.2 ++ [leaf]) else load).map
        Prod.fst = loads.map Prod.fst := by
      rw [List.map_map]
      refine List.map_congr_left fun load _ ↦ ?_
      rw [Function.comp_apply]
      split_ifs <;> rfl
    refine ⟨hkeys ▸ h.nodup, ?_, ?_⟩
    · rw [hkeys, hblocks, Finset.insert_eq_of_mem (List.mem_toFinset.mpr hin)]
    · rw [sum_length_append h.nodup hin, h.cids, List.length_append, List.length_singleton]
  · refine ⟨?_, ?_, ?_⟩
    · rw [List.map_append, List.map_singleton]
      refine List.nodup_append.mpr ⟨h.nodup, List.nodup_singleton _, fun a ha b hb hab ↦ ?_⟩
      rw [hab, List.mem_singleton.mp hb] at ha
      exact hin ha
    · rw [hblocks, List.map_append, List.toFinset_append, List.map_singleton, List.toFinset_cons, List.toFinset_nil,
        Finset.union_comm, Finset.insert_union, Finset.empty_union]
    · rw [List.map_append, List.sum_append, h.cids, List.length_append]
      rfl

theorem loads_offlineLoads (leaves : List ℕ) (ecw : ℕ) : Loads ecw leaves (offlineLoads leaves ecw) := by
  induction leaves using List.reverseRecOn with
  | nil => exact ⟨List.nodup_nil, rfl, rfl⟩
  | append_singleton leaves leaf ih =>
    rw [offlineLoads, List.foldl_append, List.foldl_cons, List.foldl_nil]
    exact ih.addLeaf leaf

theorem sum_offlineLoads (leaves : List ℕ) (ecw : ℕ) (objname : ℕ → Bytes) :
    ((offlineLoads leaves ecw).map fun load ↦ 12 + (objname load.1).length + 4 * load.2.length).sum =
      ∑ sid ∈ (leaves.map (· / ecw)).toFinset, (12 + (objname sid).length) + 4 * leaves.length := by
  obtain ⟨hnodup, hblocks, hcids⟩ := loads_offlineLoads leaves ecw
  rw [List.sum_map_add, List.sum_map_mul_left, hcids, ← hblocks, List.sum_toFinset _ hnodup, List.map_map]
  rfl

/-! ## When the messages fit -/

namespace Operation

/-- The values are of the types of the source, and the nodes of the map are run through once. -/
def Typed : Operation → Prop
  | registerOnlineEC dag _ => ECDAG.Regular dag.shape
  | encodeOrRecover dag order s _ _ _ => ECDAG.Regular dag.shape ∧ order.Perm dag.nodes.keys ∧ s.Short ∧ s.w < 2 ^ 31
  | onlineDegraded dag _ _ _ _ => ECDAG.Regular dag.shape
  | optOfflineDegrade dag order s _ _ _ => ECDAG.Regular dag.shape ∧ order.Perm dag.nodes.keys ∧ s.Short
  | nonOptOfflineDegrade dag _ s _ _ _ _ => ECDAG.Regular dag.shape ∧ s.Short

/-- The condition on the graph and the names. A node with `c` children and `t` targets is computed with a message of
about `4 * c * t` bytes, and a block is read, fetched or written with one of about eight bytes for a sub-packet. The
instruction of `nonOptOfflineDegrade` has the name of every block with a leaf. -/
def Small : Operation → Prop
  | registerOnlineEC dag order => dag.SmallTasks order
  | encodeOrRecover dag order s n _ _ => ECDAG.SmallNodes dag.shape (dag.toposort order) s n ∧
    ∀ sid ∈ dag.persisted s.w, s.blockLength sid s.w ≤ Wire.maxCommandLen
  | onlineDegraded dag order eck ecw corruptIdx => dag.SmallTasks order ∧
    8 + 4 * (dag.leafBlocks ecw ∪ ((List.range eck).filter (· ∉ corruptIdx)).toFinset).card ≤ instructionLen
  | optOfflineDegrade dag order s n _ _ => ECDAG.SmallNodes dag.shape (dag.toposort order) s n ∧
    12 + s.stripename.length + 8 * dag.headers.length ≤ instructionLen
  | nonOptOfflineDegrade dag order s _ _ _ _ => dag.SmallTasks order ∧
    28 + (∑ sid ∈ dag.leafBlocks s.w, (12 + (s.objname sid).length) + 4 * dag.getLeaves.length) ≤ instructionLen

/-- **The messages of an operation fit into their buffers exactly when its graph and its names are small**: every
command of `parseForOEC` and `persist` and every task into `MAX_COMMAND_LEN` bytes, and the instruction for the client
into its 1024 bytes. -/
theorem allFit_iff (op : Operation) (h : op.Typed) : op.AllFit ↔ op.Small := by
  cases op with
  | registerOnlineEC dag order => exact ECDAG.computeTasks_fit_iff h
  | encodeOrRecover dag order s n cid2ip objIp =>
    obtain ⟨hreg, horder, hs, hw⟩ := h
    rw [AllFit, Small, List.forall_mem_append, ECDAG.builtCmds_fit_iff hs hreg horder,
      ECDAG.persistCmds_fit_iff hs hw]
  | onlineDegraded dag order eck ecw corruptIdx =>
    rw [AllFit, Small, ECDAG.computeTasks_fit_iff h, onlineDegradedInst_fits_iff, length_onlineLoads,
      ECDAG.leafBlocks]
  | optOfflineDegrade dag order s n cid2ip opt =>
    obtain ⟨hreg, horder, hs⟩ := h
    rw [AllFit, Small, ECDAG.builtCmds_fit_iff hs hreg horder, optOfflineDegrade_fits_iff hs.stripename,
      List.length_map, List.length_insertionSort]
  | nonOptOfflineDegrade dag order s ecn eck opt lostidx =>
    obtain ⟨hreg, hs⟩ := h
    rw [AllFit, Small, ECDAG.computeTasks_fit_iff hreg, nonOptOfflineDegrade_fits_iff hs.objname, sum_offlineLoads,
      ECDAG.leafBlocks]

/-- A degraded read of a stripe of three blocks with short names. -/
theorem allFit_iff_short : (nonOptOfflineDegrade ((({} : ECDAG).join 0 [1, 2] [1, 1])) [0, 1, 2]
      ⟨[115], 1, 1, fun _ ↦ [97]⟩ 3 2 (-1) 0).AllFit ↔
    (nonOptOfflineDegrade ((({} : ECDAG).join 0 [1, 2] [1, 1])) [0, 1, 2] ⟨[115], 1, 1, fun _ ↦ [97]⟩ 3 2 (-1)
      0).Small := by
  have hshape : ∀ id cs M, (({} : ECDAG).join 0 [1, 2] [1, 1]).shape id = some (cs, M) →
      cs = [1, 2] ∧ M = (AList.singleton 0 [1, 1] : CoefMap) ∨ cs = [] ∧ M = ∅ := by
    intro id cs M hS
    rw [ECDAG.shape_join] at hS
    split_ifs at hS
    · exact .inl (Prod.mk.inj (Option.some.inj hS.symm))
    · exact .inr (Prod.mk.inj (Option.some.inj hS.symm))
    · exact absurd hS.symm (Option.some_ne_none _)
  refine allFit_iff _ ⟨⟨fun id cs M hS ↦ ?_, fun id cs M hS t ht ↦ ?_, fun id cs M hS t co ht ↦ ?_⟩,
    by decide, fun _ ↦ show 1 < 2 ^ 31 by decide⟩
  · rcases hshape id cs M hS with ⟨rfl, -⟩ | ⟨rfl, -⟩ <;> decide
  · rcases hshape id cs M hS with ⟨-, rfl⟩ | ⟨-, rfl⟩
    · rw [List.mem_singleton.mp ht]
      decide
    · exact absurd ht (AList.notMem_empty t)
  · rcases hshape id cs M hS with ⟨rfl, rfl⟩ | ⟨-, rfl⟩
    · rw [ECDAG.lookup_singleton] at ht
      split_ifs at ht
      rw [← Option.some.inj ht]
      rfl
    · exact absurd ht.symm (Option.some_ne_none co)

/-- The names of a stripe's objects, of 255 bytes. -/
def longName (sid : ℕ) : Bytes := UInt8.ofNat sid :: List.replicate 254 97

/-- **The instruction for a degraded read does not fit** when `RSCONV` has four data blocks whose objects have names of
255 bytes. -/
theorem not_allFit_longName : ∃ dag,
    RSCONV.decode (· * ·) inverseCells ⟨5, 4, 1, fun _ ↦ 0⟩ [1, 2, 3, 4] [0] = some dag ∧
      ¬(nonOptOfflineDegrade dag dag.nodes.keys ⟨[115], 1, 1, longName⟩ 5 4 (-1) 0).AllFit := by
  have hdecode : (RSCONV.decode (· * ·) inverseCells ⟨5, 4, 1, fun _ ↦ 0⟩ [1, 2, 3, 4] [0]).map ECDAG.getLeaves =
      some [1, 2, 3, 4] := by
    decide +kernel
  obtain ⟨dag, hdag, hleaves⟩ := Option.map_eq_some_iff.mp hdecode
  have hlen : ∀ sid, (longName sid).length = 255 := fun sid ↦ by rw [longName, List.length_cons, List.length_replicate]
  have hshort : ∀ sid, (longName sid).length < 2 ^ 31 := fun sid ↦ by rw [hlen]; decide
  refine ⟨dag, hdag, fun hfit ↦ ?_⟩
  have hinst := (nonOptOfflineDegrade_fits_iff hshort (-1) 0 5 4 1 _ _).mp hfit.2
  rw [sum_offlineLoads, hleaves] at hinst
  simp only [hlen] at hinst
  revert hinst
  decide

end Operation

/-! ## What always fits -/

/-- The instruction of `onlineDegradedInst` has one number for a block, so it fits where there are at most 254. -/
theorem ClientCode.onlineDegradedInst_fits (c : ClientCode) (corruptIdx : List ℕ) {N : ℕ} (hN : N ≤ 254) (hk : c.k ≤ N)
    (hleaves : ∀ id ∈ (c.decode (blockSubPackets c.w ((List.range c.n).filter (· ∉ corruptIdx)))
      (blockSubPackets c.w ((List.range c.k).filter (· ∈ corruptIdx)))).getLeaves, id / c.w < N) (computen : ℕ) :
    Fits instructionLen (writeOnlineDegradedInst (c.onlineDegradedInst corruptIdx).1 computen) := by
  rw [onlineDegradedInst_fits_iff, c.onlineDegradedInst_fst, length_onlineLoads]
  refine le_trans (Nat.add_le_add_left (Nat.mul_le_mul_left 4 ((Finset.card_le_card fun b hb ↦ ?_).trans_eq
    (Finset.card_range N))) 8) (by rw [instructionLen]; omega)
  rw [Finset.mem_union, List.mem_toFinset, List.mem_toFinset, List.mem_map] at hb
  rw [Finset.mem_range]
  rcases hb with ⟨id, hid, rfl⟩ | hb
  · exact hleaves id hid
  · exact (List.mem_range.mp (List.mem_filter.mp hb).1).trans_le hk

/-- Names of at most 255 bytes. -/
structure StripeNames.Named (s : StripeNames) : Prop where
  stripename : s.stripename.length ≤ 255
  objname : ∀ sid, (s.objname sid).length ≤ 255

theorem StripeNames.Named.short {s : StripeNames} (h : s.Named) : s.Short :=
  ⟨h.stripename.trans_lt (by decide), fun sid ↦ (h.objname sid).trans_lt (by decide)⟩

namespace ECDAG

theorem leafCount_le {S : ℕ → Option Shape} {sorted : List ℕ} (hsorted : sorted.Nodup) {w : ℕ} (hw : 0 < w) (sid : ℕ) :
    leafCount S sorted w sid ≤ w := by
  have hnodup := hsorted.filter fun id ↦ loaded S id && decide (id / w = sid)
  rw [leafCount, ← List.toFinset_card_of_nodup hnodup]
  refine (Finset.card_le_card fun id hid ↦ ?_).trans_eq
    ((Nat.card_Ico (sid * w) (sid * w + w)).trans (Nat.add_sub_cancel_left ..))
  have hblock := (List.mem_filter.mp (List.mem_toFinset.mp hid)).2
  rw [Bool.and_eq_true, decide_eq_true_eq] at hblock
  rw [Finset.mem_Ico, ← hblock.2]
  exact ⟨Nat.div_mul_le_self id w, Nat.lt_div_mul_add hw⟩

section JoinPlan

variable {n : ℕ} {joins : List JoinCall} {order : List ℕ} {s : StripeNames}

theorem JoinPlan.row (h : JoinPlan n s.w joins) {id : ℕ} {cs : List ℕ} {M : CoefMap}
    (hS : (ofJoins joins).shape id = some (cs, M)) :
    (∃ j ∈ joins, j.pidx = id ∧ cs = j.cidx ∧ M = AList.singleton id j.coefs) ∨ cs = [] ∧ M = ∅ := by
  rcases h.leaf_or_target (mem_nodes_iff.mpr ⟨_, hS⟩) with ⟨j, hj, hid, hsh⟩ | hsh
  · obtain ⟨rfl, rfl⟩ := Prod.mk.inj (Option.some.inj (hS.symm.trans hsh))
    exact .inl ⟨j, hj, hid, rfl, rfl⟩
  · exact .inr (Prod.mk.inj (Option.some.inj (hS.symm.trans hsh)))

theorem JoinPlan.regular (h : JoinPlan n s.w joins)
    (hrows : ∀ j ∈ joins, j.cidx.length ≤ 512 ∧ j.coefs.length = j.cidx.length) : Regular (ofJoins joins).shape where
  childs id cs M hS := by
    rcases h.row hS with ⟨j, hj, -, rfl, -⟩ | ⟨rfl, -⟩
    · exact (hrows j hj).1.trans_lt (by decide)
    · exact Nat.pow_pos Nat.two_pos
  targets id cs M hS t ht := by
    rcases h.row hS with ⟨j, hj, rfl, -, rfl⟩ | ⟨-, rfl⟩
    · rw [List.mem_singleton.mp ht]
      exact (h.lt j hj _ List.mem_cons_self).trans_le (h.room.trans (by decide))
    · exact absurd ht (AList.notMem_empty t)
  rows id cs M hS t co ht := by
    rcases h.row hS with ⟨j, hj, -, rfl, rfl⟩ | ⟨-, rfl⟩
    · rw [lookup_singleton] at ht
      split_ifs at ht
      rw [← Option.some.inj ht]
      exact (hrows j hj).2
    · exact absurd ht.symm (Option.some_ne_none co)

/-- **The commands of a plan fit** as long as nothing is bound: when a target is computed from at most 512 sub-packets and a
block has at most 900. -/
theorem JoinPlan.allFit (h : JoinPlan n s.w joins) (hs : s.Named) (hw : s.w ≤ 900)
    (hrows : ∀ j ∈ joins, j.cidx.length ≤ 512 ∧ j.coefs.length = j.cidx.length)
    (horder : order.Perm (ofJoins joins).nodes.keys) (cid2ip objIp : ℕ → ℕ) :
    (Operation.encodeOrRecover (ofJoins joins) order s n cid2ip objIp).AllFit := by
  have hblock : ∀ sid m, m ≤ s.w → s.blockLength sid m ≤ Wire.maxCommandLen := by
    intro sid m hm
    have hname := hs.stripename
    have hobj := hs.objname sid
    rw [StripeNames.blockLength, Wire.maxCommandLen]
    omega
  have hsorted : ((ofJoins joins).toposort order).Nodup :=
    (Toposort.toposort_spec _ (horder.nodup_iff.mpr (ofJoins joins).nodes.keys_nodup)).1
  rw [Operation.AllFit, List.forall_mem_append, builtCmds_fit_iff hs.short (h.regular hrows) horder,
    persistCmds_fit_iff hs.short (hw.trans_lt (by decide))]
  refine ⟨⟨fun id _ _ ↦ hblock _ _ ?_, fun id _ cs M hS hne _ ↦ ?_⟩, fun sid _ ↦ hblock sid s.w le_rfl⟩
  · split_ifs
    · exact leafCount_le hsorted h.pos _
    · exact h.pos
  · rcases h.row hS with ⟨j, hj, -, rfl, rfl⟩ | ⟨rfl, -⟩
    · have hname := hs.stripename
      have hlen := (hrows j hj).1
      rw [StripeNames.computeLength, AList.keys_singleton, List.length_singleton, Wire.maxCommandLen]
      omega
    · exact absurd rfl hne

end JoinPlan

end ECDAG

end UniDedup.Storage
