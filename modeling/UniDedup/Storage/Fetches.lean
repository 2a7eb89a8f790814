import UniDedup.Storage.CountedRuns
import UniDedup.Storage.NodeCommands

/-!
# What the commands cache and fetch

The commands of an operation load every leaf once and compute every target once. Each fetch is from the agent that
caches what is fetched, and each sub-packet is cached with the number of its fetches.

## The accounting

Everything is counted over the nodes first. `doneBy` lists what the commands of one node load, compute, fetch or
cache; a bind node is fetched for all nodes bound to it, and they have no command of their own. Summed over the
sorted nodes, each node is fetched as often as it is a child (`Prepared.count_fetches`), which is what its reference
count says.

The commands differ from these sums only by the merging of loads, which moves entries but neither loses nor doubles
any as long as no block has a leaf beside a node of another kind (`Placed`).
-/

namespace UniDedup.Storage

open ECDAG AGCommand

/-! ## The graph that is compiled -/

namespace ECDAG

/-- A graph whose headers are counted: every node is counted as often as it is a child or a header. -/
structure Prepared (dag : ECDAG) : Prop extends Planned dag where
  headers_nodup : dag.headers.Nodup
  header : ∀ h ∈ dag.headers, h ∈ dag.nodes ∧ Plain dag.shape h
  refNum : ∀ k, Plain dag.shape k → ∀ j ∈ chain dag.shape k, dag.refNum j k = dag.reads k + dag.headers.count k
  key : ∀ j k, dag.refFor j k ≠ none → Plain dag.shape k ∧ j ∈ chain dag.shape k

section Prepared

variable {dag : ECDAG} {id k : ℕ} {targets : List ℕ}

theorem refFor_countHeaders (hflat : Flat dag.shape) (hnodup : dag.headers.Nodup) (j k : ℕ) :
    dag.countHeaders.refFor j k =
      if k ∈ dag.headers ∧ j ∈ chain dag.shape k then some (dag.refNum j k + 1) else dag.refFor j k := by
  rw [countHeaders]
  generalize dag.headers = l at hnodup
  induction l generalizing dag with
  | nil => rw [if_neg fun h ↦ List.not_mem_nil h.1]; rfl
  | cons i l ih =>
    obtain ⟨hi, hl⟩ := List.nodup_cons.mp hnodup
    have hshape := shape_incRefNumFor dag i i
    have hstep := refFor_incRefNumFor hflat i
    rw [List.foldl_cons, ih (hshape ▸ hflat) hl, hshape, refNum, hstep]
    by_cases hk : k = i
    · simp [hk, hi]
    · simp [hk, refNum]

theorem Accounted.header (h : Accounted dag targets) {p : ℕ} (hp : p ∈ dag.headers) :
    p ∈ dag.nodes ∧ Plain dag.shape p := by
  obtain ⟨hnode, hnot⟩ := (h.headed.mem p).mp hp
  refine ⟨hnode, ?_⟩
  obtain ⟨sh, hsh⟩ := mem_nodes_iff.mp hnode
  have hplain : sh.2.keys.length ≤ 1 → Plain dag.shape p := by
    intro hle sh' hsh'
    rw [hsh] at hsh'
    exact Option.some.inj hsh' ▸ hle
  have hpart := h.part p sh hsh
  cases hpart with
  | leaf => exact hplain (Nat.zero_le 1)
  | own => exact hplain (le_refl 1)
  | bound => exact hplain (le_refl 1)
  | @bind cs M _ hkeys _ _ htarget =>
    obtain ⟨t, ht, htp⟩ : ∃ t ∈ M.keys, t ≠ p := by
      by_contra hall
      push Not at hall
      have hsub : M.keys ⊆ [p] := fun t ht ↦ List.mem_singleton.mpr (hall t ht)
      exact absurd (M.keys_nodup.subperm hsub).length_le (Nat.not_le.mpr hkeys)
    refine absurd ?_ (hnot t)
    rw [childs_of_shape ((htarget t ht).resolve_left htp)]
    exact List.mem_singleton_self p

theorem headers_countHeaders (dag : ECDAG) : dag.countHeaders.headers = dag.headers :=
  congrArg Prod.fst (foldl_frame (fun _ _ ↦ foldl_frame (fun _ _ ↦ frame_modify ..) _ _) _ _)

theorem Accounted.prepared (h : Accounted dag targets) : Prepared dag.countHeaders := by
  have hshape := shape_countHeaders dag
  have hbindId : dag.countHeaders.bindId = dag.bindId :=
    bindId_foldl (fun _ _ ↦ bindId_foldl (fun _ _ ↦ bindId_modify ..) _ _) _ _
  have hheaders := headers_countHeaders dag
  have hrefs := refFor_countHeaders h.flat h.headed.nodup
  refine ⟨⟨hshape ▸ h.part, fun id c hc ↦ ?_, fun id hid ↦ ?_, hbindId ▸ h.start_le⟩, hheaders ▸ h.headed.nodup,
    fun p hp ↦ ?_, fun k hk j hj ↦ ?_, fun j k hne ↦ ?_⟩
  · rw [childs_congr hshape] at hc
    exact (nodes_congr hshape c).mpr (h.closed id c hc)
  · rw [hshape] at hid
    rw [Drawn, hbindId]
    exact h.drawn id hid
  · rw [nodes_congr hshape, hshape]
    exact h.header (hheaders ▸ hp)
  · rw [hshape] at hk hj
    rw [hheaders, reads_congr hshape, ECDAG.refNum, hrefs]
    have hcount := h.refNum k hk j hj
    have hnodup : dag.headers.Nodup := h.headed.nodup
    by_cases hmem : k ∈ dag.headers
    · rw [if_pos ⟨hmem, hj⟩, Option.getD_some, hcount, List.count_eq_one_of_mem hnodup hmem]
      rfl
    · rw [if_neg fun hb ↦ hmem hb.1, ← ECDAG.refNum, hcount, List.count_eq_zero.mpr hmem]
      rfl
  · rw [hrefs] at hne
    rw [hshape]
    split_ifs at hne with hmem
    · exact ⟨(h.header hmem.1).2, hmem.2⟩
    · exact h.key j k hne

/-! ### What a node does -/

/-- The commands of the nodes: a leaf is loaded, a bound node has no command, and every other node fetches its
children, which are no bind nodes, and computes what it has rows for. -/
theorem Prepared.commandOf_cases (h : Prepared dag) {cs : List ℕ} {M : CoefMap} (hS : dag.shape id = some (cs, M)) (w : ℕ)
    (cid2ip : ℕ → ℕ) : ∃ refs : RefMap, (∀ c, refs.lookup c = dag.refFor id c) ∧
      (cs = [] ∧ Plain dag.shape id ∧
          dag.commandOf w cid2ip id = some (.readDisk (cid2ip id) (id / w) [id] refs) ∨
        (∃ b, cs = [b] ∧ ¬Plain dag.shape b) ∧ Plain dag.shape id ∧ dag.commandOf w cid2ip id = none ∨
        cs ≠ [] ∧ (∀ c ∈ cs, Plain dag.shape c) ∧ dag.commandOf w cid2ip id =
          some (.fetchCompute (cid2ip id) (cs.map fun c ↦ (c, cid2ip (home dag.shape c))) M refs)) := by
  obtain ⟨nd, hnd, rfl, rfl⟩ := exists_of_shape hS
  refine ⟨nd.refNumFor, fun c ↦ by rw [refFor, hnd]; rfl, ?_⟩
  have hpart := h.part id _ hS
  by_cases hne : nd.childNodes = []
  · refine .inl ⟨hne, plain_of_leaf (h.leaf ?_), commandOf_of_leaf hnd hne⟩
    rw [childs_of_shape hS, hne]
  rw [commandOf_of_ne_nil hnd hne]
  by_cases hbind : (bindOf dag.shape nd.childNodes).isSome
  · obtain ⟨b, hb, hbplain⟩ := bindOf_isSome_iff.mp hbind
    refine .inr (.inl ⟨⟨b, hb, hbplain⟩, ?_, if_pos hbind⟩)
    by_contra hid
    rw [h.flat id _ hS hid] at hbind
    exact Bool.false_ne_true hbind
  · refine .inr (.inr ⟨hne, ?_, if_neg hbind⟩)
    generalize nd.childNodes = cs at hpart hbind
    generalize nd.coefMap = M at hpart
    cases hpart with
    | leaf => exact fun c hc ↦ absurd hc List.not_mem_nil
    | own _ _ hplain => exact hplain
    | bound hb hkeys => exact absurd (bindOf_isSome_iff.mpr ⟨_, rfl, bound_not_plain hb hkeys⟩) hbind
    | bind _ _ _ hplain => exact hplain

end Prepared

/-! ### What all nodes do -/

/-- What the command of a node does, of one kind. -/
def doneBy {β : Type*} (dag : ECDAG) (w : ℕ) (cid2ip : ℕ → ℕ) (f : AGCommand → List β) (id : ℕ) : List β :=
  (dag.commandOf w cid2ip id).toList.flatMap f

section Done

variable {dag : ECDAG} {id k t w : ℕ} {cid2ip : ℕ → ℕ} {sorted : List ℕ}

theorem Prepared.home_eq (h : Prepared dag) (hid : id ∈ dag.nodes)
    (ht : t ∈ dag.doneBy w cid2ip (fun cmd ↦ cmd.loads ++ cmd.targets) id) : t ∈ dag.nodes ∧ home dag.shape t = id := by
  obtain ⟨⟨cs, M⟩, hS⟩ := mem_nodes_iff.mp hid
  obtain ⟨refs, -, hcase⟩ := h.commandOf_cases hS w cid2ip
  rw [doneBy] at ht
  rcases hcase with ⟨rfl, -, hcmd⟩ | ⟨-, -, hcmd⟩ | ⟨hne, hplain, hcmd⟩
  · rw [hcmd] at ht
    obtain rfl : t = id := by simpa [loads, AGCommand.targets] using ht
    exact ⟨hid, home_of_bindOf hS rfl⟩
  · rw [hcmd] at ht
    exact absurd ht List.not_mem_nil
  · rw [hcmd] at ht
    have ht : t ∈ M := AList.mem_keys.mpr (by simpa [loads, AGCommand.targets] using ht)
    have hself := home_of_bindOf hS (bindOf_eq_none hplain)
    have hpart := h.part id _ hS
    cases hpart with
    | leaf => exact absurd rfl hne
    | own =>
      obtain rfl : t = id := List.mem_singleton.mp ht
      exact ⟨hid, hself⟩
    | bound =>
      obtain rfl : t = id := List.mem_singleton.mp ht
      exact ⟨hid, hself⟩
    | bind _ hkeys _ _ htarget =>
      rcases htarget t ht with rfl | hT
      · exact ⟨hid, hself⟩
      · exact ⟨mem_nodes_iff.mpr ⟨_, hT⟩, home_bound hT (bound_not_plain hS hkeys)⟩

/-- A leaf is loaded, and a node that was joined is computed where it is cached. -/
theorem Prepared.done (h : Prepared dag) (hid : id ∈ dag.nodes) (hplain : Plain dag.shape id) (w : ℕ) (cid2ip : ℕ → ℕ) :
    home dag.shape id ∈ dag.nodes ∧
      (dag.childs id = [] → id ∈ dag.doneBy w cid2ip loads (home dag.shape id)) ∧
      (dag.childs id ≠ [] → id ∈ dag.doneBy w cid2ip AGCommand.targets (home dag.shape id)) := by
  obtain ⟨⟨cs, M⟩, hS⟩ := mem_nodes_iff.mp hid
  obtain ⟨refs, -, hcase⟩ := h.commandOf_cases hS w cid2ip
  rw [childs_of_shape hS]
  rcases hcase with ⟨rfl, -, hcmd⟩ | ⟨⟨b, rfl, hb⟩, -, -⟩ | ⟨hne, hcs, hcmd⟩
  · rw [home_of_bindOf hS rfl, doneBy, hcmd]
    exact ⟨hid, fun _ ↦ by simp [loads], fun hne ↦ absurd rfl hne⟩
  · rw [home_bound hS hb]
    have hpart := h.part id _ hS
    obtain ⟨cs', M', hbS, hkeys, hmem⟩ : ∃ cs' M', dag.shape b = some (cs', M') ∧ 1 < M'.keys.length ∧ id ∈ M' := by
      cases hpart with
      | own _ _ hcs => exact absurd (hcs b (List.mem_singleton_self b)) hb
      | bound hbS hkeys hmem => exact ⟨_, _, hbS, hkeys, hmem⟩
      | bind _ hkeys => exact absurd (hplain _ hS) (Nat.not_le.mpr hkeys)
    refine ⟨mem_nodes_iff.mpr ⟨_, hbS⟩, fun hnil ↦ absurd hnil (List.cons_ne_nil b []), fun _ ↦ ?_⟩
    obtain ⟨refs', -, hcase⟩ := h.commandOf_cases hbS w cid2ip
    rcases hcase with ⟨-, hbplain, -⟩ | ⟨-, hbplain, -⟩ | ⟨-, -, hcmd⟩
    · exact absurd hbplain hb
    · exact absurd hbplain hb
    · rw [doneBy, hcmd]
      simpa [AGCommand.targets] using AList.mem_keys.mp hmem
  · rw [home_of_bindOf hS (bindOf_eq_none hcs), doneBy, doneBy, hcmd]
    refine ⟨hid, fun hnil ↦ absurd hnil hne, fun _ ↦ ?_⟩
    have hpart := h.part id _ hS
    obtain ⟨co, rfl⟩ := hpart.own_of_plain hplain hS hne hcs
    simp [AGCommand.targets, AList.keys_singleton]

theorem Prepared.entries_eq (h : Prepared dag) (hid : id ∈ dag.nodes) :
    dag.doneBy w cid2ip entries id = (dag.doneBy w cid2ip (fun cmd ↦ cmd.loads ++ cmd.targets) id).map fun t ↦
      (t, cid2ip (home dag.shape t), dag.refNum (home dag.shape t) t) := by
  have hhome : ∀ t ∈ dag.doneBy w cid2ip (fun cmd ↦ cmd.loads ++ cmd.targets) id, home dag.shape t = id :=
    fun t ht ↦ (h.home_eq hid ht).2
  rw [List.map_congr_left (g := fun t ↦ (t, cid2ip id, dag.refNum id t)) fun t ht ↦ by rw [hhome t ht]]
  obtain ⟨⟨cs, M⟩, hS⟩ := mem_nodes_iff.mp hid
  obtain ⟨refs, hrefs, hcase⟩ := h.commandOf_cases hS w cid2ip
  have hentry : (fun c ↦ (c, cid2ip id, (refs.lookup c).getD 0)) = fun t ↦ (t, cid2ip id, dag.refNum id t) := by
    funext c
    rw [hrefs, ECDAG.refNum]
  rw [doneBy, doneBy]
  rcases hcase with ⟨-, -, hcmd⟩ | ⟨-, -, hcmd⟩ | ⟨-, -, hcmd⟩
  · rw [hcmd, Option.toList_some, List.flatMap_singleton, List.flatMap_singleton, entries, hentry]
    rfl
  · rw [hcmd]
    rfl
  · rw [hcmd, Option.toList_some, List.flatMap_singleton, List.flatMap_singleton, entries, hentry]
    rfl

theorem map_fst {β : Type*} (g : ℕ → β) (cs : List ℕ) : (cs.map fun c ↦ (c, g c)).map Prod.fst = cs := by
  rw [List.map_map]
  exact List.map_id' cs

theorem Prepared.fetches_eq (h : Prepared dag) (hid : id ∈ dag.nodes) (w : ℕ) (cid2ip : ℕ → ℕ) :
    ∃ cs : List ℕ, dag.doneBy w cid2ip fetches id = cs.map (fun c ↦ (c, cid2ip (home dag.shape c))) ∧
      (∀ c ∈ cs, c ∈ dag.nodes ∧ Plain dag.shape c) ∧ ∀ k, Plain dag.shape k → cs.count k = (dag.childs id).count k := by
  obtain ⟨⟨cs, M⟩, hS⟩ := mem_nodes_iff.mp hid
  obtain ⟨refs, -, hcase⟩ := h.commandOf_cases hS w cid2ip
  rw [doneBy, childs_of_shape hS]
  rcases hcase with ⟨rfl, -, hcmd⟩ | ⟨⟨b, rfl, hb⟩, -, hcmd⟩ | ⟨-, hcs, hcmd⟩
  · exact ⟨[], by rw [hcmd]; rfl, fun c hc ↦ absurd hc List.not_mem_nil, fun _ _ ↦ rfl⟩
  · refine ⟨[], by rw [hcmd]; rfl, fun c hc ↦ absurd hc List.not_mem_nil, fun k hk ↦ ?_⟩
    have hkb : b ≠ k := fun hbk ↦ hb (hbk ▸ hk)
    rw [List.count_singleton, List.count_nil, if_neg (by simpa using hkb)]
  · refine ⟨cs, ?_, fun c hc ↦ ⟨h.closed id c ?_, hcs c hc⟩, fun _ _ ↦ rfl⟩
    · rw [hcmd, Option.toList_some, List.flatMap_singleton]
      rfl
    · rwa [childs_of_shape hS]

theorem Prepared.nodup_done (h : Prepared dag) (w : ℕ) (cid2ip : ℕ → ℕ) (hnodup : sorted.Nodup)
    (hmem : ∀ id ∈ sorted, id ∈ dag.nodes) :
    (sorted.flatMap (dag.doneBy w cid2ip fun cmd ↦ cmd.loads ++ cmd.targets)).Nodup := by
  refine List.nodup_flatMap.mpr ⟨fun id hid ↦ ?_, hnodup.imp_of_mem fun {i j} hi hj hij ↦ ?_⟩
  · obtain ⟨⟨cs, M⟩, hS⟩ := mem_nodes_iff.mp (hmem id hid)
    obtain ⟨refs, -, hcase⟩ := h.commandOf_cases hS w cid2ip
    rw [doneBy]
    rcases hcase with ⟨-, -, hcmd⟩ | ⟨-, -, hcmd⟩ | ⟨-, -, hcmd⟩
    · rw [hcmd, Option.toList_some, List.flatMap_singleton]
      exact List.nodup_singleton id
    · rw [hcmd]
      exact List.nodup_nil
    · rw [hcmd, Option.toList_some, List.flatMap_singleton]
      exact M.keys_nodup
  · intro t hti htj
    exact hij ((h.home_eq (hmem i hi) hti).2.symm.trans (h.home_eq (hmem j hj) htj).2)

/-- **Every node is fetched as often as it is a child.** -/
theorem Prepared.count_fetches (h : Prepared dag) (w : ℕ) (cid2ip : ℕ → ℕ) (hnodup : sorted.Nodup)
    (hmem : ∀ id, id ∈ sorted ↔ id ∈ dag.nodes) (k : ℕ) (hk : Plain dag.shape k) :
    ((sorted.flatMap (dag.doneBy w cid2ip fetches)).map Prod.fst).count k = dag.reads k := by
  have hnode : ∀ id ∈ sorted, ((dag.doneBy w cid2ip fetches id).map Prod.fst).count k = (dag.childs id).count k := by
    intro id hid
    obtain ⟨cs, heq, -, hcount⟩ := h.fetches_eq ((hmem id).mp hid) w cid2ip
    rw [heq, map_fst]
    exact hcount k hk
  rw [List.map_flatMap, List.count_flatMap, reads_eq_sum (s := sorted.toFinset) fun j hj ↦
    List.mem_toFinset.mpr ((hmem j).mpr hj), List.sum_toFinset _ hnodup]
  exact congrArg List.sum (List.map_congr_left hnode)

end Done

end ECDAG

/-! ## The commands of an operation -/

/-- Every sub-packet is cached once, each fetch is from where it is cached, and it is cached with the number of its
fetches. -/
structure Served (cmds : List AGCommand) : Prop where
  once : ((cmds.flatMap entries).map Prod.fst).Nodup
  fetched : ∀ x ∈ cmds.flatMap fetches, ∃ num, (x.1, x.2, num) ∈ cmds.flatMap entries
  counted : ∀ x ∈ cmds.flatMap entries, x.2.2 = ((cmds.flatMap fetches).map Prod.fst).count x.1

namespace ECDAG

/-- The leaves of a block have one address, no block below `n` has leaves and other nodes, and the headers are whole
blocks. -/
structure Placed (dag : ECDAG) (n w : ℕ) (cid2ip : ℕ → ℕ) : Prop where
  place : ∀ id id', IsLeaf dag.shape id → IsLeaf dag.shape id' → id / w = id' / w → cid2ip id = cid2ip id'
  alike : ∀ id ∈ dag.nodes, ∀ id' ∈ dag.nodes, id / w = id' / w → id / w < n → IsLeaf dag.shape id →
    IsLeaf dag.shape id'
  whole : ∀ h ∈ dag.headers, ∀ id, id / w = h / w → id ∈ dag.headers

section Commands

variable {dag : ECDAG} {targets order sorted : List ℕ} {n w : ℕ} {cid2ip objIp : ℕ → ℕ} {β : Type*}

/-- The commands of the nodes, under their numbers. -/
def nodeCmds (dag : ECDAG) (w : ℕ) (cid2ip : ℕ → ℕ) (sorted : List ℕ) : List (ℕ × AGCommand) :=
  sorted.flatMap fun id ↦ (dag.commandOf w cid2ip id).toList.map fun cmd ↦ (id, cmd)

theorem mem_nodeCmds {x : ℕ × AGCommand} :
    x ∈ dag.nodeCmds w cid2ip sorted ↔ x.1 ∈ sorted ∧ dag.commandOf w cid2ip x.1 = some x.2 := by
  rw [nodeCmds, List.mem_flatMap]
  constructor
  · rintro ⟨id, hid, hx⟩
    obtain ⟨cmd, hcmd, rfl⟩ := List.mem_map.mp hx
    exact ⟨hid, Option.mem_toList.mp hcmd⟩
  · rintro ⟨hid, hcmd⟩
    exact ⟨x.1, hid, List.mem_map.mpr ⟨x.2, Option.mem_toList.mpr hcmd, rfl⟩⟩

theorem sublist_nodeCmds (sorted : List ℕ) : ((dag.nodeCmds w cid2ip sorted).map Prod.fst).Sublist sorted := by
  induction sorted with
  | nil => exact .refl _
  | cons id sorted ih =>
    rw [nodeCmds, List.flatMap_cons, List.map_append]
    cases dag.commandOf w cid2ip id with
    | none => exact ih.cons id
    | some cmd => exact ih.cons_cons id

theorem flatMap_nodeCmds (f : AGCommand → List β) :
    (dag.nodeCmds w cid2ip sorted).flatMap (fun x ↦ f x.2) = sorted.flatMap (dag.doneBy w cid2ip f) := by
  rw [nodeCmds, List.flatMap_assoc]
  exact List.flatMap_congr fun id _ ↦ by rw [List.flatMap_map, doneBy]

theorem Prepared.load (h : Prepared dag) {id : ℕ} (hid : id ∈ dag.nodes) {cmd : AGCommand}
    (hcmd : dag.commandOf w cid2ip id = some cmd) :
    (cmd.isLoad → IsLeaf dag.shape id ∧ cmd.LoadOf (cid2ip id) (id / w) id) ∧ (IsLeaf dag.shape id → cmd.isLoad) := by
  obtain ⟨⟨cs, M⟩, hS⟩ := mem_nodes_iff.mp hid
  obtain ⟨refs, hrefs, hcase⟩ := h.commandOf_cases hS w cid2ip
  rcases hcase with ⟨rfl, hplain, hcmd'⟩ | ⟨-, -, hcmd'⟩ | ⟨hne, -, hcmd'⟩
  · obtain rfl := Option.some.inj (hcmd.symm.trans hcmd')
    refine ⟨fun _ ↦ ⟨⟨M, hS⟩, refs, rfl, fun c hc ↦ ?_⟩, fun _ ↦ rfl⟩
    by_contra hne
    rw [hrefs] at hne
    -- A leaf is no bind node, so it counts for nothing but itself.
    obtain ⟨-, rfl | ⟨-, hbind⟩⟩ := mem_chain_iff.mp (h.key id c hne).2
    · exact hc rfl
    · exact hbind hplain
  · exact absurd (hcmd.symm.trans hcmd') (Option.some_ne_none cmd)
  · obtain rfl := Option.some.inj (hcmd.symm.trans hcmd')
    refine ⟨fun hload ↦ absurd hload Bool.false_ne_true, fun ⟨M', hM'⟩ ↦ absurd ?_ hne⟩
    exact congrArg Prod.fst (Option.some.inj (hS.symm.trans hM'))

theorem Prepared.blocks (h : Prepared dag) (hplaced : Placed dag n w cid2ip) (hnodup : sorted.Nodup)
    (hmem : ∀ id ∈ sorted, id ∈ dag.nodes) : Blocks n w cid2ip (dag.nodeCmds w cid2ip sorted) where
  nodup := hnodup.sublist (sublist_nodeCmds sorted)
  load x hx hload := by
    obtain ⟨hid, hcmd⟩ := mem_nodeCmds.mp hx
    exact ((h.load (hmem _ hid) hcmd).1 hload).2
  place x hx y hy hxload hyload hxy := by
    obtain ⟨hxid, hxcmd⟩ := mem_nodeCmds.mp hx
    obtain ⟨hyid, hycmd⟩ := mem_nodeCmds.mp hy
    exact hplaced.place _ _ ((h.load (hmem _ hxid) hxcmd).1 hxload).1 ((h.load (hmem _ hyid) hycmd).1 hyload).1 hxy
  alike x hx y hy hxy hn hxload := by
    obtain ⟨hxid, hxcmd⟩ := mem_nodeCmds.mp hx
    obtain ⟨hyid, hycmd⟩ := mem_nodeCmds.mp hy
    have hleaf := ((h.load (hmem _ hxid) hxcmd).1 hxload).1
    exact (h.load (hmem _ hyid) hycmd).2 (hplaced.alike _ (hmem _ hxid) _ (hmem _ hyid) hxy hn hleaf)

theorem additive_loads : Additive loads := by
  intro ip obj cmds refs h _
  show cmds.map Prod.fst = _
  rw [← List.flatMap_singleton' (cmds.map Prod.fst), List.flatMap_map]
  exact List.flatMap_congr fun x hx ↦ by
    obtain ⟨refs, hx, -⟩ := h x hx
    rw [hx]
    rfl

theorem flatMap_persistCmds {f : AGCommand → List β} (hf : ∀ ip prevs obj, f (.persist ip prevs obj) = []) :
    (dag.persistCmds order cid2ip objIp w).flatMap f = [] := by
  rw [persistCmds, List.flatMap_map]
  exact List.flatMap_eq_nil_iff.mpr fun i _ ↦ hf _ _ _

theorem sublist_doneBy {f g : AGCommand → List β} (sorted : List ℕ) (h : ∀ cmd, (f cmd).Sublist (g cmd)) :
    (sorted.flatMap (dag.doneBy w cid2ip f)).Sublist (sorted.flatMap (dag.doneBy w cid2ip g)) := by
  induction sorted with
  | nil => exact .refl _
  | cons id sorted ih =>
    rw [List.flatMap_cons, List.flatMap_cons]
    refine List.Sublist.append ?_ ih
    rw [doneBy, doneBy]
    cases dag.commandOf w cid2ip id with
    | none => exact .refl _
    | some cmd =>
      rw [Option.toList_some, List.flatMap_singleton, List.flatMap_singleton]
      exact h cmd

theorem additive_entries : Additive entries := fun _ _ _ _ _ hentries ↦ hentries

theorem additive_of_load {f : AGCommand → List β} (hf : ∀ ip obj cids refs, f (.readDisk ip obj cids refs) = []) :
    Additive f := by
  intro ip obj cmds refs h _
  rw [hf]
  refine (List.flatMap_eq_nil_iff.mpr fun x hx ↦ ?_).symm
  obtain ⟨refs, hx, -⟩ := h x hx
  rw [hx, hf]

/-! ### Compiling an acyclic graph -/

section Compiling

variable {calls : List DagCall}

theorem Prepared.toposort (h : Prepared dag) (hacyclic : Acyclic dag.shape) (horder : order.Nodup)
    (hmem : ∀ id, id ∈ order ↔ id ∈ dag.nodes) :
    (dag.toposort order).Nodup ∧ (∀ id, id ∈ dag.toposort order ↔ id ∈ dag.nodes) ∧
      Toposort.ChildrenFirst dag.childs (dag.toposort order) := by
  obtain ⟨rank, hrank⟩ := hacyclic
  obtain ⟨hnodup, -, hfirst, -⟩ := Toposort.toposort_spec dag.childs horder
  have hperm : (dag.toposort order).Perm order := Toposort.toposort_perm rank horder
    (fun p _ c hc ↦ (hmem c).mpr (h.closed p c hc)) fun p hp c hc ↦ by
      obtain ⟨sh, hsh⟩ := mem_nodes_iff.mp ((hmem p).mp hp)
      exact hrank p sh hsh c (by rwa [childs_of_shape hsh] at hc)
  exact ⟨hnodup, fun id ↦ hperm.mem_iff.trans (hmem id), hfirst⟩

variable (h : Accounted dag targets) (hacyclic : Acyclic dag.shape) (horder : order.Perm dag.nodes.keys)
include h hacyclic horder

theorem Accounted.toposort :
    (dag.countHeaders.toposort order).Nodup ∧
      (∀ id, id ∈ dag.countHeaders.toposort order ↔ id ∈ dag.countHeaders.nodes) ∧
      Toposort.ChildrenFirst dag.countHeaders.childs (dag.countHeaders.toposort order) := by
  have hshape := shape_countHeaders dag
  refine h.prepared.toposort (hshape ▸ hacyclic) (horder.nodup_iff.mpr dag.nodes.keys_nodup) fun id ↦ ?_
  rw [nodes_congr hshape]
  exact horder.mem_iff

theorem Accounted.parseTurns_eq (w : ℕ) (cid2ip : ℕ → ℕ) :
    (dag.countHeaders.parseTurns order w cid2ip).agCmds =
        dag.countHeaders.nodeCmds w cid2ip (dag.countHeaders.toposort order) ∧
      ∀ id ∈ dag.nodes, (dag.countHeaders.parseTurns order w cid2ip).nodeIp id = cid2ip (home dag.shape id) := by
  obtain ⟨hnodup, hmem, hfirst⟩ := h.toposort hacyclic horder
  have hshape := shape_countHeaders dag
  obtain ⟨hcmds, hips⟩ := foldl_parseTurn w cid2ip h.prepared.flat hnodup (fun id hid ↦ (hmem id).mp hid) hfirst
  refine ⟨hcmds, fun id hid ↦ ?_⟩
  rw [← hshape]
  exact hips id ((hmem id).mpr ((nodes_congr hshape id).mpr hid))

theorem Accounted.perm_commands (objIp : ℕ → ℕ) (hplaced : Placed dag n w cid2ip) {f : AGCommand → List β} (hf : Additive f) :
    ((dag.commands order cid2ip objIp n w).flatMap f).Perm
      ((dag.countHeaders.toposort order).flatMap (dag.countHeaders.doneBy w cid2ip f) ++
        (dag.persistCmds order cid2ip objIp w).flatMap f) := by
  obtain ⟨hnodup, hmem, -⟩ := h.toposort hacyclic horder
  have hshape := shape_countHeaders dag
  have hheaders := headers_countHeaders dag
  have hplaced' : Placed dag.countHeaders n w cid2ip := by
    refine ⟨hshape ▸ hplaced.place, fun id hid id' hid' ↦ ?_, hheaders ▸ hplaced.whole⟩
    rw [hshape]
    exact hplaced.alike id ((nodes_congr hshape id).mp hid) id' ((nodes_congr hshape id').mp hid')
  rw [commands, List.flatMap_append, agCmds, (h.parseTurns_eq hacyclic horder w cid2ip).1, ← flatMap_nodeCmds]
  exact ((h.prepared.blocks hplaced' hnodup fun id hid ↦ (hmem id).mp hid).mergeLoads_perm hf).append_right _

theorem Accounted.fetches_persistCmds (hplaced : Placed dag n w cid2ip) (hw : 0 < w) :
    (dag.persistCmds order cid2ip objIp w).flatMap fetches =
      (dag.headers.insertionSort (· ≤ ·)).map fun id ↦ (id, cid2ip (home dag.shape id)) := by
  have hperm := List.perm_insertionSort (· ≤ ·) dag.headers
  have hnodup : dag.headers.Nodup := h.headed.nodup
  have hsorted : (dag.headers.insertionSort (· ≤ ·)).Pairwise (· < ·) :=
    ((List.pairwise_insertionSort (· ≤ ·) dag.headers).and (hperm.nodup_iff.mpr hnodup)).imp
      fun hle ↦ lt_of_le_of_ne hle.1 hle.2
  have hwhole : ∀ p ∈ dag.headers.insertionSort (· ≤ ·), ∀ id, id / w = p / w → id ∈ dag.headers.insertionSort (· ≤ ·) :=
    fun p hp id hid ↦ hperm.mem_iff.mpr (hplaced.whole p (hperm.mem_iff.mp hp) id hid)
  have hips := (h.parseTurns_eq hacyclic horder w cid2ip).2
  rw [persistCmds, List.flatMap_map]
  dsimp only [fetches]
  generalize (dag.countHeaders.parseTurns order w cid2ip).nodeIp = nodeIp at hips
  have hblocks := Grouping.flatMap_blocks hw hsorted hwhole
  have hmap : ∀ id ∈ dag.headers.insertionSort (· ≤ ·), (id, nodeIp id) = (id, cid2ip (home dag.shape id)) :=
    fun id hid ↦ by rw [hips id (h.header (hperm.mem_iff.mp hid)).1]
  rw [← List.map_congr_left hmap]
  conv_rhs => rw [← hblocks]
  rw [List.map_flatMap]
  exact List.flatMap_congr fun i _ ↦ by rw [List.map_map]; rfl

/-- **What the commands of an operation do.** -/
theorem Accounted.served (hplaced : Placed dag n w cid2ip) (hw : 0 < w) (objIp : ℕ → ℕ) :
    (∀ id, IsLeaf dag.shape id → ((dag.commands order cid2ip objIp n w).flatMap loads).count id = 1) ∧
      (∀ id ∈ targets, ((dag.commands order cid2ip objIp n w).flatMap AGCommand.targets).count id = 1) ∧
      ((dag.commands order cid2ip objIp n w).flatMap AGCommand.targets).Nodup ∧
      Served (dag.commands order cid2ip objIp n w) := by
  obtain ⟨hnodup, hmem, -⟩ := h.toposort hacyclic horder
  have hshape := shape_countHeaders dag
  have hprep := h.prepared
  have hloads := h.perm_commands hacyclic horder objIp hplaced additive_loads
  have htargets := h.perm_commands hacyclic horder objIp hplaced
    (additive_of_load (f := AGCommand.targets) fun _ _ _ _ ↦ rfl)
  have hentries := h.perm_commands hacyclic horder objIp hplaced additive_entries
  have hfetches := h.perm_commands hacyclic horder objIp hplaced
    (additive_of_load (f := fetches) fun _ _ _ _ ↦ rfl)
  rw [h.fetches_persistCmds hacyclic horder hplaced hw] at hfetches
  rw [flatMap_persistCmds fun _ _ _ ↦ rfl, List.append_nil] at hloads htargets hentries
  generalize dag.commands order cid2ip objIp n w = cmds at hloads htargets hentries hfetches
  generalize dag.countHeaders.toposort order = sorted at hnodup hmem hloads htargets hentries hfetches
  have hsorted : ∀ id, id ∈ sorted ↔ id ∈ dag.nodes := fun id ↦ (hmem id).trans (nodes_congr hshape id)
  -- What is loaded or computed, and that nothing is so twice.
  have hdone := hprep.nodup_done w cid2ip hnodup fun id hid ↦ (hmem id).mp hid
  have hdone_loads := hdone.sublist (sublist_doneBy sorted fun cmd ↦ List.sublist_append_left cmd.loads cmd.targets)
  have hdone_targets := hdone.sublist (sublist_doneBy sorted fun cmd ↦ List.sublist_append_right cmd.loads cmd.targets)
  have hplain_done : ∀ id ∈ dag.nodes, Plain dag.shape id →
      (dag.childs id = [] → id ∈ sorted.flatMap (dag.countHeaders.doneBy w cid2ip loads)) ∧
      (dag.childs id ≠ [] → id ∈ sorted.flatMap (dag.countHeaders.doneBy w cid2ip AGCommand.targets)) := by
    intro id hid hplain
    obtain ⟨hhome, hleaf, htarget⟩ := hprep.done ((nodes_congr hshape id).mpr hid) (hshape ▸ hplain) w cid2ip
    rw [childs_congr hshape] at hleaf htarget
    exact ⟨fun hnil ↦ List.mem_flatMap.mpr ⟨_, (hmem _).mpr hhome, hleaf hnil⟩,
      fun hne ↦ List.mem_flatMap.mpr ⟨_, (hmem _).mpr hhome, htarget hne⟩⟩
  have hentries_eq : sorted.flatMap (dag.countHeaders.doneBy w cid2ip entries) =
      (sorted.flatMap (dag.countHeaders.doneBy w cid2ip fun cmd ↦ cmd.loads ++ cmd.targets)).map fun t ↦
        (t, cid2ip (home dag.shape t), dag.countHeaders.refNum (home dag.shape t) t) := by
    rw [List.map_flatMap, ← hshape]
    exact List.flatMap_congr fun id hid ↦ hprep.entries_eq ((hmem id).mp hid)
  rw [hentries_eq] at hentries
  -- What is fetched, and from where.
  have hfetched : ∀ x ∈ cmds.flatMap fetches,
      x.2 = cid2ip (home dag.shape x.1) ∧ x.1 ∈ dag.nodes ∧ Plain dag.shape x.1 := by
    intro x hx
    rcases List.mem_append.mp (hfetches.mem_iff.mp hx) with hx | hx
    · obtain ⟨id, hid, hx⟩ := List.mem_flatMap.mp hx
      obtain ⟨cs, heq, hcs, -⟩ := hprep.fetches_eq ((hmem id).mp hid) w cid2ip
      rw [heq] at hx
      obtain ⟨c, hc, rfl⟩ := List.mem_map.mp hx
      rw [← nodes_congr hshape, ← hshape]
      exact ⟨rfl, hcs c hc⟩
    · obtain ⟨p, hp, rfl⟩ := List.mem_map.mp hx
      exact ⟨rfl, h.header ((List.perm_insertionSort ..).mem_iff.mp hp)⟩
  refine ⟨fun id ⟨M, hS⟩ ↦ ?_, fun id hid ↦ ?_, htargets.nodup_iff.mpr hdone_targets, ?_, fun x hx ↦ ?_, fun x hx ↦ ?_⟩
  · rw [hloads.count_eq]
    refine List.count_eq_one_of_mem hdone_loads ((hplain_done id (mem_nodes_iff.mpr ⟨_, hS⟩) ?_).1 (childs_of_shape hS))
    refine plain_of_leaf (h.leaf (childs_of_shape hS))
  · obtain ⟨hplain, hne⟩ := (h.joined id).mp hid
    have hnode : id ∈ dag.nodes := by
      by_contra hnot
      exact hne (childs_of_notMem hnot)
    rw [htargets.count_eq]
    exact List.count_eq_one_of_mem hdone_targets ((hplain_done id hnode hplain).2 hne)
  · rw [(hentries.map Prod.fst).nodup_iff, map_fst]
    exact hdone
  · obtain ⟨hip, hnode, hplain⟩ := hfetched x hx
    have hdone_x : x.1 ∈ sorted.flatMap (dag.countHeaders.doneBy w cid2ip fun cmd ↦ cmd.loads ++ cmd.targets) := by
      obtain ⟨hleaf, htarget⟩ := hplain_done x.1 hnode hplain
      by_cases hnil : dag.childs x.1 = []
      · exact (sublist_doneBy sorted fun cmd ↦ List.sublist_append_left cmd.loads cmd.targets).subset (hleaf hnil)
      · exact (sublist_doneBy sorted fun cmd ↦ List.sublist_append_right cmd.loads cmd.targets).subset (htarget hnil)
    exact ⟨_, hentries.mem_iff.mpr (List.mem_map.mpr ⟨x.1, hdone_x, by rw [hip]⟩)⟩
  · obtain ⟨t, ht, rfl⟩ := List.mem_map.mp (hentries.mem_iff.mp hx)
    dsimp only
    have hnode : dag.shape t ≠ none := by
      obtain ⟨id, hid, ht⟩ := List.mem_flatMap.mp ht
      exact Option.ne_none_iff_exists'.mpr
        (mem_nodes_iff.mp ((nodes_congr hshape t).mp (hprep.home_eq ((hmem id).mp hid) ht).1))
    by_cases hplain : Plain dag.shape t
    · have hcount := hprep.count_fetches w cid2ip hnodup hmem t (hshape ▸ hplain)
      have hnum := hprep.refNum t (hshape ▸ hplain) (home dag.shape t) (by rw [hshape]; exact home_mem_chain hnode)
      rw [(hfetches.map Prod.fst).count_eq, List.map_append, List.count_append, hcount, map_fst,
        (List.perm_insertionSort ..).count_eq, hnum, headers_countHeaders, Nat.cast_add]
    · -- A bind node is not counted, and not fetched.
      have hzero : dag.countHeaders.refFor (home dag.shape t) t = none := by
        by_contra hne
        exact hplain (hshape ▸ (hprep.key _ t hne).1)
      have hnot : t ∉ (cmds.flatMap fetches).map Prod.fst := by
        intro hmem
        obtain ⟨y, hy, hyt⟩ := List.mem_map.mp hmem
        exact hplain (hyt ▸ (hfetched y hy).2.2)
      rw [refNum, hzero, List.count_eq_zero.mpr hnot]
      rfl

end Compiling

/-- What the commands of an operation are for: to load the leaves of the blocks below `n`, and to compute what was joined,
once each, so that everything is served. -/
structure Delivers (dag : ECDAG) (joined : List ℕ) (n w : ℕ) (cmds : List AGCommand) : Prop extends Served cmds where
  loaded : ∀ id, IsLeaf dag.shape id → id / w < n → (cmds.flatMap loads).count id = 1
  computed : ∀ id ∈ joined, (cmds.flatMap AGCommand.targets).count id = 1
  computed_le : ∀ id, (cmds.flatMap AGCommand.targets).count id ≤ 1

/-- **The commands of proper calls deliver.** -/
theorem delivers_commands {calls : List DagCall} (hproper : Proper calls dag) (hrun : ofCalls calls = some dag)
    (hacyclic : Acyclic dag.shape) (horder : order.Perm dag.nodes.keys) (hw : 0 < w) (hplaced : Placed dag n w cid2ip)
    (objIp : ℕ → ℕ) : Delivers dag (joinTargets calls) n w (dag.commands order cid2ip objIp n w) := by
  obtain ⟨hloaded, hcomputed, hnodup, hserved⟩ := (hproper.accounted hrun).served hacyclic horder hplaced hw objIp
  exact ⟨hserved, fun id hid _ ↦ hloaded id hid, hcomputed, fun id ↦ List.nodup_iff_count_le_one.mp hnodup id⟩

end Commands

/-! ## Calls that no code makes -/

theorem acyclic_of_rank {dag : ECDAG} {rank : ℕ → ℕ}
    (h : ∀ id ∈ dag.nodes.keys, ∀ c ∈ dag.childs id, rank c < rank id) : Acyclic dag.shape := by
  refine ⟨rank, fun id sh hsh c hc ↦ h id (AList.mem_keys.mp (mem_nodes_iff.mpr ⟨sh, hsh⟩)) c ?_⟩
  rwa [childs_of_shape hsh]

theorem placed_one (dag : ECDAG) (n : ℕ) (cid2ip : ℕ → ℕ) : Placed dag n 1 cid2ip := by
  refine ⟨fun id id' _ _ heq ↦ ?_, fun id _ id' _ heq _ hleaf ↦ ?_, fun p hp id heq ↦ ?_⟩
  · rw [Nat.div_one, Nat.div_one] at heq
    rw [heq]
  · rw [Nat.div_one, Nat.div_one] at heq
    exact heq ▸ hleaf
  · rw [Nat.div_one, Nat.div_one] at heq
    exact heq ▸ hp

end ECDAG

theorem served_iff {cmds : List AGCommand} : Served cmds ↔ ((cmds.flatMap entries).map Prod.fst).Nodup ∧
    (∀ x ∈ cmds.flatMap fetches, ∃ y ∈ cmds.flatMap entries, y.1 = x.1 ∧ y.2.1 = x.2) ∧
    ∀ x ∈ cmds.flatMap entries, x.2.2 = ((cmds.flatMap fetches).map Prod.fst).count x.1 := by
  constructor
  · rintro ⟨honce, hfetched, hcounted⟩
    refine ⟨honce, fun x hx ↦ ?_, hcounted⟩
    obtain ⟨num, hnum⟩ := hfetched x hx
    exact ⟨_, hnum, rfl, rfl⟩
  · rintro ⟨honce, hfetched, hcounted⟩
    refine ⟨honce, fun x hx ↦ ?_, hcounted⟩
    obtain ⟨⟨id, ip, num⟩, hy, rfl, rfl⟩ := hfetched x hx
    exact ⟨num, hy⟩

instance (cmds : List AGCommand) : Decidable (Served cmds) := decidable_of_iff' _ served_iff

namespace ECDAG

def sumOf (pidx : ℕ) (cidx : List ℕ) : DagCall := .join ⟨pidx, cidx, cidx.map fun _ ↦ 1⟩

/-- Two targets over the same children, and a bind of them. -/
def boundCalls : List DagCall := [sumOf 2 [0, 1], sumOf 3 [0, 1], .bind (.bindX [2, 3])]

/-- Calls that are not proper, of every kind. -/
def improperCalls : List (List DagCall) :=
  [ -- a child that is repeated
    [sumOf 2 [0, 0, 1], sumOf 3 [0, 1, 1], .bind .opt0],
    -- no children
    [sumOf 2 [], sumOf 3 [], .bind (.bindX [2, 3])],
    -- a target that is bound to itself
    [sumOf 2 [0, 1], .bind (.bindX [2, 2])],
    -- the bind node as a child, as a target, and bound once more
    boundCalls ++ [sumOf 4 [3000]],
    boundCalls ++ [sumOf 3000 [0, 1]],
    boundCalls ++ [.bind (.bindXSp 3000)],
    sumOf 4 [0, 1] :: boundCalls ++ [.bind (.bindX [3000, 4])]]

/-- Two headers over a leaf in the block of their bind node. -/
def blockCalls : List DagCall := [sumOf 8000 [0, 3001], sumOf 8001 [0, 3001], .bind (.bindX [8000, 8001])]

/-- The leaves, the bind nodes and the targets. -/
def improperRank (id : ℕ) : ℕ := if id ≤ 1 then 0 else if id = 3001 then 1 else if id = 3000 then 2 else 3

theorem exists_of_check {calls : List DagCall} {n w : ℕ} (hcheck : (ofCalls calls).any (fun dag ↦
      decide ((∀ id ∈ dag.nodes.keys, ∀ c ∈ dag.childs id, improperRank c < improperRank id) ∧
        ¬Served (dag.commands dag.nodes.keys (fun _ ↦ 0) (fun _ ↦ 0) n w))) = true) :
    ∃ dag, ofCalls calls = some dag ∧ Acyclic dag.shape ∧
      ¬Served (dag.commands dag.nodes.keys (fun _ ↦ 0) (fun _ ↦ 0) n w) := by
  obtain ⟨dag, hrun, hdag⟩ := (Option.any_eq_true _ _).mp hcheck
  obtain ⟨hrank, hserved⟩ := of_decide_eq_true hdag
  exact ⟨dag, hrun, acyclic_of_rank hrank, hserved⟩

theorem mergeSort_repeated₁ : [0, 0, 1].mergeSort = [0, 0, 1] := by simp [List.mergeSort]

theorem mergeSort_repeated₂ : [0, 1, 1].mergeSort = [0, 1, 1] := by simp [List.mergeSort]

theorem mergeSort_block : [0, 3001].mergeSort = [0, 3001] := by simp [List.mergeSort]

/-- **Calls that are not proper.** Every target is joined once and the graph is acyclic. But where a join repeats a child
or has none, where a bind takes a target twice, and where a bind node is joined or bound again, what is cached is not what
is fetched. So it is in the last graph too, where no block has a leaf and a target: the blocks have two sub-packets, and a
leaf is in the block of the bind node. -/
theorem not_delivers_improper :
    (∀ calls ∈ improperCalls, ∃ dag, ofCalls calls = some dag ∧ (joinTargets calls).Nodup ∧ Acyclic dag.shape ∧
      Placed dag 9 1 (fun _ ↦ 0) ∧
      ¬Delivers dag (joinTargets calls) 9 1 (dag.commands dag.nodes.keys (fun _ ↦ 0) (fun _ ↦ 0) 9 1)) ∧
    ∃ dag, ofCalls blockCalls = some dag ∧ Proper blockCalls dag ∧ Acyclic dag.shape ∧
      (∀ id, IsLeaf dag.shape id → id / 2 < 1501 → id / 2 ∉ (joinTargets blockCalls).map (· / 2)) ∧
      (∀ p ∈ dag.headers, ∀ id, id / 2 = p / 2 → id ∈ dag.headers) ∧
      ¬Delivers dag (joinTargets blockCalls) 1501 2 (dag.commands dag.nodes.keys (fun _ ↦ 0) (fun _ ↦ 0) 1501 2) := by
  constructor
  · have hcheck : ∀ calls ∈ improperCalls, (ofCalls calls).any (fun dag ↦
        decide ((∀ id ∈ dag.nodes.keys, ∀ c ∈ dag.childs id, improperRank c < improperRank id) ∧
          ¬Served (dag.commands dag.nodes.keys (fun _ ↦ 0) (fun _ ↦ 0) 9 1))) = true := by
      simp only [improperCalls, boundCalls, sumOf, ofCalls, List.forall_mem_cons, List.cons_append, List.nil_append,
        List.foldlM_cons, DagCall.run, join, joinCluster, mergeSort_repeated₁, mergeSort_repeated₂, mergeSort_pair,
        List.mergeSort_nil, List.mergeSort_singleton]
      decide +kernel
    have honce : ∀ calls ∈ improperCalls, (joinTargets calls).Nodup := by decide
    intro calls hcalls
    obtain ⟨dag, hrun, hacyclic, hserved⟩ := exists_of_check (hcheck calls hcalls)
    exact ⟨dag, hrun, honce calls hcalls, hacyclic, placed_one .., fun h ↦ hserved h.toServed⟩
  · have hcheck : (ofCalls blockCalls).any (fun dag ↦
        decide ((∀ id ∈ dag.nodes.keys, ∀ c ∈ dag.childs id, improperRank c < improperRank id) ∧
          ¬Served (dag.commands dag.nodes.keys (fun _ ↦ 0) (fun _ ↦ 0) 1501 2))) = true := by
      simp only [blockCalls, sumOf, ofCalls, List.foldlM_cons, DagCall.run, join, joinCluster, mergeSort_block]
      decide +kernel
    have hmade : (ofCalls blockCalls).map (fun dag ↦ (dag.headers, dag.bindId)) = some ([8000, 8001], 3001) := by
      simp only [blockCalls, sumOf, ofCalls, List.foldlM_cons, DagCall.run, join, joinCluster, mergeSort_block]
      decide +kernel
    obtain ⟨dag, hrun, hacyclic, hserved⟩ := exists_of_check hcheck
    rw [hrun] at hmade
    obtain ⟨hheaders, hbindId⟩ := Prod.mk.inj (Option.some.inj hmade)
    refine ⟨dag, hrun, ⟨by decide, ?_⟩, hacyclic, fun id _ hlt ↦ ?_, fun p hp id heq ↦ ?_, fun h ↦ hserved h.toServed⟩
    · simp [blockCalls, sumOf, DagCall.Fits, Drawn, bindStart, hbindId]
    · show id / 2 ∉ [4000, 4000]
      rw [List.mem_pair]
      omega
    · rw [hheaders] at hp ⊢
      rw [List.mem_pair] at hp ⊢
      omega

/-- A block of two sub-packets, both computed from two other blocks. `Opt0` binds them. -/
def alikeCalls : List DagCall := [sumOf 4 [0, 1, 2, 3], sumOf 5 [0, 1, 2, 3], .bind .opt0]

/-- The first block is at one address, the others at another. -/
def alikeIp (id : ℕ) : ℕ := if id / 2 = 0 then 10 else 11

/-- The leaves, the bind node and the targets. -/
def alikeRank (id : ℕ) : ℕ := if id ≤ 3 then 0 else if id = 3000 then 1 else 2

theorem mergeSort_four : [0, 1, 2, 3].mergeSort = [0, 1, 2, 3] := by simp [List.mergeSort]

theorem delivers_alikeCalls : ∃ dag, ofCalls alikeCalls = some dag ∧
    Delivers dag (joinTargets alikeCalls) 3 2 (dag.commands dag.nodes.keys alikeIp alikeIp 3 2) := by
  have hcheck : (ofCalls alikeCalls).any (fun dag ↦
      decide ((∀ id ∈ dag.nodes.keys, ∀ c ∈ dag.childs id, alikeRank c < alikeRank id) ∧
        (∀ id ∈ dag.nodes.keys, dag.childs id = [] ↔ id ≤ 3) ∧ dag.headers = [4, 5])) = true := by
    simp only [alikeCalls, sumOf, ofCalls, List.foldlM_cons, DagCall.run, join, joinCluster, mergeSort_four]
    decide +kernel
  obtain ⟨dag, hrun, hdag⟩ := (Option.any_eq_true _ _).mp hcheck
  obtain ⟨hrank, hchilds, hheaders⟩ := of_decide_eq_true hdag
  have hleaf : ∀ id ∈ dag.nodes, IsLeaf dag.shape id ↔ id ≤ 3 := by
    intro id hid
    obtain ⟨⟨cs, M⟩, hshape⟩ := mem_nodes_iff.mp hid
    rw [← hchilds id (AList.mem_keys.mp hid), childs_of_shape hshape, IsLeaf, hshape]
    refine ⟨fun h ↦ ?_, fun h ↦ ⟨M, by rw [← h]⟩⟩
    obtain ⟨_, h⟩ := h
    exact congrArg Prod.fst (Option.some.inj h)
  have hplaced : Placed dag 3 2 alikeIp := by
    refine ⟨fun id id' _ _ heq ↦ ?_, fun id hid id' hid' heq _ h ↦ ?_, fun p hp id heq ↦ ?_⟩
    · rw [alikeIp, alikeIp, heq]
    · have hle := (hleaf id hid).mp h
      exact (hleaf id' hid').mpr (by omega)
    · rw [hheaders, List.mem_pair] at hp ⊢
      omega
  have hproper : Proper alikeCalls dag := ⟨by decide, by simp [alikeCalls, sumOf, DagCall.Fits, Drawn, bindStart]⟩
  exact ⟨dag, hrun, delivers_commands hproper hrun (acyclic_of_rank hrank) (.refl _) Nat.two_pos hplaced alikeIp⟩

end ECDAG

end UniDedup.Storage
