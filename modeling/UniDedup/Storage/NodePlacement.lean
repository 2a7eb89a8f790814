import UniDedup.Lib.Assignment
import UniDedup.Storage.Coordinator
import UniDedup.Storage.Fetches
import UniDedup.Storage.Reconstruct

/-!
# Placing the nodes of a graph

The coordinator sorts the graph and gives each node an address. A node that shares the place of another one gets its
address, a node of a block that has an address gets that, and any other node is put beside one of its children, or, where
locality is off, away from them as long as there is an agent without any.

A node is constrained to one below it, so its address is known when it is needed, and no assertion fails. The loads of a
block are all sent to the agent that has the block.
-/

namespace UniDedup.Storage

/-- The addresses of the blocks of a stripe, or of the nodes of a graph. -/
abbrev IpMap := AList fun _ : ℕ ↦ ℕ

/-- What `cid2ip[id]` gives. -/
def IpMap.ip (m : IpMap) (id : ℕ) : ℕ := (m.lookup id).getD 0

/-- `candidateIps`, with the random number that picks a child where every agent has one; `none` where an assertion fails or
the remainder by the number of children divides by zero. -/
def ECNode.candidateIps (node : ECNode) (nodeId : ℕ) (sid2ip cid2ip : IpMap) (allIps : List ℕ) (w : ℕ) (locality : Bool)
    (rand : ℕ) : Option (List ℕ) :=
  match node.consId with
  | some consId => (cid2ip.lookup consId).map fun ip ↦ [ip]
  | none =>
    match sid2ip.lookup (nodeId / w) with
    | some ip => some [ip]
    | none => do
      let childIps ← node.childNodes.mapM fun c ↦ cid2ip.lookup c
      if locality then return childIps
      let toret := allIps.filter (· ∉ childIps)
      if toret = [] then (childIps[rand % childIps.length]?).map fun ip ↦ [ip] else return toret

namespace ECDAG

/-- The address that a node gets, after those before it. -/
def placeNode (dag : ECDAG) (sid2ip : IpMap) (allIps : List ℕ) (w : ℕ) (locality : Bool) (rands picks : ℕ → ℕ)
    (cid2ip : IpMap) (cidx : ℕ) : Option ℕ := do
  let node ← dag.nodes.lookup cidx
  let candidates ← node.candidateIps cidx sid2ip cid2ip allIps w locality (rands cidx)
  chooseFromCandidates candidates (picks cidx)

/-- The loop of `offlineEnc` and of the repairs that places the nodes in the order of `toposort`. -/
def placeNodes (dag : ECDAG) (order : List ℕ) (sid2ip : IpMap) (allIps : List ℕ) (w : ℕ) (locality : Bool)
    (rands picks : ℕ → ℕ) : Option IpMap :=
  Toposort.assign (dag.placeNode sid2ip allIps w locality rands picks) (dag.toposort order)

/-- An address that a node may get, given those of the nodes below it. -/
inductive Allowed (dag : ECDAG) (sid2ip : IpMap) (allIps : List ℕ) (w : ℕ) (locality : Bool) (ipOf : ℕ → ℕ) (id : ℕ) :
    ℕ → Prop
  | constrained {c : ℕ} (hcons : dag.consOf id = some c) : Allowed dag sid2ip allIps w locality ipOf id (ipOf c)
  | block {ip : ℕ} (hfree : dag.consOf id = none) (hblock : sid2ip.lookup (id / w) = some ip) :
      Allowed dag sid2ip allIps w locality ipOf id ip
  /-- A child has the address, and locality is on or every agent has a child. -/
  | near {c : ℕ} (hfree : dag.consOf id = none) (hblock : sid2ip.lookup (id / w) = none) (hc : c ∈ dag.childs id)
      (hfull : locality = true ∨ ∀ ip ∈ allIps, ∃ c ∈ dag.childs id, ipOf c = ip) :
      Allowed dag sid2ip allIps w locality ipOf id (ipOf c)
  | away {ip : ℕ} (hfree : dag.consOf id = none) (hblock : sid2ip.lookup (id / w) = none) (hlocality : locality = false)
      (hagent : ip ∈ allIps) (hapart : ∀ c ∈ dag.childs id, ipOf c ≠ ip) :
      Allowed dag sid2ip allIps w locality ipOf id ip

section Place

variable {dag dag₀ : ECDAG} {sid2ip cid2ip : IpMap} {allIps : List ℕ} {w : ℕ} {locality : Bool} {rands picks : ℕ → ℕ}
  {id : ℕ}

/-- The nodes whose addresses an address depends on. -/
def sources (dag : ECDAG) (id : ℕ) : List ℕ := (dag.consOf id).toList ++ dag.childs id

theorem Allowed.congr {ipOf ipOf' : ℕ → ℕ} {ip : ℕ} (hsources : ∀ c ∈ dag.sources id, ipOf' c = ipOf c)
    (h : Allowed dag sid2ip allIps w locality ipOf id ip) : Allowed dag sid2ip allIps w locality ipOf' id ip := by
  have hchild : ∀ c ∈ dag.childs id, ipOf' c = ipOf c := fun c hc ↦ hsources c (List.mem_append_right _ hc)
  cases h with
  | @constrained c hcons =>
    rw [← hsources c (List.mem_append_left _ (Option.mem_toList.mpr hcons))]
    exact .constrained hcons
  | block hfree hblock => exact .block hfree hblock
  | near hfree hblock hc hfull =>
    rw [← hchild _ hc]
    refine .near hfree hblock hc (hfull.imp_right fun hfull ip hip ↦ ?_)
    obtain ⟨c, hc, rfl⟩ := hfull ip hip
    exact ⟨c, hc, hchild c hc⟩
  | away hfree hblock hlocality hagent hapart =>
    exact .away hfree hblock hlocality hagent fun c hc ↦ hchild c hc ▸ hapart c hc

theorem chooseFromCandidates_eq {candidates : List ℕ} (hne : candidates ≠ []) (pick : ℕ) :
    ∃ ip ∈ candidates, chooseFromCandidates candidates pick = some ip := by
  have hlt : pick % candidates.length < candidates.length := Nat.mod_lt _ (List.length_pos_of_ne_nil hne)
  exact ⟨_, List.getElem_mem hlt, List.getElem?_eq_getElem hlt⟩

/-- **The address of a node** is one it may get, as soon as the nodes below it have theirs. -/
theorem exists_placeNode (hid : id ∈ dag.nodes) (hleaf : dag.childs id = [] → id / w ∈ sid2ip)
    (hsources : ∀ c ∈ dag.sources id, c ∈ cid2ip) :
    ∃ ip, dag.placeNode sid2ip allIps w locality rands picks cid2ip id = some ip ∧
      Allowed dag sid2ip allIps w locality cid2ip.ip id ip := by
  obtain ⟨node, hnode⟩ := Option.isSome_iff_exists.mp (AList.lookup_isSome.mpr hid)
  have hchilds : dag.childs id = node.childNodes := childs_of_shape (shape_of_lookup hnode)
  have hcons : dag.consOf id = node.consId := by rw [consOf, hnode]; rfl
  have hip : ∀ c ∈ dag.sources id, cid2ip.lookup c = some (cid2ip.ip c) := fun c hc ↦ by
    obtain ⟨ip, hip⟩ := Option.isSome_iff_exists.mp (AList.lookup_isSome.mpr (hsources c hc))
    rw [IpMap.ip, hip]
    rfl
  suffices hcandidates : ∃ candidates ≠ [],
      node.candidateIps id sid2ip cid2ip allIps w locality (rands id) = some candidates ∧
        ∀ ip ∈ candidates, Allowed dag sid2ip allIps w locality cid2ip.ip id ip by
    obtain ⟨candidates, hne, heq, hall⟩ := hcandidates
    obtain ⟨ip, hmem, hchoose⟩ := chooseFromCandidates_eq hne (picks id)
    refine ⟨ip, ?_, hall ip hmem⟩
    rw [placeNode, hnode, Option.bind_eq_bind, Option.bind_some, heq]
    exact hchoose
  have hone : ∀ {ip : ℕ}, Allowed dag sid2ip allIps w locality cid2ip.ip id ip →
      ∀ ip' ∈ [ip], Allowed dag sid2ip allIps w locality cid2ip.ip id ip' :=
    fun h ip' hip' ↦ List.mem_singleton.mp hip' ▸ h
  rw [ECNode.candidateIps]
  cases hc : node.consId with
  | some c =>
    have hmem : c ∈ dag.sources id := List.mem_append_left _ (Option.mem_toList.mpr (hcons.trans hc))
    refine ⟨[cid2ip.ip c], List.cons_ne_nil _ _, ?_, hone (.constrained (hcons.trans hc))⟩
    show (cid2ip.lookup c).map _ = _
    rw [hip c hmem]
    rfl
  | none =>
    have hfree : dag.consOf id = none := hcons.trans hc
    cases hblock : sid2ip.lookup (id / w) with
    | some ip => exact ⟨[ip], List.cons_ne_nil _ _, rfl, hone (.block hfree hblock)⟩
    | none =>
      have hips : (node.childNodes.mapM fun c ↦ cid2ip.lookup c) = some (node.childNodes.map cid2ip.ip) :=
        Fold.mapM_eq_map fun c hc ↦ hip c (List.mem_append_right _ (hchilds ▸ hc))
      have hne : node.childNodes ≠ [] := fun hnil ↦
        absurd hblock (Option.ne_none_iff_isSome.mpr (AList.lookup_isSome.mpr (hleaf (hchilds.trans hnil))))
      have hmem : ∀ {ip}, ip ∈ node.childNodes.map cid2ip.ip ↔ ∃ c ∈ dag.childs id, cid2ip.ip c = ip := by
        rw [hchilds]
        exact List.mem_map
      have hne' : node.childNodes.map cid2ip.ip ≠ [] := fun hnil ↦ hne (List.map_eq_nil_iff.mp hnil)
      simp only [hips, Option.bind_eq_bind, Option.bind_some]
      by_cases hlocality : locality = true
      · rw [if_pos hlocality]
        refine ⟨_, hne', rfl, fun ip hip ↦ ?_⟩
        obtain ⟨c, hc, rfl⟩ := hmem.mp hip
        exact .near hfree hblock hc (.inl hlocality)
      · rw [if_neg hlocality]
        by_cases hempty : allIps.filter (· ∉ node.childNodes.map cid2ip.ip) = []
        · -- Every agent has a child.
          rw [if_pos hempty]
          obtain ⟨ip, hchild, hrand⟩ := chooseFromCandidates_eq hne' (rands id)
          obtain ⟨c, hc, rfl⟩ := hmem.mp hchild
          rw [chooseFromCandidates] at hrand
          refine ⟨[cid2ip.ip c], List.cons_ne_nil _ _, by rw [hrand]; rfl,
            hone (.near hfree hblock hc (.inr fun ip hip ↦ ?_))⟩
          have hin := List.filter_eq_nil_iff.mp hempty ip hip
          simp only [decide_eq_true_eq, not_not] at hin
          exact hmem.mp hin
        · rw [if_neg hempty]
          refine ⟨_, hempty, rfl, fun ip hip ↦ ?_⟩
          obtain ⟨hagent, hapart⟩ := List.mem_filter.mp hip
          refine .away hfree hblock (Bool.eq_false_iff.mpr hlocality) hagent fun c hc heq ↦ ?_
          exact of_decide_eq_true hapart (hmem.mpr ⟨c, hc, heq⟩)

theorem Tuned.sources_first {targets order : List ℕ} (h : Tuned dag₀ dag targets) (horder : order.Perm dag.nodes.keys) :
    (dag.toposort order).Nodup ∧ (∀ id, id ∈ dag.toposort order ↔ id ∈ dag.nodes) ∧
      Toposort.ChildrenFirst dag.sources (dag.toposort order) := by
  obtain ⟨hnodup, hmem, hfirst⟩ := h.accounted.toposort h.kept.acyclic horder
  have hchilds := childs_congr (shape_countHeaders dag)
  have hnodes := nodes_congr (shape_countHeaders dag)
  rw [toposort, hchilds] at hnodup hfirst
  refine ⟨hnodup, fun id ↦ ?_, fun l₁ id l₂ hsplit c hc ↦ ?_⟩
  · rw [← hnodes, ← hmem, toposort, toposort, hchilds]
  · rcases List.mem_append.mp hc with hc | hc
    · exact hfirst.below hsplit (h.constrained id c (Option.mem_toList.mp hc))
    · exact hfirst l₁ id l₂ hsplit c hc

/-- **The addresses of a graph.** All nodes get addresses, and these are ones that they may get. -/
theorem Tuned.exists_placeNodes {targets order : List ℕ} (h : Tuned dag₀ dag targets)
    (horder : order.Perm dag.nodes.keys) (hblocks : ∀ id, IsLeaf dag.shape id → id / w ∈ sid2ip) :
    ∃ cid2ip, dag.placeNodes order sid2ip allIps w locality rands picks = some cid2ip ∧
      (∀ id, id ∈ cid2ip ↔ id ∈ dag.nodes) ∧
        ∀ id ∈ dag.nodes, Allowed dag sid2ip allIps w locality cid2ip.ip id (cid2ip.ip id) := by
  obtain ⟨hnodup, hmem, hfirst⟩ := h.sources_first horder
  let good (f : ℕ → Option ℕ) (id ip : ℕ) : Prop := Allowed dag sid2ip allIps w locality (fun c ↦ (f c).getD 0) id ip
  have hchoose : ∀ m : IpMap, ∀ id ∈ dag.toposort order, (∀ c ∈ dag.sources id, c ∈ m) →
      ∃ ip, dag.placeNode sid2ip allIps w locality rands picks m id = some ip ∧ good (fun c ↦ m.lookup c) id ip := by
    intro m id hid hsources
    refine exists_placeNode ((hmem id).mp hid) (fun hnil ↦ ?_) hsources
    obtain ⟨⟨cs, M⟩, hsh⟩ := mem_nodes_iff.mp ((hmem id).mp hid)
    rw [childs_of_shape hsh] at hnil
    exact hblocks id ⟨M, hnil ▸ hsh⟩
  have hgood : ∀ f f' id ip, (∀ c ∈ dag.sources id, f' c = f c) → good f id ip → good f' id ip :=
    fun f f' id ip hsources hallowed ↦ hallowed.congr fun c hc ↦ congrArg (Option.getD · 0) (hsources c hc)
  obtain ⟨cid2ip, hassign, hkeys, hall⟩ := Toposort.exists_assign hfirst hnodup hchoose hgood
  refine ⟨cid2ip, hassign, fun id ↦ (hkeys id).trans (hmem id), fun id hid ↦ ?_⟩
  obtain ⟨ip, hip, hallowed⟩ := hall id ((hmem id).mpr hid)
  have heq : IpMap.ip cid2ip id = ip := by rw [IpMap.ip, hip]; rfl
  rw [heq]
  exact hallowed

end Place

/-! ## Joins of whole blocks -/

section JoinPlan

variable {n w : ℕ} {joins : List JoinCall} {dag : ECDAG} {sid2ip cid2ip : IpMap} {allIps : List ℕ} {locality : Bool}
  {rands picks : ℕ → ℕ} {id : ℕ}

theorem JoinPlan.mem_headers (h : JoinPlan n w joins) :
    id ∈ (ofJoins joins).headers ↔ id ∈ joins.map JoinCall.pidx := by
  have hshape := (shape_ofJoins h.once).1
  refine (h.tuned.accounted.headed.mem id).trans ⟨?_, fun hmem ↦ ?_⟩
  · rintro ⟨hid, hnot⟩
    obtain ⟨j, hj, hid⟩ := mem_nodes_ofJoins.mp hid
    rcases List.mem_cons.mp hid with rfl | hid
    · exact List.mem_map_of_mem hj
    · exact absurd (by rwa [childs_of_shape (hshape j hj)]) (hnot j.pidx)
  · obtain ⟨j, hj, rfl⟩ := List.mem_map.mp hmem
    refine ⟨mem_nodes_ofJoins.mpr ⟨j, hj, List.mem_cons_self⟩, fun p hp ↦ ?_⟩
    by_cases hnode : p ∈ (ofJoins joins).nodes
    · rcases h.leaf_or_target hnode with ⟨j', hj', -, hsh⟩ | hsh
      · rw [childs_of_shape hsh] at hp
        exact h.apart j' hj' _ hp j hj rfl
      · rw [childs_of_shape hsh] at hp
        exact absurd hp List.not_mem_nil
    · rw [childs_of_notMem hnode] at hp
      exact absurd hp List.not_mem_nil

variable (h : JoinPlan n w joins) (ht : Tuned (ofJoins joins) dag (joins.map JoinCall.pidx))
include h ht

theorem JoinPlan.leaf (hleaf : IsLeaf dag.shape id) : id / w < n ∧ dag.consOf id = none := by
  obtain ⟨M, hM⟩ := (ht.kept.leaves id).mp hleaf
  obtain ⟨j, hj, hid⟩ := mem_nodes_ofJoins.mp (mem_nodes_iff.mpr ⟨_, hM⟩)
  refine ⟨Nat.div_lt_of_lt_mul (by rw [Nat.mul_comm]; exact h.lt j hj id hid), ?_⟩
  rw [Option.eq_none_iff_forall_ne_some]
  intro c hc
  obtain ⟨M', hM'⟩ := hleaf
  obtain ⟨b, -, hb⟩ := Relation.TransGen.tail'_iff.mp (ht.constrained id c hc)
  rw [childs_of_shape hM'] at hb
  exact List.not_mem_nil hb

theorem JoinPlan.childs_ne_nil (hlt : id / w < n) :
    dag.childs id ≠ [] ↔ id ∈ joins.map JoinCall.pidx := by
  have hplain : Plain dag.shape id := by
    by_contra hnot
    have hle : n * w ≤ id := h.room.trans (ht.accounted.drawn id hnot).1
    exact absurd ((Nat.le_div_iff_mul_le h.pos).mpr hle) (not_le.mpr hlt)
  exact ⟨fun hne ↦ (ht.accounted.joined id).mpr ⟨hplain, hne⟩, fun hmem ↦ ((ht.accounted.joined id).mp hmem).2⟩

/-- **The loads of a block** are sent to where the block is. -/
theorem JoinPlan.ip_leaf (hall : ∀ id ∈ dag.nodes, Allowed dag sid2ip allIps w locality cid2ip.ip id (cid2ip.ip id))
    (hblocks : ∀ r < n, r ∈ sid2ip) (hleaf : IsLeaf dag.shape id) : sid2ip.lookup (id / w) = some (cid2ip.ip id) := by
  obtain ⟨hlt, hfree⟩ := h.leaf ht hleaf
  obtain ⟨M, hM⟩ := hleaf
  obtain ⟨ip, hip⟩ := Option.isSome_iff_exists.mp (AList.lookup_isSome.mpr (hblocks _ hlt))
  have hallowed := hall id (mem_nodes_iff.mpr ⟨_, hM⟩)
  generalize cid2ip.ip id = ip' at hallowed
  cases hallowed with
  | constrained hcons => exact absurd (hfree.symm.trans hcons) (Option.some_ne_none _).symm
  | block _ hblock => exact hblock
  | near _ hblock => exact absurd (hblock.symm.trans hip) (Option.some_ne_none _).symm
  | away _ hblock => exact absurd (hblock.symm.trans hip) (Option.some_ne_none _).symm

theorem JoinPlan.placed (hall : ∀ id ∈ dag.nodes, Allowed dag sid2ip allIps w locality cid2ip.ip id (cid2ip.ip id))
    (hblocks : ∀ r < n, r ∈ sid2ip) : Placed dag n w cid2ip.ip where
  place id id' hid hid' heq := by
    have hip := h.ip_leaf ht hall hblocks hid
    rw [heq, h.ip_leaf ht hall hblocks hid'] at hip
    exact (Option.some.inj hip).symm
  alike id hid id' hid' heq hlt hleaf := by
    obtain ⟨M, hM⟩ := hleaf
    obtain ⟨⟨cs, M'⟩, hM'⟩ := mem_nodes_iff.mp hid'
    by_cases hcs : cs = []
    · exact ⟨M', hcs ▸ hM'⟩
    -- Its block is one that is joined, and so is the other node.
    have htarget := (h.childs_ne_nil ht (heq ▸ hlt)).mp (by rwa [childs_of_shape hM'])
    obtain ⟨j, hj, rfl⟩ := List.mem_map.mp htarget
    have hne := (h.childs_ne_nil ht hlt).mpr (h.whole j hj id heq)
    exact absurd (childs_of_shape hM) hne
  whole p hp id heq := by
    have hheaders : dag.headers = (ofJoins joins).headers := congrArg Prod.fst ht.kept.frame
    rw [hheaders] at hp ⊢
    obtain ⟨j, hj, rfl⟩ := List.mem_map.mp (h.mem_headers.mp hp)
    exact h.mem_headers.mpr (h.whole j hj id heq)

/-- **The addresses of a plan.** -/
theorem JoinPlan.exists_placed {order : List ℕ} (horder : order.Perm dag.nodes.keys) (hblocks : ∀ r < n, r ∈ sid2ip)
    (allIps : List ℕ) (locality : Bool) (rands picks : ℕ → ℕ) :
    ∃ cid2ip, dag.placeNodes order sid2ip allIps w locality rands picks = some cid2ip ∧
      (∀ id ∈ dag.nodes, Allowed dag sid2ip allIps w locality cid2ip.ip id (cid2ip.ip id)) ∧
      (∀ id, IsLeaf dag.shape id → sid2ip.lookup (id / w) = some (cid2ip.ip id)) ∧ Placed dag n w cid2ip.ip := by
  obtain ⟨cid2ip, hplace, -, hall⟩ := ht.exists_placeNodes horder fun id hleaf ↦ hblocks _ (h.leaf ht hleaf).1
  exact ⟨cid2ip, hplace, hall, fun id ↦ h.ip_leaf ht hall hblocks, h.placed ht hall hblocks⟩

end JoinPlan

/-- **Optimising and placing** a graph that joins whole blocks fails no assertion. Every node gets an address it may get,
the loads of a block are sent to where the block is, and so the commands for a block can be merged. -/
theorem JoinPlan.reconstruct_placed {n w : ℕ} {joins : List JoinCall} {sid2ip : IpMap} (h : JoinPlan n w joins)
    (hblocks : ∀ r < n, r ∈ sid2ip) (opt : ℤ) (rand : ℕ → ℕ) (allIps : List ℕ) (locality : Bool) (rands picks : ℕ → ℕ) :
    ∃ dag, (ofJoins joins).reconstruct opt rand = some dag ∧ ∀ order, order.Perm dag.nodes.keys →
      ∃ cid2ip, dag.placeNodes order sid2ip allIps w locality rands picks = some cid2ip ∧
        (∀ id ∈ dag.nodes, Allowed dag sid2ip allIps w locality cid2ip.ip id (cid2ip.ip id)) ∧
        (∀ id, IsLeaf dag.shape id → sid2ip.lookup (id / w) = some (cid2ip.ip id)) ∧ Placed dag n w cid2ip.ip := by
  obtain ⟨dag, hrun, ht⟩ := h.tuned.reconstruct h.uniformGraph (h.roomFor _) opt rand
  exact ⟨dag, hrun, fun order horder ↦ h.exists_placed ht horder hblocks allIps locality rands picks⟩

/-- Blocks of two sub-packets: one block is computed from all of two others, one from a half of each. -/
def fourJoins : List JoinCall :=
  [⟨4, [0, 1, 2, 3], [1, 1, 1, 1]⟩, ⟨5, [0, 1, 2, 3], [1, ⟨2⟩, ⟨3⟩, ⟨4⟩]⟩, ⟨6, [1, 2], [1, 1]⟩, ⟨7, [1, 2], [1, ⟨2⟩]⟩]

theorem joinPlan_four : JoinPlan 4 2 fourJoins where
  pos := Nat.two_pos
  once := by decide
  nonempty := by decide
  nodup := by decide
  uniform := by decide
  lt := by decide
  room := by decide
  whole j hj id heq := by
    have hblocks : ∀ j ∈ fourJoins, j.pidx / 2 = 2 ∨ j.pidx / 2 = 3 := by decide
    have hblock := hblocks j hj
    have hid : id = 4 ∨ id = 5 ∨ id = 6 ∨ id = 7 := by omega
    rcases hid with rfl | rfl | rfl | rfl
    all_goals decide
  apart := by decide

def fourIps : IpMap := (((∅ : IpMap).insert 0 10).insert 1 11).insert 2 12 |>.insert 3 13

theorem reconstruct_placed_four : ∃ dag, (ofJoins fourJoins).reconstruct 1 (fun _ ↦ 0) = some dag ∧
    ∀ order, order.Perm dag.nodes.keys → ∃ cid2ip,
      dag.placeNodes order fourIps [10, 11, 12, 13] 2 false (fun _ ↦ 0) (fun _ ↦ 0) = some cid2ip ∧
        (∀ id ∈ dag.nodes, Allowed dag fourIps [10, 11, 12, 13] 2 false cid2ip.ip id (cid2ip.ip id)) ∧
        (∀ id, IsLeaf dag.shape id → fourIps.lookup (id / 2) = some (cid2ip.ip id)) ∧ Placed dag 4 2 cid2ip.ip :=
  joinPlan_four.reconstruct_placed (by decide) 1 (fun _ ↦ 0) [10, 11, 12, 13] false (fun _ ↦ 0) (fun _ ↦ 0)

end ECDAG

end UniDedup.Storage
