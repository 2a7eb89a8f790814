import Mathlib.Logic.Relation
import UniDedup.Storage.CountedRuns

/-!
# Optimising a graph

`reconstruct` binds the targets of every cluster (`Opt0`), or binds them and puts the bind node beside a random child
(`Opt1`). When the nodes over the same children list them in the same order, every node keeps its value, the counts stay
right, and no assertion fails as long as the numbers of the nodes leave room for the bind nodes.

The constraints that `BindY` sets are nodes below the constrained ones, and stay so when bind nodes are put in between.

## The invariant

`Tuned dag₀ dag targets` compares a graph with the one it was optimised from: `Accounted` holds, values and leaves
are the same, and constraints point downwards. A bind uses up one number behind `BINDSTART` and one cluster; `Room`
counts how many are left, so that no assertion about numbers can fail on the way.
-/

namespace UniDedup.Storage

namespace ECDAG

/-- `reconstruct`, with the random numbers that `Opt1` draws. -/
def reconstruct (opt : ℤ) (rand : ℕ → ℕ) (dag : ECDAG) : Option ECDAG :=
  if opt = 0 then dag.opt0 else if opt = 1 then dag.opt1 rand else some dag

/-- Nodes over the same children list them in the same order. -/
def Uniform (dag : ECDAG) : Prop := ∀ p q, (dag.childs p).Perm (dag.childs q) → dag.childs p = dag.childs q

/-! ## Constraints -/

def consOf (dag : ECDAG) (id : ℕ) : Option ℕ := (dag.nodes.lookup id).bind ECNode.consId

/-- The node `c` is below `p`. -/
def Below (dag : ECDAG) (c p : ℕ) : Prop := Relation.TransGen (fun c p ↦ c ∈ dag.childs p) c p

/-- A node is constrained to nodes below it. -/
def ConstrainedBelow (dag : ECDAG) : Prop := ∀ p c, dag.consOf p = some c → Below dag c p

section Constraints

variable {dag dag' : ECDAG} {p c : ℕ}

theorem consOf_modify (dag : ECDAG) (id : ℕ) {f : ECNode → ECNode} (hf : ∀ nd, (f nd).consId = nd.consId) :
    (dag.modify id f).consOf = dag.consOf := by
  funext j
  rw [consOf, consOf, lookup_modify]
  split_ifs with hj
  · rw [hj]
    cases dag.nodes.lookup id with
    | none => rfl
    | some nd => exact hf nd
  · rfl

theorem consOf_foldl {f : ECDAG → ℕ → ECDAG} (hf : ∀ dag j, (f dag j).consOf = dag.consOf) (js : List ℕ)
    (dag : ECDAG) : (js.foldl f dag).consOf = dag.consOf := by
  induction js generalizing dag with
  | nil => rfl
  | cons j js ih => rw [List.foldl_cons, ih, hf]

theorem consOf_setRefNum (dag : ECDAG) (node id : ℕ) (ref : ℤ) : (dag.setRefNum node id ref).consOf = dag.consOf := by
  refine consOf_foldl (fun dag j ↦ ?_) _ _
  exact consOf_modify dag j fun _ ↦ rfl

theorem consOf_incRefNumFor (dag : ECDAG) (node id : ℕ) : (dag.incRefNumFor node id).consOf = dag.consOf := by
  refine consOf_foldl (fun dag j ↦ ?_) _ _
  exact consOf_modify dag j fun _ ↦ rfl

theorem consId_addCoefs (es : List (Sigma fun _ : ℕ ↦ List GF256)) (nd : ECNode) :
    (es.foldl (fun nd item ↦ nd.addCoefs item.1 item.2) nd).consId = nd.consId := by
  induction es generalizing nd with
  | nil => rfl
  | cons e es ih => exact ih _

theorem consOf_bindTarget (bindid : ℕ) (dag : ECDAG) (tbid : ℕ) : (dag.bindTarget bindid tbid).consOf = dag.consOf := by
  rw [bindTarget]
  split
  · rfl
  · refine (consOf_modify _ tbid fun _ ↦ ?_).trans ((consOf_setRefNum ..).trans (consOf_modify _ _ fun _ ↦ ?_))
    · rfl
    · exact consId_addCoefs _ _

theorem consOf_unrefChild (num : ℕ) (dag : ECDAG) (cid : ℕ) : (dag.unrefChild num cid).consOf = dag.consOf := by
  rw [unrefChild]
  split
  · rfl
  · exact consOf_setRefNum ..

theorem consOf_withBind {bindNode : ECNode} (hnone : bindNode.consId = none) (hfree : dag.bindId ∉ dag.nodes) :
    (dag.withBind bindNode).consOf = dag.consOf := by
  funext j
  rw [consOf, consOf]
  show ((dag.nodes.insert dag.bindId bindNode).lookup j).bind ECNode.consId = _
  rcases eq_or_ne j dag.bindId with rfl | hj
  · rw [AList.lookup_insert, AList.lookup_eq_none.mpr hfree]
    exact hnone
  · rw [AList.lookup_insert_ne hj]

theorem consOf_bindX {idxs : List ℕ} {b : ℤ} (h : dag.bindX idxs = some (dag', b)) : dag'.consOf = dag.consOf := by
  rcases idxs with _ | ⟨i, _ | ⟨l, is⟩⟩
  · rw [(Prod.mk.inj (Option.some.inj h)).1]
  · rw [(Prod.mk.inj (Option.some.inj h)).1]
  · obtain ⟨hfree, first, c, -, -, -, rfl⟩ := bindX_inv h
    rw [consOf_foldl (consOf_unrefChild _)]
    exact (consOf_foldl (consOf_bindTarget _) _ _).trans (consOf_withBind rfl hfree)

/-- `BindY` constrains one node, to a child or to what the child is constrained to. -/
theorem consOf_bindY (h : dag.bindY p c = some dag') :
    dag'.consOf = Function.update dag.consOf p (some ((dag.consOf c).getD c)) := by
  obtain ⟨toaddNode, hp, h⟩ := Option.bind_eq_some_iff.mp h
  obtain ⟨consNode, hc, h⟩ := Option.bind_eq_some_iff.mp h
  have hcons : dag.consOf c = consNode.consId := by rw [consOf, hc, Option.bind_some]
  have hset : ∀ id, (dag.modify p (·.setConstraint id)).consOf = Function.update dag.consOf p (some id) := by
    intro id
    funext j
    rw [consOf, lookup_modify]
    rcases eq_or_ne j p with rfl | hj
    · rw [if_pos rfl, hp, Function.update_self]
      rfl
    · rw [if_neg hj, Function.update_of_ne hj, consOf]
  rw [hcons]
  cases hid : consNode.consId with
  | some id =>
    rw [hid] at h
    rw [← Option.some.inj h, hset]
    rfl
  | none =>
    rw [hid] at h
    obtain ⟨i, -, h⟩ := Option.bind_eq_some_iff.mp h
    rw [← Option.some.inj h]
    exact hset c

theorem Below.congr (hshape : dag'.shape = dag.shape) (h : Below dag c p) : Below dag' c p := by
  rw [Below, childs_congr hshape]
  exact h

theorem ConstrainedBelow.bindY (h : ConstrainedBelow dag) (hc : c ∈ dag.childs p) (hrun : dag.bindY p c = some dag') :
    ConstrainedBelow dag' := by
  have hshape := (marks_bindY hrun).shape
  intro q d hd
  rw [consOf_bindY hrun] at hd
  refine Below.congr hshape ?_
  rcases eq_or_ne q p with rfl | hq
  · rw [Function.update_self] at hd
    cases hcons : dag.consOf c with
    | none =>
      rw [hcons] at hd
      exact Option.some.inj hd ▸ .single hc
    | some e =>
      rw [hcons] at hd
      exact Option.some.inj hd ▸ (h c e hcons).tail hc
  · rw [Function.update_of_ne hq] at hd
    exact h q d hd

/-- What is below stays below when a bind node is put between targets and their children. -/
theorem Below.rebound {bid : ℕ} {idxs cs : List ℕ} {co : ℕ → List GF256} {M : CoefMap}
    (hreb : Rebound dag.shape dag'.shape bid idxs cs co M) (h : Below dag c p) : Below dag' c p := by
  have hstep : ∀ c p, c ∈ dag.childs p → Below dag' c p := by
    intro c p hc
    by_cases hp : p ∈ idxs
    · rw [childs_of_shape (hreb.target p hp)] at hc
      have hbind : c ∈ dag'.childs bid := by rwa [childs_of_shape hreb.shape_bind]
      refine (Relation.TransGen.single hbind).tail (?_ : bid ∈ dag'.childs p)
      rw [childs_of_shape ((hreb.shape p).trans (if_pos hp))]
      exact List.mem_singleton_self bid
    · have hpb : p ≠ bid := by
        rintro rfl
        rw [childs_of_notMem (shape_eq_none.mp hreb.free)] at hc
        exact List.not_mem_nil hc
      refine .single ?_
      rwa [childs_eq, hreb.shape_of_notMem hp hpb, ← childs_eq]
  induction h with
  | single hc => exact hstep _ _ hc
  | tail _ hc ih => exact ih.trans (hstep _ _ hc)

end Constraints

/-! ## Targets that are bound -/

/-- The graph `dag` is `dag₀`, where some targets were bound and some nodes constrained. -/
structure Tuned (dag₀ dag : ECDAG) (targets : List ℕ) : Prop where
  accounted : Accounted dag targets
  kept : Kept dag₀ dag
  bound : ∀ t, Plain dag.shape t → dag.shape t = dag₀.shape t ∨ ∃ b, dag.childs t = [b] ∧ ¬Plain dag.shape b
  constrained : ConstrainedBelow dag

/-- No node has one of the next `k` numbers that bind nodes get. -/
def Room (k : ℕ) (dag : ECDAG) : Prop := ∀ id ∈ dag.nodes, id < dag.bindId ∨ dag.bindId + k ≤ id

section Tuned

variable {dag₀ dag dag' : ECDAG} {targets : List ℕ} {cl : Cluster} {i k : ℕ}

theorem Room.free (h : Room (k + 1) dag) : dag.bindId ∉ dag.nodes := by
  intro hmem
  rcases h _ hmem with hlt | hle
  · exact hlt.false
  · omega

theorem Room.mono {k' : ℕ} (h : Room k dag) (hle : k' ≤ k) : Room k' dag :=
  fun id hid ↦ (h id hid).imp_right fun h ↦ by omega

theorem Marks.frame (h : Marks dag dag') : dag'.frame = dag.frame := by
  refine Prod.ext h.headers ?_
  rcases h.clusters with heq | ⟨i, opt, -, heq⟩
  · exact congrArg (List.map _) heq
  · show dag'.clusters.map _ = dag.clusters.map _
    rw [heq]
    refine List.ext_getElem (by simp) fun j hj hj' ↦ ?_
    simp only [List.getElem_map, List.getElem_modify]
    split_ifs <;> rfl

theorem Marks.room (h : Marks dag dag') (hroom : Room k dag) : Room k dag' := by
  intro id hid
  rw [h.bindId]
  exact hroom id ((nodes_congr h.shape id).mp hid)

/-- Marks keep what holds of a graph, as long as the constraints are to nodes below. -/
theorem Tuned.marks (h : Tuned dag₀ dag targets) (hm : Marks dag dag') (hcons : ConstrainedBelow dag') :
    Tuned dag₀ dag' targets where
  accounted := h.accounted.marks hm
  kept := h.kept.congr hm.shape hm.frame
  bound := by
    rw [hm.shape, childs_congr hm.shape]
    exact h.bound
  constrained := hcons

theorem Tuned.setOpt (h : Tuned dag₀ dag targets) (i : ℕ) {opt : ℤ} (hopt : opt ≠ -1) :
    Tuned dag₀ (dag.setOpt i opt) targets :=
  h.marks (marks_setOpt dag i hopt) h.constrained

theorem Tuned.rebound {bid : ℕ} {idxs cs : List ℕ} {co : ℕ → List GF256} {M : CoefMap} (h : Tuned dag₀ dag targets)
    (hreb : Rebound dag.shape dag'.shape bid idxs cs co M) (haccounted : Accounted dag' targets)
    (hframe : dag'.frame = dag.frame) (hcons : dag'.consOf = dag.consOf) : Tuned dag₀ dag' targets where
  accounted := haccounted
  kept := h.kept.rebound hreb hframe
  bound t ht := by
    have hbind : ¬Plain dag'.shape bid := fun hplain ↦
      absurd (hplain _ hreb.shape_bind) (Nat.not_le.mpr hreb.many)
    by_cases htx : t ∈ idxs
    · exact .inr ⟨bid, childs_of_shape ((hreb.shape t).trans (if_pos htx)), hbind⟩
    have htb : t ≠ bid := fun heq ↦ hbind (heq ▸ ht)
    have hshape := hreb.shape_of_notMem htx htb
    rw [Plain, hshape] at ht
    rw [hshape]
    rcases h.bound t ht with heq | ⟨b, hb, hnot⟩
    · exact .inl heq
    refine .inr ⟨b, by rw [childs_eq, hshape, ← childs_eq, hb], fun hplain ↦ ?_⟩
    -- a bind node is no target and not the new one
    have hbx : b ∉ idxs := fun hbx ↦ hnot fun sh hsh ↦ by
      rw [hreb.target b hbx] at hsh
      rw [← Option.some.inj hsh]
      exact le_refl 1
    have hbb : b ≠ bid := by
      rintro rfl
      exact hnot fun sh hsh ↦ absurd (hsh.symm.trans hreb.free) (Option.some_ne_none sh)
    refine hnot fun sh hsh ↦ hplain sh ?_
    rw [hreb.shape_of_notMem hbx hbb, hsh]
  constrained p c hc := by
    rw [hcons] at hc
    exact (h.constrained p c hc).rebound hreb

/-- The parents of a cluster that is not optimised list their children alike. -/
theorem Tuned.alike (h : Tuned dag₀ dag targets) (huniform : Uniform dag₀) (hcl : cl ∈ dag.clusters)
    (hopt : cl.opted = -1) (hne : cl.parents ≠ []) :
    ∃ cs, cs.Perm cl.childs ∧ ∀ p ∈ cl.parents, ∃ co, dag.shape p = some (cs, AList.singleton p co) := by
  obtain ⟨-, hown⟩ := h.accounted.parents cl hcl hopt
  have hlist : ∀ p ∈ cl.parents, ∃ ch co, dag.shape p = some (ch, AList.singleton p co) ∧ ch.Perm cl.childs ∧
      dag₀.childs p = ch := by
    intro p hp
    obtain ⟨ch, co, hS, hperm⟩ := hown p hp
    refine ⟨ch, co, hS, hperm, ?_⟩
    have hplain : Plain dag.shape p := fun sh hsh ↦ by
      rw [hS] at hsh
      rw [← Option.some.inj hsh]
      exact le_refl 1
    rcases h.bound p hplain with heq | ⟨b, hb, hnot⟩
    · exact childs_of_shape (heq ▸ hS)
    · -- the children of a cluster are no bind nodes
      rw [childs_of_shape hS] at hb
      have hmem : b ∈ cl.childs := hperm.mem_iff.mp (hb ▸ List.mem_singleton_self b)
      exact absurd ((h.accounted.childs cl hcl).2 b hmem).2 hnot
  obtain ⟨p, hp⟩ := List.exists_mem_of_ne_nil _ hne
  obtain ⟨cs, -, -, hperm, hcs⟩ := hlist p hp
  refine ⟨cs, hperm, fun q hq ↦ ?_⟩
  obtain ⟨ch, co, hS, hperm', hch⟩ := hlist q hq
  have heq : ch = cs := by
    rw [← hch, ← hcs]
    exact huniform q p (by rw [hch, hcs]; exact hperm'.trans hperm.symm)
  exact ⟨co, heq ▸ hS⟩

theorem findCluster_of_perm {cs : List ℕ} (hcl : cl ∈ dag.clusters) (hperm : cs.Perm cl.childs) (hcs : cs.Nodup) :
    (dag.findCluster cs).isSome :=
  findCluster_isSome.mpr ⟨cl, hcl, (childsInCluster_iff hcs).mpr hperm⟩

/-- **`BindX` of the parents of a cluster** goes through. -/
theorem Tuned.exists_bindX (h : Tuned dag₀ dag targets) (huniform : Uniform dag₀) (hcl : cl ∈ dag.clusters)
    (hopt : cl.opted = -1) (hlen : 2 ≤ cl.parents.length) (hroom : Room (k + 1) dag) :
    ∃ dag' cs M, dag.bindX cl.parents = some (dag', (dag.bindId : ℤ)) ∧ Tuned dag₀ dag' targets ∧ Room k dag' ∧
      dag'.shape dag.bindId = some (cs, M) ∧ cs.Perm cl.childs ∧ (dag'.findCluster cs).isSome := by
  obtain ⟨hnodup, hown⟩ := h.accounted.parents cl hcl hopt
  obtain ⟨hchilds, hchild⟩ := h.accounted.childs cl hcl
  obtain ⟨cs, hperm, hlist⟩ := h.alike huniform hcl hopt fun hnil ↦ by simp [hnil] at hlen
  choose! co hco using hlist
  have hcs : cs.Nodup := hperm.nodup_iff.mpr hchilds
  have hbindable : dag.Bindable cs :=
    { free := hroom.free
      notChild := fun id sh hsh hmem ↦ hroom.free (h.kept.closed id sh hsh _ hmem)
      nonempty := fun hnil ↦ h.accounted.nonempty cl hcl (hnil ▸ hperm).symm.eq_nil
      plain := bindOf_eq_none fun c hc ↦ (hchild c (hperm.mem_iff.mp hc)).2
      cluster := findCluster_of_perm hcl hperm hcs }
  obtain ⟨dag', hrun, hbindId, hframe, hreb⟩ := hbindable.bindX hnodup hlen hco
  have haccounted : Accounted dag' targets := h.accounted.bindX (fun _ ↦ ⟨hnodup, fun p hp ↦ (hown p hp).plain⟩) hrun
  have htuned := h.rebound hreb haccounted hframe (consOf_bindX hrun)
  refine ⟨dag', cs, _, hrun, htuned, fun id hid ↦ ?_, hreb.shape_bind, hperm, ?_⟩
  · rw [hbindId]
    rcases eq_or_ne id dag.bindId with rfl | hne
    · exact .inl (Nat.lt_succ_self _)
    have hmem : id ∈ dag.nodes := by
      obtain ⟨sh, hsh⟩ := mem_nodes_iff.mp hid
      by_cases hidx : id ∈ cl.parents
      · exact mem_nodes_iff.mpr ⟨_, hco id hidx⟩
      · exact mem_nodes_iff.mpr ⟨sh, by rw [← hreb.shape_of_notMem hidx hne, hsh]⟩
    exact (hroom id hmem).imp (fun hlt ↦ hlt.trans (Nat.lt_succ_self _)) fun hle ↦ by omega
  · obtain ⟨cl', hcl', heq⟩ : ∃ cl' ∈ dag'.clusters, (cl'.childs, cl'.parents) = (cl.childs, cl.parents) := by
      refine List.mem_map.mp ?_
      rw [show dag'.clusters.map _ = dag.clusters.map _ from congrArg Prod.snd hframe]
      exact List.mem_map_of_mem hcl
    exact findCluster_of_perm hcl' ((Prod.mk.inj heq).1 ▸ hperm) hcs

theorem Tuned.opt0Turn (h : Tuned dag₀ dag targets) (huniform : Uniform dag₀) (hroom : Room (k + 1) dag) (i : ℕ) :
    ∃ dag', dag.opt0Turn i = some dag' ∧ Tuned dag₀ dag' targets ∧ Room k dag' := by
  rw [ECDAG.opt0Turn]
  cases hc : dag.clusters[i]? with
  | none => exact ⟨dag, rfl, h, hroom.mono (Nat.le_succ k)⟩
  | some cl =>
    have hcl := List.mem_of_getElem? hc
    dsimp only
    split_ifs with hopt
    · by_cases hlen : 2 ≤ cl.parents.length
      · obtain ⟨dag', cs, M, hrun, htuned, hroom', -⟩ := h.exists_bindX huniform hcl hopt hlen hroom
        rw [hrun]
        exact ⟨_, rfl, htuned.setOpt i (by decide), (marks_setOpt dag' i (by decide)).room hroom'⟩
      · have hrun : dag.bindX cl.parents = some (dag, -1) := by
          rcases hp : cl.parents with _ | ⟨p, _ | ⟨q, ps⟩⟩
          · rfl
          · rfl
          · simp [hp] at hlen
        rw [hrun]
        exact ⟨_, rfl, h.setOpt i (by decide), (marks_setOpt dag i (by decide)).room (hroom.mono (Nat.le_succ k))⟩
    · exact ⟨dag, rfl, h, hroom.mono (Nat.le_succ k)⟩

theorem Tuned.exists_bindY {p c : ℕ} {cs : List ℕ} {M : CoefMap} (h : Tuned dag₀ dag targets)
    (hp : dag.shape p = some (cs, M)) (hc : c ∈ cs) (hcluster : (dag.findCluster cs).isSome) :
    ∃ dag', dag.bindY p c = some dag' ∧ Marks dag dag' ∧ Tuned dag₀ dag' targets := by
  have hchild : c ∈ dag.childs p := by rwa [childs_of_shape hp]
  obtain ⟨sh, hsh⟩ := mem_nodes_iff.mp (h.accounted.closed p c hchild)
  obtain ⟨dag', hrun, -⟩ := bindY_eq_some hp hsh hcluster
  have hmarks := marks_bindY hrun
  exact ⟨dag', hrun, hmarks, h.marks hmarks (h.constrained.bindY hchild hrun)⟩

theorem Tuned.opt1Turn (h : Tuned dag₀ dag targets) (huniform : Uniform dag₀) (hroom : Room (k + 1) dag)
    (rand : ℕ → ℕ) (i : ℕ) : ∃ dag', dag.opt1Turn rand i = some dag' ∧ Tuned dag₀ dag' targets ∧ Room k dag' := by
  rw [ECDAG.opt1Turn]
  cases hc : dag.clusters[i]? with
  | none => exact ⟨dag, rfl, h, hroom.mono (Nat.le_succ k)⟩
  | some cl =>
    have hcl := List.mem_of_getElem? hc
    dsimp only
    split_ifs with hopt
    · obtain ⟨child, hchild, hmem⟩ : ∃ c, cl.childs[rand i % cl.childs.length]? = some c ∧ c ∈ cl.childs := by
        have hpos : 0 < cl.childs.length := List.length_pos_of_ne_nil (h.accounted.nonempty cl hcl)
        have hlt := Nat.mod_lt (rand i) hpos
        exact ⟨_, List.getElem?_eq_getElem hlt, List.getElem_mem hlt⟩
      rw [hchild, Option.bind_eq_bind, Option.bind_some]
      rcases hp : cl.parents with _ | ⟨p, _ | ⟨q, ps⟩⟩
      · exact ⟨_, rfl, h.setOpt i (by decide), (marks_setOpt dag i (by decide)).room (hroom.mono (Nat.le_succ k))⟩
      · obtain ⟨cs, hperm, hlist⟩ := h.alike huniform hcl hopt (by simp [hp])
        obtain ⟨co, hco⟩ := hlist p (by simp [hp])
        have hcs : cs.Nodup := hperm.nodup_iff.mpr (h.accounted.childs cl hcl).1
        obtain ⟨dag', hrun, hmarks, htuned⟩ :=
          h.exists_bindY hco (hperm.mem_iff.mpr hmem) (findCluster_of_perm hcl hperm hcs)
        dsimp only
        rw [hrun]
        exact ⟨_, rfl, htuned.setOpt i (by decide),
          (marks_setOpt dag' i (by decide)).room (hmarks.room (hroom.mono (Nat.le_succ k)))⟩
      · obtain ⟨dag₁, cs, M, hrun, htuned, hroom', hbind, hperm, hcluster⟩ :=
          h.exists_bindX huniform hcl hopt (by simp [hp]) hroom
        obtain ⟨dag', hrun', hmarks, htuned'⟩ := htuned.exists_bindY hbind (hperm.mem_iff.mpr hmem) hcluster
        have hof : dag₁.bindYOf (dag.bindId : ℤ) child = some dag' := by
          rw [bindYOf, if_neg (Int.not_lt.mpr (Int.natCast_nonneg _)), Int.toNat_natCast, hrun']
        rw [hp] at hrun
        dsimp only
        rw [hrun, Option.bind_eq_bind, Option.bind_some]
        dsimp only
        rw [hof]
        exact ⟨_, rfl, htuned'.setOpt i (by decide), (marks_setOpt dag' i (by decide)).room (hmarks.room hroom')⟩
    · exact ⟨dag, rfl, h, hroom.mono (Nat.le_succ k)⟩

theorem Tuned.turns {turn : ECDAG → ℕ → Option ECDAG}
    (hturn : ∀ dag k i, Tuned dag₀ dag targets → Room (k + 1) dag →
      ∃ dag', turn dag i = some dag' ∧ Tuned dag₀ dag' targets ∧ Room k dag')
    (is : List ℕ) (h : Tuned dag₀ dag targets) (hroom : Room is.length dag) :
    ∃ dag', is.foldlM turn dag = some dag' ∧ Tuned dag₀ dag' targets := by
  induction is generalizing dag with
  | nil => exact ⟨dag, rfl, h⟩
  | cons i is ih =>
    obtain ⟨dag₁, h₁, htuned, hroom'⟩ := hturn dag is.length i h hroom
    obtain ⟨dag', hrun, htuned'⟩ := ih htuned hroom'
    exact ⟨dag', by rw [List.foldlM_cons, h₁]; exact hrun, htuned'⟩

/-- **`reconstruct`** of a graph whose nodes list the same children in the same order: no assertion fails, every node
keeps its value, and the counts are right. -/
theorem Tuned.reconstruct (h : Tuned dag₀ dag targets) (huniform : Uniform dag₀)
    (hroom : Room dag.clusters.length dag) (opt : ℤ) (rand : ℕ → ℕ) :
    ∃ dag', dag.reconstruct opt rand = some dag' ∧ Tuned dag₀ dag' targets := by
  have hroom' : Room (List.range dag.clusters.length).length dag := by rwa [List.length_range]
  rw [ECDAG.reconstruct]
  split_ifs
  · exact Tuned.turns (fun _ _ i h hroom ↦ h.opt0Turn huniform hroom i) _ h hroom'
  · exact Tuned.turns (fun _ _ i h hroom ↦ h.opt1Turn huniform hroom rand i) _ h hroom'
  · exact ⟨dag, rfl, h⟩

end Tuned

/-! ## Codes that join whole blocks -/

theorem consOf_joinChild (dag : ECDAG) (c : ℕ) : (dag.joinChild c).consOf = dag.consOf := by
  rw [joinChild, consOf_incRefNumFor]
  by_cases hc : c ∈ dag.nodes
  · simp only [hc, if_true]
    rfl
  · funext j
    simp only [hc, if_false, consOf]
    rcases eq_or_ne j c with rfl | hj
    · rw [AList.lookup_insert, AList.lookup_eq_none.mpr hc]
      rfl
    · rw [AList.lookup_insert_ne hj]

theorem consOf_join (dag : ECDAG) (p : ℕ) (cs : List ℕ) (coefs : List GF256) :
    (dag.join p cs coefs).consOf = dag.consOf := by
  rw [← consOf_foldl consOf_joinChild cs dag]
  have hcluster : ∀ d : ECDAG, (d.joinCluster p cs).consOf = d.consOf := by
    intro d
    rw [joinCluster]
    split <;> rfl
  rw [join, hcluster, joinRoot]
  generalize cs.foldl joinChild dag = d
  funext j
  cases hp : d.nodes.lookup p with
  | none =>
    rcases eq_or_ne j p with rfl | hj
    · simp only [consOf, AList.lookup_insert, hp]
      rfl
    · simp only [consOf, AList.lookup_insert_ne hj]
  | some nd =>
    rcases eq_or_ne j p with rfl | hj
    · simp only [consOf, AList.lookup_insert, hp]
      rfl
    · simp only [consOf, AList.lookup_insert_ne hj]

theorem bindId_ofJoins (joins : List JoinCall) : (ofJoins joins).bindId = bindStart := by
  rw [ofJoins]
  induction joins using List.reverseRecOn with
  | nil => rfl
  | append_singleton joins j ih => rw [List.foldl_append, List.foldl_cons, List.foldl_nil, bindId_join, ih]

theorem consOf_ofJoins (joins : List JoinCall) (id : ℕ) : (ofJoins joins).consOf id = none := by
  rw [ofJoins]
  induction joins using List.reverseRecOn with
  | nil => rfl
  | append_singleton joins j ih => rw [List.foldl_append, List.foldl_cons, List.foldl_nil, consOf_join, ih]

theorem joinTargets_map (joins : List JoinCall) : joinTargets (joins.map .join) = joins.map JoinCall.pidx := by
  rw [joinTargets, List.filterMap_map]
  exact congrFun List.filterMap_eq_map' joins

theorem ofCalls_map (joins : List JoinCall) : ofCalls (joins.map .join) = some (ofJoins joins) := by
  rw [ofCalls, ofJoins]
  induction joins using List.reverseRecOn with
  | nil => rfl
  | append_singleton joins j ih =>
    rw [List.map_append, List.foldlM_append, ih, List.foldl_append]
    rfl

/-- Joins of whole blocks of a stripe of `n` blocks over other blocks: the targets are different, the joins over the same
children list them in the same order, and the numbers end below those of the bind nodes. -/
structure JoinPlan (n w : ℕ) (joins : List JoinCall) : Prop where
  pos : 0 < w
  once : (joins.map JoinCall.pidx).Nodup
  nonempty : ∀ j ∈ joins, j.cidx ≠ []
  nodup : ∀ j ∈ joins, j.cidx.Nodup
  uniform : ∀ j ∈ joins, ∀ j' ∈ joins, j.cidx.Perm j'.cidx → j.cidx = j'.cidx
  lt : ∀ j ∈ joins, ∀ id ∈ j.pidx :: j.cidx, id < n * w
  room : n * w ≤ bindStart
  whole : ∀ j ∈ joins, ∀ id, id / w = j.pidx / w → id ∈ joins.map JoinCall.pidx
  apart : ∀ j ∈ joins, ∀ c ∈ j.cidx, ∀ j' ∈ joins, c / w ≠ j'.pidx / w

section JoinPlan

variable {n w : ℕ} {joins : List JoinCall}

theorem mem_nodes_ofJoins {id : ℕ} : id ∈ (ofJoins joins).nodes ↔ ∃ j ∈ joins, id ∈ j.pidx :: j.cidx := by
  rw [ofJoins]
  induction joins using List.reverseRecOn with
  | nil =>
    refine iff_of_false (fun h ↦ ?_) ?_
    · exact AList.notMem_empty id h
    · rintro ⟨j, hj, -⟩
      exact List.not_mem_nil hj
  | append_singleton joins j ih =>
    rw [List.foldl_append, List.foldl_cons, List.foldl_nil, mem_nodes_join, ih]
    simp only [List.mem_append, List.mem_cons, List.not_mem_nil, or_false]
    constructor
    · rintro (h | h | ⟨j', hj', h⟩)
      · exact ⟨j, .inr rfl, .inl h⟩
      · exact ⟨j, .inr rfl, .inr h⟩
      · exact ⟨j', .inl hj', h⟩
    · rintro ⟨j', hj' | rfl, h⟩
      · exact .inr (.inr ⟨j', hj', h⟩)
      · exact h.imp_right .inl

/-- The nodes are the targets, with the rows of their joins, and leaves. -/
theorem shape_ofJoins (honce : (joins.map JoinCall.pidx).Nodup) :
    (∀ j ∈ joins, (ofJoins joins).shape j.pidx = some (j.cidx, AList.singleton j.pidx j.coefs)) ∧
      ∀ id ∈ (ofJoins joins).nodes, id ∉ joins.map JoinCall.pidx → (ofJoins joins).shape id = some ([], ∅) := by
  induction joins using List.reverseRecOn with
  | nil =>
    exact ⟨fun j hj ↦ absurd hj List.not_mem_nil, fun id hid ↦ by
      obtain ⟨j, hj, -⟩ := mem_nodes_ofJoins.mp hid
      exact absurd hj List.not_mem_nil⟩
  | append_singleton joins j ih =>
    rw [List.map_append, List.map_singleton, List.nodup_append] at honce
    obtain ⟨honce, -, hnew⟩ := honce
    obtain ⟨htarget, hleaf⟩ := ih honce
    have hshape : (ofJoins (joins ++ [j])).shape = ((ofJoins joins).join j.pidx j.cidx j.coefs).shape := by
      rw [ofJoins, List.foldl_append]
      rfl
    rw [hshape]
    refine ⟨fun j' hj' ↦ ?_, fun id hid hnot ↦ ?_⟩
    · rw [shape_join]
      rcases List.mem_append.mp hj' with hj' | hj'
      · have hne : j'.pidx ≠ j.pidx := hnew _ (List.mem_map_of_mem hj') _ (List.mem_singleton_self _)
        rw [if_neg hne, if_neg, htarget j' hj']
        rintro ⟨-, hnone⟩
        rw [htarget j' hj'] at hnone
        exact Option.some_ne_none _ hnone
      · rw [List.mem_singleton.mp hj', if_pos rfl]
    · rw [List.map_append, List.mem_append, List.map_singleton, List.mem_singleton, not_or] at hnot
      rw [shape_join, if_neg hnot.2]
      split_ifs with hc
      · rfl
      · refine hleaf id ?_ hnot.1
        obtain ⟨j', hj', hmem⟩ := mem_nodes_ofJoins.mp hid
        rcases List.mem_append.mp hj' with hj' | hj'
        · exact mem_nodes_ofJoins.mpr ⟨j', hj', hmem⟩
        · rw [List.mem_singleton.mp hj'] at hmem
          have hmem' := (List.mem_cons.mp hmem).resolve_left hnot.2
          by_contra hnode
          exact hc ⟨hmem', shape_eq_none.mpr hnode⟩

variable (h : JoinPlan n w joins)
include h

theorem JoinPlan.leaf_or_target {id : ℕ} (hid : id ∈ (ofJoins joins).nodes) :
    (∃ j ∈ joins, j.pidx = id ∧ (ofJoins joins).shape id = some (j.cidx, AList.singleton id j.coefs)) ∨
      (ofJoins joins).shape id = some ([], ∅) := by
  obtain ⟨htarget, hleaf⟩ := shape_ofJoins h.once
  by_cases hmem : id ∈ joins.map JoinCall.pidx
  · obtain ⟨j, hj, rfl⟩ := List.mem_map.mp hmem
    exact .inl ⟨j, hj, rfl, htarget j hj⟩
  · exact .inr (hleaf id hid hmem)

theorem JoinPlan.child {j : JoinCall} (hj : j ∈ joins) {c : ℕ} (hc : c ∈ j.cidx) :
    (ofJoins joins).shape c = some ([], ∅) := by
  refine (shape_ofJoins h.once).2 c (mem_nodes_ofJoins.mpr ⟨j, hj, List.mem_cons_of_mem _ hc⟩) fun hmem ↦ ?_
  obtain ⟨j', hj', rfl⟩ := List.mem_map.mp hmem
  exact h.apart j hj _ hc j' hj' rfl

theorem JoinPlan.acyclic : Acyclic (ofJoins joins).shape := by
  refine ⟨fun id ↦ if id ∈ joins.map JoinCall.pidx then 1 else 0, fun id sh hsh c hc ↦ ?_⟩
  rcases h.leaf_or_target (mem_nodes_iff.mpr ⟨sh, hsh⟩) with ⟨j, hj, rfl, hshape⟩ | hshape
  · rw [hshape] at hsh
    rw [← Option.some.inj hsh] at hc
    have hnot : c ∉ joins.map JoinCall.pidx := fun hmem ↦ by
      obtain ⟨j', hj', rfl⟩ := List.mem_map.mp hmem
      exact h.apart j hj _ hc j' hj' rfl
    show (if c ∈ joins.map JoinCall.pidx then 1 else 0) < if j.pidx ∈ joins.map JoinCall.pidx then 1 else 0
    rw [if_neg hnot, if_pos (List.mem_map_of_mem hj)]
    exact Nat.one_pos
  · rw [hshape] at hsh
    rw [← Option.some.inj hsh] at hc
    exact absurd hc List.not_mem_nil

theorem JoinPlan.uniformGraph : Uniform (ofJoins joins) := by
  intro p q hperm
  have hcase : ∀ p, (ofJoins joins).childs p = [] ∨ ∃ j ∈ joins, (ofJoins joins).childs p = j.cidx := by
    intro p
    by_cases hp : p ∈ (ofJoins joins).nodes
    · rcases h.leaf_or_target hp with ⟨j, hj, -, hshape⟩ | hshape
      · exact .inr ⟨j, hj, childs_of_shape hshape⟩
      · exact .inl (childs_of_shape hshape)
    · exact .inl (childs_of_notMem hp)
  rcases hcase p with hp | ⟨j, hj, hp⟩
  · rw [hp] at hperm ⊢
    exact hperm.symm.eq_nil.symm
  rcases hcase q with hq | ⟨j', hj', hq⟩
  · rw [hq] at hperm ⊢
    exact hperm.eq_nil
  · rw [hp, hq] at hperm ⊢
    exact h.uniform j hj j' hj' hperm

theorem JoinPlan.roomFor (k : ℕ) : Room k (ofJoins joins) := by
  intro id hid
  obtain ⟨j, hj, hmem⟩ := mem_nodes_ofJoins.mp hid
  refine .inl ?_
  rw [bindId_ofJoins]
  exact (h.lt j hj id hmem).trans_le h.room

theorem JoinPlan.tuned : Tuned (ofJoins joins) (ofJoins joins) (joins.map JoinCall.pidx) := by
  have hproper : Proper (joins.map .join) (ofJoins joins) := by
    refine ⟨?_, fun call hcall ↦ ?_⟩
    · rw [joinTargets_map]
      exact h.once
    · obtain ⟨j, hj, rfl⟩ := List.mem_map.mp hcall
      refine ⟨h.nonempty j hj, h.nodup j hj, fun id _ hdrawn ↦ ?_⟩
      rw [Drawn, bindId_ofJoins] at hdrawn
      exact absurd hdrawn.1 (not_le.mpr hdrawn.2)
  have haccounted := hproper.accounted (ofCalls_map joins)
  rw [joinTargets_map] at haccounted
  refine ⟨haccounted, (joined_ofJoins joins).kept h.acyclic, fun t _ ↦ .inl rfl, fun p c hc ↦ ?_⟩
  rw [consOf_ofJoins] at hc
  exact absurd hc (Option.some_ne_none c).symm

end JoinPlan

end ECDAG

end UniDedup.Storage
