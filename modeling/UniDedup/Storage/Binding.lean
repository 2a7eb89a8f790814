import Mathlib.Data.Finset.Max
import UniDedup.Storage.Evaluation

/-!
# Bind nodes keep the values

`BindX` and `BindXSp` put a bind node between some targets and the children they share. When the targets
list their children alike, the bind node has for every target the row the target had, so every node keeps
its value, a leaf stays a leaf, and the graph stays acyclic. The asserts of `BindX` allow more: lists of
one length with the same members. Then the bind node combines the children in the order of the first
target, with coefficients in the order of another.
-/

namespace UniDedup.Storage

namespace ECDAG

/-- There are no cycles: every node is above its children. -/
def Acyclic (S : ℕ → Option Shape) : Prop :=
  ∃ rank : ℕ → ℕ, ∀ id sh, S id = some sh → ∀ c ∈ sh.1, rank c < rank id

def IsLeaf (S : ℕ → Option Shape) (id : ℕ) : Prop := ∃ M, S id = some ([], M)

/-- A bind node fits between the children of some nodes and these nodes. -/
theorem Acyclic.bind {S S' : ℕ → Option Shape} {b : ℕ} {idxs cs : List ℕ} {M : CoefMap} (hS : Acyclic S)
    (hidxs : idxs ≠ []) (htarget : ∀ t ∈ idxs, ∃ sh, S t = some sh ∧ ∀ c ∈ cs, c ∈ sh.1) (hfree : S b = none)
    (hnotChild : NotChild S b) (hcs : cs ≠ [])
    (hshape : ∀ id, S' id =
      if id ∈ idxs then some ([b], AList.singleton id [1]) else if id = b then some (cs, M) else S id) :
    Acyclic S' := by
  obtain ⟨rank, hrank⟩ := hS
  obtain ⟨top, htop, hmax⟩ : ∃ top ∈ cs, ∀ c ∈ cs, rank c ≤ rank top := by
    obtain ⟨c, hc⟩ := List.exists_mem_of_ne_nil cs hcs
    obtain ⟨top, htop, hmax⟩ := cs.toFinset.exists_max_image rank ⟨c, List.mem_toFinset.mpr hc⟩
    exact ⟨top, List.mem_toFinset.mp htop, fun c hc ↦ hmax c (List.mem_toFinset.mpr hc)⟩
  have hcsb : b ∉ cs := by
    intro hb
    obtain ⟨t, ht⟩ := List.exists_mem_of_ne_nil idxs hidxs
    obtain ⟨sh, hsh, hsub⟩ := htarget t ht
    exact hnotChild t sh hsh (hsub b hb)
  refine ⟨fun id ↦ if id = b then 2 * rank top + 1 else 2 * rank id, fun id sh hsh c hc ↦ ?_⟩
  rw [hshape] at hsh
  dsimp only
  by_cases hid : id ∈ idxs
  · -- a target is above the bind node
    obtain ⟨sh', hsh', hsub⟩ := htarget id hid
    rw [if_pos hid] at hsh
    rw [← Option.some.inj hsh, List.mem_singleton] at hc
    have hidb : id ≠ b := by
      rintro rfl
      rw [hfree] at hsh'
      exact Option.some_ne_none _ hsh'.symm
    have hlt := hrank id sh' hsh' top (hsub top htop)
    rw [if_pos hc, if_neg hidb]
    omega
  rw [if_neg hid] at hsh
  by_cases hidb : id = b
  · -- the bind node is above its children
    rw [if_pos hidb] at hsh
    rw [← Option.some.inj hsh] at hc
    have hcb : c ≠ b := fun hcb ↦ hcsb (hcb ▸ hc)
    have hle := hmax c hc
    rw [if_neg hcb, if_pos hidb]
    omega
  · rw [if_neg hidb] at hsh
    have hcb : c ≠ b := fun hcb ↦ hnotChild id sh hsh (hcb ▸ hc)
    have hlt := hrank id sh hsh c hc
    rw [if_neg hcb, if_neg hidb]
    omega

/-- The shape `S'` is `S` with a bind node `b` put under the targets `idxs`, which have the children `cs`
and the coefficients `co`. -/
structure Rebound (S S' : ℕ → Option Shape) (b : ℕ) (idxs cs : List ℕ) (co : ℕ → List GF256)
    (M : CoefMap) : Prop where
  ne_nil : idxs ≠ []
  target : ∀ t ∈ idxs, S t = some (cs, AList.singleton t (co t))
  row : ∀ t ∈ idxs, M.lookup t = some (co t)
  many : 1 < M.keys.length
  free : S b = none
  notChild : NotChild S b
  nonempty : cs ≠ []
  plain : bindOf S cs = none
  shape : ∀ id, S' id =
    if id ∈ idxs then some ([b], AList.singleton id [1]) else if id = b then some (cs, M) else S id

namespace Rebound

variable {S S' : ℕ → Option Shape} {env : ℕ → GF256} {b id fuel : ℕ} {v : GF256}
variable {idxs cs : List ℕ} {co : ℕ → List GF256} {M : CoefMap}
variable (h : Rebound S S' b idxs cs co M)
include h

theorem bind_notMem : b ∉ idxs := by
  intro hmem
  have hsome := h.target b hmem
  rw [h.free] at hsome
  exact Option.some_ne_none _ hsome.symm

theorem shape_bind : S' b = some (cs, M) := by
  rw [h.shape, if_neg h.bind_notMem, if_pos rfl]

theorem shape_of_notMem (hid : id ∉ idxs) (hb : id ≠ b) : S' id = S id := by
  rw [h.shape, if_neg hid, if_neg hb]

/-- A node that keeps its children and its coefficients keeps its row. -/
theorem rowOf_eq {sh : Shape} (hsh : S id = some sh) :
    rowOf S' id sh = rowOf S id sh := by
  have hbind : bindOf S' sh.1 = bindOf S sh.1 := by
    rcases hc : sh.1 with _ | ⟨c, _ | ⟨d, rest⟩⟩
    · rfl
    · have hcb : c ≠ b := by
        rintro rfl
        exact h.notChild id sh hsh (hc ▸ List.mem_singleton_self c)
      by_cases hct : c ∈ idxs
      · -- a target is no bind node, before and after
        rw [bindOf, bindOf, h.shape, if_pos hct, h.target c hct]
        rfl
      · rw [bindOf, bindOf, h.shape_of_notMem hct hcb]
    · rfl
  rw [rowOf, rowOf, hbind]

theorem rowOf_target (hid : id ∈ idxs) : rowOf S' id ([b], AList.singleton id [1]) = some (cs, co id) := by
  have hbind : bindOf S' [b] = some (cs, M) := by
    rw [bindOf, h.shape_bind, Option.filter_some, if_pos (decide_eq_true h.many)]
  rw [rowOf, hbind, Option.getD_some, h.row id hid]
  rfl

theorem value_eq_some (hval : value S env fuel id = some v) : value S' env fuel id = some v := by
  induction fuel generalizing id v with
  | zero => exact absurd hval.symm (Option.some_ne_none v)
  | succ fuel ih =>
    obtain ⟨sh, hsh, hcase⟩ := value_succ_eq_some_iff.mp hval
    by_cases hid : id ∈ idxs
    · have hsh' : S' id = some ([b], AList.singleton id [1]) := by rw [h.shape, if_pos hid]
      have hcs : sh = (cs, AList.singleton id (co id)) := Option.some.inj (hsh.symm.trans (h.target id hid))
      rw [hcs] at hcase
      obtain ⟨-, cs', coefs, vs, hrow, hvs, rfl⟩ := hcase.resolve_left fun hleaf ↦ h.nonempty hleaf.1
      have hown : rowOf S id (cs, AList.singleton id (co id)) = some (cs, co id) := by
        have hlookup : (AList.singleton id (co id) : CoefMap).lookup id = some (co id) :=
          AList.lookup_insert ∅
        rw [rowOf, h.plain, Option.getD_none, hlookup]
        rfl
      rw [hown] at hrow
      obtain ⟨rfl, rfl⟩ := Prod.mk.inj (Option.some.inj hrow)
      exact value_succ_eq_some_iff.mpr ⟨_, hsh', .inr ⟨List.cons_ne_nil b [], cs, co id, vs,
        h.rowOf_target hid, hvs.imp fun _ _ hc ↦ ih hc, rfl⟩⟩
    · have hb : id ≠ b := by
        rintro rfl
        rw [h.free] at hsh
        exact Option.some_ne_none sh hsh.symm
      refine value_succ_eq_some_iff.mpr ⟨sh, (h.shape_of_notMem hid hb).trans hsh, hcase.imp_right ?_⟩
      rintro ⟨hne, cs', coefs, vs, hrow, hvs, hv⟩
      exact ⟨hne, cs', coefs, vs, (h.rowOf_eq hsh).trans hrow, hvs.imp fun _ _ hc ↦ ih hc, hv⟩

/-- **Every node keeps its value.** -/
theorem evaluates (hval : Evaluates S env id v) : Evaluates S' env id v := by
  obtain ⟨fuel, hval⟩ := hval
  exact ⟨fuel, h.value_eq_some hval⟩

theorem isLeaf_iff (hid : S id ≠ none) : IsLeaf S' id ↔ IsLeaf S id := by
  have hb : id ≠ b := fun hb ↦ hid (hb ▸ h.free)
  by_cases hmem : id ∈ idxs
  · rw [IsLeaf, IsLeaf, h.shape, if_pos hmem, h.target id hmem]
    constructor
    · rintro ⟨M, hM⟩
      exact absurd (congrArg Prod.fst (Option.some.inj hM)) (List.cons_ne_nil b [])
    · rintro ⟨M, hM⟩
      exact absurd (congrArg Prod.fst (Option.some.inj hM)) h.nonempty
  · rw [IsLeaf, IsLeaf, h.shape_of_notMem hmem hb]

theorem acyclic (hS : Acyclic S) : Acyclic S' :=
  hS.bind h.ne_nil (fun t ht ↦ ⟨_, h.target t ht, fun _ hc ↦ hc⟩) h.free h.notChild h.nonempty h.shape

end Rebound

/-! ## What binding leaves alone -/

/-- The headers, and the clusters without their level of optimisation. -/
def frame (dag : ECDAG) : List ℕ × List (List ℕ × List ℕ) :=
  (dag.headers, dag.clusters.map fun c ↦ (c.childs, c.parents))

theorem foldl_frame {f : ECDAG → ℕ → ECDAG} (hf : ∀ dag j, (f dag j).frame = dag.frame) (js : List ℕ)
    (dag : ECDAG) : (js.foldl f dag).frame = dag.frame := by
  induction js generalizing dag with
  | nil => rfl
  | cons j js ih => rw [List.foldl_cons, ih, hf]

@[simp] theorem frame_modify (dag : ECDAG) (id : ℕ) (f : ECNode → ECNode) :
    (dag.modify id f).frame = dag.frame := by
  rw [modify]
  split <;> rfl

theorem frame_setRefNum (dag : ECDAG) (node id : ℕ) (ref : ℤ) :
    (dag.setRefNum node id ref).frame = dag.frame :=
  foldl_frame (fun _ _ ↦ frame_modify ..) _ _

/-- Whether there is a cluster for some children depends on the frame only. -/
theorem findCluster_of_frame {dag dag' : ECDAG} (h : dag'.frame = dag.frame) (cs : List ℕ) :
    dag'.findCluster cs = dag.findCluster cs := by
  have hfind : ∀ dag : ECDAG, dag.findCluster cs =
      (dag.frame.2).findIdx? fun c ↦ Cluster.childsInCluster ⟨c.1, c.2, -1⟩ cs := by
    intro dag
    rw [findCluster, frame, List.findIdx?_map]
    rfl
  rw [hfind, hfind, h]

theorem frame_bindTarget (bindid : ℕ) (dag : ECDAG) (tbid : ℕ) :
    (bindTarget bindid dag tbid).frame = dag.frame := by
  rw [bindTarget]
  split
  · rfl
  · rw [frame_modify, frame_setRefNum, frame_modify]

theorem frame_unrefChild (num : ℕ) (dag : ECDAG) (cid : ℕ) :
    (unrefChild num dag cid).frame = dag.frame := by
  rw [unrefChild]
  split
  · rfl
  · exact frame_setRefNum ..

@[simp] theorem frame_setOpt (dag : ECDAG) (i : ℕ) (opt : ℤ) : (dag.setOpt i opt).frame = dag.frame := by
  refine Prod.ext rfl (List.ext_getElem (by simp [frame, setOpt]) fun j hj hj' ↦ ?_)
  simp only [frame, setOpt, List.getElem_map, List.getElem_modify]
  split <;> rfl

@[simp] theorem shape_setOpt (dag : ECDAG) (i : ℕ) (opt : ℤ) : (dag.setOpt i opt).shape = dag.shape := rfl

/-! ## The two bind operations -/

section Bind

variable {dag dag' : ECDAG} {b : ℤ} {idxs cs : List ℕ} {co : ℕ → List GF256}

/-- The graph with a bind node of the next number. -/
def withBind (dag : ECDAG) (bindNode : ECNode) : ECDAG :=
  { dag with bindId := dag.bindId + 1, nodes := dag.nodes.insert dag.bindId bindNode }

theorem bindX_inv {i l : ℕ} {is : List ℕ} (h : dag.bindX (i :: l :: is) = some (dag', b)) :
    dag.bindId ∉ dag.nodes ∧ ∃ first c, dag.nodes.lookup i = some first ∧
      dag.sameChilds (l :: is) first.childNodes = true ∧ dag.findCluster first.childNodes = some c ∧
      dag' = first.childNodes.foldl (unrefChild (i :: l :: is).length)
        (((i :: l :: is).foldl (bindTarget dag.bindId)
          (dag.withBind (({} : ECNode).setChilds first.childNodes))).setOpt c 0) := by
  by_cases hfree : dag.bindId ∈ dag.nodes
  · simp [bindX, hfree] at h
  simp only [bindX, hfree, if_false, Option.bind_eq_bind, Option.bind_eq_some_iff] at h
  obtain ⟨first, hfirst, h⟩ := h
  split at h
  · exact absurd h.symm (Option.some_ne_none _)
  next hsame =>
  obtain ⟨c, hc, h⟩ := Option.bind_eq_some_iff.mp h
  rw [findCluster, clusters_foldl (clusters_bindTarget _)] at hc
  rw [Bool.not_eq_true', Bool.not_eq_false] at hsame
  exact ⟨hfree, first, c, hfirst, hsame, hc, (Prod.mk.inj (Option.some.inj h)).1.symm⟩

/-- The bind node of `BindXSp`. -/
def bindSpNode (bindid : ℕ) (tbnode : ECNode) : ECNode :=
  tbnode.coefMap.entries.foldl (fun nd item ↦ (nd.addCoefs bindid item.2).addCoefs item.1 item.2)
    (({} : ECNode).setChilds tbnode.childNodes)

theorem bindSpNode_eq (bindid : ℕ) (tbnode : ECNode) :
    (bindSpNode bindid tbnode).childNodes = tbnode.childNodes ∧ (bindSpNode bindid tbnode).refNumFor = ∅ := by
  have hkeep : ∀ (es : List (Sigma fun _ : ℕ ↦ List GF256)) (nd : ECNode),
      (es.foldl (fun nd item ↦ (nd.addCoefs bindid item.2).addCoefs item.1 item.2) nd).childNodes = nd.childNodes ∧
        (es.foldl (fun nd item ↦ (nd.addCoefs bindid item.2).addCoefs item.1 item.2) nd).refNumFor =
          nd.refNumFor := by
    intro es
    induction es with
    | nil => exact fun _ ↦ ⟨rfl, rfl⟩
    | cons e es ih => exact fun nd ↦ ih _
  exact hkeep _ _

theorem bindXSp_inv {idx : ℕ} (h : dag.bindXSp idx = some (dag', b)) :
    dag.bindId ∉ dag.nodes ∧ ∃ tbnode c, dag.nodes.lookup idx = some tbnode ∧ tbnode.childNodes ≠ [] ∧
      dag.findCluster tbnode.childNodes = some c ∧
      dag' = tbnode.childNodes.foldl (unrefChild 1)
        (((((dag.withBind (bindSpNode dag.bindId tbnode)).setRefNum dag.bindId idx
          (tbnode.getRefNumFor idx)).modify idx fun nd ↦
            (nd.cleanChilds.setChilds [dag.bindId]).addCoefs idx [1])).setOpt c 0) := by
  rw [bindXSp, Option.bind_eq_bind, Option.bind_eq_some_iff] at h
  obtain ⟨tbnode, htb, h⟩ := h
  dsimp only at h
  split at h
  · exact absurd h.symm (Option.some_ne_none _)
  next hfree =>
  split at h
  · exact absurd h.symm (Option.some_ne_none _)
  next hne =>
  obtain ⟨c, hc, h⟩ := Option.bind_eq_some_iff.mp h
  rw [findCluster, clusters_modify, clusters_setRefNum] at hc
  exact ⟨hfree, tbnode, c, htb, hne, hc, (Prod.mk.inj (Option.some.inj h)).1.symm⟩

/-- What the asserts of `BindX` check, when there are two targets or more. -/
theorem bindX_asserts (h : dag.bindX idxs = some (dag', b)) :
    idxs.length ≤ 1 ∧ dag' = dag ∨
      dag.bindId ∉ dag.nodes ∧ dag'.frame = dag.frame ∧ ∃ i j is, idxs = i :: j :: is ∧
        ∃ cs M, dag.shape i = some (cs, M) ∧ (dag.findCluster cs).isSome := by
  rcases idxs with _ | ⟨i, _ | ⟨j, is⟩⟩
  · exact .inl ⟨Nat.zero_le 1, (congrArg Prod.fst (Option.some.inj h)).symm⟩
  · exact .inl ⟨le_rfl, (congrArg Prod.fst (Option.some.inj h)).symm⟩
  · obtain ⟨hfree, first, c, hfirst, -, hc, rfl⟩ := bindX_inv h
    refine .inr ⟨hfree, ?_, i, j, is, rfl, first.childNodes, first.coefMap, shape_of_lookup hfirst, ?_⟩
    · rw [foldl_frame (frame_unrefChild _)]
      exact (frame_setOpt _ c 0).trans (foldl_frame (frame_bindTarget _) _ _)
    · rw [hc]
      rfl

theorem bindXSp_asserts {idx : ℕ} (h : dag.bindXSp idx = some (dag', b)) :
    dag.bindId ∉ dag.nodes ∧ dag'.frame = dag.frame ∧
      ∃ cs M, dag.shape idx = some (cs, M) ∧ cs ≠ [] ∧ (dag.findCluster cs).isSome := by
  obtain ⟨hfree, tbnode, c, htb, hne, hc, rfl⟩ := bindXSp_inv h
  refine ⟨hfree, ?_, tbnode.childNodes, tbnode.coefMap, shape_of_lookup htb, hne, ?_⟩
  · rw [foldl_frame (frame_unrefChild _)]
    exact (frame_setOpt _ c 0).trans ((frame_modify ..).trans (frame_setRefNum ..))
  · rw [hc]
    rfl

/-! The number of the next bind node goes up by one. -/

theorem bindId_setRefNum (dag : ECDAG) (node id : ℕ) (ref : ℤ) :
    (dag.setRefNum node id ref).bindId = dag.bindId :=
  bindId_foldl (fun _ _ ↦ bindId_modify ..) _ _

theorem bindId_bindTarget (bindid : ℕ) (dag : ECDAG) (tbid : ℕ) :
    (bindTarget bindid dag tbid).bindId = dag.bindId := by
  rw [bindTarget]
  split
  · rfl
  · rw [bindId_modify, bindId_setRefNum, bindId_modify]

theorem bindId_unrefChild (num : ℕ) (dag : ECDAG) (cid : ℕ) :
    (unrefChild num dag cid).bindId = dag.bindId := by
  rw [unrefChild]
  split
  · rfl
  · exact bindId_setRefNum ..

theorem bindId_bindX {i j : ℕ} {is : List ℕ} (h : dag.bindX (i :: j :: is) = some (dag', b)) :
    dag'.bindId = dag.bindId + 1 := by
  obtain ⟨-, first, c, -, -, -, rfl⟩ := bindX_inv h
  rw [bindId_foldl (bindId_unrefChild _)]
  exact bindId_foldl (bindId_bindTarget _) _ _

/-- The children of a bind node are not themselves bound, and the bind node is new. -/
structure Bindable (dag : ECDAG) (cs : List ℕ) : Prop where
  free : dag.bindId ∉ dag.nodes
  notChild : NotChild dag.shape dag.bindId
  nonempty : cs ≠ []
  plain : bindOf dag.shape cs = none
  cluster : (dag.findCluster cs).isSome

/-- **`BindX` of targets that list their children alike.** -/
theorem Bindable.bindX (h : dag.Bindable cs) (hnodup : idxs.Nodup) (hlen : 2 ≤ idxs.length)
    (ht : ∀ t ∈ idxs, dag.shape t = some (cs, AList.singleton t (co t))) :
    ∃ dag', dag.bindX idxs = some (dag', (dag.bindId : ℤ)) ∧ dag'.bindId = dag.bindId + 1 ∧
      dag'.frame = dag.frame ∧
      Rebound dag.shape dag'.shape dag.bindId idxs cs co (bindCoefs co idxs ∅) := by
  rcases idxs with _ | ⟨i, _ | ⟨j, is⟩⟩
  · exact absurd hlen (Nat.not_succ_le_zero 1)
  · exact absurd hlen (Nat.not_succ_le_self 1)
  obtain ⟨dag', hbind, hshape⟩ := bindX_eq_some hnodup h.free ht (fun _ _ ↦ .refl cs) h.cluster
  have hframe : dag'.frame = dag.frame := by
    rcases bindX_asserts hbind with ⟨hle, -⟩ | ⟨-, hframe, -⟩
    · exact absurd hle (by simp)
    · exact hframe
  have hij : i ≠ j := fun hij ↦ (List.nodup_cons.mp hnodup).1 (hij ▸ List.mem_cons_self)
  refine ⟨dag', hbind, bindId_bindX hbind, hframe, List.cons_ne_nil _ _, ht,
    fun t ht ↦ lookup_bindCoefs ht ∅, ?_, shape_eq_none.mpr h.free, h.notChild, h.nonempty, h.plain, hshape⟩
  exact one_lt_length_keys hij (lookup_bindCoefs List.mem_cons_self ∅)
    (lookup_bindCoefs (List.mem_cons_of_mem i List.mem_cons_self) ∅)

/-- The coefficients of the bind node of `BindXSp`: it has the row of the target, for the target and for
itself. -/
def bindSpCoefs (b idx : ℕ) (co : List GF256) : CoefMap := (AList.singleton b co).insert idx co

/-- **`BindXSp`** puts a bind node with the row of its target under it. -/
theorem Bindable.bindXSp {idx : ℕ} {co : List GF256} (h : dag.Bindable cs)
    (ht : dag.shape idx = some (cs, AList.singleton idx co)) :
    ∃ dag', dag.bindXSp idx = some (dag', (dag.bindId : ℤ)) ∧ dag'.bindId = dag.bindId + 1 ∧
      dag'.frame = dag.frame ∧
      Rebound dag.shape dag'.shape dag.bindId [idx] cs (fun _ ↦ co) (bindSpCoefs dag.bindId idx co) := by
  obtain ⟨tbnode, htb, hchilds, hco⟩ := exists_of_shape ht
  have hne : idx ≠ dag.bindId := by
    rintro rfl
    rw [shape_eq_none.mpr h.free] at ht
    exact Option.some_ne_none _ ht.symm
  have hentries : tbnode.coefMap.entries = [⟨idx, co⟩] := by rw [hco]; rfl
  have hnil : ¬tbnode.childNodes = [] := by rw [hchilds]; exact h.nonempty
  let bindNode : ECNode := { childNodes := tbnode.childNodes, coefMap := bindSpCoefs dag.bindId idx co }
  let dag₁ : ECDAG := { dag with bindId := dag.bindId + 1, nodes := dag.nodes.insert dag.bindId bindNode }
  let dag₂ : ECDAG := (dag₁.setRefNum dag.bindId idx (tbnode.getRefNumFor idx)).modify idx fun nd ↦
    (nd.cleanChilds.setChilds [dag.bindId]).addCoefs idx [1]
  obtain ⟨c, hc⟩ := Option.isSome_iff_exists.mp h.cluster
  have hfind : dag₂.findCluster tbnode.childNodes = some c := by
    rw [findCluster, clusters_modify, clusters_setRefNum, hchilds]
    exact hc
  have hbind : dag.bindXSp idx =
      some (tbnode.childNodes.foldl (unrefChild 1) (dag₂.setOpt c 0), (dag.bindId : ℤ)) := by
    simp only [ECDAG.bindXSp, htb, Option.bind_eq_bind, Option.bind_some, if_neg h.free, if_neg hnil,
      hentries, List.foldl_cons, List.foldl_nil]
    exact (congrArg (fun o ↦ Option.bind o _) hfind).trans rfl
  refine ⟨_, hbind, ?_, (bindXSp_asserts hbind).2.1, ?_⟩
  · rw [bindId_foldl (bindId_unrefChild 1)]
    exact (bindId_modify ..).trans (bindId_setRefNum ..)
  have hshape₁ : ∀ id, (dag₁.setRefNum dag.bindId idx (tbnode.getRefNumFor idx)).shape id =
      if id = dag.bindId then some (cs, bindSpCoefs dag.bindId idx co) else dag.shape id := by
    intro id
    rw [shape_setRefNum, shape]
    by_cases hb : id = dag.bindId
    · rw [if_pos hb, hb, AList.lookup_insert, ← hchilds]
      rfl
    · rw [if_neg hb, AList.lookup_insert_ne hb]
      rfl
  have hshape : ∀ id, (tbnode.childNodes.foldl (unrefChild 1) (dag₂.setOpt c 0)).shape id =
      if id ∈ [idx] then some ([dag.bindId], AList.singleton id [1])
      else if id = dag.bindId then some (cs, bindSpCoefs dag.bindId idx co) else dag.shape id := by
    intro id
    rw [shape_foldl_unrefChild, shape_setOpt, shape, lookup_modify]
    simp only [List.mem_singleton]
    by_cases hid : id = idx
    · have hidx := hshape₁ idx
      rw [if_neg hne, ht] at hidx
      obtain ⟨nd, hnd, -⟩ := exists_of_shape hidx
      rw [if_pos hid, if_pos hid, hnd, hid]
      rfl
    · rw [if_neg hid, if_neg hid]
      exact hshape₁ id
  have hlookup : (bindSpCoefs dag.bindId idx co).lookup idx = some co := AList.lookup_insert _
  have hself : (bindSpCoefs dag.bindId idx co).lookup dag.bindId = some co := by
    rw [bindSpCoefs, AList.lookup_insert_ne hne.symm]
    exact AList.lookup_insert ∅
  refine ⟨List.cons_ne_nil _ _, ?_, ?_, one_lt_length_keys hne hlookup hself, shape_eq_none.mpr h.free,
    h.notChild, h.nonempty, h.plain, hshape⟩
  · intro t ht'
    rw [List.mem_singleton.mp ht', ht]
  · intro t ht'
    rw [List.mem_singleton.mp ht', hlookup]

end Bind

end ECDAG

end UniDedup.Storage
