import Mathlib.Data.List.AList
import UniDedup.Lib.GF256

/-!
# The graph of a coding operation

`ECDAG` is what `Encode` and `Decode` return: a node for every sub-packet that is read or computed, with
its children and the coefficients they are combined with. `Join` sets the children of a node, `BindX`
puts one node between several targets and the children they share, and `BindY` ties the place where a
node is computed to that of another. A node is known by its number: the graph holds every node under it,
and the children of a node, pointers in the source, are numbers here.

What a node computes depends on its children and its coefficients only, so every operation is described
by what it does to these two, the shape of the graph.
-/

namespace UniDedup.Storage

/-- `BINDSTART`, the first number of a bind node. -/
def bindStart : ℕ := 3000

/-- For each number of a target, the coefficients to compute it with. -/
abbrev CoefMap := AList fun _ : ℕ ↦ List GF256

/-- `ECNode`, without its tasks. -/
structure ECNode where
  childNodes : List ℕ := []
  coefMap : CoefMap := ∅
  refNumFor : AList (fun _ : ℕ ↦ ℤ) := ∅
  /-- The node whose place this one shares, if `_hasConstraint` is set. -/
  consId : Option ℕ := none

namespace ECNode

def cleanChilds (nd : ECNode) : ECNode := { nd with childNodes := [], coefMap := ∅ }

def setChilds (nd : ECNode) (childs : List ℕ) : ECNode := { nd with childNodes := childs }

def addCoefs (nd : ECNode) (calfor : ℕ) (coefs : List GF256) : ECNode :=
  { nd with coefMap := nd.coefMap.insert calfor coefs }

def getRefNumFor (nd : ECNode) (id : ℕ) : ℤ := (nd.refNumFor.lookup id).getD 0

def setConstraint (nd : ECNode) (id : ℕ) : ECNode := { nd with consId := some id }

end ECNode

/-- `Cluster`: the children some nodes share, and these nodes. -/
structure Cluster where
  childs : List ℕ
  parents : List ℕ
  opted : ℤ := -1

def Cluster.childsInCluster (c : Cluster) (childs : List ℕ) : Bool :=
  childs.length == c.childs.length && childs.all (· ∈ c.childs)

structure ECDAG where
  nodes : AList (fun _ : ℕ ↦ ECNode) := ∅
  headers : List ℕ := []
  bindId : ℕ := bindStart
  clusters : List Cluster := []

namespace ECDAG

def findCluster (dag : ECDAG) (childs : List ℕ) : Option ℕ :=
  dag.clusters.findIdx? (·.childsInCluster childs)

/-- Work on the node with the given number, when there is one. -/
def modify (dag : ECDAG) (id : ℕ) (f : ECNode → ECNode) : ECDAG :=
  match dag.nodes.lookup id with
  | none => dag
  | some nd => { dag with nodes := dag.nodes.insert id (f nd) }

/-- The number of targets a node has coefficients for. -/
def coefNum (dag : ECDAG) (id : ℕ) : ℕ :=
  match dag.nodes.lookup id with
  | none => 0
  | some nd => nd.coefMap.keys.length

/-- The nodes whose reference counts change with those of a node: itself and, when its only child is a
bind node, the ones that change with the bind node. -/
def bindChain (dag : ECDAG) : ℕ → ℕ → List ℕ
  | 0, _ => []
  | fuel + 1, id =>
    match dag.nodes.lookup id with
    | none => []
    | some nd =>
      match nd.childNodes with
      | [c] => if 1 < dag.coefNum c then id :: bindChain dag fuel c else [id]
      | _ => [id]

/-- Set the reference count for `id` in a node and its bind nodes. -/
def setRefNum (dag : ECDAG) (node id : ℕ) (ref : ℤ) : ECDAG :=
  (dag.bindChain dag.nodes.keys.length node).foldl
    (fun dag j ↦ dag.modify j fun nd ↦ { nd with refNumFor := nd.refNumFor.insert id ref }) dag

def incRefNumFor (dag : ECDAG) (node id : ℕ) : ECDAG :=
  (dag.bindChain dag.nodes.keys.length node).foldl
    (fun dag j ↦ dag.modify j fun nd ↦
      { nd with refNumFor := nd.refNumFor.insert id (nd.getRefNumFor id + 1) }) dag

/-- One turn of the loop of `Join` over the children. -/
def joinChild (dag : ECDAG) (curId : ℕ) : ECDAG :=
  let nodes := if curId ∈ dag.nodes then dag.nodes else dag.nodes.insert curId {}
  incRefNumFor { dag with nodes := nodes, headers := dag.headers.erase curId } curId curId

/-- The part of `Join` that sets up the root. -/
def joinRoot (dag : ECDAG) (pidx : ℕ) (cidx : List ℕ) (coefs : List GF256) : ECDAG :=
  match dag.nodes.lookup pidx with
  | none =>
    { dag with
      nodes := dag.nodes.insert pidx ((({} : ECNode).setChilds cidx).addCoefs pidx coefs)
      headers := dag.headers ++ [pidx] }
  | some nd =>
    { dag with nodes := dag.nodes.insert pidx ((nd.cleanChilds.setChilds cidx).addCoefs pidx coefs) }

/-- The part of `Join` that enters the root into a cluster. -/
def joinCluster (dag : ECDAG) (pidx : ℕ) (cidx : List ℕ) : ECDAG :=
  let childs := cidx.mergeSort
  match dag.findCluster childs with
  | none => { dag with clusters := dag.clusters ++ [⟨childs, [pidx], -1⟩] }
  | some i =>
    { dag with clusters := dag.clusters.modify i fun c ↦ { c with parents := c.parents ++ [pidx] } }

def join (dag : ECDAG) (pidx : ℕ) (cidx : List ℕ) (coefs : List GF256) : ECDAG :=
  ((cidx.foldl joinChild dag).joinRoot pidx cidx coefs).joinCluster pidx cidx

/-- Whether every node of `idxs` is there and has the children `childids`, in any order, as `BindX`
asserts. -/
def sameChilds (dag : ECDAG) (idxs childids : List ℕ) : Bool :=
  idxs.all fun i ↦
    match dag.nodes.lookup i with
    | none => false
    | some nd => nd.childNodes.length == childids.length && nd.childNodes.all (· ∈ childids)

/-- One turn of the loop of `BindX` over the targets. -/
def bindTarget (bindid : ℕ) (dag : ECDAG) (tbid : ℕ) : ECDAG :=
  match dag.nodes.lookup tbid with
  | none => dag
  | some tbnode =>
    let dag := dag.modify bindid fun nd ↦
      tbnode.coefMap.entries.foldl (fun nd item ↦ nd.addCoefs item.1 item.2) nd
    let dag := dag.setRefNum bindid tbid (tbnode.getRefNumFor tbid)
    dag.modify tbid fun nd ↦ (nd.cleanChilds.setChilds [bindid]).addCoefs tbid [1]

/-- Take the references of all but one of `num` targets from a child. -/
def unrefChild (num : ℕ) (dag : ECDAG) (cid : ℕ) : ECDAG :=
  match dag.nodes.lookup cid with
  | none => dag
  | some nd => dag.setRefNum cid cid (nd.getRefNumFor cid - num + 1)

/-- `BindX`, with the number it returns; `none` where an assertion fails. -/
def bindX (dag : ECDAG) (idxs : List ℕ) : Option (ECDAG × ℤ) :=
  match idxs with
  | [] => some (dag, -1)
  | [_] => some (dag, -1)
  | i :: is => do
    let bindid := dag.bindId
    if bindid ∈ dag.nodes then none else
    let first ← dag.nodes.lookup i
    let childids := first.childNodes
    if !dag.sameChilds is childids then none else
    let dag := { dag with
      bindId := bindid + 1
      nodes := dag.nodes.insert bindid (({} : ECNode).setChilds childids) }
    let dag := idxs.foldl (bindTarget bindid) dag
    let clusterid ← dag.findCluster childids
    let dag := { dag with clusters := dag.clusters.modify clusterid fun c ↦ { c with opted := 0 } }
    some (childids.foldl (unrefChild idxs.length) dag, bindid)

/-- `BindY`; `none` where an assertion fails. -/
def bindY (dag : ECDAG) (pidx cidx : ℕ) : Option ECDAG := do
  let toaddNode ← dag.nodes.lookup pidx
  let consNode ← dag.nodes.lookup cidx
  match consNode.consId with
  | some id => some (dag.modify pidx (·.setConstraint id))
  | none =>
    let dag := dag.modify pidx (·.setConstraint cidx)
    let clusterid ← dag.findCluster toaddNode.childNodes
    some { dag with clusters := dag.clusters.modify clusterid fun c ↦ { c with opted := 1 } }

/-- `BindY` on a number that `BindX` returned: no node has a negative number. -/
def bindYOf (dag : ECDAG) (pidx : ℤ) (cidx : ℕ) : Option ECDAG :=
  if pidx < 0 then none else dag.bindY pidx.toNat cidx

/-- `BindXSp`, which puts a bind node under one target; `none` where an assertion fails. -/
def bindXSp (dag : ECDAG) (idx : ℕ) : Option (ECDAG × ℤ) := do
  let tbnode ← dag.nodes.lookup idx
  let bindid := dag.bindId
  if bindid ∈ dag.nodes then none else
  let childids := tbnode.childNodes
  if childids = [] then none else
  let bindNode := tbnode.coefMap.entries.foldl
    (fun nd item ↦ (nd.addCoefs bindid item.2).addCoefs item.1 item.2)
    (({} : ECNode).setChilds childids)
  let dag := { dag with bindId := bindid + 1, nodes := dag.nodes.insert bindid bindNode }
  let dag := dag.setRefNum bindid idx (tbnode.getRefNumFor idx)
  let dag := dag.modify idx fun nd ↦ (nd.cleanChilds.setChilds [bindid]).addCoefs idx [1]
  let clusterid ← dag.findCluster childids
  let dag := { dag with clusters := dag.clusters.modify clusterid fun c ↦ { c with opted := 0 } }
  some (childids.foldl (unrefChild 1) dag, bindid)

def setOpt (dag : ECDAG) (i : ℕ) (opt : ℤ) : ECDAG :=
  { dag with clusters := dag.clusters.modify i fun c ↦ { c with opted := opt } }

/-- One turn of the loop of `Opt0`, at the cluster of the given index. -/
def opt0Turn (dag : ECDAG) (i : ℕ) : Option ECDAG :=
  match dag.clusters[i]? with
  | none => some dag
  | some curCluster =>
    if curCluster.opted = -1 then do
      let (dag, _) ← dag.bindX curCluster.parents
      some (dag.setOpt i 0)
    else some dag

def opt0 (dag : ECDAG) : Option ECDAG := (List.range dag.clusters.length).foldlM opt0Turn dag

/-- One turn of the loop of `Opt1`. `rand` is the random number of the turn. -/
def opt1Turn (rand : ℕ → ℕ) (dag : ECDAG) (i : ℕ) : Option ECDAG :=
  match dag.clusters[i]? with
  | none => some dag
  | some curCluster =>
    if curCluster.opted = -1 then do
      let child ← curCluster.childs[rand i % curCluster.childs.length]?
      let dag ← match curCluster.parents with
        | [] => some dag
        | [p] => dag.bindY p child
        | parents => do
          let (dag, bindnodeid) ← dag.bindX parents
          dag.bindYOf bindnodeid child
      some (dag.setOpt i 1)
    else some dag

def opt1 (rand : ℕ → ℕ) (dag : ECDAG) : Option ECDAG :=
  (List.range dag.clusters.length).foldlM (opt1Turn rand) dag

/-! ## The shape of a graph -/

/-- The children of a node and its coefficients. -/
abbrev Shape := List ℕ × CoefMap

def shape (dag : ECDAG) (id : ℕ) : Option Shape :=
  (dag.nodes.lookup id).map fun nd ↦ (nd.childNodes, nd.coefMap)

theorem shape_eq_none {dag : ECDAG} {id : ℕ} : dag.shape id = none ↔ id ∉ dag.nodes := by
  rw [shape, Option.map_eq_none_iff, AList.lookup_eq_none]

theorem lookup_modify (dag : ECDAG) (id j : ℕ) (f : ECNode → ECNode) :
    (dag.modify id f).nodes.lookup j =
      if j = id then (dag.nodes.lookup id).map f else dag.nodes.lookup j := by
  rw [modify]
  split
  · next h =>
    split
    · next hj => rw [hj, h]; rfl
    · rfl
  · next nd h =>
    split
    · next hj => rw [hj, AList.lookup_insert, h]; rfl
    · next hj => rw [AList.lookup_insert_ne hj]

theorem shape_modify {dag : ECDAG} {id : ℕ} {f : ECNode → ECNode}
    (hf : ∀ nd, (f nd).childNodes = nd.childNodes ∧ (f nd).coefMap = nd.coefMap) :
    (dag.modify id f).shape = dag.shape := by
  funext j
  rw [shape, shape, lookup_modify]
  split
  · next hj =>
    rw [hj, Option.map_map]
    refine congrFun (congrArg Option.map (funext fun nd ↦ ?_)) _
    exact Prod.ext (hf nd).1 (hf nd).2
  · rfl

theorem shape_foldl_modify {f : ECNode → ECNode}
    (hf : ∀ nd, (f nd).childNodes = nd.childNodes ∧ (f nd).coefMap = nd.coefMap) (js : List ℕ)
    (dag : ECDAG) : (js.foldl (fun dag j ↦ dag.modify j f) dag).shape = dag.shape := by
  induction js generalizing dag with
  | nil => rfl
  | cons j js ih => rw [List.foldl_cons, ih, shape_modify hf]

@[simp] theorem shape_setRefNum (dag : ECDAG) (node id : ℕ) (ref : ℤ) :
    (dag.setRefNum node id ref).shape = dag.shape :=
  shape_foldl_modify (f := fun nd ↦ { nd with refNumFor := nd.refNumFor.insert id ref })
    (fun _ ↦ ⟨rfl, rfl⟩) _ _

@[simp] theorem shape_incRefNumFor (dag : ECDAG) (node id : ℕ) :
    (dag.incRefNumFor node id).shape = dag.shape :=
  shape_foldl_modify
    (f := fun nd ↦ { nd with refNumFor := nd.refNumFor.insert id (nd.getRefNumFor id + 1) })
    (fun _ ↦ ⟨rfl, rfl⟩) _ _

theorem shape_joinChild (dag : ECDAG) (c id : ℕ) :
    (dag.joinChild c).shape id =
      if id = c ∧ dag.shape id = none then some ([], ∅) else dag.shape id := by
  rw [joinChild, shape_incRefNumFor]
  by_cases hc : c ∈ dag.nodes
  · have hnot : ¬(id = c ∧ dag.shape id = none) := by
      rintro ⟨rfl, h⟩
      exact shape_eq_none.mp h hc
    rw [if_neg hnot]
    simp only [if_pos hc]
    rfl
  · simp only [if_neg hc]
    rw [shape]
    by_cases hid : id = c
    · rw [if_pos ⟨hid, hid ▸ shape_eq_none.mpr hc⟩, hid]
      show ((dag.nodes.insert c {}).lookup c).map _ = _
      rw [AList.lookup_insert]
      rfl
    · rw [if_neg (fun h ↦ hid h.1)]
      show ((dag.nodes.insert c {}).lookup id).map _ = _
      rw [AList.lookup_insert_ne hid]
      rfl

theorem shape_foldl_joinChild (dag : ECDAG) (cs : List ℕ) (id : ℕ) :
    (cs.foldl joinChild dag).shape id =
      if id ∈ cs ∧ dag.shape id = none then some ([], ∅) else dag.shape id := by
  induction cs generalizing dag with
  | nil => simp
  | cons c cs ih =>
    rw [List.foldl_cons, ih, shape_joinChild]
    by_cases hid : id = c
    · subst hid
      by_cases hnone : dag.shape id = none <;> simp [hnone]
    · simp [hid]

theorem shape_joinRoot (dag : ECDAG) (p : ℕ) (cs : List ℕ) (coefs : List GF256) (id : ℕ) :
    (dag.joinRoot p cs coefs).shape id =
      if id = p then some (cs, AList.singleton p coefs) else dag.shape id := by
  rw [joinRoot]
  split
  · rw [shape]
    split
    · next h =>
      rw [h, AList.lookup_insert]
      rfl
    · next h => rw [AList.lookup_insert_ne h]; rfl
  · rw [shape]
    split
    · next h =>
      rw [h, AList.lookup_insert]
      rfl
    · next h => rw [AList.lookup_insert_ne h]; rfl

theorem shape_joinCluster (dag : ECDAG) (p : ℕ) (cs : List ℕ) :
    (dag.joinCluster p cs).shape = dag.shape := by
  rw [joinCluster]
  split <;> rfl

/-- **What `Join` does to the shape.** The root gets the children and the coefficients, children that
were not there become leaves, and nothing else changes. -/
theorem shape_join (dag : ECDAG) (p : ℕ) (cs : List ℕ) (coefs : List GF256) (id : ℕ) :
    (dag.join p cs coefs).shape id =
      if id = p then some (cs, AList.singleton p coefs)
      else if id ∈ cs ∧ dag.shape id = none then some ([], ∅) else dag.shape id := by
  rw [join, shape_joinCluster, shape_joinRoot, shape_foldl_joinChild]

/-! A `Join` draws no number for a bind node. -/

@[simp] theorem bindId_modify (dag : ECDAG) (id : ℕ) (f : ECNode → ECNode) :
    (dag.modify id f).bindId = dag.bindId := by
  rw [modify]
  split <;> rfl

theorem bindId_foldl {α : Type*} {f : ECDAG → α → ECDAG} (hf : ∀ dag j, (f dag j).bindId = dag.bindId)
    (js : List α) (dag : ECDAG) : (js.foldl f dag).bindId = dag.bindId := by
  induction js generalizing dag with
  | nil => rfl
  | cons j js ih => rw [List.foldl_cons, ih, hf]

theorem bindId_joinChild (dag : ECDAG) (c : ℕ) : (dag.joinChild c).bindId = dag.bindId :=
  bindId_foldl (fun _ _ ↦ bindId_modify ..) _ _

@[simp] theorem bindId_join (dag : ECDAG) (p : ℕ) (cs : List ℕ) (coefs : List GF256) :
    (dag.join p cs coefs).bindId = dag.bindId := by
  have hroot : ∀ d : ECDAG, ((d.joinRoot p cs coefs).joinCluster p cs).bindId = d.bindId := by
    intro d
    rw [joinCluster]
    split <;> rw [joinRoot] <;> split <;> rfl
  rw [join, hroot, bindId_foldl bindId_joinChild]

/-! ## Clusters, `BindY` and `BindX` -/

theorem childsInCluster_mergeSort (c : Cluster) (cs : List ℕ) :
    c.childsInCluster cs.mergeSort = c.childsInCluster cs := by
  have hall : cs.mergeSort.all (· ∈ c.childs) = cs.all (· ∈ c.childs) :=
    (List.mergeSort_perm cs _).all_eq
  rw [Cluster.childsInCluster, Cluster.childsInCluster, List.length_mergeSort, hall]

theorem findCluster_isSome {dag : ECDAG} {cs : List ℕ} :
    (dag.findCluster cs).isSome ↔ ∃ c ∈ dag.clusters, c.childsInCluster cs = true := by
  rw [findCluster, List.findIdx?_isSome, List.any_eq_true]

theorem findCluster_join (dag : ECDAG) (p : ℕ) (cs : List ℕ) (coefs : List GF256) :
    ((dag.join p cs coefs).findCluster cs).isSome := by
  rw [findCluster_isSome, join]
  generalize (cs.foldl joinChild dag).joinRoot p cs coefs = d
  rw [joinCluster]
  split
  · refine ⟨⟨cs.mergeSort, [p], -1⟩, List.mem_append_right _ (List.mem_singleton_self _), ?_⟩
    simp [Cluster.childsInCluster]
  · next i hi =>
    obtain ⟨hlt, hc, -⟩ := List.findIdx?_eq_some_iff_getElem.mp hi
    refine ⟨{ d.clusters[i] with parents := d.clusters[i].parents ++ [p] }, ?_, ?_⟩
    · exact List.mem_iff_getElem.mpr ⟨i, by simpa using hlt, by simp⟩
    · rw [← childsInCluster_mergeSort]
      exact hc

theorem shape_of_lookup {dag : ECDAG} {id : ℕ} {nd : ECNode} (h : dag.nodes.lookup id = some nd) :
    dag.shape id = some (nd.childNodes, nd.coefMap) := by
  rw [shape, h]
  rfl

theorem exists_of_shape {dag : ECDAG} {id : ℕ} {cs : List ℕ} {M : CoefMap}
    (h : dag.shape id = some (cs, M)) :
    ∃ nd, dag.nodes.lookup id = some nd ∧ nd.childNodes = cs ∧ nd.coefMap = M := by
  obtain ⟨nd, hnd, hsh⟩ := Option.map_eq_some_iff.mp h
  exact ⟨nd, hnd, congrArg Prod.fst hsh, congrArg Prod.snd hsh⟩

/-- **`BindY` keeps the shape**, and its assertions hold on nodes that are there. -/
theorem bindY_eq_some {dag : ECDAG} {p c : ℕ} {cs cs' : List ℕ} {M M' : CoefMap}
    (hp : dag.shape p = some (cs, M)) (hc : dag.shape c = some (cs', M'))
    (hcluster : (dag.findCluster cs).isSome) :
    ∃ dag', dag.bindY p c = some dag' ∧ dag'.shape = dag.shape := by
  obtain ⟨toaddNode, hpn, hchilds, -⟩ := exists_of_shape hp
  obtain ⟨consNode, hcn, -⟩ := exists_of_shape hc
  have hkeep : ∀ id, (dag.modify p (·.setConstraint id)).shape = dag.shape :=
    fun id ↦ shape_modify fun _ ↦ ⟨rfl, rfl⟩
  cases hcons : consNode.consId with
  | some id =>
    refine ⟨dag.modify p (·.setConstraint id), ?_, hkeep id⟩
    simp only [bindY, hpn, hcn, hcons, Option.bind_eq_bind, Option.bind_some]
  | none =>
    have hclusters : (dag.modify p (·.setConstraint c)).clusters = dag.clusters := by
      rw [modify, hpn]
    obtain ⟨i, hi⟩ := Option.isSome_iff_exists.mp hcluster
    rw [← hchilds, findCluster, ← hclusters] at hi
    have heq : dag.bindY p c = some { dag.modify p (·.setConstraint c) with
        clusters := (dag.modify p (·.setConstraint c)).clusters.modify i fun c ↦ { c with opted := 1 } } := by
      simp only [bindY, hpn, hcn, hcons, Option.bind_eq_bind, Option.bind_some, findCluster, hi]
    exact ⟨_, heq, hkeep c⟩

theorem join_bindY (dag : ECDAG) (p : ℕ) {cs : List ℕ} {c : ℕ} (coefs : List GF256) (hc : c ∈ cs) :
    ∃ dag', (dag.join p cs coefs).bindY p c = some dag' ∧ dag'.shape = (dag.join p cs coefs).shape := by
  have hp : (dag.join p cs coefs).shape p = some (cs, AList.singleton p coefs) := by
    rw [shape_join, if_pos rfl]
  have hchild : ∃ sh, (dag.join p cs coefs).shape c = some sh := by
    rw [shape_join]
    split
    · exact ⟨_, rfl⟩
    · split
      · exact ⟨_, rfl⟩
      · next h =>
        exact Option.ne_none_iff_exists'.mp fun hnone ↦ h ⟨hc, hnone⟩
  obtain ⟨sh, hsh⟩ := hchild
  exact bindY_eq_some hp hsh (findCluster_join dag p cs coefs)

/-- One target of `BindX`: its coefficients go to the bind node, which becomes its only child. -/
theorem shape_bindTarget {dag : ECDAG} {bindid tbid : ℕ} {cs bs : List ℕ} {co : List GF256} {M : CoefMap}
    (ht : dag.shape tbid = some (cs, AList.singleton tbid co)) (hb : dag.shape bindid = some (bs, M))
    (hne : tbid ≠ bindid) (id : ℕ) :
    (bindTarget bindid dag tbid).shape id =
      if id = tbid then some ([bindid], AList.singleton tbid [1])
      else if id = bindid then some (bs, M.insert tbid co) else dag.shape id := by
  obtain ⟨tbnode, htn, -, hco⟩ := exists_of_shape ht
  obtain ⟨bnode, hbn, hbs, hM⟩ := exists_of_shape hb
  simp only [bindTarget, htn]
  rw [shape, lookup_modify]
  generalize hd : dag.modify bindid _ = d
  have hshape : ∀ j, d.shape j = if j = bindid then some (bs, M.insert tbid co) else dag.shape j := by
    intro j
    rw [← hd, shape, lookup_modify]
    split
    · have hentries : tbnode.coefMap.entries = [⟨tbid, co⟩] := by rw [hco]; rfl
      rw [hbn, hentries, ← hbs, ← hM]
      rfl
    · rfl
  split
  · next h =>
    have htd : d.shape tbid = some (cs, AList.singleton tbid co) := by rw [hshape, if_neg hne, ht]
    rw [← shape_setRefNum d bindid tbid (tbnode.getRefNumFor tbid)] at htd
    obtain ⟨nd, hnd, -⟩ := exists_of_shape htd
    rw [hnd]
    rfl
  · rw [← shape, shape_setRefNum, hshape]

/-- The coefficients the bind node collects. -/
def bindCoefs (co : ℕ → List GF256) (idxs : List ℕ) (M : CoefMap) : CoefMap :=
  idxs.foldl (fun M i ↦ M.insert i (co i)) M

theorem lookup_bindCoefs {co : ℕ → List GF256} {idxs : List ℕ} {i : ℕ} (hi : i ∈ idxs) (M : CoefMap) :
    (bindCoefs co idxs M).lookup i = some (co i) := by
  have hrest : ∀ (is : List ℕ) (M : CoefMap), M.lookup i = some (co i) →
      (bindCoefs co is M).lookup i = some (co i) := by
    intro is
    induction is with
    | nil => exact fun M h ↦ h
    | cons j js ih =>
      intro M h
      refine ih _ ?_
      by_cases hij : i = j
      · rw [← hij, AList.lookup_insert]
      · rw [AList.lookup_insert_ne hij, h]
  induction idxs generalizing M with
  | nil => exact absurd hi List.not_mem_nil
  | cons j js ih =>
    rcases List.mem_cons.mp hi with rfl | hi
    · exact hrest js _ (AList.lookup_insert M)
    · exact ih hi _

theorem one_lt_length_keys {M : CoefMap} {i j : ℕ} {co co' : List GF256} (hij : i ≠ j)
    (hi : M.lookup i = some co) (hj : M.lookup j = some co') : 1 < M.keys.length := by
  have hmem : ∀ {l : ℕ} {co : List GF256}, M.lookup l = some co → l ∈ M.keys :=
    fun h ↦ AList.lookup_isSome.mp (Option.isSome_iff_exists.mpr ⟨_, h⟩)
  by_contra hlen
  obtain ⟨l, hl⟩ : ∃ l, M.keys = [l] :=
    List.length_eq_one_iff.mp (by have := List.length_pos_of_mem (hmem hi); omega)
  have hil := hmem hi
  have hjl := hmem hj
  rw [hl, List.mem_singleton] at hil hjl
  exact hij (hil.trans hjl.symm)

theorem shape_foldl_bindTarget {bindid : ℕ} {bs : List ℕ} {ch : ℕ → List ℕ} {co : ℕ → List GF256}
    (idxs : List ℕ) {dag : ECDAG} {M : CoefMap} (hnodup : idxs.Nodup)
    (ht : ∀ i ∈ idxs, i ≠ bindid ∧ dag.shape i = some (ch i, AList.singleton i (co i)))
    (hb : dag.shape bindid = some (bs, M)) (id : ℕ) :
    (idxs.foldl (bindTarget bindid) dag).shape id =
      if id ∈ idxs then some ([bindid], AList.singleton id [1])
      else if id = bindid then some (bs, bindCoefs co idxs M) else dag.shape id := by
  induction idxs generalizing dag M with
  | nil =>
    by_cases hid : id = bindid
    · simp [hid, hb, bindCoefs]
    · simp [hid]
  | cons i is ih =>
    obtain ⟨hi, his⟩ := List.nodup_cons.mp hnodup
    obtain ⟨hne, hsi⟩ := ht i List.mem_cons_self
    have hstep := shape_bindTarget hsi hb hne
    rw [List.foldl_cons, ih his (M := M.insert i (co i))]
    · by_cases hid : id = i
      · subst hid
        rw [if_neg hi, if_neg hne, if_pos List.mem_cons_self, hstep, if_pos rfl]
      · simp only [List.mem_cons, hid, false_or, hstep, if_false]
        split
        · rfl
        · split <;> rfl
    · intro j hj
      obtain ⟨hjb, hsj⟩ := ht j (List.mem_cons_of_mem i hj)
      have hji : j ≠ i := fun h ↦ hi (h ▸ hj)
      exact ⟨hjb, by rw [hstep, if_neg hji, if_neg hjb, hsj]⟩
    · rw [hstep, if_neg (Ne.symm hne), if_pos rfl]

@[simp] theorem clusters_modify (dag : ECDAG) (id : ℕ) (f : ECNode → ECNode) :
    (dag.modify id f).clusters = dag.clusters := by
  rw [modify]
  split <;> rfl

theorem clusters_foldl {f : ECDAG → ℕ → ECDAG} (hf : ∀ dag j, (f dag j).clusters = dag.clusters)
    (js : List ℕ) (dag : ECDAG) : (js.foldl f dag).clusters = dag.clusters := by
  induction js generalizing dag with
  | nil => rfl
  | cons j js ih => rw [List.foldl_cons, ih, hf]

@[simp] theorem clusters_setRefNum (dag : ECDAG) (node id : ℕ) (ref : ℤ) :
    (dag.setRefNum node id ref).clusters = dag.clusters :=
  clusters_foldl (fun _ _ ↦ clusters_modify ..) _ _

theorem clusters_bindTarget (bindid : ℕ) (dag : ECDAG) (tbid : ℕ) :
    (bindTarget bindid dag tbid).clusters = dag.clusters := by
  rw [bindTarget]
  split
  · rfl
  · rw [clusters_modify, clusters_setRefNum, clusters_modify]

theorem shape_unrefChild (num : ℕ) (dag : ECDAG) (cid : ℕ) :
    (unrefChild num dag cid).shape = dag.shape := by
  rw [unrefChild]
  split
  · rfl
  · exact shape_setRefNum ..

theorem shape_foldl_unrefChild (num : ℕ) (cids : List ℕ) (dag : ECDAG) :
    (cids.foldl (unrefChild num) dag).shape = dag.shape := by
  induction cids generalizing dag with
  | nil => rfl
  | cons c cids ih => rw [List.foldl_cons, ih, shape_unrefChild]

theorem sameChilds_of_shape {dag : ECDAG} {idxs cs : List ℕ}
    (h : ∀ i ∈ idxs, ∃ cs' M, dag.shape i = some (cs', M) ∧ cs'.Perm cs) : dag.sameChilds idxs cs = true := by
  rw [sameChilds, List.all_eq_true]
  intro i hi
  obtain ⟨cs', M, hM, hperm⟩ := h i hi
  obtain ⟨nd, hnd, hchilds, -⟩ := exists_of_shape hM
  simp [hnd, hchilds, hperm.length_eq, hperm.mem_iff]

/-- **What `BindX` does to the shape** of targets with the same children: the bind node takes the children
of the first target and the coefficients of all targets, and becomes the only child of each. -/
theorem bindX_eq_some {dag : ECDAG} {i j : ℕ} {is : List ℕ} {ch : ℕ → List ℕ} {co : ℕ → List GF256}
    (hnodup : (i :: j :: is).Nodup) (hbind : dag.bindId ∉ dag.nodes)
    (ht : ∀ l ∈ i :: j :: is, dag.shape l = some (ch l, AList.singleton l (co l)))
    (hperm : ∀ l ∈ i :: j :: is, (ch l).Perm (ch i)) (hcluster : (dag.findCluster (ch i)).isSome) :
    ∃ dag', dag.bindX (i :: j :: is) = some (dag', (dag.bindId : ℤ)) ∧ ∀ id, dag'.shape id =
      if id ∈ i :: j :: is then some ([dag.bindId], AList.singleton id [1])
      else if id = dag.bindId then some (ch i, bindCoefs co (i :: j :: is) ∅) else dag.shape id := by
  obtain ⟨first, hfirst, hchilds, -⟩ := exists_of_shape (ht i List.mem_cons_self)
  have hsame : dag.sameChilds (j :: is) first.childNodes = true := by
    rw [hchilds]
    exact sameChilds_of_shape fun l hl ↦
      ⟨_, _, ht l (List.mem_cons_of_mem i hl), hperm l (List.mem_cons_of_mem i hl)⟩
  -- The graph with the bind node, before the loop over the targets.
  let dag₀ : ECDAG := { dag with
    bindId := dag.bindId + 1
    nodes := dag.nodes.insert dag.bindId (({} : ECNode).setChilds first.childNodes) }
  have hshape₀ : ∀ id, dag₀.shape id = if id = dag.bindId then some (ch i, ∅) else dag.shape id := by
    intro id
    rw [shape]
    split
    · next h =>
      rw [h, AList.lookup_insert, ← hchilds]
      rfl
    · next h => rw [AList.lookup_insert_ne h]; rfl
  have htarget : ∀ l ∈ i :: j :: is, l ≠ dag.bindId ∧
      dag₀.shape l = some (ch l, AList.singleton l (co l)) := by
    intro l hl
    have hne : l ≠ dag.bindId := by
      rintro rfl
      have hnone := shape_eq_none.mpr hbind
      rw [ht _ hl] at hnone
      exact Option.some_ne_none _ hnone
    exact ⟨hne, by rw [hshape₀, if_neg hne, ht l hl]⟩
  have hbind₀ : dag₀.shape dag.bindId = some (ch i, ∅) := by rw [hshape₀, if_pos rfl]
  let dag₁ : ECDAG := (i :: j :: is).foldl (bindTarget dag.bindId) dag₀
  have hclusters : dag₁.clusters = dag.clusters := clusters_foldl (clusters_bindTarget _) _ _
  obtain ⟨c, hc⟩ := Option.isSome_iff_exists.mp hcluster
  have hfind : dag₁.findCluster first.childNodes = some c := by
    rw [findCluster, hclusters, hchilds]
    exact hc
  let dag₂ : ECDAG := { dag₁ with clusters := dag₁.clusters.modify c fun c ↦ { c with opted := 0 } }
  refine ⟨first.childNodes.foldl (unrefChild (i :: j :: is).length) dag₂, ?_, fun id ↦ ?_⟩
  · simp only [bindX, if_neg hbind, hfirst, hsame, Option.bind_eq_bind, Option.bind_some]
    show (dag₁.findCluster first.childNodes).bind _ = _
    rw [hfind]
    rfl
  · rw [shape_foldl_unrefChild]
    show dag₁.shape id = _
    rw [shape_foldl_bindTarget _ hnodup htarget hbind₀, hshape₀]
    split
    · rfl
    · split <;> rfl

end ECDAG

end UniDedup.Storage
