import UniDedup.Storage.BindRuns
import UniDedup.Storage.OnlineFile
import UniDedup.Storage.WellFormed

/-!
# Sorting any graph

A code makes its graph by `Join`, `BindX` and `BindXSp`, in any order that the assertions let pass. Whatever the
graph, the children of a node are there, so `toposort` lists the nodes from which no cycle can be reached, and
`getLeaves` the nodes without children.

The headers are kept by `Join`: a child is taken out of them, a target that was not there is put in. A target
that has children already loses them, and they do not become headers again. So the headers are the nodes that
are no child when no `Join` has such a target.
-/

namespace UniDedup.Storage

open Toposort

/-- An operation on a graph. -/
inductive GraphCall
  | join (pidx : ℕ) (cidx : List ℕ) (coefs : List GF256)
  | bindX (idxs : List ℕ)
  | bindXSp (idx : ℕ)

namespace ECDAG

def getHeaders (dag : ECDAG) : List ℕ := dag.headers

def call (dag : ECDAG) : GraphCall → Option ECDAG
  | .join pidx cidx coefs => some (dag.join pidx cidx coefs)
  | .bindX idxs => (dag.bindX idxs).map Prod.fst
  | .bindXSp idx => (dag.bindXSp idx).map Prod.fst

/-- The graph some operations make; `none` where an assertion fails. -/
def build (calls : List GraphCall) : Option ECDAG := calls.foldlM call {}

/-! ## Children -/

section Childs

variable {dag dag' : ECDAG} {id p : ℕ} {cs idxs : List ℕ} {coefs : List GF256}

theorem childs_eq (dag : ECDAG) (id : ℕ) : dag.childs id = ((dag.shape id).map Prod.fst).getD [] := by
  rw [childs, shape, Option.map_map]
  rfl

theorem childs_congr (h : dag'.shape = dag.shape) : dag'.childs = dag.childs :=
  funext fun id ↦ by rw [childs_eq, childs_eq, h]

theorem nodes_congr (h : dag'.shape = dag.shape) (id : ℕ) : id ∈ dag'.nodes ↔ id ∈ dag.nodes := by
  rw [mem_nodes_iff, mem_nodes_iff, h]

theorem childs_of_notMem (h : id ∉ dag.nodes) : dag.childs id = [] := by
  rw [childs_eq, shape_eq_none.mpr h]
  rfl

theorem childs_join_eq (dag : ECDAG) (p : ℕ) (cs : List ℕ) (coefs : List GF256) (id : ℕ) :
    (dag.join p cs coefs).childs id = if id = p then cs else dag.childs id := by
  rw [childs_eq, childs_eq, shape_join]
  split
  · rfl
  · split
    · next h =>
      rw [h.2]
      rfl
    · rfl

theorem mem_nodes_modify {j : ℕ} {f : ECNode → ECNode} : id ∈ (dag.modify j f).nodes ↔ id ∈ dag.nodes := by
  rw [← AList.lookup_isSome, ← AList.lookup_isSome, lookup_modify]
  split
  · next h => rw [Option.isSome_map, h]
  · rfl

theorem childs_modify (dag : ECDAG) (j : ℕ) (f : ECNode → ECNode) (id : ℕ) :
    (dag.modify j f).childs id =
      if id = j then ((dag.nodes.lookup j).map fun nd ↦ (f nd).childNodes).getD [] else dag.childs id := by
  rw [childs, lookup_modify]
  split
  · rw [Option.map_map]
    rfl
  · rfl

theorem childs_modify_of_eq {j : ℕ} {f : ECNode → ECNode} (hf : ∀ nd, (f nd).childNodes = nd.childNodes) :
    (dag.modify j f).childs = dag.childs := by
  funext id
  rw [childs_modify]
  split
  · next h =>
    rw [h, childs]
    exact congrArg (Option.getD · []) (congrFun (congrArg Option.map (funext hf)) _)
  · rfl

theorem childNodes_foldl_addCoefs (es : List (Sigma fun _ : ℕ ↦ List GF256)) (nd : ECNode) :
    (es.foldl (fun nd item ↦ nd.addCoefs item.1 item.2) nd).childNodes = nd.childNodes := by
  induction es generalizing nd with
  | nil => rfl
  | cons e es ih => rw [List.foldl_cons, ih]; rfl

theorem bindTarget_eq {b t : ℕ} (ht : t ∈ dag.nodes) :
    (∀ id, id ∈ (bindTarget b dag t).nodes ↔ id ∈ dag.nodes) ∧
      ∀ id, (bindTarget b dag t).childs id = if id = t then [b] else dag.childs id := by
  obtain ⟨tbnode, htb⟩ := Option.isSome_iff_exists.mp (AList.lookup_isSome.mpr ht)
  have hbind : (dag.modify b fun nd ↦
      tbnode.coefMap.entries.foldl (fun nd item ↦ nd.addCoefs item.1 item.2) nd).childs = dag.childs :=
    childs_modify_of_eq fun nd ↦ childNodes_foldl_addCoefs _ nd
  simp only [bindTarget, htb]
  refine ⟨fun id ↦ ?_, fun id ↦ ?_⟩
  · rw [mem_nodes_modify, nodes_congr (shape_setRefNum ..), mem_nodes_modify]
  · rw [childs_modify, childs_congr (shape_setRefNum ..), hbind]
    split
    · -- the target is still there
      have hmem : t ∈ ((dag.modify b fun nd ↦
          tbnode.coefMap.entries.foldl (fun nd item ↦ nd.addCoefs item.1 item.2) nd).setRefNum b t
            (tbnode.getRefNumFor t)).nodes := by
        rwa [nodes_congr (shape_setRefNum ..), mem_nodes_modify]
      obtain ⟨nd, hnd⟩ := Option.isSome_iff_exists.mp (AList.lookup_isSome.mpr hmem)
      rw [hnd]
      rfl
    · rfl

theorem foldl_bindTarget_eq {b : ℕ} (idxs : List ℕ) {dag : ECDAG} (hidxs : ∀ t ∈ idxs, t ∈ dag.nodes) :
    (∀ id, id ∈ (idxs.foldl (bindTarget b) dag).nodes ↔ id ∈ dag.nodes) ∧
      ∀ id, (idxs.foldl (bindTarget b) dag).childs id = if id ∈ idxs then [b] else dag.childs id := by
  induction idxs generalizing dag with
  | nil => exact ⟨fun _ ↦ Iff.rfl, fun id ↦ by rw [if_neg List.not_mem_nil]; rfl⟩
  | cons t idxs ih =>
    obtain ⟨hnodes, hchilds⟩ := bindTarget_eq (b := b) (hidxs t List.mem_cons_self)
    have hrest : ∀ s ∈ idxs, s ∈ (bindTarget b dag t).nodes := fun s hs ↦
      (hnodes s).mpr (hidxs s (List.mem_cons_of_mem t hs))
    obtain ⟨hnodes', hchilds'⟩ := ih hrest
    refine ⟨fun id ↦ (hnodes' id).trans (hnodes id), fun id ↦ ?_⟩
    rw [List.foldl_cons, hchilds', hchilds]
    by_cases hid : id = t
    · simp [hid]
    · simp [hid]

end Childs

/-! ## Binding -/

/-- What the two bind operations do: a new node `b` takes children `cs`, among them those of every target, and
becomes the only child of the targets. -/
structure Inserted (dag dag' : ECDAG) (b : ℕ) (idxs cs : List ℕ) : Prop where
  free : b ∉ dag.nodes
  target : ∀ t ∈ idxs, t ∈ dag.nodes ∧ dag.childs t ⊆ cs
  first : ∃ t ∈ idxs, dag.childs t = cs
  nodes : ∀ id, id ∈ dag'.nodes ↔ id = b ∨ id ∈ dag.nodes
  childs : ∀ id, dag'.childs id = if id ∈ idxs then [b] else if id = b then cs else dag.childs id
  headers : dag'.headers = dag.headers

section Inserted

variable {dag dag' : ECDAG} {idxs : List ℕ} {idx : ℕ} {b : ℤ}

theorem mem_and_childs_of_sameChilds {i : ℕ} {cs : List ℕ} (h : dag.sameChilds idxs cs = true) (hi : i ∈ idxs) :
    i ∈ dag.nodes ∧ dag.childs i ⊆ cs := by
  rw [sameChilds, List.all_eq_true] at h
  have hnode := h i hi
  cases hnd : dag.nodes.lookup i with
  | none =>
    rw [hnd] at hnode
    exact absurd hnode Bool.false_ne_true
  | some nd =>
    rw [hnd] at hnode
    have hchilds : dag.childs i = nd.childNodes := by
      rw [childs, hnd]
      rfl
    refine ⟨AList.lookup_isSome.mp (hnd ▸ rfl), fun c hc ↦ ?_⟩
    rw [hchilds] at hc
    simp only [Bool.and_eq_true, List.all_eq_true, decide_eq_true_eq] at hnode
    exact hnode.2 c hc

theorem insert_eq {b : ℕ} {nd : ECNode} {dag₀ : ECDAG}
    (hnodes : dag₀.nodes = dag.nodes.insert b nd) :
    (∀ id, id ∈ dag₀.nodes ↔ id = b ∨ id ∈ dag.nodes) ∧
      ∀ id, dag₀.childs id = if id = b then nd.childNodes else dag.childs id := by
  refine ⟨fun id ↦ by rw [hnodes, AList.mem_insert], fun id ↦ ?_⟩
  rw [childs, hnodes]
  split
  · next h =>
    rw [h, AList.lookup_insert]
    rfl
  · next h =>
    rw [AList.lookup_insert_ne h]
    rfl

/-- **`BindX` on any nodes** its assertions let pass. -/
theorem bindX_cases (h : dag.bindX idxs = some (dag', b)) :
    dag' = dag ∨ ∃ cs, Inserted dag dag' dag.bindId idxs cs := by
  rcases bindX_asserts h with ⟨-, rfl⟩ | ⟨hfree, hframe, i, j, is, rfl, -⟩
  · exact .inl rfl
  right
  obtain ⟨-, first, c, hfirst, hsame, -, rfl⟩ := bindX_inv h
  have hchilds : dag.childs i = first.childNodes := by
    rw [childs, hfirst]
    rfl
  have htarget : ∀ t ∈ i :: j :: is, t ∈ dag.nodes ∧ dag.childs t ⊆ first.childNodes := by
    intro t ht
    rcases List.mem_cons.mp ht with rfl | ht
    · exact ⟨AList.lookup_isSome.mp (hfirst ▸ rfl), hchilds ▸ List.Subset.refl _⟩
    · exact mem_and_childs_of_sameChilds hsame ht
  -- the graph with the bind node, before the loop over the targets
  obtain ⟨hnodes₀, hchilds₀⟩ := insert_eq
    (show (dag.withBind (({} : ECNode).setChilds first.childNodes)).nodes = _ from rfl)
  obtain ⟨hnodes₁, hchilds₁⟩ := foldl_bindTarget_eq (b := dag.bindId) (i :: j :: is)
    fun t ht ↦ (hnodes₀ t).mpr (.inr (htarget t ht).1)
  refine ⟨first.childNodes, hfree, htarget, ⟨i, List.mem_cons_self, hchilds⟩, fun id ↦ ?_, fun id ↦ ?_,
    congrArg Prod.fst hframe⟩
  · rw [nodes_congr (shape_foldl_unrefChild ..)]
    exact (hnodes₁ id).trans (hnodes₀ id)
  · rw [childs_congr (shape_foldl_unrefChild ..)]
    refine (hchilds₁ id).trans ?_
    rw [hchilds₀]
    rfl

/-- **`BindXSp` on any node** its assertions let pass. -/
theorem bindXSp_inserted (h : dag.bindXSp idx = some (dag', b)) :
    ∃ cs, Inserted dag dag' dag.bindId [idx] cs := by
  obtain ⟨hfree, hframe, -⟩ := bindXSp_asserts h
  obtain ⟨-, tbnode, c, htb, -, -, rfl⟩ := bindXSp_inv h
  have hchilds : dag.childs idx = tbnode.childNodes := by
    rw [childs, htb]
    rfl
  have hmem : idx ∈ dag.nodes := AList.lookup_isSome.mp (htb ▸ rfl)
  have hbindChilds : (bindSpNode dag.bindId tbnode).childNodes = tbnode.childNodes :=
    (bindSpNode_eq dag.bindId tbnode).1
  obtain ⟨hnodes₀, hchilds₀⟩ := insert_eq (show (dag.withBind (bindSpNode dag.bindId tbnode)).nodes = _ from rfl)
  refine ⟨tbnode.childNodes, hfree, fun t ht ↦ ?_, ⟨idx, List.mem_singleton_self idx, hchilds⟩,
    fun id ↦ ?_, fun id ↦ ?_, congrArg Prod.fst hframe⟩
  · rw [List.mem_singleton.mp ht, hchilds]
    exact ⟨hmem, List.Subset.refl _⟩
  · rw [nodes_congr (shape_foldl_unrefChild ..)]
    refine mem_nodes_modify.trans ?_
    rw [nodes_congr (shape_setRefNum ..), hnodes₀]
  · rw [childs_congr (shape_foldl_unrefChild ..)]
    refine (childs_modify _ _ _ id).trans ?_
    rw [childs_congr (shape_setRefNum ..), hchilds₀, hbindChilds]
    by_cases hid : id = idx
    · -- the target is still there
      have hmem' : idx ∈ ((dag.withBind (bindSpNode dag.bindId tbnode)).setRefNum dag.bindId idx
          (tbnode.getRefNumFor idx)).nodes := by
        rw [nodes_congr (shape_setRefNum ..), hnodes₀]
        exact .inr hmem
      obtain ⟨nd, hnd⟩ := Option.isSome_iff_exists.mp (AList.lookup_isSome.mpr hmem')
      rw [if_pos hid, if_pos (List.mem_singleton.mpr hid), hnd]
      rfl
    · rw [if_neg hid, if_neg (fun h ↦ hid (List.mem_singleton.mp h))]

end Inserted

/-! ## What every operation keeps -/

def Closed (dag : ECDAG) : Prop := ∀ id, ∀ c ∈ dag.childs id, c ∈ dag.nodes

/-- The headers are the nodes that are no child. -/
structure Headed (dag : ECDAG) : Prop where
  nodup : dag.getHeaders.Nodup
  mem : ∀ id, id ∈ dag.getHeaders ↔ id ∈ dag.nodes ∧ ∀ p, id ∉ dag.childs p

section Keeps

variable {dag dag' : ECDAG} {p b : ℕ} {cs idxs : List ℕ} {coefs : List GF256}

theorem Closed.join (h : Closed dag) : Closed (dag.join p cs coefs) := by
  intro id c hc
  rw [childs_join_eq] at hc
  rw [mem_nodes_join]
  split at hc
  · exact .inr (.inl hc)
  · exact .inr (.inr (h id c hc))

theorem Closed.inserted (h : Closed dag) (hins : Inserted dag dag' b idxs cs) : Closed dag' := by
  intro id c hc
  rw [hins.childs] at hc
  rw [hins.nodes]
  split at hc
  · exact .inl (List.mem_singleton.mp hc)
  split at hc
  · obtain ⟨t, -, ht⟩ := hins.first
    exact .inr (h t c (ht ▸ hc))
  · exact .inr (h id c hc)

/-- What is no child stays none, and no child is given up, as long as the target had none. -/
theorem notChild_join_iff (hp : dag.childs p = []) {id : ℕ} :
    (∀ q, id ∉ (dag.join p cs coefs).childs q) ↔ id ∉ cs ∧ ∀ q, id ∉ dag.childs q := by
  constructor
  · intro h
    refine ⟨fun hmem ↦ h p ?_, fun q hmem ↦ h q ?_⟩
    · rwa [childs_join_eq, if_pos rfl]
    · rw [childs_join_eq, if_neg]
      · exact hmem
      · rintro rfl
        rw [hp] at hmem
        exact List.not_mem_nil hmem
  · rintro ⟨hcs, h⟩ q hmem
    rw [childs_join_eq] at hmem
    split at hmem
    · exact hcs hmem
    · exact h q hmem

theorem headers_foldl_joinChild_eq (cs : List ℕ) (dag : ECDAG) :
    (cs.foldl joinChild dag).headers = dag.headers.diff cs := by
  induction cs generalizing dag with
  | nil => rfl
  | cons c cs ih => rw [List.foldl_cons, ih, headers_joinChild, List.diff_cons]

/-- A target that is not there becomes a header, and the children are none any more. -/
theorem headers_join_eq (dag : ECDAG) (p : ℕ) (cs : List ℕ) (coefs : List GF256) :
    (dag.join p cs coefs).headers =
      if p ∈ dag.nodes ∨ p ∈ cs then dag.headers.diff cs else dag.headers.diff cs ++ [p] := by
  have hcluster : ∀ dag : ECDAG, (dag.joinCluster p cs).headers = dag.headers := by
    intro dag
    rw [joinCluster]
    split <;> rfl
  have hmem : p ∈ (cs.foldl joinChild dag).nodes ↔ p ∈ dag.nodes ∨ p ∈ cs := by
    rw [mem_nodes_iff, mem_nodes_iff, shape_foldl_joinChild]
    by_cases hc : p ∈ cs <;> cases hs : dag.shape p <;> simp [hc]
  rw [ECDAG.join, hcluster, joinRoot, ← headers_foldl_joinChild_eq]
  split
  · next hnone => rw [if_neg (hmem.not.mp (AList.lookup_eq_none.mp hnone))]
  · next nd hnd => rw [if_pos (hmem.mp (AList.lookup_isSome.mp (hnd ▸ rfl)))]

theorem Headed.join (h : Headed dag) (hclosed : Closed dag) (hp : dag.childs p = []) :
    Headed (dag.join p cs coefs) := by
  have hdiff : ∀ id, id ∈ dag.headers.diff cs ↔ id ∈ dag.headers ∧ id ∉ cs := fun id ↦ h.nodup.mem_sdiff_iff
  have hmem := h.mem
  simp only [getHeaders] at hmem
  constructor
  · rw [getHeaders, headers_join_eq]
    split
    · exact h.nodup.diff
    · next hnew =>
      refine List.nodup_append.mpr ⟨h.nodup.diff, List.nodup_singleton p, fun x hx y hy hxy ↦ hnew (.inl ?_)⟩
      rw [List.mem_singleton.mp hy] at hxy
      rw [hdiff, hmem, hxy] at hx
      exact hx.1.1
  · intro id
    rw [getHeaders, headers_join_eq, mem_nodes_join, notChild_join_iff hp]
    split
    · next hold =>
      rw [hdiff, hmem]
      constructor
      · rintro ⟨⟨hnode, hnot⟩, hcs⟩
        exact ⟨.inr (.inr hnode), hcs, hnot⟩
      · rintro ⟨hnode, hcs, hnot⟩
        refine ⟨⟨?_, hnot⟩, hcs⟩
        rcases hnode with rfl | hnode | hnode
        · exact hold.resolve_right hcs
        · exact absurd hnode hcs
        · exact hnode
    · next hnew =>
      rw [not_or] at hnew
      rw [List.mem_append, List.mem_singleton, hdiff, hmem]
      constructor
      · rintro (⟨⟨hnode, hnot⟩, hcs⟩ | rfl)
        · exact ⟨.inr (.inr hnode), hcs, hnot⟩
        · exact ⟨.inl rfl, hnew.2, fun q hq ↦ hnew.1 (hclosed q id hq)⟩
      · rintro ⟨hnode, hcs, hnot⟩
        rcases hnode with rfl | hnode | hnode
        · exact .inr rfl
        · exact absurd hnode hcs
        · exact .inl ⟨⟨hnode, hnot⟩, hcs⟩

/-- The children of the targets become children of the new node, which is one itself. -/
theorem Headed.inserted (h : Headed dag) (hins : Inserted dag dag' b idxs cs) :
    Headed dag' := by
  refine ⟨?_, fun id ↦ ?_⟩
  · rw [getHeaders, hins.headers]
    exact h.nodup
  have hchild : (∃ q, id ∈ dag'.childs q) ↔ id = b ∨ ∃ q, id ∈ dag.childs q := by
    obtain ⟨t, ht, hcs⟩ := hins.first
    have hb : b ∉ idxs := fun hb ↦ hins.free (hins.target b hb).1
    constructor
    · rintro ⟨q, hq⟩
      rw [hins.childs] at hq
      split at hq
      · exact .inl (List.mem_singleton.mp hq)
      split at hq
      · exact .inr ⟨t, hcs ▸ hq⟩
      · exact .inr ⟨q, hq⟩
    · rintro (rfl | ⟨q, hq⟩)
      · refine ⟨t, ?_⟩
        rw [hins.childs, if_pos ht]
        exact List.mem_singleton_self id
      · by_cases hqt : q ∈ idxs
        · refine ⟨b, ?_⟩
          rw [hins.childs, if_neg hb, if_pos rfl]
          exact (hins.target q hqt).2 hq
        · refine ⟨q, ?_⟩
          rw [hins.childs, if_neg hqt, if_neg]
          · exact hq
          · rintro rfl
            rw [childs_of_notMem hins.free] at hq
            exact List.not_mem_nil hq
  have hmem := h.mem id
  rw [getHeaders] at hmem
  rw [getHeaders, hins.headers, hmem, hins.nodes, ← not_exists, ← not_exists, hchild]
  constructor
  · rintro ⟨hnode, hnot⟩
    refine ⟨.inr hnode, not_or.mpr ⟨?_, hnot⟩⟩
    rintro rfl
    exact hins.free hnode
  · rintro ⟨hnode, hnot⟩
    rw [not_or] at hnot
    exact ⟨hnode.resolve_left hnot.1, hnot.2⟩

end Keeps

theorem closed_empty : Closed {} := fun _ _ hc ↦ absurd hc List.not_mem_nil

theorem headed_empty : Headed {} :=
  ⟨List.nodup_nil, fun id ↦ iff_of_false List.not_mem_nil fun h ↦ AList.notMem_empty id h.1⟩

/-! ## Runs -/

section Runs

variable {dag dag' : ECDAG} {calls : List GraphCall} {c : GraphCall}

theorem Closed.call (h : Closed dag) (hcall : dag.call c = some dag') : Closed dag' := by
  cases c with
  | join p cs coefs =>
    rw [← Option.some.inj hcall]
    exact h.join
  | bindX idxs =>
    obtain ⟨⟨d, b⟩, hbind, rfl⟩ := Option.map_eq_some_iff.mp hcall
    rcases bindX_cases hbind with heq | ⟨cs, hins⟩
    · exact heq ▸ h
    · exact h.inserted hins
  | bindXSp idx =>
    obtain ⟨⟨d, b⟩, hbind, rfl⟩ := Option.map_eq_some_iff.mp hcall
    obtain ⟨cs, hins⟩ := bindXSp_inserted hbind
    exact h.inserted hins

theorem Headed.call (h : Headed dag) (hclosed : Closed dag)
    (hchildless : ∀ p cs coefs, c = .join p cs coefs → dag.childs p = []) (hcall : dag.call c = some dag') :
    Headed dag' := by
  cases c with
  | join p cs coefs =>
    rw [← Option.some.inj hcall]
    exact h.join hclosed (hchildless p cs coefs rfl)
  | bindX idxs =>
    obtain ⟨⟨d, b⟩, hbind, rfl⟩ := Option.map_eq_some_iff.mp hcall
    rcases bindX_cases hbind with heq | ⟨cs, hins⟩
    · exact heq ▸ h
    · exact h.inserted hins
  | bindXSp idx =>
    obtain ⟨⟨d, b⟩, hbind, rfl⟩ := Option.map_eq_some_iff.mp hcall
    obtain ⟨cs, hins⟩ := bindXSp_inserted hbind
    exact h.inserted hins

theorem build_append_singleton (calls : List GraphCall) (c : GraphCall) :
    build (calls ++ [c]) = (build calls).bind (·.call c) := by
  rw [build, List.foldlM_append]
  refine congrArg (Option.bind _) (funext fun dag ↦ ?_)
  rw [List.foldlM_cons]
  exact bind_pure _

theorem closed_of_build (h : build calls = some dag) : Closed dag := by
  induction calls using List.reverseRecOn generalizing dag with
  | nil =>
    rw [← Option.some.inj h]
    exact closed_empty
  | append_singleton calls c ih =>
    rw [build_append_singleton] at h
    obtain ⟨dag₀, hbefore, hcall⟩ := Option.bind_eq_some_iff.mp h
    exact (ih hbefore).call hcall

/-- No target of a `Join` has children when it is joined. -/
def ChildlessTargets (calls : List GraphCall) : Prop :=
  ∀ before p cs coefs rest dag, calls = before ++ .join p cs coefs :: rest → build before = some dag →
    dag.childs p = []

theorem headed_of_build (hchildless : ChildlessTargets calls) (h : build calls = some dag) : Headed dag := by
  induction calls using List.reverseRecOn generalizing dag with
  | nil =>
    rw [← Option.some.inj h]
    exact headed_empty
  | append_singleton calls c ih =>
    rw [build_append_singleton] at h
    obtain ⟨dag₀, hbefore, hcall⟩ := Option.bind_eq_some_iff.mp h
    have hchildless' : ChildlessTargets calls := by
      rintro before p cs coefs rest dag rfl hdag
      exact hchildless before p cs coefs (rest ++ [c]) dag (by rw [List.append_assoc, List.cons_append]) hdag
    refine (ih hchildless' hbefore).call (closed_of_build hbefore) ?_ hcall
    rintro p cs coefs rfl
    exact hchildless calls p cs coefs [] dag₀ rfl hbefore

end Runs

/-! ## What the orders list -/

section Orders

variable {dag : ECDAG} {order : List ℕ} {calls : List GraphCall}

/-- What `toposort` does: its loop ends, it lists the nodes from which no cycle is reachable, once and after
their children, and so all nodes of an acyclic graph. -/
structure Sorts (dag : ECDAG) (order : List ℕ) : Prop where
  terminates : ∃ k ≤ order.length, (Toposort.round^[k] (start dag.childs order)).inNum2List 0 = [] ∧
    (∀ j < k, (Toposort.round^[j] (start dag.childs order)).inNum2List 0 ≠ []) ∧
    dag.toposort order = (Toposort.round^[k] (start dag.childs order)).toret
  nodup : (dag.toposort order).Nodup
  childrenFirst : ChildrenFirst dag.childs (dag.toposort order)
  mem : ∀ id, id ∈ dag.toposort order ↔ id ∈ dag.nodes ∧ ¬ReachesCycle dag.childs id
  acyclic : (∀ x, ¬Relation.TransGen (Edge dag.childs) x x) → (dag.toposort order).Perm dag.nodes.keys

theorem Closed.sorts (h : Closed dag) (horder : order.Perm dag.nodes.keys) : Sorts dag order := by
  have hnodup : order.Nodup := horder.nodup_iff.mpr dag.nodes.keys_nodup
  have hnodes : ∀ id, id ∈ order ↔ id ∈ dag.nodes := fun id ↦ horder.mem_iff.trans AList.mem_keys.symm
  have hmem : ∀ id, id ∈ dag.toposort order ↔ id ∈ dag.nodes ∧ ¬ReachesCycle dag.childs id := by
    intro id
    rw [← hnodes, toposort]
    exact mem_toposort_iff hnodup fun p _ c hc ↦ (hnodes c).mpr (h p c hc)
  obtain ⟨hsorted, -, hfirst, -⟩ := toposort_spec dag.childs hnodup
  refine ⟨exists_iterate_round dag.childs hnodup, hsorted, hfirst, hmem, fun hacyclic ↦ ?_⟩
  refine (List.perm_ext_iff_of_nodup hsorted dag.nodes.keys_nodup).mpr fun id ↦ (hmem id).trans ?_
  rw [AList.mem_keys]
  exact and_iff_left fun ⟨x, _, hcycle⟩ ↦ hacyclic x hcycle

theorem nodup_getLeaves (dag : ECDAG) : dag.getLeaves.Nodup := by
  rw [getLeaves, (List.perm_insertionSort ..).nodup_iff]
  exact dag.nodes.keys_nodup.sublist (List.filter_sublist.map Sigma.fst)

theorem mem_getLeaves {id : ℕ} : id ∈ dag.getLeaves ↔ id ∈ dag.nodes ∧ dag.childs id = [] := by
  rw [getLeaves, (List.perm_insertionSort ..).mem_iff, List.mem_map]
  constructor
  · rintro ⟨⟨j, nd⟩, hmem, rfl⟩
    obtain ⟨hentry, hempty⟩ := List.mem_filter.mp hmem
    have hlookup : dag.nodes.lookup j = some nd := AList.mem_lookup_iff.mpr hentry
    refine ⟨AList.lookup_isSome.mp (hlookup ▸ rfl), ?_⟩
    rw [childs, hlookup]
    exact List.isEmpty_iff.mp hempty
  · rintro ⟨hnode, hchilds⟩
    obtain ⟨nd, hnd⟩ := Option.isSome_iff_exists.mp (AList.lookup_isSome.mpr hnode)
    rw [childs, hnd] at hchilds
    exact ⟨⟨id, nd⟩, List.mem_filter.mpr ⟨AList.mem_lookup_iff.mp hnd, List.isEmpty_iff.mpr hchilds⟩, rfl⟩

/-- **Sorting any graph.** Whatever operations made the graph, `toposort` lists the nodes from which no cycle is
reachable, and `getLeaves` the nodes without children. The headers are the nodes that are no child when no
target of a `Join` had children before. -/
theorem build_sorts (h : build calls = some dag) :
    (∀ order, order.Perm dag.nodes.keys → Sorts dag order) ∧
      (dag.getLeaves.Nodup ∧ ∀ id, id ∈ dag.getLeaves ↔ id ∈ dag.nodes ∧ dag.childs id = []) ∧
      (ChildlessTargets calls → Headed dag) :=
  ⟨fun _ horder ↦ (closed_of_build h).sorts horder, ⟨nodup_getLeaves dag, fun _ ↦ mem_getLeaves⟩,
    fun hchildless ↦ headed_of_build hchildless h⟩

/-- A node under a bind node of its own. -/
theorem build_sorts_bound :
    ∃ dag, build [.join 2 [0, 1] [1, 1], .bindXSp 2] = some dag ∧ Sorts dag dag.nodes.keys ∧ Headed dag := by
  have hbuild : (build [.join 2 [0, 1] [1, 1], .bindXSp 2]).isSome := by
    simp only [build, List.foldlM_cons, call, join, joinCluster, mergeSort_pair]
    decide +kernel
  obtain ⟨dag, hdag⟩ := Option.isSome_iff_exists.mp hbuild
  obtain ⟨hsorts, -, hheaded⟩ := build_sorts hdag
  refine ⟨dag, hdag, hsorts _ (.refl _), hheaded ?_⟩
  intro before p cs coefs rest dag₀ hsplit hbefore
  rcases before with _ | ⟨c, before⟩
  · rw [← Option.some.inj hbefore]
    rfl
  · rcases before with _ | ⟨c', before⟩ <;> simp at hsplit

/-- Joining a bind node, once: its children are no node's children any more, and no headers. -/
theorem not_headed_joined_bind : ∃ dag,
    build [.join 2 [0, 1] [1, 1], .join 3 [0, 1] [1, 1], .bindX [2, 3], .join 3000 [5] [1]] = some dag ∧
      0 ∈ dag.nodes ∧ (∀ p, 0 ∉ dag.childs p) ∧ 0 ∉ dag.getHeaders := by
  have hbuild : (build [.join 2 [0, 1] [1, 1], .join 3 [0, 1] [1, 1], .bindX [2, 3],
    .join 3000 [5] [1]]).any (fun dag ↦ decide (0 ∈ dag.nodes ∧ (∀ p ∈ dag.nodes.keys, 0 ∉ dag.childs p) ∧
      0 ∉ dag.getHeaders)) = true := by
    simp only [build, List.foldlM_cons, call, join, joinCluster, mergeSort_pair, List.mergeSort_singleton]
    decide +kernel
  obtain ⟨dag, hdag, hnodes⟩ := (Option.any_eq_true ..).mp hbuild
  obtain ⟨hnode, hnot, hheader⟩ := of_decide_eq_true hnodes
  refine ⟨dag, hdag, hnode, fun p hp ↦ ?_, hheader⟩
  by_cases hmem : p ∈ dag.nodes
  · exact hnot p hmem hp
  · rw [childs_of_notMem hmem] at hp
    exact List.not_mem_nil hp

end Orders

end ECDAG

end UniDedup.Storage
