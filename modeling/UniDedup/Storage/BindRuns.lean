import UniDedup.Storage.Binding

/-!
# Runs of bind operations

A graph is built by joins and then optimised by calls of `BindX`, `BindXSp`, `Opt0` and `Opt1`. Every node
made by a join keeps its value through all of them, as long as every bind puts together different nodes,
made by joins, that list their children alike. The asserts of `BindX` do not check this, and neither does
the way `Opt0` and `Opt1` find the targets: a cluster is the nodes whose lists of children have one length
and the same members.

## The invariant

`Kept` compares the graph with the one the run began with: bind nodes were put in, and nothing else has changed.
What any such run keeps is said once (`Stable`), by the four steps that `BindX`, `BindXSp`, `Opt0` and `Opt1` are
made of, so that a property of graphs has to be shown for these only.
-/

namespace UniDedup.Storage

namespace ECDAG

/-! ## The calls -/

/-- A call of `Join`. -/
structure JoinCall where
  pidx : ℕ
  cidx : List ℕ
  coefs : List GF256
deriving DecidableEq

def ofJoins (joins : List JoinCall) : ECDAG :=
  joins.foldl (fun dag j ↦ dag.join j.pidx j.cidx j.coefs) {}

/-- A call of a bind operation. -/
inductive BindCall
  | bindX (idxs : List ℕ)
  | bindXSp (idx : ℕ)
  | opt0
  /-- With the random numbers that `Opt1` draws. -/
  | opt1 (rand : ℕ → ℕ)

def BindCall.run : BindCall → ECDAG → Option ECDAG
  | .bindX idxs, dag => (dag.bindX idxs).map Prod.fst
  | .bindXSp idx, dag => (dag.bindXSp idx).map Prod.fst
  | .opt0, dag => dag.opt0
  | .opt1 rand, dag => dag.opt1 rand

/-- A run of calls; `none` where an assertion fails. -/
def runCalls (calls : List BindCall) (dag : ECDAG) : Option ECDAG := calls.foldlM (fun dag c ↦ c.run dag) dag

/-! ## The condition -/

/-- The nodes have rows of their own over one list of children, in this order. -/
def ListAlike (dag : ECDAG) (idxs : List ℕ) : Prop :=
  ∃ cs ≠ [], ∀ t ∈ idxs, ∃ co, dag.shape t = some (cs, AList.singleton t co)

/-- Binding these targets puts together different nodes that list their children alike. Nothing is bound
when there are fewer than two. -/
def Alike (dag : ECDAG) (idxs : List ℕ) : Prop := idxs.length ≤ 1 ∨ idxs.Nodup ∧ dag.ListAlike idxs

section Meets

variable (A : ECDAG → List ℕ → Prop)

/-- At every cluster that a loop of turns binds, the parents meet the condition. -/
def TurnsMeet (turn : ECDAG → ℕ → Option ECDAG) : List ℕ → ECDAG → Prop
  | [], _ => True
  | i :: is, dag =>
    (∀ c, dag.clusters[i]? = some c → c.opted = -1 → A dag c.parents) ∧
      ∀ dag', turn dag i = some dag' → TurnsMeet turn is dag'

/-- The targets of every bind of the call meet the condition. -/
def BindCall.Meets : BindCall → ECDAG → Prop
  | .bindX idxs, dag => A dag idxs
  | .bindXSp idx, dag => dag.ListAlike [idx]
  | .opt0, dag => TurnsMeet A opt0Turn (List.range dag.clusters.length) dag
  | .opt1 rand, dag => TurnsMeet A (opt1Turn rand) (List.range dag.clusters.length) dag

/-- Every call of the run meets the condition, in the state it finds. -/
def RunMeets : List BindCall → ECDAG → Prop
  | [], _ => True
  | c :: calls, dag => c.Meets A dag ∧ ∀ dag', c.run dag = some dag' → RunMeets calls dag'

end Meets

/-- Every bind of the run is of targets that are alike. -/
def RunSound (calls : List BindCall) (dag : ECDAG) : Prop := RunMeets Alike calls dag

/-! ## A turn -/

section Turns

variable {dag dag' : ECDAG} {i : ℕ}

theorem opt0Turn_cases (hrun : dag.opt0Turn i = some dag') :
    dag' = dag ∨ ∃ c dag₁ b, dag.clusters[i]? = some c ∧ c.opted = -1 ∧ dag.bindX c.parents = some (dag₁, b) ∧
      dag' = dag₁.setOpt i 0 := by
  rw [opt0Turn] at hrun
  split at hrun
  · exact .inl (Option.some.inj hrun).symm
  next c hc =>
  split at hrun
  · next hopt =>
    obtain ⟨⟨dag₁, b⟩, h₁, hrun⟩ := Option.bind_eq_some_iff.mp hrun
    exact .inr ⟨c, dag₁, b, hc, hopt, h₁, (Option.some.inj hrun).symm⟩
  · exact .inl (Option.some.inj hrun).symm

/-- `Opt1` puts a target, or the bind node of several, beside a child, when there is a child to put it. -/
theorem opt1Turn_cases {rand : ℕ → ℕ} (hrun : dag.opt1Turn rand i = some dag') :
    dag' = dag ∨ dag' = dag.setOpt i 1 ∨ (∃ p c dag₁, dag.bindY p c = some dag₁ ∧ dag' = dag₁.setOpt i 1) ∨
      ∃ c dag₁ b p q dag₂, dag.clusters[i]? = some c ∧ c.opted = -1 ∧ dag.bindX c.parents = some (dag₁, b) ∧
        dag₁.bindY p q = some dag₂ ∧ dag' = dag₂.setOpt i 1 := by
  rw [opt1Turn] at hrun
  split at hrun
  · exact .inl (Option.some.inj hrun).symm
  next c hc =>
  split at hrun
  · next hopt =>
    obtain ⟨child, -, hrun⟩ := Option.bind_eq_some_iff.mp hrun
    dsimp only at hrun
    split at hrun
    · exact .inr (.inl (Option.some.inj hrun).symm)
    · obtain ⟨dag₁, h₁, hrun⟩ := Option.bind_eq_some_iff.mp hrun
      exact .inr (.inr (.inl ⟨_, _, dag₁, h₁, (Option.some.inj hrun).symm⟩))
    · obtain ⟨⟨dag₁, b⟩, h₁, hrun⟩ := Option.bind_eq_some_iff.mp hrun
      obtain ⟨dag₂, h₂, hrun⟩ := Option.bind_eq_some_iff.mp hrun
      rw [bindYOf] at h₂
      split at h₂
      · exact absurd h₂.symm (Option.some_ne_none _)
      · exact .inr (.inr (.inr ⟨c, dag₁, b, _, _, dag₂, hc, hopt, h₁, h₂, (Option.some.inj hrun).symm⟩))
  · exact .inl (Option.some.inj hrun).symm

end Turns

/-! ## What a whole run keeps -/

/-- The steps of a run keep a property, when the targets they bind meet the condition. -/
structure Stable (A : ECDAG → List ℕ → Prop) (I : ECDAG → Prop) : Prop where
  bindX : ∀ {dag dag' : ECDAG} {idxs : List ℕ} {b : ℤ}, I dag → A dag idxs →
    dag.bindX idxs = some (dag', b) → I dag'
  bindXSp : ∀ {dag dag' : ECDAG} {idx : ℕ} {b : ℤ}, I dag → dag.ListAlike [idx] →
    dag.bindXSp idx = some (dag', b) → I dag'
  bindY : ∀ {dag dag' : ECDAG} {p c : ℕ}, I dag → dag.bindY p c = some dag' → I dag'
  setOpt : ∀ {dag : ECDAG} (i : ℕ) (opt : ℤ), I dag → I (dag.setOpt i opt)

section Stable

variable {A : ECDAG → List ℕ → Prop} {I : ECDAG → Prop} {dag dag' : ECDAG} {b : ℤ}

theorem Stable.turns {turn : ECDAG → ℕ → Option ECDAG}
    (hturn : ∀ dag dag' i, I dag → (∀ c, dag.clusters[i]? = some c → c.opted = -1 → A dag c.parents) →
      turn dag i = some dag' → I dag')
    (is : List ℕ) (h : I dag) (hmeets : TurnsMeet A turn is dag) (hrun : is.foldlM turn dag = some dag') :
    I dag' := by
  induction is generalizing dag with
  | nil =>
    rw [← Option.some.inj hrun]
    exact h
  | cons i is ih =>
    rw [List.foldlM_cons, Option.bind_eq_bind] at hrun
    obtain ⟨dag₁, h₁, hrun⟩ := Option.bind_eq_some_iff.mp hrun
    exact ih (hturn dag dag₁ i h hmeets.1 h₁) (hmeets.2 dag₁ h₁) hrun

theorem Stable.opt0Turn (hI : Stable A I) (h : I dag) {i : ℕ}
    (hmeets : ∀ c, dag.clusters[i]? = some c → c.opted = -1 → A dag c.parents)
    (hrun : dag.opt0Turn i = some dag') : I dag' := by
  obtain rfl | ⟨c, dag₁, b₁, hc, hopt, h₁, rfl⟩ := opt0Turn_cases hrun
  · exact h
  · exact hI.setOpt i 0 (hI.bindX h (hmeets c hc hopt) h₁)

theorem Stable.opt1Turn (hI : Stable A I) (h : I dag) {rand : ℕ → ℕ} {i : ℕ}
    (hmeets : ∀ c, dag.clusters[i]? = some c → c.opted = -1 → A dag c.parents)
    (hrun : dag.opt1Turn rand i = some dag') : I dag' := by
  obtain rfl | rfl | ⟨p, q, dag₁, h₁, rfl⟩ | ⟨c, dag₁, b₁, p, q, dag₂, hc, hopt, h₁, h₂, rfl⟩ := opt1Turn_cases hrun
  · exact h
  · exact hI.setOpt i 1 h
  · exact hI.setOpt i 1 (hI.bindY h h₁)
  · exact hI.setOpt i 1 (hI.bindY (hI.bindX h (hmeets c hc hopt) h₁) h₂)

theorem Stable.call (hI : Stable A I) (h : I dag) {c : BindCall} (hmeets : c.Meets A dag)
    (hrun : c.run dag = some dag') : I dag' := by
  cases c with
  | bindX idxs =>
    obtain ⟨⟨dag₁, b₁⟩, h₁, rfl⟩ := Option.map_eq_some_iff.mp hrun
    exact hI.bindX h hmeets h₁
  | bindXSp idx =>
    obtain ⟨⟨dag₁, b₁⟩, h₁, rfl⟩ := Option.map_eq_some_iff.mp hrun
    exact hI.bindXSp h hmeets h₁
  | opt0 => exact Stable.turns (fun _ _ _ h hmeets hturn ↦ hI.opt0Turn h hmeets hturn) _ h hmeets hrun
  | opt1 rand => exact Stable.turns (fun _ _ _ h hmeets hturn ↦ hI.opt1Turn h hmeets hturn) _ h hmeets hrun

/-- **A run keeps what its steps keep.** -/
theorem Stable.run (hI : Stable A I) (h : I dag) {calls : List BindCall} (hmeets : RunMeets A calls dag)
    (hrun : runCalls calls dag = some dag') : I dag' := by
  induction calls generalizing dag with
  | nil =>
    rw [← Option.some.inj hrun]
    exact h
  | cons c calls ih =>
    rw [runCalls, List.foldlM_cons, Option.bind_eq_bind] at hrun
    obtain ⟨dag₁, h₁, hrun⟩ := Option.bind_eq_some_iff.mp hrun
    exact ih (hI.call h hmeets.1 h₁) (hmeets.2 dag₁ h₁) hrun

end Stable

/-! ## Graphs built by joins -/

/-- What joins build: leaves and nodes with a row of their own, whose children are there, and clusters of
nodes that are there. -/
structure Joined (dag : ECDAG) : Prop where
  node : ∀ id sh, dag.shape id = some sh → sh = ([], ∅) ∨ ∃ co, sh.2 = AList.singleton id co
  closed : ∀ id sh, dag.shape id = some sh → ∀ c ∈ sh.1, c ∈ dag.nodes
  cluster : ∀ cl ∈ dag.clusters, ∀ c ∈ cl.childs, c ∈ dag.nodes

theorem mem_nodes_iff {dag : ECDAG} {id : ℕ} : id ∈ dag.nodes ↔ ∃ sh, dag.shape id = some sh := by
  rw [← not_iff_not, ← shape_eq_none, not_exists, Option.eq_none_iff_forall_ne_some]

theorem clusters_joinChild (dag : ECDAG) (c : ℕ) : (dag.joinChild c).clusters = dag.clusters :=
  clusters_foldl (fun _ _ ↦ clusters_modify ..) _ _

theorem mem_nodes_join {dag : ECDAG} {p : ℕ} {cs : List ℕ} {coefs : List GF256} {id : ℕ} :
    id ∈ (dag.join p cs coefs).nodes ↔ id = p ∨ id ∈ cs ∨ id ∈ dag.nodes := by
  rw [mem_nodes_iff, mem_nodes_iff, shape_join]
  by_cases hp : id = p
  · simp [hp]
  · by_cases hc : id ∈ cs <;> cases hs : dag.shape id <;> simp [hp, hc]

/-- The clusters of a graph after a `Join` are the ones before and the children of the `Join`. -/
theorem childs_join {dag : ECDAG} {p : ℕ} {cs : List ℕ} {coefs : List GF256} {cl : Cluster}
    (hcl : cl ∈ (dag.join p cs coefs).clusters) {c : ℕ} (hc : c ∈ cl.childs) :
    c ∈ cs ∨ ∃ cl' ∈ dag.clusters, c ∈ cl'.childs := by
  have hclusters : ((cs.foldl joinChild dag).joinRoot p cs coefs).clusters = dag.clusters := by
    rw [joinRoot]
    split <;> exact clusters_foldl clusters_joinChild _ _
  rw [ECDAG.join, joinCluster] at hcl
  split at hcl
  · rcases List.mem_append.mp hcl with hcl | hcl
    · rw [hclusters] at hcl
      exact .inr ⟨cl, hcl, hc⟩
    · rw [List.mem_singleton.mp hcl] at hc
      exact .inl (List.mem_mergeSort.mp hc)
  · obtain ⟨i, hi, rfl⟩ := List.mem_iff_getElem.mp hcl
    simp only [List.getElem_modify, hclusters] at hc
    have hlt : i < dag.clusters.length := by simpa [hclusters] using hi
    refine .inr ⟨dag.clusters[i], List.getElem_mem hlt, ?_⟩
    split at hc <;> exact hc

theorem Joined.join {dag : ECDAG} (h : Joined dag) (p : ℕ) (cs : List ℕ) (coefs : List GF256) :
    Joined (dag.join p cs coefs) := by
  constructor
  · intro id sh hsh
    rw [shape_join] at hsh
    split at hsh
    · next hid =>
      rw [← Option.some.inj hsh, hid]
      exact .inr ⟨coefs, rfl⟩
    · split at hsh
      · exact .inl (Option.some.inj hsh).symm
      · exact h.node id sh hsh
  · intro id sh hsh c hc
    rw [mem_nodes_join]
    rw [shape_join] at hsh
    split at hsh
    · rw [← Option.some.inj hsh] at hc
      exact .inr (.inl hc)
    · split at hsh
      · rw [← Option.some.inj hsh] at hc
        exact absurd hc List.not_mem_nil
      · exact .inr (.inr (h.closed id sh hsh c hc))
  · intro cl hcl c hc
    rw [mem_nodes_join]
    rcases childs_join hcl hc with hc | ⟨cl', hcl', hc⟩
    · exact .inr (.inl hc)
    · exact .inr (.inr (h.cluster cl' hcl' c hc))

theorem joined_ofJoins (joins : List JoinCall) : Joined (ofJoins joins) := by
  rw [ofJoins]
  induction joins using List.reverseRecOn with
  | nil =>
    refine ⟨fun id sh hsh ↦ ?_, fun id sh hsh ↦ ?_, fun cl hcl ↦ absurd hcl List.not_mem_nil⟩
    · exact absurd hsh.symm (Option.some_ne_none sh)
    · exact absurd hsh.symm (Option.some_ne_none sh)
  | append_singleton joins j ih =>
    rw [List.foldl_append]
    exact ih.join j.pidx j.cidx j.coefs

/-! ## What a run keeps -/

/-- The graph `dag` is `dag₀` with bind nodes put in. -/
structure Kept (dag₀ dag : ECDAG) : Prop where
  values : ∀ id env v, Evaluates dag₀.shape env id v → Evaluates dag.shape env id v
  leaves : ∀ id, IsLeaf dag.shape id ↔ IsLeaf dag₀.shape id
  acyclic : Acyclic dag.shape
  frame : dag.frame = dag₀.frame
  /-- The nodes that were there are no bind nodes. -/
  node : ∀ id ∈ dag₀.nodes, ∃ sh, dag.shape id = some sh ∧ sh.2.keys.length ≤ 1
  closed : ∀ id sh, dag.shape id = some sh → ∀ c ∈ sh.1, c ∈ dag.nodes

section Kept

variable {dag₀ dag dag' : ECDAG} {b : ℤ} {idxs : List ℕ}

theorem Joined.kept (h : Joined dag) (hacyclic : Acyclic dag.shape) : Kept dag dag where
  values _ _ _ hval := hval
  leaves _ := Iff.rfl
  acyclic := hacyclic
  frame := rfl
  node id hid := by
    obtain ⟨sh, hsh⟩ := mem_nodes_iff.mp hid
    refine ⟨sh, hsh, ?_⟩
    rcases h.node id sh hsh with rfl | ⟨co, hco⟩
    · exact Nat.zero_le 1
    · rw [hco]
      exact le_refl 1
  closed := h.closed

theorem Kept.congr (h : Kept dag₀ dag) (hshape : dag'.shape = dag.shape) (hframe : dag'.frame = dag.frame) :
    Kept dag₀ dag' where
  values := hshape ▸ h.values
  leaves := hshape ▸ h.leaves
  acyclic := hshape ▸ h.acyclic
  frame := hframe.trans h.frame
  node := hshape ▸ h.node
  closed id sh hsh c hc := by
    rw [hshape] at hsh
    rw [mem_nodes_iff, hshape, ← mem_nodes_iff]
    exact h.closed id sh hsh c hc

theorem Kept.rebound (h : Kept dag₀ dag) {bid : ℕ} {cs : List ℕ} {co : ℕ → List GF256} {M : CoefMap}
    (hreb : Rebound dag.shape dag'.shape bid idxs cs co M) (hframe : dag'.frame = dag.frame) :
    Kept dag₀ dag' where
  values id env v hval := hreb.evaluates (h.values id env v hval)
  leaves id := by
    by_cases hid : dag.shape id = none
    · rw [← h.leaves]
      constructor
      · rintro ⟨M', hM'⟩
        -- a leaf that was not there would be the bind node
        rw [hreb.shape] at hM'
        split at hM'
        · exact absurd (congrArg Prod.fst (Option.some.inj hM')) (List.cons_ne_nil _ [])
        · split at hM'
          · exact absurd (congrArg Prod.fst (Option.some.inj hM')) hreb.nonempty
          · exact ⟨M', hM'⟩
      · rintro ⟨M', hM'⟩
        rw [hid] at hM'
        exact absurd hM'.symm (Option.some_ne_none _)
    · rw [hreb.isLeaf_iff hid, h.leaves]
  acyclic := hreb.acyclic h.acyclic
  frame := hframe.trans h.frame
  node id hid := by
    obtain ⟨sh, hsh, hkeys⟩ := h.node id hid
    by_cases hmem : id ∈ idxs
    · exact ⟨_, (hreb.shape id).trans (if_pos hmem), le_refl 1⟩
    · refine ⟨sh, ?_, hkeys⟩
      rw [hreb.shape_of_notMem hmem, hsh]
      rintro rfl
      rw [hreb.free] at hsh
      exact Option.some_ne_none sh hsh.symm
  closed id sh hsh c hc := by
    have hmono : ∀ j, dag.shape j ≠ none → dag'.shape j ≠ none := by
      intro j hj
      rw [hreb.shape]
      split
      · exact Option.some_ne_none _
      · split
        · exact Option.some_ne_none _
        · exact hj
    have hmem : ∀ j, j ∈ dag.nodes → j ∈ dag'.nodes := by
      intro j hj
      by_contra hnot
      exact hmono j (fun hnone ↦ shape_eq_none.mp hnone hj) (shape_eq_none.mpr hnot)
    rw [hreb.shape] at hsh
    split at hsh
    · rw [← Option.some.inj hsh, List.mem_singleton] at hc
      rw [hc, mem_nodes_iff]
      exact ⟨_, hreb.shape_bind⟩
    · split at hsh
      · rw [← Option.some.inj hsh] at hc
        obtain ⟨t, ht⟩ := List.exists_mem_of_ne_nil idxs hreb.ne_nil
        exact hmem c (h.closed t _ (hreb.target t ht) c hc)
      · exact hmem c (h.closed id sh hsh c hc)

/-- The children of a cluster are no bind nodes, so targets over them can be bound. -/
theorem Kept.bindable (h₀ : Joined dag₀) (h : Kept dag₀ dag) {cs : List ℕ} (hfree : dag.bindId ∉ dag.nodes)
    (hne : cs ≠ []) (hcluster : (dag.findCluster cs).isSome) : dag.Bindable cs where
  free := hfree
  notChild id sh hsh hmem := hfree (h.closed id sh hsh _ hmem)
  nonempty := hne
  plain := by
    rcases hcs : cs with _ | ⟨c, _ | ⟨d, rest⟩⟩
    · rfl
    · obtain ⟨cl, hcl, hin⟩ := findCluster_isSome.mp hcluster
      have hmem : c ∈ cl.childs := by
        rw [hcs, Cluster.childsInCluster] at hin
        simpa using (Bool.and_eq_true_iff.mp hin).2
      obtain ⟨cl₀, hcl₀, heq⟩ : ∃ cl₀ ∈ dag₀.clusters, (cl₀.childs, cl₀.parents) = (cl.childs, cl.parents) := by
        refine List.mem_map.mp ?_
        rw [← show dag.clusters.map _ = dag₀.clusters.map _ from congrArg Prod.snd h.frame]
        exact List.mem_map_of_mem hcl
      have hc₀ : c ∈ dag₀.nodes := h₀.cluster cl₀ hcl₀ c (by rw [(Prod.mk.inj heq).1]; exact hmem)
      obtain ⟨sh, hsh, hkeys⟩ := h.node c hc₀
      rw [bindOf, hsh, Option.filter_some, if_neg (by simpa using hkeys)]
    · rfl
  cluster := hcluster

theorem Kept.bindX (h₀ : Joined dag₀) (h : Kept dag₀ dag) (halike : dag.Alike idxs)
    (hrun : dag.bindX idxs = some (dag', b)) : Kept dag₀ dag' := by
  rcases bindX_asserts hrun with ⟨-, rfl⟩ | ⟨hfree, hframe, i, j, is, rfl, cs, M, hi, hcluster⟩
  · exact h
  obtain ⟨hnodup, cs', hne, hlist⟩ := halike.resolve_left (by simp)
  choose! co hco using hlist
  have hcs : cs = cs' := by
    rw [hco i List.mem_cons_self] at hi
    exact (congrArg Prod.fst (Option.some.inj hi)).symm
  rw [hcs] at hcluster
  obtain ⟨dag'', hbind, -, hframe', hreb⟩ :=
    (h.bindable h₀ hfree hne hcluster).bindX hnodup (by simp) hco
  rw [hrun] at hbind
  rw [(Prod.mk.inj (Option.some.inj hbind)).1]
  exact h.rebound hreb hframe'

theorem Kept.bindXSp (h₀ : Joined dag₀) (h : Kept dag₀ dag) {idx : ℕ} (halike : dag.ListAlike [idx])
    (hrun : dag.bindXSp idx = some (dag', b)) : Kept dag₀ dag' := by
  obtain ⟨hfree, -, cs, M, hidx, hne, hcluster⟩ := bindXSp_asserts hrun
  obtain ⟨cs', -, hlist⟩ := halike
  obtain ⟨co, hco⟩ := hlist idx (List.mem_singleton_self idx)
  have hcs : cs = cs' := by
    rw [hco] at hidx
    exact (congrArg Prod.fst (Option.some.inj hidx)).symm
  rw [hcs] at hcluster hne
  obtain ⟨dag'', hbind, -, hframe, hreb⟩ := (h.bindable h₀ hfree hne hcluster).bindXSp hco
  rw [hrun] at hbind
  rw [(Prod.mk.inj (Option.some.inj hbind)).1]
  exact h.rebound hreb hframe

theorem Kept.bindY (h : Kept dag₀ dag) {p c : ℕ} (hrun : dag.bindY p c = some dag') : Kept dag₀ dag' := by
  have hkeep : ∀ id, (dag.modify p (·.setConstraint id)).shape = dag.shape :=
    fun id ↦ shape_modify fun _ ↦ ⟨rfl, rfl⟩
  obtain ⟨toaddNode, -, hrun⟩ := Option.bind_eq_some_iff.mp hrun
  obtain ⟨consNode, -, hrun⟩ := Option.bind_eq_some_iff.mp hrun
  cases hcons : consNode.consId with
  | some id =>
    rw [hcons] at hrun
    rw [← Option.some.inj hrun]
    exact h.congr (hkeep id) (frame_modify ..)
  | none =>
    rw [hcons] at hrun
    obtain ⟨i, -, hrun⟩ := Option.bind_eq_some_iff.mp hrun
    rw [← Option.some.inj hrun]
    exact h.congr (hkeep c) ((frame_setOpt _ i 1).trans (frame_modify ..))

theorem Kept.stable (h₀ : Joined dag₀) : Stable Alike (Kept dag₀) where
  bindX h halike hrun := h.bindX h₀ halike hrun
  bindXSp h halike hrun := h.bindXSp h₀ halike hrun
  bindY h hrun := h.bindY hrun
  setOpt _ _ h := h.congr rfl (frame_setOpt ..)

end Kept

theorem acyclic_ofJoins {joins : List JoinCall} (h : ∀ j ∈ joins, ∀ c ∈ j.cidx, c < j.pidx) :
    Acyclic (ofJoins joins).shape := by
  refine ⟨id, ?_⟩
  rw [ofJoins]
  induction joins using List.reverseRecOn with
  | nil => exact fun id sh hsh ↦ absurd hsh.symm (Option.some_ne_none sh)
  | append_singleton joins j ih =>
    intro id sh hsh c hc
    rw [List.foldl_append, List.foldl_cons, List.foldl_nil, shape_join] at hsh
    split at hsh
    · next hid =>
      rw [← Option.some.inj hsh] at hc
      rw [hid]
      exact h j (by simp) c hc
    · split at hsh
      · rw [← Option.some.inj hsh] at hc
        exact absurd hc List.not_mem_nil
      · exact ih (fun j' hj' ↦ h j' (List.mem_append_left _ hj')) id sh hsh c hc

/-! ## Values -/

theorem exists_forall₂ {S : ℕ → Option Shape} {env : ℕ → GF256} {cs : List ℕ}
    (h : ∀ c ∈ cs, ∃ v, Evaluates S env c v) : ∃ vs, List.Forall₂ (Evaluates S env) cs vs := by
  choose! v hv using h
  exact ⟨cs.map v, List.forall₂_map_right_iff.mpr (List.forall₂_same.mpr hv)⟩

/-- **In an acyclic graph built by joins every node has a value.** -/
theorem Joined.exists_evaluates {dag : ECDAG} (h : Joined dag) (hacyclic : Acyclic dag.shape)
    (env : ℕ → GF256) {id : ℕ} (hid : id ∈ dag.nodes) : ∃ v, Evaluates dag.shape env id v := by
  obtain ⟨rank, hrank⟩ := hacyclic
  induction hr : rank id using Nat.strong_induction_on generalizing id with
  | _ r ih =>
    subst hr
    obtain ⟨sh, hsh⟩ := mem_nodes_iff.mp hid
    obtain ⟨vs, hvs⟩ := exists_forall₂ fun c hc ↦ ih _ (hrank id sh hsh c hc) (h.closed id sh hsh c hc) rfl
    by_cases hnil : sh.1 = []
    · refine ⟨env id, evaluates_leaf (M := sh.2) ?_⟩
      rw [hsh, ← hnil]
    obtain ⟨co, hco⟩ := (h.node id sh hsh).resolve_left fun hleaf ↦ hnil (by rw [hleaf])
    -- a node made by a join holds one row, so it is no bind node
    have hbind : bindOf dag.shape sh.1 = none := by
      rcases hcs : sh.1 with _ | ⟨c, _ | ⟨d, rest⟩⟩
      · rfl
      · rw [bindOf, Option.filter_eq_none_iff]
        intro sh' hsh'
        rcases h.node c sh' hsh' with rfl | ⟨co', hco'⟩
        · exact of_decide_eq_false rfl
        · rw [hco']
          exact of_decide_eq_false rfl
      · rfl
    have hrow : rowOf dag.shape id sh = some (sh.1, co) := by
      have hlookup : (AList.singleton id co : CoefMap).lookup id = some co := AList.lookup_insert ∅
      rw [rowOf, hbind, Option.getD_none, hco, hlookup]
      rfl
    exact ⟨dot co vs, evaluates_row hsh hnil hrow hvs⟩

/-- **Binding keeps the values, when it binds what is alike.** Every node that the joins made keeps its
value over the leaves, the graph stays acyclic, and its headers and its leaves stay the same. -/
theorem bind_preserves {joins : List JoinCall} (hacyclic : Acyclic (ofJoins joins).shape)
    {calls : List BindCall} (hsound : RunSound calls (ofJoins joins)) {dag : ECDAG}
    (hrun : runCalls calls (ofJoins joins) = some dag) :
    (∀ id ∈ (ofJoins joins).nodes, ∀ env, ∃ v, ∀ v',
      (Evaluates (ofJoins joins).shape env id v' ↔ v' = v) ∧ (Evaluates dag.shape env id v' ↔ v' = v)) ∧
    Acyclic dag.shape ∧ dag.headers = (ofJoins joins).headers ∧
      ∀ id, IsLeaf dag.shape id ↔ IsLeaf (ofJoins joins).shape id := by
  have hjoined := joined_ofJoins joins
  have hkept := (Kept.stable hjoined).run (hjoined.kept hacyclic) hsound hrun
  refine ⟨fun id hid env ↦ ?_, hkept.acyclic, congrArg Prod.fst hkept.frame, hkept.leaves⟩
  obtain ⟨v, hv⟩ := hjoined.exists_evaluates hacyclic env hid
  have hv' := hkept.values id env v hv
  refine ⟨v, fun v' ↦ ⟨⟨fun h ↦ h.unique hv, ?_⟩, ⟨fun h ↦ h.unique hv', ?_⟩⟩⟩
  · rintro rfl
    exact hv
  · rintro rfl
    exact hv'

/-! Two targets over the same two children, in the same order and in different orders. -/

/-- The coefficients `1` and `x`. -/
def sampleCoefs : List GF256 := [1, GF256.ofNat 2]

def alikeJoins : List JoinCall := [⟨2, [0, 1], sampleCoefs⟩, ⟨3, [0, 1], sampleCoefs⟩]

def permutedJoins : List JoinCall := [⟨2, [0, 1], sampleCoefs⟩, ⟨3, [1, 0], sampleCoefs⟩]

def sampleEnv (id : ℕ) : GF256 := if id = 0 then 1 else 0

theorem mergeSort_pair : [0, 1].mergeSort = [0, 1] := by simp [List.mergeSort]

theorem mergeSort_swapped_pair : [1, 0].mergeSort = [0, 1] := by simp [List.mergeSort]

/-- `Opt0` binds the two targets over the children in the order of the first, and the second target takes
its coefficients the wrong way round. -/
theorem opt0_permuted :
    ((permutedJoins.map JoinCall.pidx).Nodup ∧ (∀ j ∈ permutedJoins, j.coefs.length = j.cidx.length) ∧
      Acyclic (ofJoins permutedJoins).shape) ∧
    ∃ dag, runCalls [.opt0] (ofJoins permutedJoins) = some dag ∧
      Evaluates (ofJoins permutedJoins).shape sampleEnv 3 (GF256.ofNat 2) ∧
      ¬Evaluates dag.shape sampleEnv 3 (GF256.ofNat 2) := by
  refine ⟨⟨by decide, by decide, acyclic_ofJoins (by decide)⟩, ?_⟩
  have hbefore : value (ofJoins permutedJoins).shape sampleEnv 2 3 = some (GF256.ofNat 2) := by
    simp only [ofJoins, permutedJoins, List.foldl_cons, List.foldl_nil, join, joinCluster, mergeSort_pair,
      mergeSort_swapped_pair]
    decide +kernel
  have hafter : (runCalls [.opt0] (ofJoins permutedJoins)).map (fun dag ↦ value dag.shape sampleEnv 2 3) =
      some (some 1) := by
    simp only [ofJoins, permutedJoins, List.foldl_cons, List.foldl_nil, join, joinCluster, mergeSort_pair,
      mergeSort_swapped_pair]
    decide +kernel
  obtain ⟨dag, hrun, hval⟩ := Option.map_eq_some_iff.mp hafter
  refine ⟨dag, hrun, ⟨2, hbefore⟩, fun h ↦ ?_⟩
  exact absurd (h.unique ⟨2, hval⟩) (by decide)

theorem runSound_alikeJoins : RunSound [.opt0] (ofJoins alikeJoins) := by
  have hclusters : (ofJoins alikeJoins).clusters = [⟨[0, 1], [2, 3], -1⟩] := by
    simp only [ofJoins, alikeJoins, List.foldl_cons, List.foldl_nil, join, joinCluster, mergeSort_pair]
    rfl
  refine ⟨?_, fun _ _ ↦ trivial⟩
  rw [BindCall.Meets, hclusters]
  refine ⟨fun c hc _ ↦ ?_, fun _ _ ↦ trivial⟩
  rw [hclusters] at hc
  rw [← Option.some.inj hc]
  refine .inr ⟨by decide, [0, 1], by decide, fun t ht ↦ ⟨sampleCoefs, ?_⟩⟩
  simp only [ofJoins, alikeJoins, List.foldl_cons, List.foldl_nil, shape_join]
  rcases List.mem_pair.mp ht with rfl | rfl <;> rfl

theorem bind_preserves_sample :
    ∃ dag, runCalls [.opt0] (ofJoins alikeJoins) = some dag ∧
      (∀ id ∈ (ofJoins alikeJoins).nodes, ∀ env, ∃ v, ∀ v',
        (Evaluates (ofJoins alikeJoins).shape env id v' ↔ v' = v) ∧
          (Evaluates dag.shape env id v' ↔ v' = v)) ∧
      Acyclic dag.shape ∧ dag.headers = (ofJoins alikeJoins).headers ∧
        ∀ id, IsLeaf dag.shape id ↔ IsLeaf (ofJoins alikeJoins).shape id := by
  have hsome : (runCalls [.opt0] (ofJoins alikeJoins)).isSome := by
    simp only [ofJoins, alikeJoins, List.foldl_cons, List.foldl_nil, join, joinCluster, mergeSort_pair]
    decide +kernel
  obtain ⟨dag, hrun⟩ := Option.isSome_iff_exists.mp hsome
  exact ⟨dag, hrun, bind_preserves (acyclic_ofJoins (by decide)) runSound_alikeJoins hrun⟩

end ECDAG

end UniDedup.Storage
