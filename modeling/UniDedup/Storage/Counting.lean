import UniDedup.Storage.BindCounts

/-!
# Counting the parents

What the operations keep when they are called as the codes do: the parts the nodes play, the clusters that are not
optimised, which are targets with rows of their own over the same children, and the reference counts, which say how often
a node is a child.

## The invariants

* `Planned` says what a node is: a leaf, a target with a row of its own, a target bound to a bind node, or a bind
  node.
* `Clustered` says that a cluster that is not optimised yet has the targets of its children as parents.
* `Counted` says that a reference count is the number of parents, for which a bind node stands in for its targets.

They depend on each other in this order, so each of them is kept by its own lemmas, and no lemma about counts looks
into the code of an operation again.
-/

namespace UniDedup.Storage

namespace ECDAG

/-! ## The nodes -/

/-- The number was drawn for a bind node. -/
def Drawn (dag : ECDAG) (id : ℕ) : Prop := bindStart ≤ id ∧ id < dag.bindId

/-- The part a node plays. The rows are not said to fit the children. -/
inductive Part (S : ℕ → Option Shape) (id : ℕ) : Shape → Prop
  | leaf : Part S id ([], ∅)
  | own {cs : List ℕ} {co : List GF256} (hne : cs ≠ []) (hnodup : cs.Nodup) (hplain : ∀ c ∈ cs, Plain S c) :
      Part S id (cs, AList.singleton id co)
  | bound {b : ℕ} {cs : List ℕ} {M : CoefMap} (hb : S b = some (cs, M)) (hkeys : 1 < M.keys.length) (hid : id ∈ M) :
      Part S id ([b], AList.singleton id [1])
  | bind {cs : List ℕ} {M : CoefMap} (hne : cs ≠ []) (hkeys : 1 < M.keys.length) (hnodup : cs.Nodup)
      (hplain : ∀ c ∈ cs, Plain S c) (htarget : ∀ t ∈ M, t = id ∨ S t = some ([id], AList.singleton t [1])) :
      Part S id (cs, M)

/-- What holds of the nodes. -/
structure Planned (dag : ECDAG) : Prop where
  part : ∀ id sh, dag.shape id = some sh → Part dag.shape id sh
  closed : Closed dag
  drawn : ∀ id, ¬Plain dag.shape id → dag.Drawn id
  start_le : bindStart ≤ dag.bindId

section Planned

variable {dag dag' : ECDAG} {id p : ℕ} {cs idxs : List ℕ} {coefs : List GF256}

theorem Part.nodup {sh : Shape} (h : Part dag.shape id sh) : sh.1.Nodup := by
  cases h with
  | leaf => exact List.nodup_nil
  | own _ hnodup => exact hnodup
  | bound => exact List.nodup_singleton _
  | bind _ _ hnodup => exact hnodup

theorem Planned.nodup_childs (h : Planned dag) (id : ℕ) : (dag.childs id).Nodup := by
  rw [childs_eq]
  rcases hS : dag.shape id with _ | sh
  · exact List.nodup_nil
  · exact (h.part id sh hS).nodup

theorem Part.own_of_plain {sh : Shape} (h : Part dag.shape id sh) (hid : Plain dag.shape id) (hsh : dag.shape id = some sh)
    (hne : sh.1 ≠ []) (hplain : ∀ c ∈ sh.1, Plain dag.shape c) : ∃ co, sh.2 = AList.singleton id co := by
  cases h with
  | leaf => exact absurd rfl hne
  | own => exact ⟨_, rfl⟩
  | bound => exact ⟨_, rfl⟩
  | bind _ hkeys => exact absurd (hid _ hsh) (Nat.not_le.mpr hkeys)

theorem Planned.flat (h : Planned dag) : Flat dag.shape := by
  intro b sh hsh hb
  have hpart := h.part b sh hsh
  have hplain : sh.2.keys.length ≤ 1 → Plain dag.shape b := by
    intro hle sh' hsh'
    rw [hsh] at hsh'
    exact Option.some.inj hsh' ▸ hle
  cases hpart with
  | leaf => exact absurd (hplain (Nat.zero_le 1)) hb
  | own => exact absurd (hplain (le_refl 1)) hb
  | bound => exact absurd (hplain (le_refl 1)) hb
  | bind _ _ _ hplain' => exact bindOf_eq_none hplain'

theorem Planned.plain (h : Planned dag) (hid : ¬dag.Drawn id) : Plain dag.shape id := by
  by_contra hplain
  exact hid (h.drawn id hplain)

theorem Planned.leaf (h : Planned dag) (hp : dag.childs p = []) : dag.shape p = none ∨ dag.shape p = some ([], ∅) := by
  rcases hS : dag.shape p with _ | sh
  · exact .inl rfl
  · have hpart := h.part p sh hS
    rw [childs_eq, hS] at hp
    cases hpart with
    | leaf => exact .inr rfl
    | own hne => exact absurd hp hne
    | bound => exact absurd hp (List.cons_ne_nil _ _)
    | bind hne => exact absurd hp hne

theorem plain_of_leaf (hp : dag.shape p = none ∨ dag.shape p = some ([], ∅)) : Plain dag.shape p := by
  intro sh hsh
  rcases hp with hp | hp
  · exact absurd (hp.symm.trans hsh) nofun
  · rw [hp] at hsh
    rw [← Option.some.inj hsh]
    exact Nat.zero_le 1

theorem Planned.join (h : Planned dag) (hne : cs ≠ []) (hnodup : cs.Nodup) (hcs : ∀ c ∈ cs, Plain dag.shape c)
    (hp : dag.childs p = []) : Planned (dag.join p cs coefs) := by
  have hleaf := h.leaf hp
  have hroot : (dag.join p cs coefs).shape p = some (cs, AList.singleton p coefs) := by
    rw [shape_join, if_pos rfl]
  have hkeep : ∀ id sh, dag.shape id = some sh → sh.1 ≠ [] → (dag.join p cs coefs).shape id = some sh := by
    intro id sh hsh hne'
    have hid : id ≠ p := by
      rintro rfl
      rcases hleaf with hnone | hempty
      · exact absurd (hnone.symm.trans hsh) nofun
      · rw [hempty] at hsh
        exact hne' (by rw [← Option.some.inj hsh])
    rw [join_keep dag cs coefs hid (hsh ▸ Option.some_ne_none sh), hsh]
  refine ⟨fun id sh hsh ↦ ?_, h.closed.join, fun id hid ↦ ?_, by rw [bindId_join]; exact h.start_le⟩
  · by_cases hid : id = p
    · rw [hid, hroot] at hsh
      rw [hid, ← Option.some.inj hsh]
      exact .own hne hnodup fun c hc ↦ (hcs c hc).join
    rw [shape_join, if_neg hid] at hsh
    split at hsh
    · rw [← Option.some.inj hsh]
      exact .leaf
    have hpart := h.part id sh hsh
    cases hpart with
    | leaf => exact .leaf
    | own hne' hnodup' hplain => exact .own hne' hnodup' fun c hc ↦ (hplain c hc).join
    | bound hb hkeys hid' =>
      have hbpart := h.part _ _ hb
      refine .bound (hkeep _ _ hb ?_) hkeys hid'
      cases hbpart with
      | leaf => exact absurd hkeys (Nat.not_lt_zero 1)
      | own hne' => exact hne'
      | bound => exact List.cons_ne_nil _ _
      | bind hne' => exact hne'
    | bind hne' hkeys hnodup' hplain htarget =>
      exact .bind hne' hkeys hnodup' (fun c hc ↦ (hplain c hc).join) fun t ht ↦
        (htarget t ht).imp_right fun hS ↦ hkeep t _ hS (List.cons_ne_nil id [])
  · have hdrawn : dag.Drawn id := h.drawn id fun hplain ↦ hid hplain.join
    rwa [Drawn, bindId_join]

theorem Planned.binds (h : Planned dag) (hbinds : Binds dag dag' idxs cs) : Planned dag' := by
  obtain ⟨M, hgrouped⟩ := hbinds.grouped
  have hcs : cs.Nodup := by
    obtain ⟨t, ht⟩ := List.exists_mem_of_ne_nil idxs hgrouped.ne_nil
    obtain ⟨ch, co, hS, hperm⟩ := hgrouped.target t ht
    exact hperm.nodup_iff.mp (h.part t _ hS).nodup
  have hplain' : ∀ {id sh c}, dag.shape id = some sh → c ∈ sh.1 → Plain dag.shape c → Plain dag'.shape c := by
    intro id sh c hsh hc hplain
    exact (hgrouped.plain_iff fun hb ↦ hgrouped.notChild id sh hsh (hb ▸ hc)).mpr hplain
  refine ⟨fun id sh hsh ↦ ?_, h.closed.inserted hbinds.inserted, fun id hid ↦ ?_, ?_⟩
  · by_cases hidx : id ∈ idxs
    · rw [hgrouped.shape_target hidx] at hsh
      rw [← Option.some.inj hsh]
      exact .bound hgrouped.shape_bind hgrouped.many (hgrouped.row id hidx)
    by_cases hb : id = dag.bindId
    · rw [hb, hgrouped.shape_bind] at hsh
      rw [hb, ← Option.some.inj hsh]
      refine .bind hgrouped.nonempty hgrouped.many hcs (fun c hc ↦ ?_)
        fun t ht ↦ (hgrouped.key t ht).imp_right hgrouped.shape_target
      exact (hgrouped.plain_iff fun heq ↦ hgrouped.bind_notMem_children (heq ▸ hc)).mpr (hbinds.plain c hc)
    rw [hgrouped.shape_of_notMem hidx hb] at hsh
    have hpart := h.part id sh hsh
    cases hpart with
    | leaf => exact .leaf
    | own hne hnodup hplain => exact .own hne hnodup fun c hc ↦ hplain' hsh hc (hplain c hc)
    | bound hb' hkeys hid' => exact .bound (hgrouped.shape_of_many hb' hkeys) hkeys hid'
    | bind hne hkeys hnodup hplain htarget =>
      refine .bind hne hkeys hnodup (fun c hc ↦ hplain' hsh hc (hplain c hc)) fun t ht ↦ ?_
      refine (htarget t ht).imp_right fun hS ↦ (hgrouped.shape_of_notMem (fun hmem ↦ ?_) fun htb ↦ ?_).trans hS
      · -- a target is not bound before
        obtain ⟨ch, co, hS', hperm⟩ := hgrouped.target t hmem
        rw [hS] at hS'
        have hch : ch = [id] := (congrArg Prod.fst (Option.some.inj hS')).symm
        have hmem : id ∈ cs := hperm.mem_iff.mp (hch ▸ List.mem_singleton_self id)
        exact absurd (hbinds.plain id hmem _ hsh) (Nat.not_le.mpr hkeys)
      · rw [htb, hgrouped.free] at hS
        exact Option.some_ne_none _ hS.symm
  · have hdrawn : dag.bindId = id ∨ dag.Drawn id := by
      refine or_iff_not_imp_left.mpr fun hb ↦ h.drawn id fun hplain ↦ hid ?_
      exact (hgrouped.plain_iff (Ne.symm hb)).mpr hplain
    have := h.start_le
    rw [Drawn, hbinds.bindId]
    rcases hdrawn with rfl | ⟨hle, hlt⟩
    · omega
    · omega
  · have := h.start_le
    rw [hbinds.bindId]
    omega

end Planned

/-! ## The clusters -/

/-- What holds of the clusters: they have different children, and the ones that are not optimised are targets with rows
of their own over their children. -/
structure Clustered (dag : ECDAG) : Prop where
  childs : ∀ cl ∈ dag.clusters, cl.childs.Nodup ∧ ∀ c ∈ cl.childs, c ∈ dag.nodes ∧ Plain dag.shape c
  nonempty : ∀ cl ∈ dag.clusters, cl.childs ≠ []
  distinct : dag.clusters.Pairwise fun cl cl' ↦ ¬cl.childs.Perm cl'.childs
  parents : ∀ cl ∈ dag.clusters, cl.opted = -1 → cl.parents.Nodup ∧ ∀ p ∈ cl.parents, Own dag.shape p cl.childs

section Clustered

variable {dag dag' : ECDAG} {p i : ℕ} {cs idxs : List ℕ} {coefs : List GF256} {cl : Cluster}

theorem childsInCluster_iff (hcs : cs.Nodup) : cl.childsInCluster cs = true ↔ cs.Perm cl.childs := by
  rw [Cluster.childsInCluster, Bool.and_eq_true, beq_iff_eq, List.all_eq_true]
  constructor
  · rintro ⟨hlen, hall⟩
    exact (hcs.subperm fun c hc ↦ of_decide_eq_true (hall c hc)).perm_of_length_le hlen.ge
  · intro hperm
    exact ⟨hperm.length_eq, fun c hc ↦ decide_eq_true (hperm.mem_iff.mp hc)⟩

theorem exists_of_findCluster (hcs : cs.Nodup) (hi : dag.findCluster cs = some i) :
    ∃ cl, dag.clusters[i]? = some cl ∧ cs.Perm cl.childs := by
  obtain ⟨hlt, hin, -⟩ := List.findIdx?_eq_some_iff_getElem.mp hi
  refine ⟨dag.clusters[i], List.getElem?_eq_getElem hlt, ?_⟩
  exact (childsInCluster_iff hcs).mp hin

theorem clusters_join (dag : ECDAG) (p : ℕ) (cs : List ℕ) (coefs : List GF256) :
    (dag.join p cs coefs).clusters = match dag.findCluster cs with
      | none => dag.clusters ++ [⟨cs.mergeSort, [p], -1⟩]
      | some i => dag.clusters.modify i fun cl ↦ { cl with parents := cl.parents ++ [p] } := by
  have hclusters : ((cs.foldl joinChild dag).joinRoot p cs coefs).clusters = dag.clusters := by
    rw [joinRoot]
    split <;> exact clusters_foldl clusters_joinChild _ _
  have hfind : ((cs.foldl joinChild dag).joinRoot p cs coefs).findCluster cs.mergeSort = dag.findCluster cs := by
    rw [findCluster, findCluster, hclusters]
    exact congrArg (dag.clusters.findIdx? ·) (funext fun cl ↦ childsInCluster_mergeSort cl cs)
  rw [ECDAG.join, joinCluster, hfind, hclusters]
  cases dag.findCluster cs <;> rfl

theorem mem_modify {f : Cluster → Cluster} (h : cl ∈ dag.clusters.modify i f) :
    (∃ cl₀, dag.clusters[i]? = some cl₀ ∧ cl = f cl₀) ∨ ∃ l ≠ i, dag.clusters[l]? = some cl := by
  obtain ⟨l, hl, rfl⟩ := List.mem_iff_getElem.mp h
  have hlt : l < dag.clusters.length := by simpa using hl
  rw [List.getElem_modify]
  split_ifs with hil
  · subst hil
    exact .inl ⟨_, List.getElem?_eq_getElem hlt, rfl⟩
  · exact .inr ⟨l, Ne.symm hil, List.getElem?_eq_getElem hlt⟩

theorem distinct_modify {f : Cluster → Cluster} (hf : ∀ cl, (f cl).childs = cl.childs)
    (h : dag.clusters.Pairwise fun cl cl' ↦ ¬cl.childs.Perm cl'.childs) (i : ℕ) :
    (dag.clusters.modify i f).Pairwise fun cl cl' ↦ ¬cl.childs.Perm cl'.childs := by
  have hmap : (dag.clusters.modify i f).map Cluster.childs = dag.clusters.map Cluster.childs := by
    refine List.ext_getElem (by simp) fun j hj hj' ↦ ?_
    rw [List.getElem_map, List.getElem_map, List.getElem_modify]
    split_ifs
    · exact hf _
    · rfl
  rw [← List.pairwise_map (f := Cluster.childs) (R := fun cs cs' ↦ ¬cs.Perm cs')] at h ⊢
  rwa [hmap]

theorem Clustered.join (h : Clustered dag) (hne : cs ≠ []) (hcs : cs.Nodup) (hplain : ∀ c ∈ cs, Plain dag.shape c)
    (hp : dag.childs p = []) : Clustered (dag.join p cs coefs) := by
  have hchilds : ∀ cl ∈ dag.clusters, cl.childs.Nodup ∧
      ∀ c ∈ cl.childs, c ∈ (dag.join p cs coefs).nodes ∧ Plain (dag.join p cs coefs).shape c := by
    intro cl hcl
    obtain ⟨hnodup, hall⟩ := h.childs cl hcl
    exact ⟨hnodup, fun c hc ↦ ⟨mem_nodes_join.mpr (.inr (.inr (hall c hc).1)), (hall c hc).2.join⟩⟩
  -- The targets of a cluster that is not optimised have children, so they are not joined.
  have hparents : ∀ cl ∈ dag.clusters, cl.opted = -1 → cl.parents.Nodup ∧
      ∀ q ∈ cl.parents, q ≠ p ∧ Own (dag.join p cs coefs).shape q cl.childs := by
    intro cl hcl hopt
    obtain ⟨hnodup, hown⟩ := h.parents cl hcl hopt
    refine ⟨hnodup, fun q hq ↦ ?_⟩
    obtain ⟨ch, co, hS, hperm⟩ := hown q hq
    have hqp : q ≠ p := by
      rintro rfl
      rw [childs_of_shape hS] at hp
      rw [hp] at hperm
      exact h.nonempty cl hcl hperm.symm.eq_nil
    exact ⟨hqp, ch, co, by rw [join_keep dag cs coefs hqp (hS ▸ Option.some_ne_none _), hS], hperm⟩
  have hclusters := clusters_join dag p cs coefs
  rcases hfind : dag.findCluster cs with _ | i
  · simp only [hfind] at hclusters
    have hperm : cs.mergeSort.Perm cs := List.mergeSort_perm cs _
    have hnew : ∀ cl ∈ dag.clusters, ¬cl.childs.Perm cs := by
      intro cl hcl hperm
      rw [findCluster, List.findIdx?_eq_none_iff] at hfind
      exact Bool.false_ne_true ((hfind cl hcl).symm.trans ((childsInCluster_iff hcs).mpr hperm.symm))
    constructor
    · rw [hclusters]
      intro cl hcl
      rcases List.mem_append.mp hcl with hcl | hcl
      · exact hchilds cl hcl
      · rw [List.mem_singleton.mp hcl]
        refine ⟨hperm.nodup_iff.mpr hcs, fun c hc ↦ ?_⟩
        have hc := hperm.mem_iff.mp hc
        exact ⟨mem_nodes_join.mpr (.inr (.inl hc)), (hplain c hc).join⟩
    · rw [hclusters]
      intro cl hcl
      rcases List.mem_append.mp hcl with hcl | hcl
      · exact h.nonempty cl hcl
      · rw [List.mem_singleton.mp hcl]
        exact fun hnil ↦ hne (hperm.symm.trans (.of_eq hnil)).eq_nil
    · rw [hclusters, List.pairwise_append]
      refine ⟨h.distinct, List.pairwise_singleton .., fun cl hcl cl' hcl' ↦ ?_⟩
      rw [List.mem_singleton.mp hcl']
      exact fun hp ↦ hnew cl hcl (hp.trans hperm)
    · rw [hclusters]
      intro cl hcl hopt
      rcases List.mem_append.mp hcl with hcl | hcl
      · obtain ⟨hnodup, hall⟩ := hparents cl hcl hopt
        exact ⟨hnodup, fun q hq ↦ (hall q hq).2⟩
      · rw [List.mem_singleton.mp hcl]
        refine ⟨List.nodup_singleton p, fun q hq ↦ ?_⟩
        rw [List.mem_singleton.mp hq]
        exact ⟨cs, coefs, by rw [shape_join, if_pos rfl], hperm.symm⟩
  · simp only [hfind] at hclusters
    obtain ⟨cl₀, hcl₀, hperm⟩ := exists_of_findCluster hcs hfind
    have hmem₀ := List.mem_of_getElem? hcl₀
    constructor
    · rw [hclusters]
      intro cl hcl
      rcases mem_modify hcl with ⟨cl₁, hcl₁, rfl⟩ | ⟨l, -, hl⟩
      · exact hchilds cl₁ (List.mem_of_getElem? hcl₁)
      · exact hchilds cl (List.mem_of_getElem? hl)
    · rw [hclusters]
      intro cl hcl
      rcases mem_modify hcl with ⟨cl₁, hcl₁, rfl⟩ | ⟨l, -, hl⟩
      · exact h.nonempty cl₁ (List.mem_of_getElem? hcl₁)
      · exact h.nonempty cl (List.mem_of_getElem? hl)
    · rw [hclusters]
      exact distinct_modify (f := fun cl ↦ { cl with parents := cl.parents ++ [p] }) (fun _ ↦ rfl) h.distinct i
    · rw [hclusters]
      intro cl hcl hopt
      rcases mem_modify hcl with ⟨cl₁, hcl₁, rfl⟩ | ⟨l, -, hl⟩
      · obtain rfl : cl₁ = cl₀ := Option.some.inj (hcl₁.symm.trans hcl₀)
        obtain ⟨hnodup, hall⟩ := hparents cl₁ hmem₀ hopt
        refine ⟨List.nodup_append.mpr ⟨hnodup, List.nodup_singleton p, fun q hq r hr ↦ ?_⟩, fun q hq ↦ ?_⟩
        · rw [List.mem_singleton.mp hr]
          exact (hall q hq).1
        · rcases List.mem_append.mp hq with hq | hq
          · exact (hall q hq).2
          · rw [List.mem_singleton.mp hq]
            exact ⟨cs, coefs, by rw [shape_join, if_pos rfl], hperm⟩
      · obtain ⟨hnodup, hall⟩ := hparents cl (List.mem_of_getElem? hl) hopt
        exact ⟨hnodup, fun q hq ↦ (hall q hq).2⟩

theorem Clustered.eq_of_perm (h : Clustered dag) {l : ℕ} {cl' : Cluster} (hi : dag.clusters[i]? = some cl)
    (hl : dag.clusters[l]? = some cl') (hperm : cl.childs.Perm cl'.childs) : i = l := by
  obtain ⟨hilt, rfl⟩ := List.getElem?_eq_some_iff.mp hi
  obtain ⟨hllt, rfl⟩ := List.getElem?_eq_some_iff.mp hl
  have hdistinct := List.pairwise_iff_getElem.mp h.distinct
  by_contra hne
  rcases Nat.lt_or_gt_of_ne hne with hlt | hlt
  · exact hdistinct i l hilt hllt hlt hperm
  · exact hdistinct l i hllt hilt hlt hperm.symm

theorem Clustered.binds (h : Clustered dag) (hplanned : Planned dag) (hbinds : Binds dag dag' idxs cs) :
    Clustered dag' := by
  obtain ⟨M, hgrouped⟩ := hbinds.grouped
  obtain ⟨i, hi, hclusters⟩ := hbinds.clusters
  have hcs : cs.Nodup := by
    obtain ⟨t, -, rfl⟩ := hbinds.first
    exact hplanned.nodup_childs t
  obtain ⟨cl₀, hcl₀, hperm₀⟩ := exists_of_findCluster hcs hi
  have hfree := shape_eq_none.mp hgrouped.free
  have hkeep : ∀ cl ∈ dag.clusters, cl.childs.Nodup ∧ ∀ c ∈ cl.childs, c ∈ dag'.nodes ∧ Plain dag'.shape c := by
    intro cl hcl
    obtain ⟨hnodup, hall⟩ := h.childs cl hcl
    refine ⟨hnodup, fun c hc ↦ ⟨(hbinds.inserted.nodes c).mpr (.inr (hall c hc).1), ?_⟩⟩
    exact (hgrouped.plain_iff fun hb ↦ hfree (hb ▸ (hall c hc).1)).mpr (hall c hc).2
  constructor
  · rw [hclusters]
    intro cl hcl
    rcases mem_modify hcl with ⟨cl₁, hcl₁, rfl⟩ | ⟨l, -, hl⟩
    · exact hkeep cl₁ (List.mem_of_getElem? hcl₁)
    · exact hkeep cl (List.mem_of_getElem? hl)
  · rw [hclusters]
    intro cl hcl
    rcases mem_modify hcl with ⟨cl₁, hcl₁, rfl⟩ | ⟨l, -, hl⟩
    · exact h.nonempty cl₁ (List.mem_of_getElem? hcl₁)
    · exact h.nonempty cl (List.mem_of_getElem? hl)
  · rw [hclusters]
    exact distinct_modify (f := fun cl ↦ { cl with opted := 0 }) (fun _ ↦ rfl) h.distinct i
  · rw [hclusters]
    intro cl hcl hopt
    rcases mem_modify hcl with ⟨cl₁, hcl₁, rfl⟩ | ⟨l, hli, hl⟩
    · exact absurd (show (0 : ℤ) = -1 from hopt) (by decide)
    obtain ⟨hnodup, hown⟩ := h.parents cl (List.mem_of_getElem? hl) hopt
    refine ⟨hnodup, fun q hq ↦ ?_⟩
    obtain ⟨ch, co, hS, hperm⟩ := hown q hq
    have hqb : q ≠ dag.bindId := by
      rintro rfl
      exact Option.some_ne_none _ (hS.symm.trans hgrouped.free)
    have hqidxs : q ∉ idxs := by
      intro hidx
      obtain ⟨ch', co', hS', hperm'⟩ := hgrouped.target q hidx
      have hch : ch' = ch := congrArg Prod.fst (Option.some.inj (hS'.symm.trans hS))
      exact hli (h.eq_of_perm hl hcl₀ (hperm.symm.trans ((hch ▸ hperm').trans hperm₀)))
    exact ⟨ch, co, by rw [hgrouped.shape_of_notMem hqidxs hqb, hS], hperm⟩

end Clustered

/-! ## The counts -/

/-- Every node is counted as often as it is a child, by itself and by its bind node, and nothing else is counted. -/
structure Counted (dag : ECDAG) : Prop where
  refNum : ∀ k, Plain dag.shape k → ∀ j ∈ chain dag.shape k, dag.refNum j k = dag.reads k
  key : ∀ j k, dag.refFor j k ≠ none → Plain dag.shape k ∧ j ∈ chain dag.shape k

section Counted

variable {dag dag' : ECDAG} {k p : ℕ} {cs idxs : List ℕ} {coefs : List GF256}

theorem reads_eq_zero (hclosed : Closed dag) (hk : dag.shape k = none) : dag.reads k = 0 := by
  refine Finset.sum_eq_zero fun j _ ↦ List.count_eq_zero.mpr fun hmem ↦ ?_
  exact shape_eq_none.mp hk (hclosed j k hmem)

theorem self_mem_chain {S : ℕ → Option Shape} (hk : S k ≠ none) : k ∈ chain S k := mem_chain_iff.mpr ⟨hk, .inl rfl⟩

theorem Counted.self (h : Counted dag) (hclosed : Closed dag) (hk : Plain dag.shape k) : dag.refNum k k = dag.reads k := by
  rcases hS : dag.shape k with _ | sh
  · rw [ECDAG.refNum, refFor_eq_none hS, reads_eq_zero hclosed hS]
    rfl
  · exact h.refNum k hk k (self_mem_chain (hS ▸ Option.some_ne_none sh))

theorem Counted.allTied (h : Counted dag) (hclosed : Closed dag) : dag.AllTied := fun k hk j hj ↦ by
  rw [h.refNum k hk j hj, h.self hclosed hk]

theorem chain_join (coefs : List GF256) (hplanned : Planned dag) (hcs : ∀ c ∈ cs, Plain dag.shape c)
    (hp : dag.childs p = []) (k : ℕ) :
    chain (dag.join p cs coefs).shape k = if k = p then [p] else chain (leaves dag.shape cs) k := by
  have hroot : (dag.join p cs coefs).shape p = some (cs, AList.singleton p coefs) := by
    rw [shape_join, if_pos rfl]
  split_ifs with hk
  · rw [hk]
    exact chain_of_plain hroot fun c hc ↦ (hcs c hc).join
  have hS : (dag.join p cs coefs).shape k = leaves dag.shape cs k := by
    rw [shape_join, if_neg hk]
    rfl
  rcases hsh : leaves dag.shape cs k with _ | ⟨ds, M⟩
  · rw [chain, chain, hS, hsh]
  rw [hsh] at hS
  -- The target is no bind node, before and after.
  have hbind : ∀ c, Plain (dag.join p cs coefs).shape c ↔ Plain (leaves dag.shape cs) c := by
    intro c
    rw [plain_leaves_iff]
    refine ⟨fun hc sh hsh ↦ ?_, fun hc ↦ hc.join⟩
    by_cases hcp : c = p
    · exact plain_of_leaf (hplanned.leaf hp) sh (hcp ▸ hsh)
    · exact hc sh (by rw [join_keep dag cs coefs hcp (hsh ▸ Option.some_ne_none sh), hsh])
  by_cases hnone : bindOf (leaves dag.shape cs) ds = none
  · have hnone' : bindOf (dag.join p cs coefs).shape ds = none := by
      rw [← Option.not_isSome_iff_eq_none, bindOf_isSome_iff] at hnone ⊢
      simpa only [hbind] using hnone
    rw [chain_of_bindOf hS hnone', chain_of_bindOf hsh hnone]
  · obtain ⟨c, rfl, hc⟩ := bindOf_isSome_iff.mp (Option.isSome_iff_ne_none.mpr hnone)
    rw [chain_bound hS ((hbind c).not.mpr hc), chain_bound hsh hc]

theorem Counted.join (h : Counted dag) (hplanned : Planned dag) (hcs : ∀ c ∈ cs, Plain dag.shape c)
    (hp : dag.childs p = []) : Counted (dag.join p cs coefs) := by
  have hleaf := hplanned.leaf hp
  have hrefs := refFor_join hplanned.flat p cs coefs
  have hchain := chain_join coefs hplanned hcs hp
  have hplain : ∀ k, Plain (dag.join p cs coefs).shape k → Plain dag.shape k := by
    intro k hk sh hsh
    by_cases hkp : k = p
    · exact plain_of_leaf hleaf sh (hkp ▸ hsh)
    · exact hk sh (by rw [join_keep dag cs coefs hkp (hsh ▸ Option.some_ne_none sh), hsh])
  have hsub : ∀ j k, j ∈ chain dag.shape k → j ∈ chain (dag.join p cs coefs).shape k := by
    intro j k hj
    rw [hchain]
    have hsome : dag.shape k ≠ none := (mem_chain_iff.mp hj).1
    split_ifs with hkp
    · rw [hkp] at hj
      rw [chain_of_plain (hleaf.resolve_left (hkp ▸ hsome)) fun c hc ↦ absurd hc List.not_mem_nil] at hj
      exact hj
    · rwa [chain_leaves hsome]
  constructor
  · intro k hk j hj
    rw [reads_join hp]
    have hk' := hplain k hk
    -- What counts for the node has had one count so far.
    have hold : dag.refNum j k = dag.reads k := by
      rcases hS : dag.shape k with _ | sh
      · have hj : j = k := by
          rw [hchain] at hj
          split_ifs at hj with hkp
          · rw [hkp]
            exact List.mem_singleton.mp hj
          · by_cases hmem : k ∈ cs
            · rw [chain_leaf hS hmem] at hj
              exact List.mem_singleton.mp hj
            · have hnone : leaves dag.shape cs k = none := by rw [leaves, if_neg fun h ↦ hmem h.1, hS]
              rw [chain, hnone] at hj
              exact absurd hj List.not_mem_nil
        rw [hj]
        exact h.self hplanned.closed hk'
      · have hsome : dag.shape k ≠ none := hS ▸ Option.some_ne_none sh
        refine h.refNum k hk' j ?_
        rw [hchain] at hj
        split_ifs at hj with hkp
        · rw [List.mem_singleton.mp hj, hkp]
          exact self_mem_chain (hkp ▸ hsome)
        · rwa [chain_leaves hsome] at hj
    rw [ECDAG.refNum, hrefs]
    by_cases hmem : k ∈ cs
    · have hj' : j ∈ chain (leaves dag.shape cs) k := by
        rw [hchain] at hj
        split_ifs at hj with hkp
        · rw [List.mem_singleton.mp hj, hkp]
          refine self_mem_chain ?_
          rcases hleaf with hnone | hempty
          · rw [leaves_of_none hnone (hkp ▸ hmem)]
            exact Option.some_ne_none _
          · rw [leaves_of_ne_none (hempty ▸ Option.some_ne_none _), hempty]
            exact Option.some_ne_none _
        · exact hj
      rw [if_pos ⟨hmem, hj'⟩, Option.getD_some, hold, Nat.cast_add]
    · rw [if_neg fun hb ↦ hmem hb.1, ← ECDAG.refNum, hold, List.count_eq_zero.mpr hmem, Nat.add_zero]
  · intro j k hne
    rw [hrefs] at hne
    split_ifs at hne with hmem
    · refine ⟨(hcs k hmem.1).join, ?_⟩
      rw [hchain]
      split_ifs with hkp
      · have hleaf' : leaves dag.shape cs p = some ([], ∅) := by
          rcases hleaf with hnone | hempty
          · exact leaves_of_none hnone (hkp ▸ hmem.1)
          · rw [leaves_of_ne_none (hempty ▸ Option.some_ne_none _), hempty]
        have hj := hmem.2
        rwa [hkp, chain_of_plain hleaf' fun c hc ↦ absurd hc List.not_mem_nil] at hj
      · exact hmem.2
    · obtain ⟨hk, hj⟩ := h.key j k hne
      exact ⟨hk.join, hsub j k hj⟩

theorem Counted.binds (h : Counted dag) (hplanned : Planned dag) (hbinds : Binds dag dag' idxs cs) : Counted dag' := by
  obtain ⟨M, hgrouped⟩ := hbinds.grouped
  constructor
  · intro k hk j hj
    obtain ⟨hkb, hk'⟩ := hgrouped.plain_of_plain hk
    have hreads := hbinds.reads hkb
    rw [hbinds.refNum k hk' j hj, h.self hplanned.closed hk']
    have hcast : (dag'.reads k : ℤ) + idxs.length * cs.count k = dag.reads k + cs.count k := by exact_mod_cast hreads
    linarith
  · intro j k hne
    rcases hbinds.key j k hne with hne | hnew
    · obtain ⟨hk, hj⟩ := h.key j k hne
      have hkb : k ≠ dag.bindId := fun hkb ↦ (mem_chain_iff.mp hj).1 (hkb ▸ hgrouped.free)
      refine ⟨(hgrouped.plain_iff hkb).mpr hk, ?_⟩
      by_cases hidx : k ∈ idxs
      · rw [hgrouped.chain_of_target hbinds.plain hidx] at hj
        rw [hgrouped.chain_target hidx, List.mem_singleton.mp hj]
        exact List.mem_cons_self
      · rwa [hgrouped.chain_eq hidx hkb]
    · exact hnew

end Counted

end ECDAG

end UniDedup.Storage
