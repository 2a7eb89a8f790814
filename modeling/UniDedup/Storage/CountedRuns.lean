import UniDedup.Storage.Counting

/-!
# Runs that keep the counts

A code joins every target once, over different children, and binds what it joined. In whatever order it does so, `Opt0`
and `Opt1` bind what can be bound, and every node is counted as often as it is a child.

## The invariant

`Accounted` puts `Planned`, `Clustered` and `Counted` together, with the numbers joined so far. Each operation has
one step lemma, which asks of the call only what the codes do anyway (`DagCall.Fits`). `Proper.accounted` is then an
induction over the calls.
-/

namespace UniDedup.Storage

namespace ECDAG

/-! ## Marks -/

/-- Only the places of nodes and the level of one cluster change, and no cluster becomes one that is not optimised. -/
structure Marks (dag dag' : ECDAG) : Prop where
  shape : dag'.shape = dag.shape
  refFor : dag'.refFor = dag.refFor
  bindId : dag'.bindId = dag.bindId
  headers : dag'.headers = dag.headers
  clusters : dag'.clusters = dag.clusters ∨
    ∃ i opt, opt ≠ -1 ∧ dag'.clusters = dag.clusters.modify i fun cl ↦ { cl with opted := opt }

section Marks

variable {dag dag' : ECDAG} {p c : ℕ} {targets : List ℕ}

theorem marks_setOpt (dag : ECDAG) (i : ℕ) {opt : ℤ} (hopt : opt ≠ -1) : Marks dag (dag.setOpt i opt) :=
  ⟨rfl, rfl, rfl, rfl, .inr ⟨i, opt, hopt, rfl⟩⟩

theorem marks_bindY (h : dag.bindY p c = some dag') : Marks dag dag' := by
  have hmark : ∀ id, Marks dag (dag.modify p (·.setConstraint id)) := fun id ↦
    ⟨shape_modify fun _ ↦ ⟨rfl, rfl⟩, refFor_modify (f := (·.setConstraint id)) (fun _ ↦ rfl) dag p, bindId_modify ..,
      congrArg Prod.fst (frame_modify dag p _), .inl (clusters_modify ..)⟩
  obtain ⟨toaddNode, -, h⟩ := Option.bind_eq_some_iff.mp h
  obtain ⟨consNode, -, h⟩ := Option.bind_eq_some_iff.mp h
  cases hcons : consNode.consId with
  | some id =>
    rw [hcons] at h
    rw [← Option.some.inj h]
    exact hmark id
  | none =>
    rw [hcons] at h
    obtain ⟨i, -, h⟩ := Option.bind_eq_some_iff.mp h
    rw [← Option.some.inj h]
    have hc := hmark c
    refine ⟨hc.shape, hc.refFor, hc.bindId, hc.headers, .inr ⟨i, 1, by decide, ?_⟩⟩
    show (dag.modify p _).clusters.modify i _ = _
    rw [clusters_modify]

theorem Planned.marks (h : Planned dag) (hm : Marks dag dag') : Planned dag' where
  part := hm.shape ▸ h.part
  closed id c hc := by
    rw [childs_congr hm.shape] at hc
    exact (nodes_congr hm.shape c).mpr (h.closed id c hc)
  drawn id hid := by
    rw [hm.shape] at hid
    rw [Drawn, hm.bindId]
    exact h.drawn id hid
  start_le := hm.bindId ▸ h.start_le

theorem Clustered.marks (h : Clustered dag) (hm : Marks dag dag') : Clustered dag' := by
  obtain ⟨hchilds, hnonempty, hdistinct, hparents⟩ := h
  have hkeep : ∀ cl ∈ dag'.clusters, ∃ cl₀ ∈ dag.clusters, cl.childs = cl₀.childs ∧ cl.parents = cl₀.parents ∧
      (cl.opted = -1 → cl₀.opted = -1) := by
    rcases hm.clusters with heq | ⟨i, opt, hopt, heq⟩
    · exact heq ▸ fun cl hcl ↦ ⟨cl, hcl, rfl, rfl, fun h ↦ h⟩
    · rw [heq]
      intro cl hcl
      rcases mem_modify hcl with ⟨cl₁, hcl₁, rfl⟩ | ⟨l, -, hl⟩
      · exact ⟨cl₁, List.mem_of_getElem? hcl₁, rfl, rfl, fun h ↦ absurd h hopt⟩
      · exact ⟨cl, List.mem_of_getElem? hl, rfl, rfl, fun h ↦ h⟩
  constructor
  · intro cl hcl
    obtain ⟨cl₀, hcl₀, heq, -⟩ := hkeep cl hcl
    rw [heq, hm.shape]
    obtain ⟨hnodup, hall⟩ := hchilds cl₀ hcl₀
    exact ⟨hnodup, fun c hc ↦ ⟨(nodes_congr hm.shape c).mpr (hall c hc).1, (hall c hc).2⟩⟩
  · intro cl hcl
    obtain ⟨cl₀, hcl₀, heq, -⟩ := hkeep cl hcl
    exact heq ▸ hnonempty cl₀ hcl₀
  · rcases hm.clusters with heq | ⟨i, opt, -, heq⟩
    · exact heq ▸ hdistinct
    · rw [heq]
      exact distinct_modify (f := fun cl ↦ { cl with opted := opt }) (fun _ ↦ rfl) hdistinct i
  · intro cl hcl hopt
    obtain ⟨cl₀, hcl₀, hch, hpar, hopt'⟩ := hkeep cl hcl
    rw [hch, hpar, hm.shape]
    exact hparents cl₀ hcl₀ (hopt' hopt)

theorem reads_congr (h : dag'.shape = dag.shape) : dag'.reads = dag.reads := by
  funext k
  rw [reads_eq_sum (s := dag'.nodes.keys.toFinset) fun j hj ↦ List.mem_toFinset.mpr ((nodes_congr h j).mpr hj),
    ← childs_congr h]
  rfl

theorem Counted.marks (h : Counted dag) (hm : Marks dag dag') : Counted dag' := by
  have hreads := reads_congr hm.shape
  refine ⟨fun k hk j hj ↦ ?_, fun j k hne ↦ ?_⟩
  · rw [hm.shape] at hk hj
    rw [ECDAG.refNum, hm.refFor, ← ECDAG.refNum, hreads]
    exact h.refNum k hk j hj
  · rw [hm.refFor] at hne
    rw [hm.shape]
    exact h.key j k hne

end Marks

/-! ## Steps -/

/-- What holds of a graph whose joins had the given targets. -/
structure Accounted (dag : ECDAG) (targets : List ℕ) : Prop extends Planned dag, Clustered dag, Counted dag where
  headed : Headed dag
  joined : ∀ id, id ∈ targets ↔ Plain dag.shape id ∧ dag.childs id ≠ []

section Accounted

variable {dag dag' : ECDAG} {p i : ℕ} {cs idxs targets : List ℕ} {coefs : List GF256} {b : ℤ}

theorem Accounted.marks (h : Accounted dag targets) (hm : Marks dag dag') : Accounted dag' targets where
  toPlanned := h.toPlanned.marks hm
  toClustered := h.toClustered.marks hm
  toCounted := h.toCounted.marks hm
  headed := by
    obtain ⟨hnodup, hmem⟩ := h.headed
    rw [getHeaders] at hnodup
    simp only [getHeaders] at hmem
    refine ⟨by rwa [getHeaders, hm.headers], fun id ↦ ?_⟩
    rw [getHeaders, hm.headers, hmem, nodes_congr hm.shape, childs_congr hm.shape]
  joined := by
    rw [hm.shape, childs_congr hm.shape]
    exact h.joined

theorem Accounted.join (h : Accounted dag targets) (hne : cs ≠ []) (hnodup : cs.Nodup)
    (hcs : ∀ c ∈ cs, ¬dag.Drawn c) (hp : ¬dag.Drawn p) (hnew : p ∉ targets) :
    Accounted (dag.join p cs coefs) (targets ++ [p]) := by
  have hplain : ∀ c ∈ cs, Plain dag.shape c := fun c hc ↦ h.plain (hcs c hc)
  have hchilds : dag.childs p = [] := by
    by_contra hchilds
    exact hnew ((h.joined p).mpr ⟨h.plain hp, hchilds⟩)
  refine ⟨h.toPlanned.join hne hnodup hplain hchilds, h.toClustered.join hne hnodup hplain hchilds,
    h.toCounted.join h.toPlanned hplain hchilds, h.headed.join h.closed hchilds, fun id ↦ ?_⟩
  rw [childs_join_eq, List.mem_append, List.mem_singleton, h.joined]
  split_ifs with hidp
  · rw [hidp]
    exact iff_of_true (.inr rfl) ⟨(h.plain hp).join, hne⟩
  · rw [or_iff_left hidp]
    refine and_congr_left fun _ ↦ ⟨fun hid ↦ hid.join, fun hid sh hsh ↦ hid sh ?_⟩
    rw [join_keep dag cs coefs hidp (hsh ▸ Option.some_ne_none sh), hsh]

theorem Accounted.binds (h : Accounted dag targets) (hbinds : Binds dag dag' idxs cs) : Accounted dag' targets := by
  obtain ⟨M, hgrouped⟩ := hbinds.grouped
  refine ⟨h.toPlanned.binds hbinds, h.toClustered.binds h.toPlanned hbinds, h.toCounted.binds h.toPlanned hbinds,
    h.headed.inserted hbinds.inserted, fun id ↦ ?_⟩
  by_cases hidb : id = dag.bindId
  · refine iff_of_false (fun hid ↦ ((h.joined id).mp hid).2 ?_) fun hid ↦ (hgrouped.plain_of_plain hid.1).1 hidb
    rw [hidb]
    exact childs_of_notMem (shape_eq_none.mp hgrouped.free)
  rw [h.joined, hgrouped.plain_iff hidb, hbinds.inserted.childs, if_neg hidb]
  refine and_congr_right fun _ ↦ ?_
  split_ifs with hidx
  · obtain ⟨ch, co, hS, hperm⟩ := hgrouped.target id hidx
    rw [childs_of_shape hS]
    exact iff_of_true (fun hnil ↦ hgrouped.nonempty (hnil ▸ hperm).symm.eq_nil) (List.cons_ne_nil _ [])
  · rfl

/-- Nodes with the children of a cluster have rows of their own over them. -/
theorem Accounted.own (h : Accounted dag targets) {t : ℕ} (ht : Plain dag.shape t) (hfind : dag.findCluster cs = some i)
    (hcs : cs.Nodup) (hperm : (dag.childs t).Perm cs) : Own dag.shape t cs ∧ ∀ c ∈ cs, Plain dag.shape c := by
  obtain ⟨cl, hcl, hcl'⟩ := exists_of_findCluster hcs hfind
  have hmem := List.mem_of_getElem? hcl
  have hplain : ∀ c ∈ cs, Plain dag.shape c := fun c hc ↦ ((h.childs cl hmem).2 c (hcl'.mem_iff.mp hc)).2
  have hne : cs ≠ [] := fun hnil ↦ h.nonempty cl hmem (hnil ▸ hcl').symm.eq_nil
  refine ⟨?_, hplain⟩
  rcases hS : dag.shape t with _ | ⟨ch, M⟩
  · rw [childs_of_notMem (shape_eq_none.mp hS)] at hperm
    exact absurd hperm.symm.eq_nil hne
  rw [childs_of_shape hS] at hperm
  obtain ⟨co, rfl⟩ := (h.part t _ hS).own_of_plain ht hS (fun hnil ↦ hne (hperm.symm.trans (.of_eq hnil)).eq_nil)
    fun c hc ↦ hplain c (hperm.mem_iff.mp hc)
  exact ⟨ch, co, hS, hperm⟩

/-- `BindX` of targets of joins binds them, if there are two at least. -/
theorem Accounted.eq_or_binds (h : Accounted dag targets)
    (hidxs : 2 ≤ idxs.length → idxs.Nodup ∧ ∀ t ∈ idxs, Plain dag.shape t)
    (hrun : dag.bindX idxs = some (dag', b)) : dag' = dag ∨ ∃ cs, Binds dag dag' idxs cs := by
  rcases idxs with _ | ⟨i, _ | ⟨l, is⟩⟩
  · exact .inl (Prod.mk.inj (Option.some.inj hrun)).1.symm
  · exact .inl (Prod.mk.inj (Option.some.inj hrun)).1.symm
  obtain ⟨hnodup, hplain⟩ := hidxs (by simp)
  obtain ⟨-, first, c, hfirst, hsame, hc, -⟩ := bindX_inv hrun
  have hcs : dag.childs i = first.childNodes := childs_of_shape (shape_of_lookup hfirst)
  rw [← hcs] at hsame hc
  have hperm : ∀ t ∈ i :: l :: is, (dag.childs t).Perm (dag.childs i) := by
    intro t ht
    rcases List.mem_cons.mp ht with rfl | ht
    · exact .refl _
    rw [sameChilds, List.all_eq_true] at hsame
    have hnode := hsame t ht
    cases hnd : dag.nodes.lookup t with
    | none =>
      rw [hnd] at hnode
      exact absurd hnode Bool.false_ne_true
    | some nd =>
      rw [hnd] at hnode
      dsimp only at hnode
      have hchilds : dag.childs t = nd.childNodes := childs_of_shape (shape_of_lookup hnd)
      rw [← hchilds] at hnode
      simp only [Bool.and_eq_true, beq_iff_eq, List.all_eq_true, decide_eq_true_eq] at hnode
      exact ((h.nodup_childs t).subperm hnode.2).perm_of_length_le hnode.1.ge
  have hown := fun t ht ↦ h.own (hplain t ht) hc (h.nodup_childs i) (hperm t ht)
  refine .inr ⟨_, Groupable.bindX ⟨hnodup, ?_, fun t ht ↦ (hown t ht).1, (hown i List.mem_cons_self).2, h.closed, h.flat,
    h.allTied h.closed⟩ hrun⟩
  obtain ⟨cl, hcl, hcl'⟩ := exists_of_findCluster (h.nodup_childs i) hc
  exact fun hnil ↦ h.nonempty cl (List.mem_of_getElem? hcl) (hnil ▸ hcl').symm.eq_nil

/-- **`BindX` of targets of joins.** -/
theorem Accounted.bindX (h : Accounted dag targets)
    (hidxs : 2 ≤ idxs.length → idxs.Nodup ∧ ∀ t ∈ idxs, Plain dag.shape t)
    (hrun : dag.bindX idxs = some (dag', b)) : Accounted dag' targets := by
  obtain rfl | ⟨cs, hbinds⟩ := h.eq_or_binds hidxs hrun
  · exact h
  · exact h.binds hbinds

theorem Accounted.binds_bindXSp {idx : ℕ} (h : Accounted dag targets) (hidx : Plain dag.shape idx)
    (hrun : dag.bindXSp idx = some (dag', b)) : Binds dag dag' [idx] (dag.childs idx) := by
  obtain ⟨-, tbnode, c, htb, hne, hc, -⟩ := bindXSp_inv hrun
  have hcs : dag.childs idx = tbnode.childNodes := childs_of_shape (shape_of_lookup htb)
  rw [← hcs] at hne hc
  obtain ⟨hown, hplain⟩ := h.own hidx hc (h.nodup_childs idx) (.refl _)
  refine Groupable.bindXSp ⟨List.nodup_singleton idx, hne, fun t ht ↦ ?_, hplain, h.closed, h.flat,
    h.allTied h.closed⟩ hrun
  rw [List.mem_singleton.mp ht]
  exact hown

/-- **`BindXSp` of a target of a join.** -/
theorem Accounted.bindXSp {idx : ℕ} (h : Accounted dag targets) (hidx : Plain dag.shape idx)
    (hrun : dag.bindXSp idx = some (dag', b)) : Accounted dag' targets :=
  h.binds (h.binds_bindXSp hidx hrun)

end Accounted

/-! ## Runs -/

/-- A call on a graph. -/
inductive DagCall
  | join (j : JoinCall)
  | bind (c : BindCall)

def DagCall.run : DagCall → ECDAG → Option ECDAG
  | .join j, dag => some (dag.join j.pidx j.cidx j.coefs)
  | .bind c, dag => c.run dag

/-- The graph that some calls make; `none` where an assertion fails. -/
def ofCalls (calls : List DagCall) : Option ECDAG := calls.foldlM (fun dag c ↦ c.run dag) {}

def DagCall.target? : DagCall → Option ℕ
  | .join j => some j.pidx
  | .bind _ => none

def joinTargets (calls : List DagCall) : List ℕ := calls.filterMap DagCall.target?

/-- A call as the codes make it: a join has different children, one at least, and a bind of several targets has
different ones. None of them is one of the bind nodes of the graph `dag` that is made in the end. -/
def DagCall.Fits (dag : ECDAG) : DagCall → Prop
  | .join j => j.cidx ≠ [] ∧ j.cidx.Nodup ∧ ∀ id ∈ j.pidx :: j.cidx, ¬dag.Drawn id
  | .bind (.bindX idxs) => 2 ≤ idxs.length → idxs.Nodup ∧ ∀ t ∈ idxs, ¬dag.Drawn t
  | .bind (.bindXSp idx) => ¬dag.Drawn idx
  | .bind .opt0 => True
  | .bind (.opt1 _) => True

/-- Every target is joined once, by calls as the codes make them. -/
structure Proper (calls : List DagCall) (dag : ECDAG) : Prop where
  once : (joinTargets calls).Nodup
  fits : ∀ c ∈ calls, c.Fits dag

section Runs

variable {dag dag' : ECDAG} {calls : List DagCall} {targets : List ℕ} {i : ℕ} {b : ℤ} {I : ECDAG → Prop}

/-- `Opt0` and `Opt1` bind the targets of clusters that are not optimised. -/
theorem keep_opts
    (hbindX : ∀ {dag dag' : ECDAG} {i : ℕ} {cl : Cluster} {b : ℤ}, I dag → dag.clusters[i]? = some cl →
      cl.opted = -1 → dag.bindX cl.parents = some (dag', b) → I dag')
    (hmarks : ∀ {dag dag' : ECDAG}, I dag → Marks dag dag' → I dag') (h : I dag) (dag' : ECDAG) :
    (dag.opt0 = some dag' → I dag') ∧ ∀ rand, dag.opt1 rand = some dag' → I dag' := by
  refine ⟨Fold.foldlM_invariant (fun i _ d d' hd hrun ↦ ?_) h, fun rand ↦
    Fold.foldlM_invariant (fun i _ d d' hd hrun ↦ ?_) h⟩
  · obtain rfl | ⟨c, d₁, b, hc, hopt, h₁, rfl⟩ := opt0Turn_cases hrun
    · exact hd
    · exact hmarks (hbindX hd hc hopt h₁) (marks_setOpt d₁ i (by decide))
  · obtain rfl | rfl | ⟨p, q, d₁, h₁, rfl⟩ | ⟨c, d₁, b, p, q, d₂, hc, hopt, h₁, h₂, rfl⟩ := opt1Turn_cases hrun
    · exact hd
    · exact hmarks hd (marks_setOpt d i (by decide))
    · exact hmarks (hmarks hd (marks_bindY h₁)) (marks_setOpt d₁ i (by decide))
    · exact hmarks (hmarks (hbindX hd hc hopt h₁) (marks_bindY h₂)) (marks_setOpt d₂ i (by decide))

theorem bindId_le_bindX {idxs : List ℕ} (h : dag.bindX idxs = some (dag', b)) : dag.bindId ≤ dag'.bindId := by
  rcases idxs with _ | ⟨i, _ | ⟨l, is⟩⟩
  · rw [(Prod.mk.inj (Option.some.inj h)).1]
  · rw [(Prod.mk.inj (Option.some.inj h)).1]
  · rw [bindId_bindX h]
    exact Nat.le_succ _

theorem bindId_le_bindXSp {idx : ℕ} (h : dag.bindXSp idx = some (dag', b)) : dag.bindId ≤ dag'.bindId := by
  obtain ⟨-, tbnode, c, -, -, -, rfl⟩ := bindXSp_inv h
  rw [bindId_foldl (bindId_unrefChild 1)]
  show dag.bindId ≤ ECDAG.bindId (ECDAG.modify _ _ _)
  rw [bindId_modify, bindId_setRefNum]
  exact Nat.le_succ _

theorem bindId_le_run {c : DagCall} (h : c.run dag = some dag') : dag.bindId ≤ dag'.bindId := by
  have hopts := keep_opts (I := fun d ↦ dag.bindId ≤ d.bindId)
    (fun hle _ _ hrun ↦ hle.trans (bindId_le_bindX hrun)) (fun hle hm ↦ hm.bindId ▸ hle) (le_refl dag.bindId) dag'
  rcases c with j | (idxs | idx | _ | rand)
  · rw [← Option.some.inj h, bindId_join]
  · obtain ⟨⟨dag₁, b⟩, h₁, rfl⟩ := Option.map_eq_some_iff.mp h
    exact bindId_le_bindX h₁
  · obtain ⟨⟨dag₁, b⟩, h₁, rfl⟩ := Option.map_eq_some_iff.mp h
    exact bindId_le_bindXSp h₁
  · exact hopts.1 h
  · exact hopts.2 rand h

theorem DagCall.Fits.mono (hle : dag.bindId ≤ dag'.bindId) {c : DagCall} (h : c.Fits dag') : c.Fits dag := by
  have hdrawn : ∀ {id}, ¬dag'.Drawn id → ¬dag.Drawn id := fun hnot hid ↦ hnot ⟨hid.1, hid.2.trans_le hle⟩
  rcases c with j | (idxs | idx | _ | rand)
  · exact ⟨h.1, h.2.1, fun id hid ↦ hdrawn (h.2.2 id hid)⟩
  · exact fun hlen ↦ ⟨(h hlen).1, fun t ht ↦ hdrawn ((h hlen).2 t ht)⟩
  · exact hdrawn h
  · exact trivial
  · exact trivial

theorem Accounted.run (h : Accounted dag targets) {c : DagCall} (hfits : c.Fits dag)
    (hnew : (targets ++ c.target?.toList).Nodup) (hrun : c.run dag = some dag') :
    Accounted dag' (targets ++ c.target?.toList) := by
  have hopts := keep_opts (I := fun d ↦ Accounted d targets)
    (fun {d d' i cl b} hd hcl hopt hrun ↦ hd.bindX (fun _ ↦
      ⟨(hd.parents cl (List.mem_of_getElem? hcl) hopt).1,
        fun p hp ↦ ((hd.parents cl (List.mem_of_getElem? hcl) hopt).2 p hp).plain⟩) hrun)
    (fun hd hm ↦ hd.marks hm) h dag'
  rcases c with j | (idxs | idx | _ | rand)
  · obtain ⟨hne, hnodup, hall⟩ := hfits
    rw [← Option.some.inj hrun]
    exact h.join hne hnodup (fun c hc ↦ hall c (List.mem_cons_of_mem _ hc)) (hall _ List.mem_cons_self)
      fun hmem ↦ List.nodup_append.mp hnew |>.2.2 _ hmem _ (List.mem_singleton_self _) rfl
  · obtain ⟨⟨dag₁, b⟩, h₁, rfl⟩ := Option.map_eq_some_iff.mp hrun
    rw [DagCall.target?, Option.toList_none, List.append_nil]
    exact h.bindX (fun hlen ↦ ⟨(hfits hlen).1, fun t ht ↦ h.plain ((hfits hlen).2 t ht)⟩) h₁
  · obtain ⟨⟨dag₁, b⟩, h₁, rfl⟩ := Option.map_eq_some_iff.mp hrun
    rw [DagCall.target?, Option.toList_none, List.append_nil]
    exact h.bindXSp (h.plain hfits) h₁
  · rw [DagCall.target?, Option.toList_none, List.append_nil]
    exact hopts.1 hrun
  · rw [DagCall.target?, Option.toList_none, List.append_nil]
    exact hopts.2 rand hrun

theorem accounted_empty : Accounted {} [] where
  part _ sh hsh := absurd hsh.symm (Option.some_ne_none sh)
  closed := closed_empty
  drawn _ hid := absurd (fun sh hsh ↦ absurd hsh.symm (Option.some_ne_none sh)) hid
  start_le := le_rfl
  childs _ hcl := absurd hcl List.not_mem_nil
  nonempty _ hcl := absurd hcl List.not_mem_nil
  distinct := List.Pairwise.nil
  parents _ hcl := absurd hcl List.not_mem_nil
  refNum _ _ _ hj := absurd hj List.not_mem_nil
  key _ _ hne := absurd rfl hne
  headed := headed_empty
  joined _ := iff_of_false List.not_mem_nil fun h ↦ h.2 rfl

/-- **Proper calls keep the counts.** -/
theorem Proper.accounted (h : Proper calls dag) (hrun : ofCalls calls = some dag) :
    Accounted dag (joinTargets calls) := by
  induction calls using List.reverseRecOn generalizing dag with
  | nil =>
    rw [← Option.some.inj hrun]
    exact accounted_empty
  | append_singleton calls c ih =>
    rw [ofCalls, List.foldlM_append, Option.bind_eq_bind] at hrun
    obtain ⟨dag₀, hbefore, hrun⟩ := Option.bind_eq_some_iff.mp hrun
    simp only [List.foldlM_cons, List.foldlM_nil, bind_pure] at hrun
    have hle := bindId_le_run hrun
    have htargets : joinTargets (calls ++ [c]) = joinTargets calls ++ c.target?.toList := by
      rw [joinTargets, List.filterMap_append]
      cases c <;> rfl
    have hnodup := h.once
    rw [htargets] at hnodup ⊢
    have hproper : Proper calls dag₀ :=
      ⟨(List.nodup_append.mp hnodup).1, fun c' hc' ↦ (h.fits c' (List.mem_append_left _ hc')).mono hle⟩
    exact (ih hproper hbefore).run ((h.fits c (by simp)).mono hle) hnodup hrun

end Runs

end ECDAG

end UniDedup.Storage
