import UniDedup.Storage.References

/-!
# What binds do to the counts

A bind of targets with the same children puts a bind node under them. It takes over the counts of the targets, as it
is cached in their place, and the children, which were fetched for every target, are fetched once.

## One bind

`Groupable` is what has to hold before targets are bound, and `Binds` all that has changed afterwards: the new node
with its rows, the targets that now have it as their only child, and the counts along the chains. `BindX` and
`BindXSp` end in the same `Binds`, so the invariants of the modules above are shown to be kept by it only once.
-/

namespace UniDedup.Storage

namespace ECDAG

namespace Grouped

variable {S S' : ℕ → Option Shape} {b k c : ℕ} {idxs cs ds : List ℕ} {M : CoefMap}
variable (h : Grouped S S' b idxs cs M)
include h

theorem plain_iff (hk : k ≠ b) : Plain S' k ↔ Plain S k := by
  by_cases hidx : k ∈ idxs
  · -- a target is no bind node, before and after
    obtain ⟨ch, co, hS, -⟩ := h.target k hidx
    refine iff_of_true (fun sh hsh ↦ ?_) fun sh hsh ↦ ?_
    · rw [h.shape_target hidx] at hsh
      rw [← Option.some.inj hsh]
      exact le_refl 1
    · rw [hS] at hsh
      rw [← Option.some.inj hsh]
      exact le_refl 1
  · rw [Plain, Plain, h.shape_of_notMem hidx hk]

theorem not_plain_bind : ¬Plain S' b := bound_not_plain h.shape_bind h.many

theorem plain_of_plain (hk : Plain S' k) : k ≠ b ∧ Plain S k := by
  have hkb : k ≠ b := by
    rintro rfl
    exact h.not_plain_bind hk
  exact ⟨hkb, (h.plain_iff hkb).mp hk⟩

theorem bindOf_eq_none_iff (hb : b ∉ ds) : bindOf S' ds = none ↔ bindOf S ds = none := by
  rw [← Option.not_isSome_iff_eq_none, ← Option.not_isSome_iff_eq_none, bindOf_isSome_iff, bindOf_isSome_iff]
  refine not_congr (exists_congr fun c ↦ and_congr_right ?_)
  rintro rfl
  exact not_congr (h.plain_iff fun hcb ↦ hb (hcb ▸ List.mem_singleton_self c))

theorem flat (hflat : Flat S) (hplain : ∀ c ∈ cs, Plain S c) : Flat S' := by
  intro k sh hsh hk
  by_cases hkb : k = b
  · rw [hkb, h.shape_bind] at hsh
    rw [← Option.some.inj hsh, h.bindOf_eq_none_iff h.bind_notMem_children]
    exact bindOf_eq_none hplain
  have hidx : k ∉ idxs := by
    intro hidx
    obtain ⟨ch, co, hS, -⟩ := h.target k hidx
    refine hk ((h.plain_iff hkb).mpr fun sh hsh ↦ ?_)
    rw [hS] at hsh
    rw [← Option.some.inj hsh]
    exact le_refl 1
  rw [h.shape_of_notMem hidx hkb] at hsh
  rw [h.bindOf_eq_none_iff (h.notChild k sh hsh)]
  exact hflat k sh hsh ((h.plain_iff hkb).not.mp hk)

theorem chain_target (hk : k ∈ idxs) : chain S' k = [k, b] := chain_bound (h.shape_target hk) h.not_plain_bind

theorem chain_eq (hidx : k ∉ idxs) (hk : k ≠ b) : chain S' k = chain S k := by
  rcases hS : S k with _ | ⟨ds, M'⟩
  · rw [chain, chain, h.shape_of_notMem hidx hk, hS]
  have hS' : S' k = some (ds, M') := by rw [h.shape_of_notMem hidx hk, hS]
  have hb : b ∉ ds := h.notChild k _ hS
  by_cases hbind : bindOf S ds = none
  · rw [chain_of_bindOf hS hbind, chain_of_bindOf hS' ((h.bindOf_eq_none_iff hb).mpr hbind)]
  · obtain ⟨c, rfl, hc⟩ := bindOf_isSome_iff.mp (Option.isSome_iff_ne_none.mpr hbind)
    have hcb : c ≠ b := fun hcb ↦ hb (hcb ▸ List.mem_singleton_self c)
    rw [chain_bound hS hc, chain_bound hS' ((h.plain_iff hcb).not.mpr hc)]

theorem chain_of_target (hplain : ∀ c ∈ cs, Plain S c) (hk : k ∈ idxs) : chain S k = [k] := by
  obtain ⟨ch, co, hS, hperm⟩ := h.target k hk
  exact chain_of_plain hS fun c hc ↦ hplain c (hperm.mem_iff.mp hc)

end Grouped

section Counting

variable {dag dag' : ECDAG} {b c id j k p i : ℕ} {cs idxs : List ℕ}

/-! ## The bind operations -/

theorem refFor_withBind {bindNode : ECNode} (hfree : dag.bindId ∉ dag.nodes) (hrefs : bindNode.refNumFor = ∅) :
    (dag.withBind bindNode).refFor = dag.refFor := by
  funext j k
  rw [refFor, refFor, withBind]
  dsimp only
  by_cases hj : j = dag.bindId
  · rw [hj, AList.lookup_insert, AList.lookup_eq_none.mpr hfree, Option.bind_some, hrefs]
    rfl
  · rw [AList.lookup_insert_ne hj]

theorem shape_withBind (dag : ECDAG) (bindNode : ECNode) (id : ℕ) : (dag.withBind bindNode).shape id =
    if id = dag.bindId then some (bindNode.childNodes, bindNode.coefMap) else dag.shape id := by
  rw [shape, withBind]
  split_ifs with hid
  · rw [hid, AList.lookup_insert]
    rfl
  · rw [AList.lookup_insert_ne hid]
    rfl

/-- The node has a row of its own over the children, in any order. -/
def Own (S : ℕ → Option Shape) (t : ℕ) (cs : List ℕ) : Prop :=
  ∃ ch co, S t = some (ch, AList.singleton t co) ∧ ch.Perm cs

/-- What a bind of the targets `idxs` with the children `cs` does. -/
structure Binds (dag dag' : ECDAG) (idxs cs : List ℕ) : Prop where
  grouped : ∃ M, Grouped dag.shape dag'.shape dag.bindId idxs cs M
  first : ∃ t ∈ idxs, dag.childs t = cs
  nodup : idxs.Nodup
  plain : ∀ c ∈ cs, Plain dag.shape c
  bindId : dag'.bindId = dag.bindId + 1
  headers : dag'.headers = dag.headers
  clusters : ∃ i, dag.findCluster cs = some i ∧
    dag'.clusters = dag.clusters.modify i fun cl ↦ { cl with opted := 0 }
  /-- The bind node takes over the counts of the targets, and the children are fetched once for all. -/
  refNum : ∀ k, Plain dag.shape k → ∀ j ∈ chain dag'.shape k,
    dag'.refNum j k = dag.refNum k k - (idxs.length - 1) * cs.count k
  key : ∀ j k, dag'.refFor j k ≠ none → dag.refFor j k ≠ none ∨ Plain dag'.shape k ∧ j ∈ chain dag'.shape k
  /-- The rows of the bind node are rows of the targets. -/
  rows : ∀ M, dag'.shape dag.bindId = some (cs, M) → ∀ j co, M.lookup j = some co →
    ∃ t ∈ idxs, ∃ ch, dag.shape t = some (ch, AList.singleton t co)

/-- Every node that is no bind node has one count, whatever counts for it. -/
def AllTied (dag : ECDAG) : Prop := ∀ k, Plain dag.shape k → dag.Tied k

/-- The children of some targets are fetched once for all of them, when their bind node has their counts. -/
theorem Grouped.refFor_foldl_unrefChild {dag₁ : ECDAG} {M : CoefMap}
    (h : Grouped dag.shape dag₁.shape b idxs cs M) (hflat : Flat dag.shape) (htied : dag.AllTied)
    (hcs : ∀ c ∈ cs, Plain dag.shape c ∧ dag.shape c ≠ none)
    (hrefs : ∀ j k, dag₁.refFor j k = if j = b ∧ k ∈ idxs then some (dag.refNum k k) else dag.refFor j k) :
    (∀ k, Plain dag.shape k → ∀ j ∈ chain dag₁.shape k,
      (cs.foldl (unrefChild idxs.length) dag₁).refNum j k = dag.refNum k k - (idxs.length - 1) * cs.count k) ∧
    ∀ j k, (cs.foldl (unrefChild idxs.length) dag₁).refFor j k ≠ none →
      dag.refFor j k ≠ none ∨ Plain dag₁.shape k ∧ j ∈ chain dag₁.shape k := by
  have hplain : ∀ c ∈ cs, Plain dag.shape c := fun c hc ↦ (hcs c hc).1
  have hnone : ∀ k, dag.refFor b k = none := fun k ↦ refFor_eq_none h.free k
  -- Before the children are worked on, everything in a chain has the count of its node.
  have hbefore : ∀ k, Plain dag.shape k → ∀ j ∈ chain dag₁.shape k, dag₁.refNum j k = dag.refNum k k := by
    intro k hk j hj
    by_cases hidx : k ∈ idxs
    · rw [h.chain_target hidx] at hj
      rcases List.mem_pair.mp hj with rfl | rfl
      · have hjb : j ≠ b := fun hjb ↦ h.bind_notMem (hjb ▸ hidx)
        rw [refNum, hrefs, if_neg fun hb ↦ hjb hb.1, ← refNum]
      · rw [refNum, hrefs, if_pos ⟨rfl, hidx⟩, Option.getD_some]
    · have hjk : dag₁.refNum j k = dag.refNum j k := by
        rw [refNum, hrefs, if_neg fun hb ↦ hidx hb.2, ← refNum]
      rw [hjk]
      by_cases hkb : k = b
      · rw [hkb, chain_of_plain h.shape_bind] at hj
        · rw [List.mem_singleton.mp hj, hkb]
        · exact fun c hc ↦ (h.plain_iff fun hcb ↦ h.bind_notMem_children (hcb ▸ hc)).mpr (hplain c hc)
      · rw [h.chain_eq hidx hkb] at hj
        exact htied k hk j hj
  have hsome : ∀ c ∈ cs, dag₁.shape c ≠ none ∧ dag₁.Tied c := by
    intro c hc
    obtain ⟨hcplain, hc'⟩ := hcs c hc
    have hcb : c ≠ b := fun hcb ↦ h.bind_notMem_children (hcb ▸ hc)
    have hc₁ : dag₁.shape c ≠ none := by
      rw [h.shape]
      split_ifs
      · exact Option.some_ne_none _
      · exact hc'
    refine ⟨hc₁, fun j hj ↦ ?_⟩
    rw [hbefore c hcplain j hj, hbefore c hcplain c (mem_chain_iff.mpr ⟨hc₁, .inl rfl⟩)]
  have hafter := fun j k ↦ ECDAG.refFor_foldl_unrefChild (h.flat hflat hplain) idxs.length cs hsome j k
  refine ⟨fun k hk j hj ↦ ?_, fun j k hne ↦ ?_⟩
  · rw [refNum, hafter]
    by_cases hmem : k ∈ cs
    · rw [if_pos ⟨hmem, hj⟩, Option.getD_some, hbefore k hk j hj]
    · rw [if_neg fun hb ↦ hmem hb.1, ← refNum, hbefore k hk j hj, List.count_eq_zero.mpr hmem, Nat.cast_zero, mul_zero,
        sub_zero]
  · rw [hafter] at hne
    split_ifs at hne with hmem
    · have hkb : k ≠ b := fun hkb ↦ h.bind_notMem_children (hkb ▸ hmem.1)
      exact .inr ⟨(h.plain_iff hkb).mpr (hplain k hmem.1), hmem.2⟩
    · rw [hrefs] at hne
      split_ifs at hne with hb
      · refine .inr ⟨fun sh hsh ↦ ?_, ?_⟩
        · rw [h.shape_target hb.2] at hsh
          rw [← Option.some.inj hsh]
          exact le_refl 1
        · rw [h.chain_target hb.2, hb.1]
          exact List.mem_pair.mpr (.inr rfl)
      · exact .inl hne

theorem mem_bindCoefs {co : ℕ → List GF256} {t : ℕ} {M : CoefMap} (h : t ∈ bindCoefs co idxs M) : t ∈ idxs ∨ t ∈ M := by
  induction idxs generalizing M with
  | nil => exact .inr h
  | cons i idxs ih =>
    rcases ih h with h | h
    · exact .inl (List.mem_cons_of_mem i h)
    · rcases (AList.mem_insert _).mp h with rfl | h
      · exact .inl List.mem_cons_self
      · exact .inr h

theorem Own.plain {t : ℕ} (h : Own dag.shape t cs) : Plain dag.shape t := by
  obtain ⟨ch, co, hS, -⟩ := h
  intro sh hsh
  rw [hS] at hsh
  rw [← Option.some.inj hsh]
  exact le_refl 1

theorem notChild_of_free (hclosed : Closed dag) (hfree : b ∉ dag.nodes) : NotChild dag.shape b := by
  intro id sh hsh hmem
  refine hfree (hclosed id b ?_)
  rwa [childs_of_shape hsh]

theorem clusters_unrefChild (num : ℕ) (dag : ECDAG) (cid : ℕ) : (unrefChild num dag cid).clusters = dag.clusters := by
  rw [unrefChild]
  split
  · rfl
  · exact clusters_setRefNum ..

/-- What a bind of targets needs: rows of their own over one list of children, none of them a bind node, and every
count in place. -/
structure Groupable (dag : ECDAG) (idxs cs : List ℕ) : Prop where
  nodup : idxs.Nodup
  nonempty : cs ≠ []
  own : ∀ t ∈ idxs, Own dag.shape t cs
  plain : ∀ c ∈ cs, Plain dag.shape c
  closed : Closed dag
  flat : Flat dag.shape
  tied : dag.AllTied

theorem Groupable.child (h : dag.Groupable idxs cs) (hidxs : idxs ≠ []) :
    ∀ c ∈ cs, Plain dag.shape c ∧ dag.shape c ≠ none := by
  intro c hc
  obtain ⟨t, ht⟩ := List.exists_mem_of_ne_nil idxs hidxs
  obtain ⟨ch, co, hS, hperm⟩ := h.own t ht
  have hmem : c ∈ dag.nodes := by
    refine h.closed t c ?_
    rw [childs_of_shape hS]
    exact hperm.mem_iff.mpr hc
  exact ⟨h.plain c hc, fun hnone ↦ shape_eq_none.mp hnone hmem⟩

/-- The bind of the targets, when all but the work on the children is done. -/
theorem Groupable.binds (h : dag.Groupable idxs cs) {dag₁ : ECDAG} {M : CoefMap} {c : ℕ}
    (hgrouped : Grouped dag.shape dag₁.shape dag.bindId idxs cs M) (hfirst : ∃ t ∈ idxs, dag.childs t = cs)
    (hrefs : ∀ j k, dag₁.refFor j k = if j = dag.bindId ∧ k ∈ idxs then some (dag.refNum k k) else dag.refFor j k)
    (hbindId : dag₁.bindId = dag.bindId + 1) (hheaders : dag₁.headers = dag.headers) (hc : dag.findCluster cs = some c)
    (hclusters : dag₁.clusters = dag.clusters.modify c fun cl ↦ { cl with opted := 0 })
    (hrows : ∀ j co, M.lookup j = some co → ∃ t ∈ idxs, ∃ ch, dag.shape t = some (ch, AList.singleton t co)) :
    Binds dag (cs.foldl (unrefChild idxs.length) dag₁) idxs cs := by
  obtain ⟨hrefNum, hkey⟩ := hgrouped.refFor_foldl_unrefChild h.flat h.tied (h.child hgrouped.ne_nil) hrefs
  have hshape := shape_foldl_unrefChild idxs.length cs dag₁
  refine ⟨⟨M, by rwa [hshape]⟩, hfirst, h.nodup, h.plain, ?_, ?_, ⟨c, hc, ?_⟩, ?_, ?_, fun M' hM' ↦ ?_⟩
  · rw [bindId_foldl (bindId_unrefChild _), hbindId]
  · exact (congrArg Prod.fst (foldl_frame (frame_unrefChild _) cs dag₁)).trans hheaders
  · rw [clusters_foldl (clusters_unrefChild _), hclusters]
  · rwa [hshape]
  · rwa [hshape]
  · rw [hshape, hgrouped.shape_bind] at hM'
    rwa [← (Prod.mk.inj (Option.some.inj hM')).2]

/-- **`BindX`.** -/
theorem Groupable.bindX {l : ℕ} {is : List ℕ} {bid : ℤ} (h : dag.Groupable (i :: l :: is) (dag.childs i))
    (hrun : dag.bindX (i :: l :: is) = some (dag', bid)) : Binds dag dag' (i :: l :: is) (dag.childs i) := by
  obtain ⟨hfree, first, c, hfirst, -, hc, rfl⟩ := bindX_inv hrun
  have hcs : dag.childs i = first.childNodes := childs_of_shape (shape_of_lookup hfirst)
  rw [← hcs] at hc hrun ⊢
  have hown := h.own
  choose! ch co hS hperm using hown
  have hch : ch i = dag.childs i := (childs_of_shape (hS i List.mem_cons_self)).symm
  have hnone : dag.shape dag.bindId = none := shape_eq_none.mpr hfree
  have hnotChild := notChild_of_free h.closed hfree
  have hshape₀ := shape_withBind dag (({} : ECNode).setChilds (dag.childs i))
  have htarget : ∀ t ∈ i :: l :: is, t ≠ dag.bindId ∧
      (dag.withBind (({} : ECNode).setChilds (dag.childs i))).shape t = some (ch t, AList.singleton t (co t)) := by
    intro t ht
    have htb : t ≠ dag.bindId := by
      rintro rfl
      exact Option.some_ne_none _ ((hS _ ht).symm.trans hnone)
    exact ⟨htb, by rw [hshape₀, if_neg htb, hS t ht]⟩
  have hbind : (dag.withBind (({} : ECNode).setChilds (dag.childs i))).shape dag.bindId = some (dag.childs i, ∅) := by
    rw [hshape₀, if_pos rfl]
    rfl
  have hil : i ≠ l := fun hil ↦ (List.nodup_cons.mp h.nodup).1 (hil ▸ List.mem_cons_self)
  refine h.binds (M := bindCoefs co (i :: l :: is) ∅) ?_ ⟨i, List.mem_cons_self, rfl⟩ (fun j k ↦ ?_) ?_ ?_ hc ?_
    fun j r hr ↦ ?_
  · refine ⟨List.cons_ne_nil _ _, h.own, fun t ht ↦ ?_, fun t ht ↦ ?_, ?_, hnone, hnotChild, h.nonempty,
      bindOf_eq_none h.plain, fun id ↦ ?_⟩
    · exact AList.lookup_isSome.mp (Option.isSome_iff_exists.mpr ⟨_, lookup_bindCoefs ht ∅⟩)
    · exact .inr ((mem_bindCoefs ht).resolve_right (AList.notMem_empty t))
    · exact one_lt_length_keys hil (lookup_bindCoefs List.mem_cons_self ∅)
        (lookup_bindCoefs (List.mem_cons_of_mem i List.mem_cons_self) ∅)
    · rw [shape_setOpt, shape_foldl_bindTarget _ h.nodup htarget hbind, hshape₀]
      split_ifs <;> rfl
  · refine (refFor_foldl_bindTarget h.nodup htarget hbind (fun c hc sh hsh ↦ ?_) ?_ j k).trans ?_
    · have hcb : c ≠ dag.bindId := fun hcb ↦ hfree (hcb ▸ h.closed i c hc)
      rw [hshape₀, if_neg hcb] at hsh
      exact h.plain c hc sh hsh
    · exact fun hb ↦ hfree (h.closed i _ hb)
    · rw [refNum, refFor_withBind hfree rfl, ← refNum]
  · exact (bindId_foldl (bindId_bindTarget _) _ _).trans rfl
  · exact congrArg Prod.fst ((frame_setOpt _ c 0).trans (foldl_frame (frame_bindTarget _) _ _))
  · rw [setOpt, clusters_foldl (clusters_bindTarget _)]
    rfl
  · have hj : j ∈ i :: l :: is := (mem_bindCoefs (AList.lookup_isSome.mp (Option.isSome_iff_exists.mpr
      ⟨r, hr⟩))).resolve_right (AList.notMem_empty j)
    rw [lookup_bindCoefs hj, Option.some_inj] at hr
    exact ⟨j, hj, ch j, hr ▸ hS j hj⟩

/-- **`BindXSp`.** -/
theorem Groupable.bindXSp {idx : ℕ} {bid : ℤ} (h : dag.Groupable [idx] (dag.childs idx))
    (hrun : dag.bindXSp idx = some (dag', bid)) : Binds dag dag' [idx] (dag.childs idx) := by
  obtain ⟨hfree, tbnode, c, htb, -, hc, rfl⟩ := bindXSp_inv hrun
  have hcs : dag.childs idx = tbnode.childNodes := childs_of_shape (shape_of_lookup htb)
  rw [← hcs] at hc hrun ⊢
  obtain ⟨ch, co, hS, -⟩ := h.own idx (List.mem_singleton_self idx)
  obtain rfl : ch = dag.childs idx := (childs_of_shape hS).symm
  have hnone : dag.shape dag.bindId = none := shape_eq_none.mpr hfree
  have hnotChild := notChild_of_free h.closed hfree
  have hbindable : dag.Bindable (dag.childs idx) :=
    ⟨hfree, hnotChild, h.nonempty, bindOf_eq_none h.plain, by rw [hc]; rfl⟩
  obtain ⟨dag'', hrun', -, -, hreb⟩ := hbindable.bindXSp hS
  obtain ⟨hbindChilds, hbindRefs⟩ := bindSpNode_eq dag.bindId tbnode
  rw [← hcs] at hbindChilds
  have hshape₀ := shape_withBind dag (bindSpNode dag.bindId tbnode)
  refine h.binds (M := bindSpCoefs dag.bindId idx co) ?_ ⟨idx, List.mem_singleton_self idx, rfl⟩ (fun j k ↦ ?_) ?_ ?_
    hc ?_ fun j r hr ↦ ⟨idx, List.mem_singleton_self idx, dag.childs idx, ?_⟩
  · refine ⟨List.cons_ne_nil _ _, h.own, fun t ht ↦ ?_, fun t ht ↦ ?_, hreb.many, hnone, hnotChild, h.nonempty,
      bindOf_eq_none h.plain, ?_⟩
    · exact AList.lookup_isSome.mp (Option.isSome_iff_exists.mpr ⟨_, hreb.row t ht⟩)
    · rcases (AList.mem_insert _).mp ht with rfl | ht
      · exact .inr (List.mem_singleton_self t)
      · exact .inl (List.mem_singleton.mp ht)
    · have heq := (Prod.mk.inj (Option.some.inj (hrun.symm.trans hrun'))).1
      rw [← shape_foldl_unrefChild 1 (dag.childs idx), heq]
      exact hreb.shape
  · have hplain₀ : ∀ c ∈ dag.childs idx, Plain (dag.withBind (bindSpNode dag.bindId tbnode)).shape c := by
      intro c hc sh hsh
      have hcb : c ≠ dag.bindId := fun hcb ↦ hfree (hcb ▸ h.closed idx c hc)
      rw [hshape₀, if_neg hcb] at hsh
      exact h.plain c hc sh hsh
    have hbind : (dag.withBind (bindSpNode dag.bindId tbnode)).shape dag.bindId =
        some (dag.childs idx, (bindSpNode dag.bindId tbnode).coefMap) := by
      rw [hshape₀, if_pos rfl, hbindChilds]
    have hnum : tbnode.getRefNumFor idx = dag.refNum idx idx := by
      rw [refNum, refFor, htb]
      rfl
    have htarget : ∀ nd : ECNode, ((nd.cleanChilds.setChilds [dag.bindId]).addCoefs idx [1]).refNumFor =
        nd.refNumFor := fun _ ↦ rfl
    show ECDAG.refFor (ECDAG.modify _ _ _) j k = _
    rw [refFor_modify htarget, refFor_setRefNum_of_bindOf hbind (bindOf_eq_none hplain₀),
      refFor_withBind hfree hbindRefs, hnum]
    by_cases hk : k = idx
    · simp [hk]
    · simp [hk]
  · exact (bindId_modify ..).trans (bindId_setRefNum ..)
  · exact congrArg Prod.fst ((frame_setOpt _ c 0).trans ((frame_modify ..).trans (frame_setRefNum ..)))
  · rw [setOpt, clusters_modify, clusters_setRefNum]
    rfl
  · rw [hS]
    congr 3
    rw [bindSpCoefs] at hr
    by_cases hj : j = idx
    · rw [hj, AList.lookup_insert] at hr
      exact Option.some.inj hr
    · rw [AList.lookup_insert_ne hj, lookup_singleton] at hr
      split_ifs at hr
      exact Option.some.inj hr

theorem Binds.inserted (h : Binds dag dag' idxs cs) : Inserted dag dag' dag.bindId idxs cs := by
  obtain ⟨M, hgrouped⟩ := h.grouped
  refine ⟨shape_eq_none.mp hgrouped.free, fun t ht ↦ ?_, h.first, fun id ↦ ?_, fun id ↦ ?_, h.headers⟩
  · obtain ⟨ch, co, hS, hperm⟩ := hgrouped.target t ht
    exact ⟨mem_nodes_iff.mpr ⟨_, hS⟩, by rw [childs_of_shape hS]; exact hperm.subset⟩
  · rw [mem_nodes_iff, mem_nodes_iff, hgrouped.shape]
    split_ifs with hidx hb
    · obtain ⟨ch, co, hS, -⟩ := hgrouped.target id hidx
      exact iff_of_true ⟨_, rfl⟩ (.inr ⟨_, hS⟩)
    · exact iff_of_true ⟨_, rfl⟩ (.inl hb)
    · rw [or_iff_right hb]
  · rw [childs_eq, childs_eq, hgrouped.shape]
    split_ifs <;> rfl

theorem Binds.reads (h : Binds dag dag' idxs cs) (hk : k ≠ dag.bindId) :
    dag'.reads k + idxs.length * cs.count k = dag.reads k + cs.count k := by
  obtain ⟨M, hgrouped⟩ := h.grouped
  have hmem : ∀ j, dag.shape j ≠ none ∨ j = dag.bindId → j ∈ dag'.nodes.keys.toFinset := by
    intro j hj
    refine List.mem_toFinset.mpr (mem_nodes_iff.mpr (Option.ne_none_iff_exists'.mp ?_))
    rw [hgrouped.shape]
    split_ifs with h₁ h₂
    · exact Option.some_ne_none _
    · exact Option.some_ne_none _
    · exact hj.resolve_right h₂
  have hsome : ∀ j ∈ dag.nodes, dag.shape j ≠ none := fun j hj ↦ Option.ne_none_iff_exists'.mpr (mem_nodes_iff.mp hj)
  have hterm : ∀ j, (dag'.childs j).count k + (if j ∈ idxs.toFinset then cs.count k else 0) =
      (dag.childs j).count k + if j = dag.bindId then cs.count k else 0 := by
    intro j
    by_cases hj : j ∈ idxs
    · obtain ⟨ch, co, hS, hperm⟩ := hgrouped.target j hj
      have hjb : j ≠ dag.bindId := fun hjb ↦ hgrouped.bind_notMem (hjb ▸ hj)
      rw [if_pos (List.mem_toFinset.mpr hj), if_neg hjb, childs_of_shape (hgrouped.shape_target hj), childs_of_shape hS,
        hperm.count_eq, List.count_singleton, if_neg fun hbk ↦ hk (of_decide_eq_true hbk).symm]
      omega
    · rw [if_neg fun hmem ↦ hj (List.mem_toFinset.mp hmem)]
      by_cases hjb : j = dag.bindId
      · rw [if_pos hjb, hjb, childs_of_shape hgrouped.shape_bind, childs_of_notMem (shape_eq_none.mp hgrouped.free)]
        exact Nat.add_comm ..
      · rw [if_neg hjb, childs_eq, childs_eq, hgrouped.shape_of_notMem hj hjb]
  have hsum := Finset.sum_congr (rfl : dag'.nodes.keys.toFinset = _) fun j _ ↦ hterm j
  have hsub : idxs.toFinset ⊆ dag'.nodes.keys.toFinset := by
    intro t ht
    obtain ⟨ch, co, hS, -⟩ := hgrouped.target t (List.mem_toFinset.mp ht)
    exact hmem t (.inl (hS ▸ Option.some_ne_none _))
  rw [Finset.sum_add_distrib, Finset.sum_add_distrib, Finset.sum_ite_eq', if_pos (hmem _ (.inr rfl)), Finset.sum_ite_mem,
    Finset.inter_eq_right.mpr hsub, Finset.sum_const, List.toFinset_card_of_nodup h.nodup,
    ← reads_eq_sum fun j hj ↦ hmem j (.inl (hsome j hj))] at hsum
  exact hsum

end Counting

end ECDAG

end UniDedup.Storage
