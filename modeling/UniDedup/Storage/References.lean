import Mathlib.Algebra.BigOperators.Group.Finset.Piecewise
import Mathlib.Tactic.Ring
import UniDedup.Storage.Sorting

/-!
# Reference counts

A sub-packet is cached as often as it will be fetched, so every node counts the nodes that have it as a child. `Join`
counts its children. A node that is bound is not cached itself, its bind node caches it, with a count of its own; so each
change of the count goes along the chain from a node to its bind node. And when some nodes are bound, their children are
fetched for all of them at once.

## The view

The map of counts is read as a function of two nodes, `refFor`: the count with which the first is cached under the
number of the second. A change along a chain becomes a change of this function at the end of the chain (`home`),
whatever lies on the way. The later modules use only this function.
-/

namespace UniDedup.Storage

namespace ECDAG

/-! ## Chains -/

/-- The reference count for `id` that the node `j` holds, if it has one. -/
def refFor (dag : ECDAG) (j id : ℕ) : Option ℤ := (dag.nodes.lookup j).bind fun nd ↦ nd.refNumFor.lookup id

/-- The count, where a missing one is zero. -/
def refNum (dag : ECDAG) (j id : ℕ) : ℤ := (dag.refFor j id).getD 0

/-- The nodes that count for a node: itself, and its bind node. -/
def chain (S : ℕ → Option Shape) (id : ℕ) : List ℕ :=
  match S id with
  | none => []
  | some sh => if (bindOf S sh.1).isSome then id :: sh.1 else [id]

def Flat (S : ℕ → Option Shape) : Prop := ∀ b sh, S b = some sh → ¬Plain S b → bindOf S sh.1 = none

section Chain

variable {S : ℕ → Option Shape} {b c id j : ℕ} {cs : List ℕ} {M : CoefMap}

theorem bindOf_isSome_iff : (bindOf S cs).isSome ↔ ∃ b, cs = [b] ∧ ¬Plain S b := by
  rcases cs with _ | ⟨b, _ | ⟨d, rest⟩⟩
  · refine iff_of_false Bool.false_ne_true ?_
    rintro ⟨b, h, -⟩
    exact List.cons_ne_nil b [] h.symm
  · rw [bindOf, Option.isSome_filter, Option.any_eq_true]
    constructor
    · rintro ⟨sh, hsh, hkeys⟩
      exact ⟨b, rfl, fun hplain ↦ absurd (hplain sh hsh) (Nat.not_le.mpr (of_decide_eq_true hkeys))⟩
    · rintro ⟨b', heq, hplain⟩
      obtain rfl := (List.cons.inj heq).1
      rw [Plain] at hplain
      push Not at hplain
      obtain ⟨sh, hsh, hkeys⟩ := hplain
      exact ⟨sh, hsh, decide_eq_true hkeys⟩
  · refine iff_of_false Bool.false_ne_true ?_
    rintro ⟨b', h, -⟩
    exact List.cons_ne_nil d rest (List.cons.inj h).2

theorem chain_of_bindOf (hS : S id = some (cs, M)) (h : bindOf S cs = none) : chain S id = [id] := by
  rw [chain, hS]
  exact if_neg (by rw [h]; exact Bool.false_ne_true)

theorem chain_bound (hS : S id = some ([b], M)) (hb : ¬Plain S b) : chain S id = [id, b] := by
  rw [chain, hS]
  exact if_pos (bindOf_isSome_iff.mpr ⟨b, rfl, hb⟩)

theorem chain_of_plain (hS : S id = some (cs, M)) (h : ∀ c ∈ cs, Plain S c) : chain S id = [id] :=
  chain_of_bindOf hS (bindOf_eq_none h)

theorem mem_chain_iff : j ∈ chain S id ↔ S id ≠ none ∧ (j = id ∨ (∃ M, S id = some ([j], M)) ∧ ¬Plain S j) := by
  rw [chain]
  rcases hS : S id with _ | ⟨cs, M⟩
  · exact iff_of_false List.not_mem_nil fun h ↦ h.1 rfl
  rw [and_iff_right (Option.some_ne_none _)]
  dsimp only
  split_ifs with hbind
  · obtain ⟨b, rfl, hb⟩ := bindOf_isSome_iff.mp hbind
    rw [List.mem_cons, List.mem_singleton]
    refine or_congr_right ⟨?_, fun ⟨⟨M', hM⟩, _⟩ ↦ ?_⟩
    · rintro rfl
      exact ⟨⟨M, rfl⟩, hb⟩
    · exact (List.cons.inj (congrArg Prod.fst (Option.some.inj hM))).1.symm
  · rw [List.mem_singleton]
    refine ⟨.inl, fun h ↦ h.resolve_right fun ⟨⟨M', hM⟩, hj⟩ ↦ hbind (bindOf_isSome_iff.mpr ⟨j, ?_, hj⟩)⟩
    exact congrArg Prod.fst (Option.some.inj hM)

theorem Flat.ne (h : Flat S) (hS : S id = some ([b], M)) (hb : ¬Plain S b) : id ≠ b := by
  rintro rfl
  have hnone := h id _ hS hb
  have hsome := bindOf_isSome_iff.mpr ⟨id, rfl, hb⟩
  rw [hnone] at hsome
  exact Bool.false_ne_true hsome

theorem Flat.nodup_chain (h : Flat S) : (chain S id).Nodup := by
  rcases hS : S id with _ | ⟨cs, M⟩
  · rw [chain, hS]
    exact List.nodup_nil
  · by_cases hbind : (bindOf S cs).isSome
    · obtain ⟨b, rfl, hb⟩ := bindOf_isSome_iff.mp hbind
      rw [chain_bound hS hb]
      exact List.nodup_cons.mpr ⟨fun hmem ↦ h.ne hS hb (List.mem_singleton.mp hmem), List.nodup_singleton b⟩
    · rw [chain_of_bindOf hS (Option.not_isSome_iff_eq_none.mp hbind)]
      exact List.nodup_singleton id

end Chain

/-- The recursion of the reference counts stays at a node that is not bound. -/
theorem bindChain_of_bindOf {dag : ECDAG} {j : ℕ} {cs : List ℕ} {M : CoefMap} (hS : dag.shape j = some (cs, M))
    (hnone : bindOf dag.shape cs = none) (fuel : ℕ) : dag.bindChain (fuel + 1) j = [j] := by
  obtain ⟨nd, hnd, rfl, -⟩ := exists_of_shape hS
  rw [bindChain, hnd]
  dsimp only
  rcases hcs : nd.childNodes with _ | ⟨c, _ | ⟨d, rest⟩⟩
  · rfl
  · rw [hcs, bindOf_eq_none_iff] at hnone
    exact if_neg hnone
  · rfl

theorem exists_length_keys {dag : ECDAG} {j : ℕ} (h : dag.shape j ≠ none) : ∃ fuel, dag.nodes.keys.length = fuel + 1 :=
  Nat.exists_eq_add_of_le' (List.length_pos_of_mem
    (AList.mem_keys.mp (mem_nodes_iff.mpr (Option.ne_none_iff_exists'.mp h))))

theorem bindChain_eq {dag : ECDAG} (h : Flat dag.shape) (id : ℕ) :
    dag.bindChain dag.nodes.keys.length id = chain dag.shape id := by
  rcases hS : dag.shape id with _ | ⟨cs, M⟩
  · rw [chain, hS]
    have hnone : dag.nodes.lookup id = none := AList.lookup_eq_none.mpr (shape_eq_none.mp hS)
    rcases dag.nodes.keys.length with _ | fuel
    · rfl
    · rw [bindChain, hnone]
  have hid : id ∈ dag.nodes.keys := AList.mem_keys.mp (mem_nodes_iff.mpr ⟨_, hS⟩)
  by_cases hbind : (bindOf dag.shape cs).isSome
  · obtain ⟨b, rfl, hb⟩ := bindOf_isSome_iff.mp hbind
    obtain ⟨⟨cs', M'⟩, hb'⟩ : ∃ sh, dag.shape b = some sh := by
      by_contra hnone
      exact hb fun sh hsh ↦ absurd ⟨sh, hsh⟩ hnone
    -- The node and its bind node are two, so there is fuel for both.
    have hlen : 2 ≤ dag.nodes.keys.length := by
      have hbmem : b ∈ dag.nodes.keys := AList.mem_keys.mp (mem_nodes_iff.mpr ⟨_, hb'⟩)
      have hsub : [id, b] ⊆ dag.nodes.keys := by
        intro x hx
        rcases List.mem_pair.mp hx with rfl | rfl
        · exact hid
        · exact hbmem
      have hnodup : [id, b].Nodup := by
        rw [← chain_bound hS hb]
        exact h.nodup_chain
      exact (hnodup.subperm hsub).length_le
    obtain ⟨fuel, hfuel⟩ := Nat.exists_eq_add_of_le' hlen
    obtain ⟨nd, hnd, hcs, -⟩ := exists_of_shape hS
    rw [hfuel, bindChain, hnd, chain_bound hS hb]
    dsimp only
    rw [hcs]
    dsimp only
    have hnum : 1 < dag.coefNum b := by
      by_contra hle
      rw [bindOf_eq_none_iff.mpr hle] at hbind
      exact Bool.false_ne_true hbind
    rw [if_pos hnum, bindChain_of_bindOf hb' (h b _ hb' hb)]
  · have hnone := Option.not_isSome_iff_eq_none.mp hbind
    obtain ⟨fuel, hfuel⟩ := exists_length_keys (hS ▸ Option.some_ne_none _ : dag.shape id ≠ none)
    rw [hfuel, bindChain_of_bindOf hS hnone, chain_of_bindOf hS hnone]

/-! ## Counting -/

section Counting

variable {dag : ECDAG} {b c id j k p : ℕ} {cs : List ℕ}

theorem refFor_eq_none (h : dag.shape j = none) (k : ℕ) : dag.refFor j k = none := by
  rw [refFor, AList.lookup_eq_none.mpr (shape_eq_none.mp h)]
  rfl

/-- Give a node another count for `id`. -/
def recount (id : ℕ) (g : Option ℤ → ℤ) (nd : ECNode) : ECNode :=
  { nd with refNumFor := nd.refNumFor.insert id (g (nd.refNumFor.lookup id)) }

theorem refFor_recount (dag : ECDAG) (i id : ℕ) (g : Option ℤ → ℤ) (hi : dag.shape i ≠ none) (j k : ℕ) :
    (dag.modify i (recount id g)).refFor j k =
      if j = i ∧ k = id then some (g (dag.refFor j id)) else dag.refFor j k := by
  obtain ⟨sh, hsh⟩ := Option.ne_none_iff_exists'.mp hi
  obtain ⟨nd, hnd, -⟩ := exists_of_shape hsh
  rw [refFor, lookup_modify]
  by_cases hj : j = i
  · subst hj
    rw [if_pos rfl, refFor, refFor, hnd, Option.map_some, Option.bind_some, recount]
    by_cases hk : k = id
    · rw [if_pos ⟨rfl, hk⟩, hk, AList.lookup_insert]
      rfl
    · rw [if_neg fun h ↦ hk h.2, AList.lookup_insert_ne hk]
      rfl
  · rw [if_neg hj, if_neg fun h ↦ hj h.1]
    rfl

theorem refFor_modify {f : ECNode → ECNode} (hf : ∀ nd, (f nd).refNumFor = nd.refNumFor) (dag : ECDAG) (i : ℕ) :
    (dag.modify i f).refFor = dag.refFor := by
  funext j k
  rw [refFor, lookup_modify]
  split_ifs with hj
  · rw [hj, Option.bind_map, refFor]
    exact congrArg (Option.bind _) (funext fun nd ↦ congrArg (AList.lookup k) (hf nd))
  · rfl

theorem refFor_foldl_recount (id : ℕ) (g : Option ℤ → ℤ) {js : List ℕ} (hnodup : js.Nodup) (dag : ECDAG)
    (hjs : ∀ j ∈ js, dag.shape j ≠ none) (j k : ℕ) :
    (js.foldl (fun dag j ↦ dag.modify j (recount id g)) dag).refFor j k =
      if j ∈ js ∧ k = id then some (g (dag.refFor j id)) else dag.refFor j k := by
  induction js generalizing dag with
  | nil => rw [if_neg fun h ↦ List.not_mem_nil h.1]; rfl
  | cons i js ih =>
    obtain ⟨hi, hjs'⟩ := List.nodup_cons.mp hnodup
    have hshape : (dag.modify i (recount id g)).shape = dag.shape := shape_modify fun _ ↦ ⟨rfl, rfl⟩
    have hstep := refFor_recount dag i id g (hjs i List.mem_cons_self)
    rw [List.foldl_cons, ih hjs' _ fun j hj ↦ hshape ▸ hjs j (List.mem_cons_of_mem i hj), hstep, hstep]
    by_cases hji : j = i
    · simp [hji, hi]
    · simp [hji]

theorem ne_none_of_mem_chain {S : ℕ → Option Shape} (h : j ∈ chain S id) : S j ≠ none := by
  obtain ⟨hid, rfl | ⟨-, hj⟩⟩ := mem_chain_iff.mp h
  · exact hid
  · exact fun hnone ↦ hj fun sh hsh ↦ absurd (hnone.symm.trans hsh) nofun

theorem refFor_incRefNumFor (h : Flat dag.shape) (id j k : ℕ) :
    (dag.incRefNumFor id id).refFor j k =
      if j ∈ chain dag.shape id ∧ k = id then some (dag.refNum j id + 1) else dag.refFor j k := by
  rw [incRefNumFor, bindChain_eq h]
  exact refFor_foldl_recount id (fun r ↦ r.getD 0 + 1) h.nodup_chain dag (fun _ hj ↦ ne_none_of_mem_chain hj) j k

theorem refFor_setRefNum (h : Flat dag.shape) (node id : ℕ) (ref : ℤ) (j k : ℕ) :
    (dag.setRefNum node id ref).refFor j k =
      if j ∈ chain dag.shape node ∧ k = id then some ref else dag.refFor j k := by
  rw [setRefNum, bindChain_eq h]
  exact refFor_foldl_recount id (fun _ ↦ ref) h.nodup_chain dag (fun _ hj ↦ ne_none_of_mem_chain hj) j k

/-! ### `Join` -/

/-- The shape with leaves for what is missing. -/
def leaves (S : ℕ → Option Shape) (cs : List ℕ) (id : ℕ) : Option Shape :=
  if id ∈ cs ∧ S id = none then some ([], ∅) else S id

section Leaves

variable {S : ℕ → Option Shape}

theorem leaves_of_ne_none (h : S id ≠ none) : leaves S cs id = S id := if_neg fun hmem ↦ h hmem.2

theorem leaves_of_none (h : S id = none) (hid : id ∈ cs) : leaves S cs id = some ([], ∅) := if_pos ⟨hid, h⟩

theorem leaves_cons (S : ℕ → Option Shape) (c : ℕ) (cs : List ℕ) : leaves (leaves S [c]) cs = leaves S (c :: cs) := by
  funext id
  by_cases hnone : S id = none
  · by_cases hc : id = c
    · subst hc
      simp [leaves, hnone]
    · simp [leaves, hnone, hc]
  · rw [leaves_of_ne_none hnone, leaves_of_ne_none (by rwa [leaves_of_ne_none hnone]), leaves_of_ne_none hnone]

theorem plain_leaves_iff : Plain (leaves S cs) id ↔ Plain S id := by
  rcases hS : S id with _ | sh
  · refine iff_of_true (fun sh hsh ↦ ?_) fun sh hsh ↦ absurd (hS.symm.trans hsh) nofun
    rw [leaves, hS] at hsh
    split_ifs at hsh
    rw [← Option.some.inj hsh]
    exact Nat.zero_le 1
  · rw [Plain, Plain, leaves_of_ne_none (hS ▸ Option.some_ne_none sh)]

theorem bindOf_leaves_eq_none {ds : List ℕ} : bindOf (leaves S cs) ds = none ↔ bindOf S ds = none := by
  rw [← Option.not_isSome_iff_eq_none, ← Option.not_isSome_iff_eq_none, bindOf_isSome_iff, bindOf_isSome_iff]
  simp only [plain_leaves_iff]

theorem Flat.leaves (h : Flat S) (cs : List ℕ) : Flat (leaves S cs) := by
  intro b sh hsh hb
  rw [plain_leaves_iff] at hb
  have hsome : S b ≠ none := fun hnone ↦ hb fun sh hsh ↦ absurd (hnone.symm.trans hsh) nofun
  rw [leaves_of_ne_none hsome] at hsh
  exact bindOf_leaves_eq_none.mpr (h b sh hsh hb)

theorem chain_leaves (h : S id ≠ none) : chain (ECDAG.leaves S cs) id = chain S id := by
  obtain ⟨⟨ds, M⟩, hS⟩ := Option.ne_none_iff_exists'.mp h
  have hS' : ECDAG.leaves S cs id = some (ds, M) := by rw [leaves_of_ne_none h, hS]
  by_cases hbind : bindOf S ds = none
  · rw [chain_of_bindOf hS hbind, chain_of_bindOf hS' (bindOf_leaves_eq_none.mpr hbind)]
  · obtain ⟨b, rfl, hb⟩ := bindOf_isSome_iff.mp (Option.isSome_iff_ne_none.mpr hbind)
    rw [chain_bound hS hb, chain_bound hS' (plain_leaves_iff.not.mpr hb)]

theorem chain_leaf (h : S id = none) (hid : id ∈ cs) : chain (ECDAG.leaves S cs) id = [id] :=
  chain_of_bindOf (leaves_of_none h hid) rfl

end Leaves

theorem shape_foldl_joinChild_eq (dag : ECDAG) (cs : List ℕ) :
    (cs.foldl joinChild dag).shape = leaves dag.shape cs := funext (shape_foldl_joinChild dag cs)

theorem refFor_joinChild (h : Flat dag.shape) (c j k : ℕ) :
    (dag.joinChild c).refFor j k =
      if j ∈ chain (leaves dag.shape [c]) c ∧ k = c then some (dag.refNum j c + 1) else dag.refFor j k := by
  -- The graph before the count is changed.
  let dag₁ : ECDAG := { dag with
    nodes := if c ∈ dag.nodes then dag.nodes else dag.nodes.insert c {}
    headers := dag.headers.erase c }
  have hrefs : dag₁.refFor = dag.refFor := by
    funext i l
    by_cases hc : c ∈ dag.nodes
    · have hnodes : dag₁.nodes = dag.nodes := if_pos hc
      rw [refFor, refFor, hnodes]
    · have hnodes : dag₁.nodes = dag.nodes.insert c {} := if_neg hc
      rw [refFor, refFor, hnodes]
      by_cases hi : i = c
      · rw [hi, AList.lookup_insert, AList.lookup_eq_none.mpr hc]
        rfl
      · rw [AList.lookup_insert_ne hi]
  have hshape : dag₁.shape = leaves dag.shape [c] := by
    rw [← shape_foldl_joinChild_eq dag [c]]
    exact (shape_incRefNumFor dag₁ c c).symm
  show (dag₁.incRefNumFor c c).refFor j k = _
  rw [refFor_incRefNumFor (hshape ▸ h.leaves [c]), refNum, hrefs, hshape]
  rfl

theorem refFor_foldl_joinChild (h : Flat dag.shape) (cs : List ℕ) (j k : ℕ) :
    (cs.foldl joinChild dag).refFor j k =
      if k ∈ cs ∧ j ∈ chain (leaves dag.shape cs) k then some (dag.refNum j k + cs.count k) else dag.refFor j k := by
  induction cs generalizing dag with
  | nil => rw [if_neg fun h ↦ List.not_mem_nil h.1]; rfl
  | cons c cs ih =>
    have hshape : (dag.joinChild c).shape = leaves dag.shape [c] := shape_foldl_joinChild_eq dag [c]
    have hflat : Flat (dag.joinChild c).shape := hshape ▸ h.leaves [c]
    have hstep := refFor_joinChild h c
    -- The child has its chain from now on.
    have hchain : chain (leaves dag.shape [c]) c = chain (leaves dag.shape (c :: cs)) c := by
      have hsome : leaves dag.shape [c] c ≠ none := by
        by_cases hnone : dag.shape c = none
        · rw [leaves_of_none hnone (List.mem_singleton_self c)]
          exact Option.some_ne_none _
        · rwa [leaves_of_ne_none hnone]
      rw [← leaves_cons dag.shape c cs]
      exact (chain_leaves hsome).symm
    rw [List.foldl_cons, ih hflat, hshape, leaves_cons, refNum, hstep, hchain]
    by_cases hk : k = c
    · subst hk
      by_cases hj : j ∈ chain (leaves dag.shape (k :: cs)) k
      · by_cases hmem : k ∈ cs
        · simp only [hmem, hj, and_self, if_true, Option.getD_some, List.mem_cons, or_true, List.count_cons_self,
            Nat.cast_succ]
          congr 1
          omega
        · simp [hmem, hj, List.count_eq_zero.mpr hmem]
      · simp [hj]
    · simp [hk, List.count_cons_of_ne (Ne.symm hk), refNum]

theorem refFor_join (h : Flat dag.shape) (p : ℕ) (cs : List ℕ) (coefs : List GF256) (j k : ℕ) :
    (dag.join p cs coefs).refFor j k =
      if k ∈ cs ∧ j ∈ chain (leaves dag.shape cs) k then some (dag.refNum j k + cs.count k) else dag.refFor j k := by
  rw [← refFor_foldl_joinChild h, join]
  generalize cs.foldl joinChild dag = d
  have hcluster : ((d.joinRoot p cs coefs).joinCluster p cs).refFor = (d.joinRoot p cs coefs).refFor := by
    rw [joinCluster]
    split <;> rfl
  rw [hcluster, joinRoot]
  rcases hnd : d.nodes.lookup p with _ | nd
  · rw [refFor, refFor]
    by_cases hj : j = p
    · rw [hj, AList.lookup_insert, hnd]
      rfl
    · rw [AList.lookup_insert_ne hj]
  · rw [refFor, refFor]
    by_cases hj : j = p
    · rw [hj, AList.lookup_insert, hnd]
      rfl
    · rw [AList.lookup_insert_ne hj]

/-! ### Binding -/

theorem refFor_setRefNum_of_bindOf {node : ℕ} {M : CoefMap} (hS : dag.shape node = some (cs, M))
    (hnone : bindOf dag.shape cs = none) (id : ℕ) (ref : ℤ) (j k : ℕ) :
    (dag.setRefNum node id ref).refFor j k = if j = node ∧ k = id then some ref else dag.refFor j k := by
  have hsome : dag.shape node ≠ none := hS ▸ Option.some_ne_none _
  obtain ⟨fuel, hfuel⟩ := exists_length_keys hsome
  rw [setRefNum, hfuel, bindChain_of_bindOf hS hnone]
  exact refFor_recount dag node id (fun _ ↦ ref) hsome j k

theorem refFor_bindTarget {t : ℕ} {M : CoefMap} (hb : dag.shape b = some (cs, M)) (hplain : ∀ c ∈ cs, Plain dag.shape c)
    (hbcs : b ∉ cs) (ht : dag.shape t ≠ none) (j k : ℕ) :
    (bindTarget b dag t).refFor j k = if j = b ∧ k = t then some (dag.refNum t t) else dag.refFor j k := by
  obtain ⟨sh, hsh⟩ := Option.ne_none_iff_exists'.mp ht
  obtain ⟨tbnode, htb, -⟩ := exists_of_shape hsh
  have hnum : tbnode.getRefNumFor t = dag.refNum t t := by
    rw [refNum, refFor, htb]
    rfl
  rw [bindTarget, htb]
  dsimp only
  generalize hf : (fun nd : ECNode ↦ tbnode.coefMap.entries.foldl (fun nd item ↦ nd.addCoefs item.1 item.2) nd) = f
  have hrefs : ∀ nd, (f nd).refNumFor = nd.refNumFor := by
    intro nd
    rw [← hf]
    generalize tbnode.coefMap.entries = es
    induction es generalizing nd with
    | nil => rfl
    | cons e es ih => exact ih _
  -- The bind node keeps its children, which are no bind nodes.
  obtain ⟨M', hb'⟩ : ∃ M', (dag.modify b f).shape b = some (cs, M') := by
    obtain ⟨nd, hnd, hchilds, -⟩ := exists_of_shape hb
    refine ⟨(f nd).coefMap, ?_⟩
    rw [shape, lookup_modify, if_pos rfl, hnd, Option.map_some, Option.map_some, ← hf, childNodes_foldl_addCoefs, hchilds]
  have hplain' : ∀ c ∈ cs, Plain (dag.modify b f).shape c := by
    intro c hc sh hsh
    have hcb : c ≠ b := fun hcb ↦ hbcs (hcb ▸ hc)
    rw [shape, lookup_modify, if_neg hcb] at hsh
    exact hplain c hc sh hsh
  have htarget : ∀ nd : ECNode, ((nd.cleanChilds.setChilds [b]).addCoefs t [1]).refNumFor = nd.refNumFor := fun _ ↦ rfl
  rw [refFor_modify htarget, refFor_setRefNum_of_bindOf hb' (bindOf_eq_none hplain'), refFor_modify hrefs, hnum]

theorem refFor_foldl_bindTarget {ch : ℕ → List ℕ} {co : ℕ → List GF256} {idxs : List ℕ} (hnodup : idxs.Nodup)
    {dag : ECDAG} {M : CoefMap} (ht : ∀ i ∈ idxs, i ≠ b ∧ dag.shape i = some (ch i, AList.singleton i (co i)))
    (hb : dag.shape b = some (cs, M)) (hplain : ∀ c ∈ cs, Plain dag.shape c) (hbcs : b ∉ cs) (j k : ℕ) :
    (idxs.foldl (bindTarget b) dag).refFor j k =
      if j = b ∧ k ∈ idxs then some (dag.refNum k k) else dag.refFor j k := by
  induction idxs generalizing dag M with
  | nil => rw [if_neg fun h ↦ List.not_mem_nil h.2]; rfl
  | cons i idxs ih =>
    obtain ⟨hi, hidxs⟩ := List.nodup_cons.mp hnodup
    obtain ⟨hib, hS⟩ := ht i List.mem_cons_self
    have hstep := refFor_bindTarget hb hplain hbcs (hS ▸ Option.some_ne_none _ : dag.shape i ≠ none)
    have hshape := shape_bindTarget hS hb hib
    have hplain' : ∀ c ∈ cs, Plain (bindTarget b dag i).shape c := by
      intro c hc sh hsh
      have hcb : c ≠ b := fun hcb ↦ hbcs (hcb ▸ hc)
      rw [hshape, if_neg hcb] at hsh
      split_ifs at hsh
      · rw [← Option.some.inj hsh]
        exact le_refl 1
      · exact hplain c hc sh hsh
    have ht' : ∀ l ∈ idxs, l ≠ b ∧ (bindTarget b dag i).shape l = some (ch l, AList.singleton l (co l)) := by
      intro l hl
      obtain ⟨hlb, hl'⟩ := ht l (List.mem_cons_of_mem i hl)
      have hli : l ≠ i := fun hli ↦ hi (hli ▸ hl)
      exact ⟨hlb, by rw [hshape, if_neg hli, if_neg hlb, hl']⟩
    have hb' : (bindTarget b dag i).shape b = some (cs, M.insert i (co i)) := by
      rw [hshape, if_neg (Ne.symm hib), if_pos rfl]
    rw [List.foldl_cons, ih hidxs ht' hb' hplain', refNum, hstep, hstep]
    by_cases hj : j = b
    · by_cases hk : k ∈ idxs
      · have hki : k ≠ i := fun hki ↦ hi (hki ▸ hk)
        simp [hj, hk, hki, refNum]
      · by_cases hki : k = i
        · simp [hj, hki, hi]
        · simp [hj, hk, hki]
    · simp [hj]

/-- Whatever counts for a node has the same count. -/
def Tied (dag : ECDAG) (k : ℕ) : Prop := ∀ j ∈ chain dag.shape k, dag.refNum j k = dag.refNum k k

theorem refFor_foldl_unrefChild (h : Flat dag.shape) (num : ℕ) (cs : List ℕ)
    (hcs : ∀ c ∈ cs, dag.shape c ≠ none ∧ dag.Tied c) (j k : ℕ) :
    (cs.foldl (unrefChild num) dag).refFor j k =
      if k ∈ cs ∧ j ∈ chain dag.shape k then some (dag.refNum j k - (num - 1) * cs.count k) else dag.refFor j k := by
  induction cs generalizing dag with
  | nil => rw [if_neg fun h ↦ List.not_mem_nil h.1]; rfl
  | cons c cs ih =>
    obtain ⟨hc, htied⟩ := hcs c List.mem_cons_self
    have hshape : (unrefChild num dag c).shape = dag.shape := shape_unrefChild num dag c
    have hstep : ∀ j k, (unrefChild num dag c).refFor j k =
        if j ∈ chain dag.shape c ∧ k = c then some (dag.refNum c c - num + 1) else dag.refFor j k := by
      obtain ⟨sh, hsh⟩ := Option.ne_none_iff_exists'.mp hc
      obtain ⟨nd, hnd, -⟩ := exists_of_shape hsh
      have hnum : nd.getRefNumFor c = dag.refNum c c := by
        rw [refNum, refFor, hnd]
        rfl
      intro j k
      rw [unrefChild, hnd]
      dsimp only
      rw [refFor_setRefNum h, hnum]
    have hself : ∀ {l}, dag.shape l ≠ none → l ∈ chain dag.shape l := fun hl ↦ mem_chain_iff.mpr ⟨hl, .inl rfl⟩
    have htied' : ∀ l ∈ cs, (unrefChild num dag c).shape l ≠ none ∧ (unrefChild num dag c).Tied l := by
      intro l hl
      obtain ⟨hsome, htl⟩ := hcs l (List.mem_cons_of_mem c hl)
      rw [hshape]
      refine ⟨hsome, fun i hi ↦ ?_⟩
      rw [hshape] at hi
      rw [refNum, refNum, hstep, hstep]
      by_cases hlc : l = c
      · subst hlc
        rw [if_pos ⟨hi, rfl⟩, if_pos ⟨hself hsome, rfl⟩]
      · rw [if_neg fun h ↦ hlc h.2, if_neg fun h ↦ hlc h.2]
        exact htl i hi
    rw [List.foldl_cons, ih (hshape ▸ h) htied', hshape, refNum, hstep]
    by_cases hk : k = c
    · subst hk
      by_cases hj : j ∈ chain dag.shape k
      · have hjk := htied j hj
        by_cases hmem : k ∈ cs
        · simp only [hmem, hj, and_self, if_true, Option.getD_some, List.mem_cons, or_true, List.count_cons_self,
            Nat.cast_succ, hjk]
          congr 1
          ring
        · simp only [hmem, hj, and_self, if_true, false_and, if_false, List.mem_cons, or_false, List.count_cons_self,
            List.count_eq_zero.mpr hmem, Nat.cast_succ, Nat.cast_zero, hjk]
          congr 1
          ring
      · simp [hj]
    · simp [hk, List.count_cons_of_ne (Ne.symm hk), refNum]

/-! ## Reading -/

def reads (dag : ECDAG) (k : ℕ) : ℕ := ∑ j ∈ dag.nodes.keys.toFinset, (dag.childs j).count k

theorem reads_eq_sum {s : Finset ℕ} (hs : ∀ j ∈ dag.nodes, j ∈ s) (k : ℕ) :
    dag.reads k = ∑ j ∈ s, (dag.childs j).count k := by
  refine Finset.sum_subset (fun j hj ↦ hs j (List.mem_toFinset.mp hj)) fun j _ hj ↦ ?_
  rw [childs_of_notMem fun hmem ↦ hj (List.mem_toFinset.mpr hmem)]
  rfl

theorem reads_join (hp : dag.childs p = []) (coefs : List GF256) (k : ℕ) :
    (dag.join p cs coefs).reads k = dag.reads k + cs.count k := by
  have hmem : ∀ j, j ∈ (dag.join p cs coefs).nodes.keys.toFinset ↔ j = p ∨ j ∈ cs ∨ j ∈ dag.nodes := fun j ↦ by
    rw [List.mem_toFinset]
    exact mem_nodes_join
  rw [reads, reads_eq_sum fun j hj ↦ (hmem j).mpr (.inr (.inr hj))]
  have hterm : ∀ j, ((dag.join p cs coefs).childs j).count k =
      (dag.childs j).count k + if j = p then cs.count k else 0 := by
    intro j
    rw [childs_join_eq]
    split_ifs with hj
    · rw [hj, hp, List.count_nil, Nat.zero_add]
    · rfl
  rw [Finset.sum_congr rfl fun j _ ↦ hterm j, Finset.sum_add_distrib, Finset.sum_ite_eq', if_pos ((hmem p).mpr (.inl rfl))]

end Counting

end ECDAG

end UniDedup.Storage
