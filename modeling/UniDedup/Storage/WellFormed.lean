import UniDedup.Storage.BindRuns
import UniDedup.Storage.Tasks

/-!
# Joins and binds build well formed graphs

A `Join` of a node that is not bound, over children that are no bind nodes, keeps a graph well formed, and so
does a bind of different nodes that have rows of their own over the same children. The order of the children
does not matter to this, unlike to the values.
-/

namespace UniDedup.Storage

namespace ECDAG

/-! ## Joins -/

/-- The node can be joined: when it is there, it is not bound and no bind node. -/
def Joinable (S : ℕ → Option Shape) (p : ℕ) : Prop :=
  ∀ sh, S p = some sh → sh.2.keys.length ≤ 1 ∧ ∀ c ∈ sh.1, Plain S c

section Join

variable {dag : ECDAG} {p c : ℕ} {cs : List ℕ} {coefs : List GF256}

theorem Plain.join (h : Plain dag.shape c) : Plain (dag.join p cs coefs).shape c := by
  intro sh hsh
  rw [shape_join] at hsh
  split at hsh
  · rw [← Option.some.inj hsh]
    exact le_refl 1
  · split at hsh
    · rw [← Option.some.inj hsh]
      exact Nat.zero_le 1
    · exact h sh hsh

theorem headers_joinChild (dag : ECDAG) (c : ℕ) : (dag.joinChild c).headers = dag.headers.erase c := by
  rw [joinChild]
  exact congrArg Prod.fst (foldl_frame (fun _ _ ↦ frame_modify ..) _ _)

theorem headers_foldl_joinChild (dag : ECDAG) (cs : List ℕ) :
    (cs.foldl joinChild dag).headers.Sublist dag.headers := by
  induction cs generalizing dag with
  | nil => exact .refl _
  | cons c cs ih =>
    refine (ih (dag.joinChild c)).trans ?_
    rw [headers_joinChild]
    exact List.erase_sublist

theorem headers_join (dag : ECDAG) (p : ℕ) (cs : List ℕ) (coefs : List GF256) :
    (dag.join p cs coefs).headers.Sublist dag.headers ∨
      p ∉ dag.nodes ∧ (dag.join p cs coefs).headers.Sublist (dag.headers ++ [p]) := by
  have hcluster : ∀ dag : ECDAG, (dag.joinCluster p cs).headers = dag.headers := by
    intro dag
    rw [joinCluster]
    split <;> rfl
  have hsub := headers_foldl_joinChild dag cs
  rw [join, hcluster, joinRoot]
  split
  · next hnone =>
    refine .inr ⟨fun hmem ↦ ?_, hsub.append_right _⟩
    obtain ⟨sh, hsh⟩ := mem_nodes_iff.mp hmem
    have hfold := shape_foldl_joinChild dag cs p
    rw [shape, hnone, hsh, if_neg (by simp)] at hfold
    exact Option.some_ne_none sh hfold.symm
  · exact .inl hsub

theorem mem_headers_join {h : ℕ} (hh : h ∈ (dag.join p cs coefs).headers) : h ∈ dag.headers ∨ h = p := by
  rcases headers_join dag p cs coefs with hsub | ⟨-, hsub⟩
  · exact .inl (hsub.subset hh)
  · simpa using hsub.subset hh

/-- **A `Join` keeps a graph well formed.** -/
theorem Formed.join (h : Formed dag) (hne : cs ≠ []) (hlen : coefs.length = cs.length)
    (hplain : ∀ c ∈ cs, Plain dag.shape c) (hp : Joinable dag.shape p) :
    Formed (dag.join p cs coefs) := by
  have hroot : (dag.join p cs coefs).shape p = some (cs, AList.singleton p coefs) := by
    rw [shape_join, if_pos rfl]
  have hkeep : ∀ id sh, id ≠ p → dag.shape id = some sh → (dag.join p cs coefs).shape id = some sh :=
    fun id sh hid hsh ↦ by rw [join_keep dag cs coefs hid (hsh ▸ Option.some_ne_none sh), hsh]
  refine ⟨fun id sh hsh c hc ↦ ?_, fun id sh hsh ↦ ?_, fun header hmem ↦ ?_⟩
  · rw [mem_nodes_join]
    rw [shape_join] at hsh
    split at hsh
    · rw [← Option.some.inj hsh] at hc
      exact .inr (.inl hc)
    · split at hsh
      · rw [← Option.some.inj hsh] at hc
        exact absurd hc List.not_mem_nil
      · exact .inr (.inr (h.closed id sh hsh c hc))
  · by_cases hid : id = p
    · rw [hid, hroot] at hsh
      rw [hid, ← Option.some.inj hsh]
      exact .own hne hlen fun c hc ↦ (hplain c hc).join
    rw [shape_join, if_neg hid] at hsh
    split at hsh
    · rw [← Option.some.inj hsh]
      exact .leaf
    have hrole := h.role id sh hsh
    cases hrole with
    | leaf => exact .leaf
    | own hne' hlen' hplain' => exact .own hne' hlen' fun c hc ↦ (hplain' c hc).join
    | @bound b cs' M hb hkeys hid' =>
      have hbp : b ≠ p := by
        rintro rfl
        exact absurd (hp _ hb).1 (Nat.not_le.mpr hkeys)
      exact .bound (hkeep b _ hbp hb) hkeys hid'
    | bind hne' hkeys hplain' hlen' htarget =>
      refine .bind hne' hkeys (fun c hc ↦ (hplain' c hc).join) hlen' fun t ht ↦ ?_
      refine (htarget t ht).imp_right fun hS ↦ hkeep t _ ?_ hS
      -- a node that is bound is not joined
      rintro rfl
      exact absurd ((hp _ hS).2 id (List.mem_singleton_self id) _ hsh) (Nat.not_le.mpr hkeys)
  · by_cases hhp : header = p
    · rw [hhp]
      refine ⟨fun sh hsh ↦ ?_, _, hroot, hne⟩
      rw [hroot] at hsh
      rw [← Option.some.inj hsh]
      exact le_refl 1
    · obtain ⟨hplain', sh, hsh, hne'⟩ := h.header header ((mem_headers_join hmem).resolve_right hhp)
      exact ⟨hplain'.join, sh, hkeep header sh hhp hsh, hne'⟩

end Join

theorem formed_empty : Formed {} where
  closed _ sh hsh := absurd hsh.symm (Option.some_ne_none sh)
  role _ sh hsh := absurd hsh.symm (Option.some_ne_none sh)
  header _ h := absurd h List.not_mem_nil

/-- **Joins build well formed graphs**, as long as they make no cycle. -/
theorem wellFormed_ofJoins {joins : List JoinCall} (hacyclic : Acyclic (ofJoins joins).shape)
    (hjoins : ∀ j ∈ joins, j.cidx ≠ [] ∧ j.coefs.length = j.cidx.length) : WellFormed (ofJoins joins) := by
  refine ⟨?_, hacyclic⟩
  clear hacyclic
  induction joins using List.reverseRecOn with
  | nil => exact formed_empty
  | append_singleton joins j ih =>
    have hplain : ∀ id, Plain (ofJoins joins).shape id := by
      intro id sh hsh
      rcases (joined_ofJoins joins).node id sh hsh with rfl | ⟨co, hco⟩
      · exact Nat.zero_le 1
      · rw [hco]
        exact le_refl 1
    obtain ⟨hne, hlen⟩ := hjoins j (by simp)
    rw [ofJoins, List.foldl_append]
    exact (ih fun j hj ↦ hjoins j (List.mem_append_left _ hj)).join hne hlen (fun c _ ↦ hplain c)
      fun sh hsh ↦ ⟨hplain _ sh hsh, fun c _ ↦ hplain c⟩

/-! ## Binds -/

/-- The shape `S'` is `S` with a bind node `b` put under the targets `idxs`, which have rows of their own over
the children `cs`, in any order. -/
structure Grouped (S S' : ℕ → Option Shape) (b : ℕ) (idxs cs : List ℕ) (M : CoefMap) : Prop where
  ne_nil : idxs ≠ []
  target : ∀ t ∈ idxs, ∃ ch co, S t = some (ch, AList.singleton t co) ∧ ch.Perm cs
  row : ∀ t ∈ idxs, t ∈ M
  key : ∀ t ∈ M, t = b ∨ t ∈ idxs
  many : 1 < M.keys.length
  free : S b = none
  notChild : NotChild S b
  nonempty : cs ≠ []
  unbound : bindOf S cs = none
  shape : ∀ id, S' id =
    if id ∈ idxs then some ([b], AList.singleton id [1]) else if id = b then some (cs, M) else S id

/-- No child of the targets is a bind node, and the rows fit the children. -/
structure Regrouped (S S' : ℕ → Option Shape) (b : ℕ) (idxs cs : List ℕ) (M : CoefMap) : Prop
    extends Grouped S S' b idxs cs M where
  length_eq : ∀ t co, M.lookup t = some co → co.length = cs.length
  plain : ∀ c ∈ cs, Plain S c

namespace Grouped

variable {S S' : ℕ → Option Shape} {b id c : ℕ} {idxs cs : List ℕ} {M : CoefMap}
variable (h : Grouped S S' b idxs cs M)
include h

theorem bind_notMem : b ∉ idxs := by
  intro hmem
  obtain ⟨ch, co, hsome, -⟩ := h.target b hmem
  rw [h.free] at hsome
  exact Option.some_ne_none _ hsome.symm

theorem shape_target (hid : id ∈ idxs) : S' id = some ([b], AList.singleton id [1]) := by
  rw [h.shape, if_pos hid]

theorem shape_bind : S' b = some (cs, M) := by
  rw [h.shape, if_neg h.bind_notMem, if_pos rfl]

theorem shape_of_notMem (hid : id ∉ idxs) (hb : id ≠ b) : S' id = S id := by
  rw [h.shape, if_neg hid, if_neg hb]

theorem shape_of_many {sh : Shape} (hsh : S id = some sh) (hkeys : 1 < sh.2.keys.length) :
    S' id = some sh := by
  refine (h.shape_of_notMem (fun hid ↦ ?_) fun hb ↦ ?_).trans hsh
  · obtain ⟨ch, co, hS, -⟩ := h.target id hid
    rw [hsh] at hS
    rw [Option.some.inj hS] at hkeys
    exact absurd hkeys (Nat.lt_irrefl 1)
  · rw [hb, h.free] at hsh
    exact Option.some_ne_none sh hsh.symm

theorem bind_notMem_children : b ∉ cs := by
  intro hb
  obtain ⟨t, ht⟩ := List.exists_mem_of_ne_nil idxs h.ne_nil
  obtain ⟨ch, co, hS, hperm⟩ := h.target t ht
  exact h.notChild t _ hS (hperm.mem_iff.mpr hb)

theorem acyclic (hS : Acyclic S) : Acyclic S' :=
  hS.bind h.ne_nil
    (fun t ht ↦ by
      obtain ⟨ch, co, hsh, hperm⟩ := h.target t ht
      exact ⟨_, hsh, fun c hc ↦ hperm.mem_iff.mpr hc⟩)
    h.free h.notChild h.nonempty h.shape

end Grouped

namespace Regrouped

variable {S S' : ℕ → Option Shape} {b id c : ℕ} {idxs cs : List ℕ} {M : CoefMap}
variable (h : Regrouped S S' b idxs cs M)
include h

theorem plain_of_ne (hc : c ≠ b) (hplain : Plain S c) : Plain S' c := by
  intro sh hsh
  rw [h.shape, if_neg hc] at hsh
  split at hsh
  · rw [← Option.some.inj hsh]
    exact le_refl 1
  · exact hplain sh hsh

theorem plain_child {sh : Shape} (hsh : S id = some sh) (hc : c ∈ sh.1) (hplain : Plain S c) : Plain S' c :=
  h.plain_of_ne (fun hb ↦ h.notChild id sh hsh (hb ▸ hc)) hplain

theorem role {sh : Shape} (hrole : ∀ id sh, S id = some sh → Role S id sh) (hsh : S' id = some sh) :
    Role S' id sh := by
  by_cases hid : id ∈ idxs
  · rw [h.shape_target hid] at hsh
    rw [← Option.some.inj hsh]
    exact .bound h.shape_bind h.many (h.row id hid)
  by_cases hb : id = b
  · subst hb
    rw [h.shape_bind] at hsh
    rw [← Option.some.inj hsh]
    refine .bind h.nonempty h.many (fun c hc ↦ ?_) h.length_eq fun t ht ↦ (h.key t ht).imp_right h.shape_target
    exact h.plain_of_ne (fun heq ↦ h.bind_notMem_children (heq ▸ hc)) (h.plain c hc)
  rw [h.shape_of_notMem hid hb] at hsh
  have hrole' := hrole id sh hsh
  cases hrole' with
  | leaf => exact .leaf
  | own hne hlen hplain => exact .own hne hlen fun c hc ↦ h.plain_child hsh hc (hplain c hc)
  | bound hb' hkeys hid' => exact .bound (h.shape_of_many hb' hkeys) hkeys hid'
  | bind hne hkeys hplain hlen htarget =>
    refine .bind hne hkeys (fun c hc ↦ h.plain_child hsh hc (hplain c hc)) hlen fun t ht ↦ ?_
    refine (htarget t ht).imp_right fun hS ↦ (h.shape_of_notMem (fun hmem ↦ ?_) fun htb ↦ ?_).trans hS
    · -- a target is not bound before
      obtain ⟨ch, co, hS', hperm⟩ := h.target t hmem
      rw [hS] at hS'
      have hch : ch = [id] := (congrArg Prod.fst (Option.some.inj hS')).symm
      have hmem : id ∈ cs := hperm.mem_iff.mp (hch ▸ List.mem_singleton_self id)
      exact absurd (h.plain id hmem _ hsh) (Nat.not_le.mpr hkeys)
    · rw [htb, h.free] at hS
      exact Option.some_ne_none _ hS.symm

end Regrouped

section Bind

variable {dag dag' : ECDAG} {b : ℕ} {idxs cs : List ℕ} {M : CoefMap}

/-- **A bind keeps a graph well formed.** -/
theorem Formed.regrouped (h : Formed dag) (hreg : Regrouped dag.shape dag'.shape b idxs cs M)
    (hheaders : dag'.headers = dag.headers) : Formed dag' := by
  have hmono : ∀ id, id ∈ dag.nodes → id ∈ dag'.nodes := by
    intro id hid
    obtain ⟨sh, hsh⟩ := mem_nodes_iff.mp hid
    rw [mem_nodes_iff, hreg.shape]
    split
    · exact ⟨_, rfl⟩
    · split
      · exact ⟨_, rfl⟩
      · exact ⟨sh, hsh⟩
  refine ⟨fun id sh hsh c hc ↦ ?_, fun id sh hsh ↦ hreg.role h.role hsh, fun header hmem ↦ ?_⟩
  · rw [hreg.shape] at hsh
    split at hsh
    · rw [← Option.some.inj hsh, List.mem_singleton] at hc
      rw [hc, mem_nodes_iff]
      exact ⟨_, hreg.shape_bind⟩
    · split at hsh
      · rw [← Option.some.inj hsh] at hc
        obtain ⟨t, ht⟩ := List.exists_mem_of_ne_nil idxs hreg.ne_nil
        obtain ⟨ch, co, hS, hperm⟩ := hreg.target t ht
        exact hmono c (h.closed t _ hS c (hperm.mem_iff.mpr hc))
      · exact hmono c (h.closed id sh hsh c hc)
  · rw [hheaders] at hmem
    obtain ⟨hplain, sh, hsh, hne⟩ := h.header header hmem
    have hb : header ≠ b := by
      rintro rfl
      rw [hreg.free] at hsh
      exact Option.some_ne_none sh hsh.symm
    refine ⟨hreg.plain_of_ne hb hplain, ?_⟩
    by_cases hid : header ∈ idxs
    · exact ⟨_, hreg.shape_target hid, List.cons_ne_nil b []⟩
    · exact ⟨sh, (hreg.shape_of_notMem hid hb).trans hsh, hne⟩

end Bind

end ECDAG

end UniDedup.Storage
