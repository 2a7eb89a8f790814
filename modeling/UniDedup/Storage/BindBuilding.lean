import UniDedup.Storage.Binding
import UniDedup.Storage.Building

/-!
# Graphs built by joins and binds

A code that binds draws numbers for the bind nodes from a counter of the graph, and may draw numbers for its
temporaries from another. Below a limit the numbers from the first counter on are free: no node has them and
no node has a child with them. A join at a sub-packet to compute or at a temporary keeps this, and so does a
bind of what was just joined, which also keeps every value.
-/

namespace UniDedup.Storage

open ECDAG

/-- A graph under construction, whose bind nodes are numbered below `lim`. -/
structure BindBuilt (P : Plan) (lim : ℕ) (dag : ECDAG) (tmp : ℕ) (done : ℕ → Prop) : Prop
    extends Built P dag.shape tmp done where
  bound_le_bindId : P.bound ≤ dag.bindId
  lim_le : lim ≤ tmp
  free : ∀ b, dag.bindId ≤ b → b < lim → dag.shape b = none ∧ NotChild dag.shape b

section BindBuilt

variable {P : Plan} {lim tmp tmp' p b : ℕ} {dag dag' : ECDAG} {done done' : ℕ → Prop}
variable {cs idxs : List ℕ} {coefs : List GF256} {co : ℕ → List GF256} {M : CoefMap}

theorem BindBuilt.empty (P : Plan) (hbound : P.bound ≤ bindStart) (hlim : bindStart ≤ lim) :
    BindBuilt P lim {} lim fun _ ↦ False where
  bound_le := hbound.trans hlim
  leaf _ _ := .inl ⟨rfl, rfl⟩
  fresh _ _ _ sh hsh := absurd hsh.symm (Option.some_ne_none sh)
  done_lt _ h := h.elim
  value _ h := h.elim
  bound_le_bindId := hbound
  lim_le := le_rfl
  free _ _ _ := ⟨rfl, fun _ sh hsh ↦ absurd hsh.symm (Option.some_ne_none sh)⟩

theorem BindBuilt.imp (h : BindBuilt P lim dag tmp done) (himp : ∀ p, done' p → done p) :
    BindBuilt P lim dag tmp done' :=
  { h with toBuilt := h.toBuilt.imp himp }

theorem BindBuilt.congr (h : BindBuilt P lim dag tmp done) (hshape : dag'.shape = dag.shape)
    (hbindId : dag'.bindId = dag.bindId) : BindBuilt P lim dag' tmp done where
  toBuilt := hshape ▸ h.toBuilt
  bound_le_bindId := hbindId ▸ h.bound_le_bindId
  lim_le := h.lim_le
  free := by
    rw [hshape, hbindId]
    exact h.free

/-- The children of a join are no numbers for bind nodes to come. -/
def NoBind (dag : ECDAG) (lim c : ℕ) : Prop := c < dag.bindId ∨ lim ≤ c

theorem BindBuilt.free_join (h : BindBuilt P lim dag tmp done) (hp : P.target p ∨ tmp ≤ p)
    (hcs : ∀ c ∈ cs, NoBind dag lim c) (hb : (dag.join p cs coefs).bindId ≤ b) (hlim : b < lim) :
    (dag.join p cs coefs).shape b = none ∧ NotChild (dag.join p cs coefs).shape b := by
  rw [bindId_join] at hb
  obtain ⟨hnone, hnot⟩ := h.free b hb hlim
  have hbcs : b ∉ cs := by
    intro hmem
    rcases hcs b hmem with hlt | hle
    · omega
    · omega
  have hbp : b ≠ p := by
    rintro rfl
    rcases hp with htarget | hle
    · have := P.target_lt _ htarget
      have := h.bound_le_bindId
      omega
    · have := h.lim_le
      omega
  refine ⟨?_, hnot.join coefs hbcs⟩
  rw [shape_join, if_neg hbp, if_neg fun hmem ↦ hbcs hmem.1, hnone]

theorem BindBuilt.of_join (h : BindBuilt P lim dag tmp done) (hp : P.target p ∨ tmp ≤ p)
    (hcs : ∀ c ∈ cs, NoBind dag lim c) (hle : tmp ≤ tmp')
    (hbuilt : Built P (dag.join p cs coefs).shape tmp' done') :
    BindBuilt P lim (dag.join p cs coefs) tmp' done' where
  toBuilt := hbuilt
  bound_le_bindId := by
    rw [bindId_join]
    exact h.bound_le_bindId
  lim_le := h.lim_le.trans hle
  free _ hb hlim := h.free_join hp hcs hb hlim

theorem BindBuilt.noBind_src (h : BindBuilt P lim dag tmp done) {c : ℕ} (hc : P.src c) : NoBind dag lim c :=
  .inl ((P.src_lt c hc).trans_le h.bound_le_bindId)

/-- Joining sub-packets to compute to the same sub-packets that are read. -/
theorem BindBuilt.joinTargets (co : ℕ → List GF256) (h : BindBuilt P lim dag tmp done) (ids : List ℕ)
    (hids : ∀ p ∈ ids, P.target p) (hcs : ∀ c ∈ cs, P.src c) (hlen : 2 ≤ cs.length)
    (hdot : ∀ p ∈ ids, dot (co p) (cs.map P.env) = P.want p) :
    BindBuilt P lim (ids.foldl (fun dag p ↦ dag.join p cs (co p)) dag) tmp fun q ↦
      done q ∨ q ∈ ids ∨ ids ≠ [] ∧ q ∈ cs := by
  induction ids generalizing dag done with
  | nil => exact h.imp fun q hq ↦ by simpa using hq
  | cons p ids ih =>
    have hp := hids p List.mem_cons_self
    have hjoin := h.of_join (.inl hp) (fun c hc ↦ h.noBind_src (hcs c hc)) le_rfl
      (h.toBuilt.joinTarget (co p) hp hcs hlen (hdot p List.mem_cons_self))
    refine (ih hjoin (fun q hq ↦ hids q (List.mem_cons_of_mem p hq))
      fun q hq ↦ hdot q (List.mem_cons_of_mem p hq)).imp fun q hq ↦ ?_
    rcases hq with hq | hq | ⟨-, hq⟩
    · exact .inl (.inl hq)
    · rcases List.mem_cons.mp hq with rfl | hq
      · exact .inl (.inr (.inl rfl))
      · exact .inr (.inl hq)
    · exact .inl (.inr (.inr hq))

/-! ## Binding what was joined -/

theorem BindBuilt.rebound (h : BindBuilt P lim dag tmp done) (hlim : dag.bindId < lim)
    (hreb : Rebound dag.shape dag'.shape dag.bindId idxs cs co M) (hbindId : dag'.bindId = dag.bindId + 1) :
    BindBuilt P lim dag' tmp done := by
  have hnotChild : ∀ q, q ≠ dag.bindId → NotChild dag.shape q → NotChild dag'.shape q := by
    intro q hq hnot id sh hsh
    rw [hreb.shape] at hsh
    split at hsh
    · rw [← Option.some.inj hsh]
      exact List.not_mem_cons_of_ne_of_not_mem hq List.not_mem_nil
    · split at hsh
      · rw [← Option.some.inj hsh]
        obtain ⟨t, ht⟩ := List.exists_mem_of_ne_nil idxs hreb.ne_nil
        exact (hnot t _ (hreb.target t ht) : q ∉ cs)
      · exact hnot id sh hsh
  have hnone : ∀ q, q ≠ dag.bindId → dag.shape q = none → dag'.shape q = none := by
    intro q hq hnone
    have hmem : q ∉ idxs := by
      intro hmem
      rw [hreb.target q hmem] at hnone
      exact Option.some_ne_none _ hnone
    rw [hreb.shape_of_notMem hmem hq, hnone]
  constructor
  · refine ⟨h.bound_le, fun s hs ↦ ?_, fun p hp ↦ ?_, h.done_lt, fun p hp ↦ hreb.evaluates (h.value p hp)⟩
    · rcases h.leaf s hs with ⟨hs', hv⟩ | hv
      · refine .inl ⟨hnone s ?_ hs', hv⟩
        have := P.src_lt s hs
        have := h.bound_le_bindId
        omega
      · exact .inr (hreb.evaluates hv)
    · refine hnotChild p ?_ (h.fresh p hp)
      have := h.bound_le_bindId
      have := h.lim_le
      rcases hp with hp | hp
      · have := P.target_lt p hp
        omega
      · omega
  · have := h.bound_le_bindId
    omega
  · exact h.lim_le
  · intro b hb hlt
    obtain ⟨hb', hnot⟩ := h.free b (by omega) hlt
    exact ⟨hnone b (by omega) hb', hnotChild b (by omega) hnot⟩

/-- Nodes with two children or more can be bound while there are numbers left. -/
theorem BindBuilt.bindable (h : BindBuilt P lim dag tmp done) (hlim : dag.bindId < lim)
    (hlen : 2 ≤ cs.length) (hcluster : (dag.findCluster cs).isSome) : dag.Bindable cs where
  free := shape_eq_none.mp (h.free _ le_rfl hlim).1
  notChild := (h.free _ le_rfl hlim).2
  nonempty := List.ne_nil_of_length_pos (by omega)
  plain := by
    rcases cs with _ | ⟨c, _ | ⟨d, rest⟩⟩
    · rfl
    · exact absurd hlen (Nat.not_succ_le_self 1)
    · rfl
  cluster := hcluster

/-- **`BindX`** of nodes that were joined to the same children. -/
theorem BindBuilt.bindX (h : BindBuilt P lim dag tmp done) (hlim : dag.bindId < lim) (hlen : 2 ≤ cs.length)
    (hcluster : (dag.findCluster cs).isSome) (hnodup : idxs.Nodup) (hidxs : 2 ≤ idxs.length)
    (hrow : ∀ t ∈ idxs, dag.shape t = some (cs, AList.singleton t (co t))) :
    ∃ dag' M, dag.bindX idxs = some (dag', (dag.bindId : ℤ)) ∧ dag'.bindId = dag.bindId + 1 ∧
      dag'.frame = dag.frame ∧ Rebound dag.shape dag'.shape dag.bindId idxs cs co M ∧
      BindBuilt P lim dag' tmp done := by
  obtain ⟨dag', hbind, hbindId, hframe, hreb⟩ := (h.bindable hlim hlen hcluster).bindX hnodup hidxs hrow
  exact ⟨dag', _, hbind, hbindId, hframe, hreb, h.rebound hlim hreb hbindId⟩

theorem BindBuilt.bindXSp {t : ℕ} (h : BindBuilt P lim dag tmp done) (hlim : dag.bindId < lim)
    (hlen : 2 ≤ cs.length) (hcluster : (dag.findCluster cs).isSome)
    (hrow : dag.shape t = some (cs, AList.singleton t coefs)) :
    ∃ dag' M, dag.bindXSp t = some (dag', (dag.bindId : ℤ)) ∧ dag'.bindId = dag.bindId + 1 ∧
      dag'.frame = dag.frame ∧ Rebound dag.shape dag'.shape dag.bindId [t] cs (fun _ ↦ coefs) M ∧
      BindBuilt P lim dag' tmp done := by
  obtain ⟨dag', hbind, hbindId, hframe, hreb⟩ := (h.bindable hlim hlen hcluster).bindXSp hrow
  exact ⟨dag', _, hbind, hbindId, hframe, hreb, h.rebound hlim hreb hbindId⟩

theorem bindId_bindY {c : ℕ} (h : dag.bindY p c = some dag') : dag'.bindId = dag.bindId := by
  obtain ⟨toaddNode, -, h⟩ := Option.bind_eq_some_iff.mp h
  obtain ⟨consNode, -, h⟩ := Option.bind_eq_some_iff.mp h
  cases hcons : consNode.consId with
  | some id =>
    rw [hcons] at h
    rw [← Option.some.inj h]
    exact bindId_modify ..
  | none =>
    rw [hcons] at h
    obtain ⟨i, -, h⟩ := Option.bind_eq_some_iff.mp h
    rw [← Option.some.inj h]
    exact bindId_modify ..

theorem BindBuilt.bindYOf {c : ℕ} (h : BindBuilt P lim dag' tmp done) (hframe : dag'.frame = dag.frame)
    (hcluster : (dag.findCluster cs).isSome) (hreb : Rebound dag.shape dag'.shape b idxs cs co M)
    (hc : ∃ sh, dag'.shape c = some sh) :
    ∃ dag'', dag'.bindYOf (b : ℤ) c = some dag'' ∧ dag''.bindId = dag'.bindId ∧
      dag''.shape = dag'.shape ∧ BindBuilt P lim dag'' tmp done := by
  obtain ⟨⟨cs', M'⟩, hc⟩ := hc
  obtain ⟨dag'', hbindY, hshape⟩ := bindY_eq_some hreb.shape_bind hc (by rwa [findCluster_of_frame hframe])
  have hneg : ¬(b : ℤ) < 0 := by omega
  refine ⟨dag'', ?_, bindId_bindY hbindY, hshape, h.congr hshape (bindId_bindY hbindY)⟩
  rw [ECDAG.bindYOf, if_neg hneg, Int.toNat_natCast, hbindY]

/-! Joining sub-packets to compute and binding them at once. -/

section JoinBind

variable (h : BindBuilt P lim dag tmp done) (hlim : dag.bindId < lim) (hcs : ∀ c ∈ cs, P.src c)
variable (hlen : 2 ≤ cs.length)
include h hlim hcs hlen

theorem BindBuilt.joinTargets_bindX (co : ℕ → List GF256) (hids : ∀ p ∈ idxs, P.target p) (hnodup : idxs.Nodup)
    (htwo : 2 ≤ idxs.length) (hdot : ∀ p ∈ idxs, dot (co p) (cs.map P.env) = P.want p) {c : ℕ} (hc : c ∈ cs) :
    ∃ d b dag', (idxs.foldl (fun dag p ↦ dag.join p cs (co p)) dag).bindX idxs = some (d, b) ∧
      d.bindYOf b c = some dag' ∧ dag'.bindId = dag.bindId + 1 ∧
      BindBuilt P lim dag' tmp fun q ↦ done q ∨ q ∈ idxs ∨ q ∈ cs := by
  have hne : idxs ≠ [] := List.ne_nil_of_length_pos (by omega)
  have hjoin := h.joinTargets co idxs hids hcs hlen hdot
  have hbindId := bindId_foldl_join cs co idxs dag
  have hcluster := findCluster_foldl_join cs co hne dag
  have hrow : ∀ t ∈ idxs, (idxs.foldl (fun dag p ↦ dag.join p cs (co p)) dag).shape t =
      some (cs, AList.singleton t (co t)) := fun t ht ↦ by rw [shape_foldl_join, if_pos ht]
  generalize idxs.foldl (fun dag p ↦ dag.join p cs (co p)) dag = joined at *
  obtain ⟨d, M, hbind, hbindId', hframe, hreb, hbuilt⟩ :=
    hjoin.bindX (hbindId ▸ hlim) hlen hcluster hnodup htwo hrow
  have hchild := (hbuilt.value c (.inr (.inr ⟨hne, hc⟩))).ne_none
  obtain ⟨dag', hbindY, hbindId'', -, hbuilt'⟩ :=
    hbuilt.bindYOf hframe hcluster hreb (Option.ne_none_iff_exists'.mp hchild)
  refine ⟨d, _, dag', hbind, hbindY, ?_, hbuilt'.imp fun q hq ↦ ?_⟩
  · rw [hbindId'', hbindId', hbindId]
  · exact hq.imp_right fun hq ↦ hq.imp_right fun hq ↦ ⟨hne, hq⟩

theorem BindBuilt.join_bindXSp (hp : P.target p) (hdot : dot coefs (cs.map P.env) = P.want p) {c : ℕ}
    (hc : c ∈ cs) :
    ∃ d b dag', (dag.join p cs coefs).bindXSp p = some (d, b) ∧ d.bindYOf b c = some dag' ∧
      dag'.bindId = dag.bindId + 1 ∧ BindBuilt P lim dag' tmp fun q ↦ done q ∨ q = p := by
  have hjoin := h.joinTargets (fun _ ↦ coefs) [p] (by simpa using hp) hcs hlen (by simpa using hdot)
  have hbindId := bindId_join dag p cs coefs
  have hcluster := findCluster_join dag p cs coefs
  have hrow : (dag.join p cs coefs).shape p = some (cs, AList.singleton p coefs) := by
    rw [shape_join, if_pos rfl]
  rw [List.foldl_cons, List.foldl_nil] at hjoin
  generalize dag.join p cs coefs = joined at *
  obtain ⟨d, M, hbind, hbindId', hframe, hreb, hbuilt⟩ := hjoin.bindXSp (hbindId ▸ hlim) hlen hcluster hrow
  have hchild := (hbuilt.value c (.inr (.inr ⟨List.cons_ne_nil p [], hc⟩))).ne_none
  obtain ⟨dag', hbindY, hbindId'', -, hbuilt'⟩ :=
    hbuilt.bindYOf hframe hcluster hreb (Option.ne_none_iff_exists'.mp hchild)
  refine ⟨d, _, dag', hbind, hbindY, ?_, hbuilt'.imp fun q hq ↦ ?_⟩
  · rw [hbindId'', hbindId', hbindId]
  · exact hq.imp_right fun hq ↦ .inl (List.mem_singleton.mpr hq)

end JoinBind

end BindBuilt

end UniDedup.Storage
