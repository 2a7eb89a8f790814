import UniDedup.Storage.BindBuilding
import UniDedup.Storage.RS
import UniDedup.Storage.WellFormed

/-!
# Growing graphs

A repair in several stages joins temporaries to sub-packets and to earlier temporaries, binds some of them,
and joins what was lost at the end. Next to what `BindBuilt` says, nothing is there before it is joined, and
what is no child of a node is a header. So a lost sub-packet is a header once it is joined, and it is not
there when it is never joined.

## The invariant

`Grown P lim dag tmp done` says of a graph in the making that it computes what the plan `P` wants of the targets
`done`, that the temporaries below `tmp` keep their values, and that no number from `tmp` on, nor an unjoined
target, is a node. A join, a bind and a constraint each keep it, so a repair in stages is checked one stage at a
time.
-/

namespace UniDedup.Storage

open ECDAG

namespace ECDAG

theorem evaluates_join_one {dag : ECDAG} {env : ℕ → GF256} {p c : ℕ} {coefs : List GF256} {v : GF256}
    (hp : NotChild dag.shape p) (hpc : c ≠ p) (hplain : Plain dag.shape c) (h : Ready dag.shape env c v) :
    Evaluates (dag.join p [c] coefs).shape env p (dot coefs [v]) := by
  have hshape : (dag.join p [c] coefs).shape p = some ([c], AList.singleton p coefs) := by
    rw [shape_join, if_pos rfl]
  have hbind : bindOf (dag.join p [c] coefs).shape [c] = none :=
    bindOf_eq_none fun d hd ↦ by
      rw [List.mem_singleton.mp hd]
      exact hplain.join
  have hlookup : (AList.singleton p coefs : CoefMap).lookup p = some coefs := AList.lookup_insert ∅
  have hrow : rowOf (dag.join p [c] coefs).shape p ([c], AList.singleton p coefs) = some ([c], coefs) := by
    rw [rowOf, hbind, Option.getD_none, hlookup]
    rfl
  exact evaluates_row hshape (List.cons_ne_nil c []) hrow
    (.cons (h.join_mem coefs hp hpc (List.mem_singleton_self c)) .nil)

/-! ## Headers -/

/-- A new root is a header, and what was one and is not joined stays one. -/
theorem headers_subset_join {dag : ECDAG} {p id : ℕ} {cs : List ℕ} (coefs : List GF256) (hid : id ∉ cs)
    (h : id ∈ dag.headers ∨ id = p ∧ dag.shape p = none) : id ∈ (dag.join p cs coefs).headers := by
  have hkeep : ∀ (cs : List ℕ) (dag : ECDAG), id ∉ cs → id ∈ dag.headers →
      id ∈ (cs.foldl joinChild dag).headers := by
    intro cs
    induction cs with
    | nil => exact fun _ _ hmem ↦ hmem
    | cons c cs ih =>
      intro dag hid hmem
      rw [List.mem_cons, not_or] at hid
      refine ih _ hid.2 ?_
      rw [headers_joinChild]
      exact (List.mem_erase_of_ne hid.1).mpr hmem
  have hcluster : ∀ dag : ECDAG, (dag.joinCluster p cs).headers = dag.headers := by
    intro dag
    rw [joinCluster]
    split <;> rfl
  rw [join, hcluster, joinRoot]
  split
  · rcases h with hmem | ⟨rfl, -⟩
    · exact List.mem_append_left _ (hkeep cs dag hid hmem)
    · exact List.mem_append_right _ (List.mem_singleton_self id)
  · next nd hnd =>
    rcases h with hmem | ⟨rfl, hnone⟩
    · exact hkeep cs dag hid hmem
    · -- the root was not there
      have hfold := shape_foldl_joinChild dag cs id
      rw [shape, hnd, if_neg fun hand ↦ hid hand.1, hnone] at hfold
      exact absurd hfold (Option.some_ne_none _)

theorem headers_modify (dag : ECDAG) (id : ℕ) (f : ECNode → ECNode) :
    (dag.modify id f).headers = dag.headers := congrArg Prod.fst (frame_modify dag id f)

theorem headers_bindY {dag dag' : ECDAG} {p c : ℕ} (h : dag.bindY p c = some dag') :
    dag'.headers = dag.headers := by
  obtain ⟨toaddNode, -, h⟩ := Option.bind_eq_some_iff.mp h
  obtain ⟨consNode, -, h⟩ := Option.bind_eq_some_iff.mp h
  cases hcons : consNode.consId with
  | some id =>
    rw [hcons] at h
    rw [← Option.some.inj h]
    exact headers_modify ..
  | none =>
    rw [hcons] at h
    obtain ⟨i, -, h⟩ := Option.bind_eq_some_iff.mp h
    rw [← Option.some.inj h]
    exact headers_modify ..

/-! ## Absent nodes

No operation adds a node but the ones it names. -/

section Absent

variable {dag dag' : ECDAG} {x : ℕ}

theorem notMem_modify (hx : x ∉ dag.nodes) (id : ℕ) (f : ECNode → ECNode) : x ∉ (dag.modify id f).nodes := by
  rw [← AList.lookup_eq_none] at hx ⊢
  rw [lookup_modify]
  split
  · next heq =>
    rw [← heq, hx]
    rfl
  · exact hx

theorem notMem_foldl {α : Type*} {f : ECDAG → α → ECDAG} {js : List α}
    (hf : ∀ j ∈ js, ∀ dag : ECDAG, x ∉ dag.nodes → x ∉ (f dag j).nodes) (hx : x ∉ dag.nodes) :
    x ∉ (js.foldl f dag).nodes := by
  induction js generalizing dag with
  | nil => exact hx
  | cons j js ih =>
    exact ih (fun i hi ↦ hf i (List.mem_cons_of_mem j hi)) (hf j List.mem_cons_self dag hx)

theorem notMem_setRefNum (hx : x ∉ dag.nodes) (node id : ℕ) (ref : ℤ) : x ∉ (dag.setRefNum node id ref).nodes :=
  notMem_foldl (fun _ _ _ hx ↦ notMem_modify hx _ _) hx

theorem notMem_bindTarget (hx : x ∉ dag.nodes) (bindid tbid : ℕ) : x ∉ (bindTarget bindid dag tbid).nodes := by
  rw [bindTarget]
  split
  · exact hx
  · exact notMem_modify (notMem_setRefNum (notMem_modify hx _ _) _ _ _) _ _

theorem notMem_unrefChild (hx : x ∉ dag.nodes) (num cid : ℕ) : x ∉ (unrefChild num dag cid).nodes := by
  rw [unrefChild]
  split
  · exact hx
  · exact notMem_setRefNum hx _ _ _

/-- The node is not there, and it is no later bind node. -/
structure Misses (dag : ECDAG) (x : ℕ) : Prop where
  notMem : x ∉ dag.nodes
  lt : x < dag.bindId

theorem Misses.join (h : Misses dag x) {p : ℕ} {cs : List ℕ} (coefs : List GF256) (hp : x ≠ p) (hcs : x ∉ cs) :
    Misses (dag.join p cs coefs) x where
  notMem := by
    rw [mem_nodes_join]
    exact not_or.mpr ⟨hp, not_or.mpr ⟨hcs, h.notMem⟩⟩
  lt := by
    rw [bindId_join]
    exact h.lt

theorem Misses.foldl_join {α : Type*} (es : List α) (p : α → ℕ) {cs : List ℕ} (co : α → List GF256)
    (hp : ∀ e ∈ es, x ≠ p e) (hcs : x ∉ cs) {dag : ECDAG} (h : Misses dag x) :
    Misses (es.foldl (fun dag e ↦ dag.join (p e) cs (co e)) dag) x := by
  induction es generalizing dag with
  | nil => exact h
  | cons e es ih =>
    exact ih (fun e he ↦ hp e (List.mem_cons_of_mem _ he)) (h.join _ (hp e List.mem_cons_self) hcs)

theorem Misses.bindX (h : Misses dag x) {idxs : List ℕ} {b : ℤ} (hrun : dag.bindX idxs = some (dag', b)) :
    Misses dag' x := by
  rcases idxs with _ | ⟨i, _ | ⟨j, is⟩⟩
  · rwa [← (Prod.mk.inj (Option.some.inj hrun)).1]
  · rwa [← (Prod.mk.inj (Option.some.inj hrun)).1]
  · refine ⟨?_, (bindId_bindX hrun).symm ▸ h.lt.trans (Nat.lt_succ_self _)⟩
    by_cases hfree : dag.bindId ∈ dag.nodes
    · simp [ECDAG.bindX, hfree] at hrun
    simp only [ECDAG.bindX, hfree, if_false, Option.bind_eq_bind, Option.bind_eq_some_iff] at hrun
    obtain ⟨first, -, hrun⟩ := hrun
    split at hrun
    · exact absurd hrun.symm (Option.some_ne_none _)
    obtain ⟨c, -, hrun⟩ := Option.bind_eq_some_iff.mp hrun
    obtain ⟨rfl, -⟩ := Prod.mk.inj (Option.some.inj hrun)
    refine notMem_foldl (fun _ _ _ hx ↦ notMem_unrefChild hx _ _) ?_
    show x ∉ ECDAG.nodes (List.foldl _ _ (i :: j :: is))
    refine notMem_foldl (fun _ _ _ hx ↦ notMem_bindTarget hx _ _) ?_
    rw [AList.mem_insert, not_or]
    exact ⟨h.lt.ne, h.notMem⟩

theorem Misses.bindY (h : Misses dag x) {p c : ℕ} (hrun : dag.bindY p c = some dag') : Misses dag' x := by
  refine ⟨?_, (bindId_bindY hrun).symm ▸ h.lt⟩
  obtain ⟨toaddNode, -, hrun⟩ := Option.bind_eq_some_iff.mp hrun
  obtain ⟨consNode, -, hrun⟩ := Option.bind_eq_some_iff.mp hrun
  cases hcons : consNode.consId with
  | some id =>
    rw [hcons] at hrun
    rw [← Option.some.inj hrun]
    exact notMem_modify h.notMem _ _
  | none =>
    rw [hcons] at hrun
    obtain ⟨i, -, hrun⟩ := Option.bind_eq_some_iff.mp hrun
    rw [← Option.some.inj hrun]
    exact notMem_modify h.notMem p (·.setConstraint c)

theorem Misses.bindYOf (h : Misses dag x) {b : ℤ} {c : ℕ} (hrun : dag.bindYOf b c = some dag') :
    Misses dag' x := by
  rw [ECDAG.bindYOf] at hrun
  split at hrun
  · exact absurd hrun.symm (Option.some_ne_none _)
  · exact h.bindY hrun

end Absent

/-! ## Constrained nodes -/

/-- The node is tied to the place of another. -/
def Constrained (dag : ECDAG) (id : ℕ) : Prop := ∃ nd i, dag.nodes.lookup id = some nd ∧ nd.consId = some i

theorem Constrained.setConstraint {dag : ECDAG} {id : ℕ} (h : Constrained dag id) (p i : ℕ) :
    Constrained (dag.modify p (·.setConstraint i)) id := by
  obtain ⟨nd, j, hnd, hj⟩ := h
  by_cases hid : id = p
  · refine ⟨nd.setConstraint i, i, ?_, rfl⟩
    rw [lookup_modify, if_pos hid, ← hid, hnd]
    rfl
  · refine ⟨nd, j, ?_, hj⟩
    rw [lookup_modify, if_neg hid, hnd]

theorem constrained_bindY {dag dag' : ECDAG} {p c : ℕ} (h : dag.bindY p c = some dag') :
    Constrained dag' p := by
  obtain ⟨toaddNode, hp, h⟩ := Option.bind_eq_some_iff.mp h
  obtain ⟨consNode, -, h⟩ := Option.bind_eq_some_iff.mp h
  have hset : ∀ i, Constrained (dag.modify p (·.setConstraint i)) p := by
    intro i
    refine ⟨toaddNode.setConstraint i, i, ?_, rfl⟩
    rw [lookup_modify, if_pos rfl, hp]
    rfl
  cases hcons : consNode.consId with
  | some id =>
    rw [hcons] at h
    rw [← Option.some.inj h]
    exact hset id
  | none =>
    rw [hcons] at h
    obtain ⟨i, -, h⟩ := Option.bind_eq_some_iff.mp h
    rw [← Option.some.inj h]
    exact hset c

theorem foldlM_bindY {c : ℕ} (ids : List ℕ) {dag : ECDAG} (hc : Constrained dag c)
    (hids : ∀ p ∈ ids, dag.shape p ≠ none) :
    ∃ dag', ids.foldlM (fun dag p ↦ dag.bindY p c) dag = some dag' ∧ dag'.shape = dag.shape ∧
      dag'.bindId = dag.bindId ∧ dag'.headers = dag.headers := by
  induction ids generalizing dag with
  | nil => exact ⟨dag, rfl, rfl, rfl, rfl⟩
  | cons p ids ih =>
    obtain ⟨sh, hsh⟩ := Option.ne_none_iff_exists'.mp (hids p List.mem_cons_self)
    obtain ⟨nd, hnd, -⟩ := Option.map_eq_some_iff.mp hsh
    obtain ⟨consNode, i, hcons, hi⟩ := hc
    have hbindY : dag.bindY p c = some (dag.modify p (·.setConstraint i)) := by
      simp only [bindY, hnd, hcons, hi, Option.bind_eq_bind, Option.bind_some]
    have hshape : (dag.modify p (·.setConstraint i)).shape = dag.shape := shape_modify fun _ ↦ ⟨rfl, rfl⟩
    obtain ⟨dag', hdag', hshape', hbindId, hheaders⟩ :=
      ih (Constrained.setConstraint ⟨consNode, i, hcons, hi⟩ p i) fun q hq ↦ by
        rw [hshape]
        exact hids q (List.mem_cons_of_mem p hq)
    refine ⟨dag', ?_, hshape'.trans hshape, hbindId.trans (bindId_modify ..), hheaders.trans (headers_modify ..)⟩
    rw [List.foldlM_cons, hbindY]
    exact hdag'

end ECDAG

/-! ## Growing -/

/-- A graph under construction in which nothing is there before it is joined. -/
structure Grown (P : Plan) (lim : ℕ) (dag : ECDAG) (tmp : ℕ) (done : ℕ → Prop) : Prop
    extends BindBuilt P lim dag tmp done where
  absent : ∀ p, P.target p ∧ ¬done p ∨ tmp ≤ p → dag.shape p = none
  headed : ∀ id sh, dag.shape id = some sh → NotChild dag.shape id → id ∈ dag.headers

def Keeps (P : Plan) (tmp : ℕ) (dag dag' : ECDAG) : Prop :=
  ∀ t v, P.bound ≤ t → t < tmp → Evaluates dag.shape P.env t v → Evaluates dag'.shape P.env t v

/-- The node can be a child of a join. -/
structure Child (P : Plan) (lim : ℕ) (dag : ECDAG) (tmp c : ℕ) : Prop where
  not_target : ¬P.target c
  lt : c < tmp
  noBind : NoBind dag lim c

section Grown

variable {P : Plan} {lim tmp tmp' p c : ℕ} {dag dag' dag'' : ECDAG} {done done' : ℕ → Prop}
variable {cs idxs : List ℕ} {coefs : List GF256} {co : ℕ → List GF256} {M : CoefMap} {v : GF256}

theorem Keeps.trans (h : Keeps P tmp dag dag') (h' : Keeps P tmp' dag' dag'') (hle : tmp ≤ tmp') :
    Keeps P tmp dag dag'' :=
  fun t v ht hlt hval ↦ h' t v ht (hlt.trans_le hle) (h t v ht hlt hval)

theorem Keeps.of_shape (h : dag'.shape = dag.shape) : Keeps P tmp dag dag' := by
  intro t v _ _ hval
  rwa [h]

theorem Child.src (h : BindBuilt P lim dag tmp done) (hc : P.src c) : Child P lim dag tmp c where
  not_target := P.src_not_target c hc
  lt := (P.src_lt c hc).trans_le h.bound_le
  noBind := h.noBind_src hc

theorem Child.temporary (hbound : P.bound ≤ c) (hlim : lim ≤ c) (hc : c < tmp) : Child P lim dag tmp c where
  not_target htarget := absurd (P.target_lt c htarget) (not_lt.mpr hbound)
  lt := hc
  noBind := .inr hlim

theorem Child.mono (h : Child P lim dag tmp c) (hbindId : dag.bindId ≤ dag'.bindId) (hle : tmp ≤ tmp') :
    Child P lim dag' tmp' c where
  not_target := h.not_target
  lt := h.lt.trans_le hle
  noBind := h.noBind.imp_left fun hlt ↦ hlt.trans_le hbindId

theorem Grown.empty (P : Plan) (hbound : P.bound ≤ bindStart) (hlim : bindStart ≤ lim) :
    Grown P lim {} lim fun _ ↦ False where
  toBindBuilt := .empty P hbound hlim
  absent _ _ := rfl
  headed _ sh hsh := absurd hsh.symm (Option.some_ne_none sh)

/-- What is done may be said in another way, as long as nothing to compute is left out. -/
theorem Grown.congr_done (h : Grown P lim dag tmp done) (hiff : ∀ p, done' p ↔ done p) :
    Grown P lim dag tmp done' where
  toBindBuilt := h.toBindBuilt.imp fun p hp ↦ (hiff p).mp hp
  absent p hp := h.absent p (hp.imp_left (And.imp_right (mt (hiff p).mpr)))
  headed := h.headed

theorem Grown.congr (h : Grown P lim dag tmp done) (hshape : dag'.shape = dag.shape)
    (hbindId : dag'.bindId = dag.bindId) (hheaders : dag'.headers = dag.headers) :
    Grown P lim dag' tmp done where
  toBindBuilt := h.toBindBuilt.congr hshape hbindId
  absent := by
    rw [hshape]
    exact h.absent
  headed := by
    rw [hshape, hheaders]
    exact h.headed

theorem Grown.header (h : Grown P lim dag tmp done) (hp : P.target p) (hdone : done p) : p ∈ dag.headers := by
  obtain ⟨sh, hsh⟩ := Option.ne_none_iff_exists'.mp (h.value p hdone).ne_none
  exact h.headed p sh hsh (h.fresh p (.inl hp))

theorem Grown.keeps_join (h : Grown P lim dag tmp done) (cs : List ℕ) (coefs : List GF256)
    (hp : P.target p ∨ tmp ≤ p) : Keeps P tmp dag (dag.join p cs coefs) := by
  intro t v ht hlt hval
  refine hval.join cs coefs (h.fresh p hp) ?_
  rintro rfl
  rcases hp with hp | hp
  · exact absurd (P.target_lt t hp) (not_lt.mpr ht)
  · exact absurd hlt (not_lt.mpr hp)

section Join

variable (h : Grown P lim dag tmp done) (hcs : ∀ c ∈ cs, Child P lim dag tmp c)
include h hcs

theorem Grown.of_join (hp : P.target p ∧ ¬done p ∨ tmp ≤ p) (hle : tmp ≤ tmp') (hlt : tmp ≤ p → p < tmp')
    (hdone : ∀ q, P.target q → ¬done' q → ¬done q ∧ q ≠ p)
    (hbuilt : BindBuilt P lim (dag.join p cs coefs) tmp' done') :
    Grown P lim (dag.join p cs coefs) tmp' done' where
  toBindBuilt := hbuilt
  absent q hq := by
    have hnone : dag.shape q = none := by
      rcases hq with ⟨htarget, hq⟩ | hq
      · exact h.absent q (.inl ⟨htarget, (hdone q htarget hq).1⟩)
      · exact h.absent q (.inr (hle.trans hq))
    have hqp : q ≠ p := by
      rintro rfl
      rcases hq with ⟨htarget, hq⟩ | hq
      · exact (hdone q htarget hq).2 rfl
      · exact absurd (hlt (hle.trans hq)) (not_lt.mpr hq)
    have hqcs : q ∉ cs := by
      intro hmem
      rcases hq with ⟨htarget, -⟩ | hq
      · exact (hcs q hmem).not_target htarget
      · exact absurd ((hcs q hmem).lt.trans_le (hle.trans hq)) (lt_irrefl q)
    rw [shape_join, if_neg hqp, if_neg fun hand ↦ hqcs hand.1, hnone]
  headed id sh hsh hnot := by
    have hroot : (dag.join p cs coefs).shape p = some (cs, AList.singleton p coefs) := by
      rw [shape_join, if_pos rfl]
    have hpnone := h.absent p hp
    refine headers_subset_join coefs (hnot p _ hroot) ?_
    by_cases hid : id = p
    · exact .inr ⟨hid, hpnone⟩
    · left
      rw [shape_join, if_neg hid, if_neg fun hand ↦ hnot p _ hroot hand.1] at hsh
      refine h.headed id sh hsh fun id' sh' hsh' ↦ ?_
      have hne : id' ≠ p := by
        rintro rfl
        rw [hpnone] at hsh'
        exact Option.some_ne_none _ hsh'.symm
      refine hnot id' sh' ?_
      rw [join_keep dag cs coefs hne (hsh' ▸ Option.some_ne_none sh'), hsh']

theorem Grown.joinTarget (hp : P.target p) (hnot : ¬done p)
    (hroot : Evaluates (dag.join p cs coefs).shape P.env p (P.want p)) :
    Grown P lim (dag.join p cs coefs) tmp fun q ↦ done q ∨ q = p := by
  have hplain : ∀ c ∈ cs, ¬P.target c ∧ c < tmp := fun c hc ↦ ⟨(hcs c hc).not_target, (hcs c hc).lt⟩
  have hbuilt : Built P (dag.join p cs coefs).shape tmp fun q ↦ done q ∨ q = p := by
    refine ((h.toBuilt.join (.inl hp) hplain le_rfl).add (P.target_lt p hp) hroot).imp fun q hq ↦ ?_
    by_cases hqp : q = p
    · exact .inr hqp
    · exact .inl ⟨hq.resolve_right hqp, hqp⟩
  refine h.of_join hcs (.inl ⟨hp, hnot⟩) le_rfl (fun hle ↦ ?_) (fun q _ hq ↦ not_or.mp hq)
    (h.toBindBuilt.of_join (.inl hp) (fun c hc ↦ (hcs c hc).noBind) le_rfl hbuilt)
  exact absurd ((P.target_lt p hp).trans_le h.bound_le) (not_lt.mpr hle)

theorem Grown.joinTemporary : Grown P lim (dag.join tmp cs coefs) (tmp + 1) done := by
  have hplain : ∀ c ∈ cs, ¬P.target c ∧ c < tmp := fun c hc ↦ ⟨(hcs c hc).not_target, (hcs c hc).lt⟩
  have hne : ∀ q, done q → q ≠ tmp := by
    rintro q hq rfl
    exact absurd ((h.done_lt q hq).trans_le h.bound_le) (lt_irrefl q)
  have hbuilt : Built P (dag.join tmp cs coefs).shape (tmp + 1) done :=
    (h.toBuilt.join (.inr le_rfl) hplain (Nat.le_succ tmp)).imp fun q hq ↦ ⟨hq, hne q hq⟩
  refine h.of_join hcs (.inr le_rfl) (Nat.le_succ tmp) (fun _ ↦ Nat.lt_succ_self tmp) (fun q hq hnot ↦ ⟨hnot, ?_⟩)
    (h.toBindBuilt.of_join (.inr le_rfl) (fun c hc ↦ (hcs c hc).noBind) (Nat.le_succ tmp) hbuilt)
  rintro rfl
  exact absurd ((P.target_lt q hq).trans_le h.bound_le) (lt_irrefl q)

end Join

theorem Grown.rebound (h : Grown P lim dag tmp done) (hlim : dag.bindId < lim)
    (hreb : Rebound dag.shape dag'.shape dag.bindId idxs cs co M) (hframe : dag'.frame = dag.frame)
    (hbuilt : BindBuilt P lim dag' tmp done) : Grown P lim dag' tmp done ∧ Keeps P tmp dag dag' := by
  have hbound := h.bound_le_bindId
  have hle := h.lim_le
  have hheaders : dag'.headers = dag.headers := congrArg Prod.fst hframe
  refine ⟨⟨hbuilt, fun p hp ↦ ?_, fun id sh hsh hnot ↦ ?_⟩, fun t v _ _ hval ↦ hreb.evaluates hval⟩
  · have hnone := h.absent p hp
    have hmem : p ∉ idxs := by
      intro hmem
      rw [hreb.target p hmem] at hnone
      exact Option.some_ne_none _ hnone
    have hne : p ≠ dag.bindId := by
      rintro rfl
      rcases hp with hp | hp
      · have := P.target_lt _ hp.1
        omega
      · omega
    rw [hreb.shape_of_notMem hmem hne, hnone]
  · obtain ⟨t, ht⟩ := List.exists_mem_of_ne_nil idxs hreb.ne_nil
    have hbind := hreb.shape t
    rw [if_pos ht] at hbind
    have hid : id ≠ dag.bindId := fun heq ↦ hnot t _ hbind (heq ▸ List.mem_singleton_self id)
    have hidcs : id ∉ cs := hnot _ _ hreb.shape_bind
    -- the bind node took over the children of its targets
    have hnot' : NotChild dag.shape id := by
      intro id' sh' hsh'
      by_cases hmem : id' ∈ idxs
      · rw [hreb.target id' hmem] at hsh'
        rw [← Option.some.inj hsh']
        exact hidcs
      · have hne : id' ≠ dag.bindId := by
          rintro rfl
          rw [hreb.free] at hsh'
          exact Option.some_ne_none _ hsh'.symm
        exact hnot id' sh' (by rw [hreb.shape_of_notMem hmem hne, hsh'])
    rw [hheaders]
    by_cases hmem : id ∈ idxs
    · exact h.headed id _ (hreb.target id hmem) hnot'
    · rw [hreb.shape_of_notMem hmem hid] at hsh
      exact h.headed id sh hsh hnot'

/-- **`BindX`** of what was joined to the same children. -/
theorem Grown.bindX (h : Grown P lim dag tmp done) (hlim : dag.bindId < lim) (hlen : 2 ≤ cs.length)
    (hcluster : (dag.findCluster cs).isSome) (hnodup : idxs.Nodup) (hidxs : 2 ≤ idxs.length)
    (hrow : ∀ t ∈ idxs, dag.shape t = some (cs, AList.singleton t (co t))) :
    ∃ dag' M, dag.bindX idxs = some (dag', (dag.bindId : ℤ)) ∧ dag'.bindId = dag.bindId + 1 ∧
      dag'.frame = dag.frame ∧ Rebound dag.shape dag'.shape dag.bindId idxs cs co M ∧
      Grown P lim dag' tmp done ∧ Keeps P tmp dag dag' := by
  obtain ⟨dag', M, hbind, hbindId, hframe, hreb, hbuilt⟩ :=
    h.toBindBuilt.bindX hlim hlen hcluster hnodup hidxs hrow
  exact ⟨dag', M, hbind, hbindId, hframe, hreb, h.rebound hlim hreb hframe hbuilt⟩

theorem Grown.bindYOf {b : ℕ} (h : Grown P lim dag' tmp done) (hframe : dag'.frame = dag.frame)
    (hcluster : (dag.findCluster cs).isSome) (hreb : Rebound dag.shape dag'.shape b idxs cs co M)
    (hc : dag'.shape c ≠ none) :
    ∃ dag'', dag'.bindYOf (b : ℤ) c = some dag'' ∧ dag''.bindId = dag'.bindId ∧
      dag''.shape = dag'.shape ∧ Constrained dag'' b ∧ Grown P lim dag'' tmp done := by
  obtain ⟨dag'', hbindY, hbindId, hshape, -⟩ :=
    h.toBindBuilt.bindYOf hframe hcluster hreb (Option.ne_none_iff_exists'.mp hc)
  refine ⟨dag'', hbindY, hbindId, hshape, ?_, ?_⟩
  all_goals
    have hneg : ¬(b : ℤ) < 0 := by omega
    rw [ECDAG.bindYOf, if_neg hneg, Int.toNat_natCast] at hbindY
  · exact constrained_bindY hbindY
  · exact h.congr hshape hbindId (headers_bindY hbindY)

/-! ## Several joins -/

section Joins

variable (h : Grown P lim dag tmp done) (hcs : ∀ c ∈ cs, P.src c) (hlen : 2 ≤ cs.length)
include h hcs hlen

theorem Grown.joinTargets (co : ℕ → List GF256) (hids : ∀ p ∈ idxs, P.target p ∧ ¬done p)
    (hnodup : idxs.Nodup) (hdot : ∀ p ∈ idxs, dot (co p) (cs.map P.env) = P.want p) :
    Grown P lim (idxs.foldl (fun dag p ↦ dag.join p cs (co p)) dag) tmp fun q ↦ done q ∨ q ∈ idxs := by
  induction idxs generalizing dag done with
  | nil => exact h.congr_done fun q ↦ by simp
  | cons p ids ih =>
    obtain ⟨hp, hnot⟩ := hids p List.mem_cons_self
    have hready : List.Forall₂ (Ready dag.shape P.env) cs (cs.map P.env) := by
      rw [List.forall₂_map_right_iff, List.forall₂_same]
      exact fun c hc ↦ h.leaf c (hcs c hc)
    have hroot : Evaluates (dag.join p cs (co p)).shape P.env p (P.want p) := by
      rw [← hdot p List.mem_cons_self]
      exact evaluates_join_root (h.fresh p (.inl hp)) (fun hmem ↦ P.src_not_target p (hcs p hmem) hp) hlen hready
    have hjoin := h.joinTarget (fun c hc ↦ .src h.toBindBuilt (hcs c hc)) hp hnot hroot
    refine (ih hjoin (fun q hq ↦ ?_) (List.nodup_cons.mp hnodup).2
      fun q hq ↦ hdot q (List.mem_cons_of_mem p hq)).congr_done fun q ↦ ?_
    · refine ⟨(hids q (List.mem_cons_of_mem p hq)).1, ?_⟩
      rintro (hdone | rfl)
      · exact (hids q (List.mem_cons_of_mem p hq)).2 hdone
      · exact (List.nodup_cons.mp hnodup).1 hq
    · rw [List.mem_cons, or_assoc]

theorem Grown.joinTemporaries (co : ℕ → List GF256) (l : ℕ) :
    Grown P lim ((List.range l).foldl (fun dag i ↦ dag.join (tmp + i) cs (co i)) dag) (tmp + l) done ∧
      Keeps P tmp dag ((List.range l).foldl (fun dag i ↦ dag.join (tmp + i) cs (co i)) dag) ∧
      ∀ i < l, Evaluates ((List.range l).foldl (fun dag i ↦ dag.join (tmp + i) cs (co i)) dag).shape P.env
        (tmp + i) (dot (co i) (cs.map P.env)) := by
  induction l with
  | zero => exact ⟨h, fun _ _ _ _ hval ↦ hval, fun i hi ↦ absurd hi (Nat.not_lt_zero i)⟩
  | succ l ih =>
    obtain ⟨hgrown, hkeeps, hvals⟩ := ih
    rw [List.range_succ, List.foldl_append, List.foldl_cons, List.foldl_nil, ← add_assoc]
    generalize (List.range l).foldl (fun dag i ↦ dag.join (tmp + i) cs (co i)) dag = joined at *
    have hchild : ∀ c ∈ cs, Child P lim joined (tmp + l) c := fun c hc ↦ .src hgrown.toBindBuilt (hcs c hc)
    have hkeep := hgrown.keeps_join cs (co l) (.inr le_rfl)
    have hready : List.Forall₂ (Ready joined.shape P.env) cs (cs.map P.env) := by
      rw [List.forall₂_map_right_iff, List.forall₂_same]
      exact fun c hc ↦ hgrown.leaf c (hcs c hc)
    refine ⟨hgrown.joinTemporary hchild, hkeeps.trans hkeep (Nat.le_add_right ..), fun i hi ↦ ?_⟩
    rcases Nat.lt_succ_iff_lt_or_eq.mp hi with hi | rfl
    · exact hkeep _ _ (h.bound_le.trans (Nat.le_add_right ..)) (Nat.add_lt_add_left hi tmp) (hvals i hi)
    · refine evaluates_join_root (hgrown.fresh _ (.inr le_rfl)) (fun hmem ↦ ?_) hlen hready
      exact absurd (hchild _ hmem).lt (lt_irrefl _)

end Joins

/-- A loop whose turns compute different sub-packets, draw `count` numbers for bind nodes each and keep some
other property of the state. `graph` reads the graph and the next temporary from the state. -/
theorem Grown.foldlM {α σ : Type*} {f : σ → α → Option σ} {Q : α → ℕ → Prop} {I : σ → Prop} {xs : List α}
    {s : σ} (count : ℕ) (graph : σ → ECDAG × ℕ) (hnodup : xs.Nodup)
    (hstep : ∀ x ∈ xs, ∀ (s : σ) (done' : ℕ → Prop),
      (∀ id, done' id → done id ∨ ∃ y ∈ xs, y ≠ x ∧ Q y id) → Grown P lim (graph s).1 (graph s).2 done' → I s →
      (graph s).1.bindId + count ≤ lim → ∃ s', f s x = some s' ∧
        (graph s').1.bindId = (graph s).1.bindId + count ∧
        Grown P lim (graph s').1 (graph s').2 (fun id ↦ done' id ∨ Q x id) ∧ I s')
    (h : Grown P lim (graph s).1 (graph s).2 done) (hI : I s)
    (hlim : (graph s).1.bindId + xs.length * count ≤ lim) :
    ∃ s', xs.foldlM f s = some s' ∧ (graph s').1.bindId = (graph s).1.bindId + xs.length * count ∧
      Grown P lim (graph s').1 (graph s').2 fun id ↦ done id ∨ ∃ x ∈ xs, Q x id := by
  have hrun : ∀ (ys pre : List α), xs = pre ++ ys → ∀ s,
      Grown P lim (graph s).1 (graph s).2 (fun id ↦ done id ∨ ∃ x ∈ pre, Q x id) → I s →
      (graph s).1.bindId + ys.length * count ≤ lim →
      ∃ s', ys.foldlM f s = some s' ∧ (graph s').1.bindId = (graph s).1.bindId + ys.length * count ∧
        Grown P lim (graph s').1 (graph s').2 fun id ↦ done id ∨ ∃ x ∈ xs, Q x id := by
    intro ys
    induction ys with
    | nil =>
      intro pre hxs s h _ _
      rw [List.append_nil] at hxs
      exact ⟨s, rfl, by simp, hxs ▸ h⟩
    | cons x ys ih =>
      intro pre hxs s h hI hlim
      rw [List.length_cons, Nat.succ_mul] at hlim
      have hx : x ∈ xs := by rw [hxs]; simp
      obtain ⟨s₁, hs₁, hbindId, hgrown, hI₁⟩ := hstep x hx s _ (fun id hid ↦ hid.imp_right fun ⟨y, hy, hq⟩ ↦ by
        refine ⟨y, by rw [hxs]; exact List.mem_append_left _ hy, ?_, hq⟩
        rintro rfl
        rw [hxs] at hnodup
        exact (List.disjoint_of_nodup_append hnodup) hy List.mem_cons_self) h hI (by omega)
      have hgrown' : Grown P lim (graph s₁).1 (graph s₁).2 fun id ↦ done id ∨ ∃ x' ∈ pre ++ [x], Q x' id := by
        refine hgrown.congr_done fun id ↦ ?_
        simp only [List.mem_append, List.mem_singleton, or_and_right, exists_or, exists_eq_left, or_assoc]
      obtain ⟨s', hs', hbindId', hgrown''⟩ := ih (pre ++ [x]) (by rw [hxs]; simp) s₁ hgrown' hI₁ (by omega)
      refine ⟨s', ?_, ?_, hgrown''⟩
      · rw [List.foldlM_cons, hs₁]
        exact hs'
      · rw [List.length_cons, Nat.succ_mul]
        omega
  exact hrun xs [] rfl s (h.congr_done fun id ↦ by simp) hI hlim

/-! ## Chains -/

section Chain

variable {d₀ d₁ : ℕ} {c₀ c₁ s : GF256} {queue : List (ℕ × GF256)}

/-- The nodes of a queue can be children. -/
def Queued (P : Plan) (lim : ℕ) (dag : ECDAG) (tmp : ℕ) (queue : List (ℕ × GF256)) : Prop :=
  ∀ e ∈ queue, Child P lim dag tmp e.1

theorem Queued.usable (h : Queued P lim dag tmp queue) : Usable P tmp queue :=
  fun e he ↦ ⟨(h e he).not_target, (h e he).lt⟩

theorem Queued.children (h : Queued P lim dag tmp ((d₀, c₀) :: (d₁, c₁) :: queue)) :
    ∀ c ∈ [d₀, d₁], Child P lim dag tmp c := by
  intro c hc
  rcases List.mem_cons.mp hc with rfl | hc
  · exact h (c, c₀) List.mem_cons_self
  · rw [List.mem_singleton.mp hc]
    exact h (d₁, c₁) (List.mem_cons_of_mem _ List.mem_cons_self)

/-- A turn of a chain: a temporary takes the place of the first two nodes of the queue. -/
theorem Grown.chainStep (h : Grown P lim dag tmp done)
    (hqueue : Queued P lim dag tmp ((d₀, c₀) :: (d₁, c₁) :: queue))
    (hsum : Sums dag.shape P.env ((d₀, c₀) :: (d₁, c₁) :: queue) s) :
    ∃ dag', (dag.join tmp [d₀, d₁] [c₀, c₁]).bindY tmp d₁ = some dag' ∧ dag'.bindId = dag.bindId ∧
      Grown P lim dag' (tmp + 1) done ∧ Keeps P tmp dag dag' ∧ Plain dag'.shape tmp ∧
      Sums dag'.shape P.env ((tmp, 1) :: queue) s ∧ Queued P lim dag' (tmp + 1) ((tmp, 1) :: queue) := by
  obtain ⟨dag', hbind, hshape⟩ := join_bindY dag tmp [c₀, c₁]
    (List.mem_cons_of_mem d₀ (List.mem_singleton_self d₁))
  have hbindId : dag'.bindId = dag.bindId := (bindId_bindY hbind).trans (bindId_join ..)
  obtain ⟨-, hsum', -⟩ := h.toBuilt.join_tmp hqueue.usable hsum
  have hgrown : Grown P lim (dag.join tmp [d₀, d₁] [c₀, c₁]) (tmp + 1) done := h.joinTemporary hqueue.children
  have hkeeps := h.keeps_join [d₀, d₁] [c₀, c₁] (.inr le_rfl)
  refine ⟨dag', hbind, hbindId, hgrown.congr hshape (bindId_bindY hbind) (headers_bindY hbind),
    hkeeps.trans (.of_shape hshape) le_rfl, fun sh hsh ↦ ?_, by rwa [hshape], fun e he ↦ ?_⟩
  · rw [hshape, shape_join, if_pos rfl] at hsh
    rw [← Option.some.inj hsh]
    exact le_refl 1
  · rcases List.mem_cons.mp he with rfl | he
    · exact .temporary h.bound_le h.lim_le (Nat.lt_succ_self tmp)
    · exact (hqueue e (List.mem_cons_of_mem _ (List.mem_cons_of_mem _ he))).mono hbindId.ge (Nat.le_succ tmp)

theorem Grown.chainLast (h : Grown P lim dag tmp done) (hp : P.target p) (hnot : ¬done p)
    (hqueue : Queued P lim dag tmp [(d₀, c₀), (d₁, c₁)])
    (hsum : Sums dag.shape P.env [(d₀, c₀), (d₁, c₁)] (P.want p)) :
    ∃ dag', (dag.join p [d₀, d₁] [c₀, c₁]).bindY p d₁ = some dag' ∧ dag'.bindId = dag.bindId ∧
      Grown P lim dag' tmp (fun q ↦ done q ∨ q = p) ∧ Keeps P tmp dag dag' := by
  obtain ⟨dag', hbind, hshape⟩ := join_bindY dag p [c₀, c₁]
    (List.mem_cons_of_mem d₀ (List.mem_singleton_self d₁))
  obtain ⟨v, s', hv, hs', hwant⟩ := h.toBuilt.join_front (.inl hp) hqueue.usable hsum
  have hs0 : s' = 0 := hs'
  rw [hs0, add_zero] at hwant
  have hgrown := h.joinTarget hqueue.children hp hnot (hwant ▸ hv)
  refine ⟨dag', hbind, (bindId_bindY hbind).trans (bindId_join ..),
    hgrown.congr hshape (bindId_bindY hbind) (headers_bindY hbind), ?_⟩
  exact (h.keeps_join [d₀, d₁] [c₀, c₁] (.inl hp)).trans (.of_shape hshape) le_rfl

/-- **The chain of `RSPIPE`**, in a growing graph. -/
theorem RSPIPE.pipeline_grown (hp : P.target p) (fuel : ℕ) (hnot : ¬done p) (hfuel : queue.length ≤ fuel)
    (hlen : 2 ≤ queue.length) (h : Grown P lim dag tmp done) (hqueue : Queued P lim dag tmp queue)
    (hsum : Sums dag.shape P.env queue (P.want p)) :
    ∃ dag' tmp', RSPIPE.pipeline p fuel dag tmp queue = some (dag', tmp') ∧ dag'.bindId = dag.bindId ∧
      Grown P lim dag' tmp' fun q ↦ done q ∨ q = p := by
  induction fuel generalizing dag tmp queue with
  | zero => omega
  | succ fuel ih =>
    rcases queue with _ | ⟨⟨d₀, c₀⟩, _ | ⟨⟨d₁, c₁⟩, rest⟩⟩
    · exact absurd hlen (Nat.not_succ_le_zero 1)
    · exact absurd hlen (Nat.not_succ_le_self 1)
    rcases rest with _ | ⟨e, rest⟩
    · obtain ⟨dag', hbind, hbindId, hgrown, -⟩ := h.chainLast hp hnot hqueue hsum
      refine ⟨dag', tmp, ?_, hbindId, hgrown⟩
      simp only [pipeline, List.isEmpty_nil, if_true, hbind, Option.bind_eq_bind, Option.bind_some]
    · obtain ⟨dag', hbind, hbindId, hgrown, -, -, hsum', hqueue'⟩ := h.chainStep hqueue hsum
      rw [List.length_cons, List.length_cons] at hfuel
      obtain ⟨dag'', tmp', heq, hbindId', hgrown'⟩ := ih (by simpa using hfuel) (by simp) hgrown hqueue' hsum'
      refine ⟨dag'', tmp', ?_, hbindId'.trans hbindId, hgrown'⟩
      rw [← heq]
      simp only [pipeline, List.isEmpty_cons, Bool.false_eq_true, if_false, hbind, Option.bind_eq_bind,
        Option.bind_some]

end Chain

end Grown

end UniDedup.Storage
