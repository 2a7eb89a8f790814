import UniDedup.Storage.Evaluation

/-!
# Graphs built by joins

Encoding and decoding build their graphs by joins whose roots are sub-packets to compute or temporaries
that were not used before, and whose children are sub-packets to read or earlier temporaries. So a root is
never a child of a node that is there, and the values computed before stay what they were.

In a chain and in a tree the queue holds the nodes that are still to be added up, with their coefficients:
their weighted sum is the lost sub-packet from the beginning to the end, for the node that replaces the
first two stands for their sum.
-/

namespace UniDedup.Storage

open ECDAG

/-! ## Building a graph by joins -/

/-- What a graph is built for: the sub-packets that are read, with their values in `env`, and the ones that
are computed, with the values they should have in `want`. Temporaries are numbered from `bound` on. -/
structure Plan where
  env : ℕ → GF256
  want : ℕ → GF256
  src : ℕ → Prop
  target : ℕ → Prop
  bound : ℕ
  src_not_target : ∀ s, src s → ¬target s
  src_lt : ∀ s, src s → s < bound
  target_lt : ∀ p, target p → p < bound
  want_src : ∀ s, src s → want s = env s

/-- The shape of a graph under construction, with the next temporary and the sub-packets that are done. -/
structure Built (P : Plan) (S : ℕ → Option Shape) (tmp : ℕ) (done : ℕ → Prop) : Prop where
  bound_le : P.bound ≤ tmp
  leaf : ∀ s, P.src s → Ready S P.env s (P.env s)
  fresh : ∀ p, P.target p ∨ tmp ≤ p → NotChild S p
  done_lt : ∀ p, done p → p < P.bound
  value : ∀ p, done p → Evaluates S P.env p (P.want p)

section Built

variable {P : Plan} {S : ℕ → Option Shape} {dag : ECDAG} {tmp tmp' p : ℕ} {done done' : ℕ → Prop}
variable {cs : List ℕ} {coefs : List GF256}

theorem Built.empty (P : Plan) : Built P (shape {}) P.bound fun _ ↦ False where
  bound_le := le_rfl
  leaf _ _ := .inl ⟨rfl, rfl⟩
  fresh _ _ _ sh hsh := absurd hsh.symm (Option.some_ne_none sh)
  done_lt _ h := h.elim
  value _ h := h.elim

theorem Built.imp (h : Built P S tmp done) (himp : ∀ p, done' p → done p) : Built P S tmp done' :=
  { h with
    done_lt := fun p hp ↦ h.done_lt p (himp p hp)
    value := fun p hp ↦ h.value p (himp p hp) }

theorem Built.add (h : Built P S tmp done) (hp : p < P.bound) (hval : Evaluates S P.env p (P.want p)) :
    Built P S tmp fun q ↦ done q ∨ q = p where
  bound_le := h.bound_le
  leaf := h.leaf
  fresh := h.fresh
  done_lt q hq := by
    rcases hq with hq | rfl
    · exact h.done_lt q hq
    · exact hp
  value q hq := by
    rcases hq with hq | rfl
    · exact h.value q hq
    · exact hval

/-- A join at a sub-packet to compute, or at a temporary, keeps everything else. -/
theorem Built.join (h : Built P dag.shape tmp done) (hp : P.target p ∨ tmp ≤ p)
    (hcs : ∀ c ∈ cs, ¬P.target c ∧ c < tmp) (hle : tmp ≤ tmp') :
    Built P (dag.join p cs coefs).shape tmp' fun q ↦ done q ∧ q ≠ p where
  bound_le := h.bound_le.trans hle
  leaf s hs := by
    refine (h.leaf s hs).join cs coefs (h.fresh p hp) ?_
    rintro rfl
    rcases hp with hp | hp
    · exact P.src_not_target s hs hp
    · have := P.src_lt s hs
      have := h.bound_le
      omega
  fresh q hq := by
    refine (h.fresh q (hq.imp_right fun hq ↦ hle.trans hq)).join coefs fun hmem ↦ ?_
    obtain ⟨hnot, hlt⟩ := hcs q hmem
    rcases hq with hq | hq
    · exact hnot hq
    · omega
  done_lt q hq := h.done_lt q hq.1
  value q hq := (h.value q hq.1).join cs coefs (h.fresh p hp) hq.2

theorem Built.joinTarget (coefs : List GF256) (h : Built P dag.shape tmp done) (hp : P.target p)
    (hcs : ∀ c ∈ cs, P.src c) (hlen : 2 ≤ cs.length) (hdot : dot coefs (cs.map P.env) = P.want p) :
    Built P (dag.join p cs coefs).shape tmp fun q ↦ done q ∨ q = p ∨ q ∈ cs := by
  have hnotChild := h.fresh p (.inl hp)
  have hpcs : p ∉ cs := fun hmem ↦ P.src_not_target p (hcs p hmem) hp
  have hready : List.Forall₂ (Ready dag.shape P.env) cs (cs.map P.env) := by
    rw [List.forall₂_map_right_iff, List.forall₂_same]
    exact fun c hc ↦ h.leaf c (hcs c hc)
  have hroot : Evaluates (dag.join p cs coefs).shape P.env p (P.want p) := by
    rw [← hdot]
    exact evaluates_join_root hnotChild hpcs hlen hready
  have hjoin : Built P (dag.join p cs coefs).shape tmp fun q ↦ done q ∧ q ≠ p := by
    refine h.join (.inl hp) (fun c hc ↦ ⟨P.src_not_target c (hcs c hc), ?_⟩) le_rfl
    exact (P.src_lt c (hcs c hc)).trans_le h.bound_le
  refine ⟨hjoin.bound_le, hjoin.leaf, hjoin.fresh, fun q hq ↦ ?_, fun q hq ↦ ?_⟩
  · rcases hq with hq | rfl | hq
    · exact h.done_lt q hq
    · exact P.target_lt q hp
    · exact P.src_lt q (hcs q hq)
  · by_cases hqp : q = p
    · rw [hqp]
      exact hroot
    rcases hq with hq | rfl | hq
    · exact hjoin.value q ⟨hq, hqp⟩
    · exact hroot
    · rw [P.want_src q (hcs q hq)]
      exact (h.leaf q (hcs q hq)).join_mem coefs hnotChild hqp hq

/-! Joins of several nodes to the same children. -/

/-- After some joins over the same children, what was joined has its row. -/
theorem shape_foldl_join (ds : List ℕ) (co : ℕ → List GF256) (ids : List ℕ) (dag : ECDAG) (id : ℕ) :
    (ids.foldl (fun dag p ↦ dag.join p ds (co p)) dag).shape id =
      if id ∈ ids then some (ds, AList.singleton id (co id))
      else if ids ≠ [] ∧ id ∈ ds ∧ dag.shape id = none then some ([], ∅) else dag.shape id := by
  induction ids generalizing dag with
  | nil => simp
  | cons p ids ih =>
    rw [List.foldl_cons, ih, shape_join]
    by_cases hid : id ∈ ids
    · simp [hid]
    by_cases hp : id = p
    · subst hp
      simp [hid]
    · by_cases hnone : id ∈ ds ∧ dag.shape id = none <;> simp [hid, hp, hnone]

theorem bindId_foldl_join (ds : List ℕ) (co : ℕ → List GF256) (ids : List ℕ) (dag : ECDAG) :
    (ids.foldl (fun dag p ↦ dag.join p ds (co p)) dag).bindId = dag.bindId :=
  bindId_foldl (fun _ _ ↦ bindId_join ..) ids dag

theorem findCluster_foldl_join (ds : List ℕ) (co : ℕ → List GF256) {ids : List ℕ} (hne : ids ≠ [])
    (dag : ECDAG) : ((ids.foldl (fun dag p ↦ dag.join p ds (co p)) dag).findCluster ds).isSome := by
  obtain ⟨init, p, rfl⟩ := (List.eq_nil_or_concat' ids).resolve_left hne
  rw [List.foldl_append]
  exact findCluster_join ..

/-! A loop of such joins, over blocks or over sub-packets, adds what its turns add. -/

theorem Built.foldl {α : Type*} {f : ECDAG → α → ECDAG} {Q : α → ℕ → Prop} (xs : List α)
    (hstep : ∀ x ∈ xs, ∀ (dag : ECDAG) (done : ℕ → Prop), Built P dag.shape tmp done →
      Built P (f dag x).shape tmp fun id ↦ done id ∨ Q x id)
    (h : Built P dag.shape tmp done) :
    Built P (xs.foldl f dag).shape tmp fun id ↦ done id ∨ ∃ x ∈ xs, Q x id := by
  induction xs generalizing dag done with
  | nil =>
    refine h.imp fun id hid ↦ hid.resolve_right ?_
    rintro ⟨x, hx, -⟩
    exact List.not_mem_nil hx
  | cons x xs ih =>
    have hx := hstep x List.mem_cons_self dag done h
    refine (ih (fun y hy ↦ hstep y (List.mem_cons_of_mem x hy)) hx).imp fun id hid ↦ ?_
    rcases hid with hid | ⟨y, hy, hid⟩
    · exact .inl (.inl hid)
    rcases List.mem_cons.mp hy with rfl | hy
    · exact .inl (.inr hid)
    · exact .inr ⟨y, hy, hid⟩

/-- The same for a loop whose turns may fail, and whose state `graph` reads the graph and the next
temporary from. -/
theorem Built.foldlM {α σ : Type*} {f : σ → α → Option σ} {Q : α → ℕ → Prop}
    (xs : List α) (graph : σ → ECDAG × ℕ) {s : σ}
    (hstep : ∀ x ∈ xs, ∀ (s : σ) (done : ℕ → Prop), Built P (graph s).1.shape (graph s).2 done →
      ∃ s', f s x = some s' ∧ Built P (graph s').1.shape (graph s').2 fun id ↦ done id ∨ Q x id)
    (h : Built P (graph s).1.shape (graph s).2 done) :
    ∃ s', xs.foldlM f s = some s' ∧
      Built P (graph s').1.shape (graph s').2 fun id ↦ done id ∨ ∃ x ∈ xs, Q x id := by
  induction xs generalizing s done with
  | nil =>
    refine ⟨s, rfl, h.imp fun id hid ↦ hid.resolve_right ?_⟩
    rintro ⟨x, hx, -⟩
    exact List.not_mem_nil hx
  | cons x xs ih =>
    obtain ⟨s₁, hs₁, hx⟩ := hstep x List.mem_cons_self s done h
    obtain ⟨s', hs', hxs⟩ := ih (fun y hy ↦ hstep y (List.mem_cons_of_mem x hy)) hx
    refine ⟨s', ?_, hxs.imp fun id hid ↦ ?_⟩
    · rw [List.foldlM_cons, hs₁]
      exact hs'
    rcases hid with hid | ⟨y, hy, hid⟩
    · exact .inl (.inl hid)
    rcases List.mem_cons.mp hy with rfl | hy
    · exact .inl (.inr hid)
    · exact .inr ⟨y, hy, hid⟩

end Built

/-! ## The queue -/

/-- The nodes of a queue, each times its coefficient, add up to the given value. -/
def Sums (S : ℕ → Option Shape) (env : ℕ → GF256) : List (ℕ × GF256) → GF256 → Prop
  | [], s => s = 0
  | e :: queue, s => ∃ v s', Ready S env e.1 v ∧ Sums S env queue s' ∧ s = e.2 * v + s'

section Queue

variable {P : Plan} {S : ℕ → Option Shape} {env : ℕ → GF256} {dag : ECDAG} {tmp p : ℕ}
variable {done : ℕ → Prop} {s : GF256} {queue : List (ℕ × GF256)}

theorem Sums.join {cs : List ℕ} {coefs : List GF256} (hp : NotChild dag.shape p)
    (hids : ∀ e ∈ queue, e.1 ≠ p) (h : Sums dag.shape env queue s) :
    Sums (dag.join p cs coefs).shape env queue s := by
  induction queue generalizing s with
  | nil => exact h
  | cons e queue ih =>
    obtain ⟨v, s', hv, hs', rfl⟩ := h
    refine ⟨v, s', hv.join cs coefs hp (hids e List.mem_cons_self), ih (fun e he ↦ ?_) hs', rfl⟩
    exact hids e (List.mem_cons_of_mem _ he)

theorem Sums.append_singleton {e : ℕ × GF256} (h : Sums S env (e :: queue) s) :
    Sums S env (queue ++ [e]) s := by
  obtain ⟨v, s', hv, hs', rfl⟩ := h
  induction queue generalizing s' with
  | nil => exact ⟨v, s', hv, hs', rfl⟩
  | cons e' queue ih =>
    obtain ⟨v', s'', hv', hs'', rfl⟩ := hs'
    refine ⟨v', e.2 * v + s'', hv', ih s'' hs'', ?_⟩
    rw [add_left_comm]

theorem Built.sums (h : Built P S tmp done) {js : List ℕ} {id : ℕ → ℕ} {coef : ℕ → GF256}
    (hsrc : ∀ j ∈ js, P.src (id j)) :
    Sums S P.env (js.map fun j ↦ (id j, coef j)) (js.map fun j ↦ coef j * P.env (id j)).sum := by
  induction js with
  | nil => rfl
  | cons j js ih =>
    refine ⟨P.env (id j), _, h.leaf _ (hsrc j List.mem_cons_self), ih fun j hj ↦ ?_, List.sum_cons⟩
    exact hsrc j (List.mem_cons_of_mem _ hj)

/-- The nodes of a queue can be children of a join. -/
def Usable (P : Plan) (tmp : ℕ) (queue : List (ℕ × GF256)) : Prop :=
  ∀ e ∈ queue, ¬P.target e.1 ∧ e.1 < tmp

variable {d₀ d₁ : ℕ} {c₀ c₁ : GF256}

/-- The root of a join of the first two nodes of the queue stands for their sum. -/
theorem Built.join_front (h : Built P dag.shape tmp done) (hp : P.target p ∨ tmp ≤ p)
    (huse : Usable P tmp ((d₀, c₀) :: (d₁, c₁) :: queue))
    (hsum : Sums dag.shape P.env ((d₀, c₀) :: (d₁, c₁) :: queue) s) :
    ∃ v s', Evaluates (dag.join p [d₀, d₁] [c₀, c₁]).shape P.env p v ∧
      Sums (dag.join p [d₀, d₁] [c₀, c₁]).shape P.env queue s' ∧ s = v + s' := by
  have hne : ∀ e ∈ (d₀, c₀) :: (d₁, c₁) :: queue, e.1 ≠ p := by
    rintro e he rfl
    obtain ⟨hnot, hlt⟩ := huse e he
    rcases hp with hp | hp
    · exact hnot hp
    · omega
  obtain ⟨v₀, _, hv₀, ⟨v₁, s', hv₁, hs', rfl⟩, rfl⟩ := hsum
  refine ⟨dot [c₀, c₁] [v₀, v₁], s', ?_, ?_, ?_⟩
  · refine evaluates_join_root (h.fresh p hp) ?_ le_rfl (.cons hv₀ (.cons hv₁ .nil))
    have h₀ := hne _ List.mem_cons_self
    have h₁ := hne _ (List.mem_cons_of_mem _ List.mem_cons_self)
    simp [Ne.symm h₀, Ne.symm h₁]
  · refine hs'.join (h.fresh p hp) fun e he ↦ hne e ?_
    exact List.mem_cons_of_mem _ (List.mem_cons_of_mem _ he)
  · simp [add_assoc]

theorem Built.join_two {tmp' : ℕ} (h : Built P dag.shape tmp done) (hp : P.target p ∨ tmp ≤ p)
    (huse : Usable P tmp ((d₀, c₀) :: (d₁, c₁) :: queue)) (hle : tmp ≤ tmp') :
    Built P (dag.join p [d₀, d₁] [c₀, c₁]).shape tmp' fun q ↦ done q ∧ q ≠ p := by
  refine h.join hp (fun c hc ↦ ?_) hle
  rcases List.mem_cons.mp hc with rfl | hc
  · exact huse _ List.mem_cons_self
  · rw [List.mem_singleton.mp hc]
    exact huse _ (List.mem_cons_of_mem _ List.mem_cons_self)

theorem Built.join_last (h : Built P dag.shape tmp done) (hp : P.target p)
    (huse : Usable P tmp [(d₀, c₀), (d₁, c₁)])
    (hsum : Sums dag.shape P.env [(d₀, c₀), (d₁, c₁)] (P.want p)) :
    Built P (dag.join p [d₀, d₁] [c₀, c₁]).shape tmp fun q ↦ done q ∨ q = p := by
  obtain ⟨v, s', hv, hs', hwant⟩ := h.join_front (.inl hp) huse hsum
  have hs0 : s' = 0 := hs'
  rw [hs0, add_zero] at hwant
  have hjoin := h.join_two (.inl hp) huse (le_refl tmp)
  refine (hjoin.add (P.target_lt p hp) (hwant ▸ hv)).imp fun q hq ↦ ?_
  by_cases hqp : q = p
  · exact .inr hqp
  · exact .inl ⟨hq.resolve_right hqp, hqp⟩

/-- Any other join is a temporary, which takes the place of the two nodes. -/
theorem Built.join_tmp (h : Built P dag.shape tmp done)
    (huse : Usable P tmp ((d₀, c₀) :: (d₁, c₁) :: queue))
    (hsum : Sums dag.shape P.env ((d₀, c₀) :: (d₁, c₁) :: queue) s) :
    Built P (dag.join tmp [d₀, d₁] [c₀, c₁]).shape (tmp + 1) done ∧
      Sums (dag.join tmp [d₀, d₁] [c₀, c₁]).shape P.env ((tmp, 1) :: queue) s ∧
      Usable P (tmp + 1) ((tmp, 1) :: queue) := by
  obtain ⟨v, s', hv, hs', rfl⟩ := h.join_front (.inr le_rfl) huse hsum
  refine ⟨?_, ⟨v, s', .inr hv, hs', by rw [one_mul]⟩, fun e he ↦ ?_⟩
  · refine (h.join_two (.inr le_rfl) huse (Nat.le_succ tmp)).imp fun q hq ↦ ⟨hq, ?_⟩
    have := h.done_lt q hq
    have := h.bound_le
    omega
  · rcases List.mem_cons.mp he with rfl | he
    · refine ⟨fun htarget ↦ ?_, Nat.lt_succ_self tmp⟩
      have := P.target_lt _ htarget
      have := h.bound_le
      omega
    · obtain ⟨hnot, hlt⟩ := huse e (List.mem_cons_of_mem _ (List.mem_cons_of_mem _ he))
      exact ⟨hnot, Nat.lt_succ_of_lt hlt⟩

end Queue

end UniDedup.Storage
