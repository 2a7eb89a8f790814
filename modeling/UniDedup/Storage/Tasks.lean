import UniDedup.Lib.Toposort
import UniDedup.Storage.Binding

/-!
# The tasks of a graph

The nodes of a graph are sorted so that children come first, and every node that has to be computed becomes
a task: the children it reads and the coefficients for each of its targets. Two compilers make the tasks,
`parseForClient` for the executors in a client and `parseForOEC` for the agents. A node whose only child is
a bind node has no task in either; they part on a node with several targets whose only child is a leaf.

In a graph that joins and sound binds build, a node is a leaf, a node with a row of its own, a node bound to
a bind node, or a bind node.
-/

namespace UniDedup.Storage

namespace ECDAG

def childs (dag : ECDAG) (id : ℕ) : List ℕ := ((dag.nodes.lookup id).map ECNode.childNodes).getD []

/-- `toposort`, when the nodes of the map are run through in the given order. -/
def toposort (dag : ECDAG) (order : List ℕ) : List ℕ := Toposort.toposort dag.childs order

/-- An `ECTask` of type 2. -/
structure ComputeTask where
  children : List ℕ
  coefMap : CoefMap

/-- The flag `computebool` of `parseForClient`. -/
def computebool (dag : ECDAG) (nd : ECNode) : Bool :=
  match nd.childNodes with
  | [] => false
  | [c] =>
    if 1 < dag.coefNum c then false
    else if dag.coefNum c = 1 then true
    else nd.coefMap.keys.length == 1
  | _ => true

def parseForClient (dag : ECDAG) (id : ℕ) : Option ComputeTask :=
  (dag.nodes.lookup id).bind fun nd ↦
    if dag.computebool nd then some ⟨nd.childNodes, nd.coefMap⟩ else none

/-- The tasks for an executor in the client. -/
def computeTasks (dag : ECDAG) (order : List ℕ) : List ComputeTask :=
  (dag.toposort order).filterMap dag.parseForClient

/-- `_oecTasks` of a node and the address `_ip` it gets. A load has the numbers to read, a fetch the
children, a cache the reference counts. -/
structure OECTasks where
  ip : ℕ
  load : Option (List ℕ) := none
  fetch : Option (List ℕ) := none
  compute : Option ComputeTask := none
  cache : Option (AList fun _ : ℕ ↦ ℤ) := none

/-- `parseForOEC` of a node, with the addresses of the nodes before it. -/
def parseForOEC (dag : ECDAG) (nodeIp : ℕ → ℕ) (ip id : ℕ) : Option OECTasks :=
  (dag.nodes.lookup id).map fun nd ↦
    match nd.childNodes with
    | [] => { ip := ip, load := some [id], cache := some nd.refNumFor }
    | [c] =>
      if 1 < dag.coefNum c then { ip := nodeIp c }
      else { ip := ip, fetch := some [c], compute := some ⟨[c], nd.coefMap⟩, cache := some nd.refNumFor }
    | childs =>
      { ip := ip, fetch := some childs, compute := some ⟨childs, nd.coefMap⟩, cache := some nd.refNumFor }

/-! ## Where the compilers agree -/

/-- A node with several targets, or none, whose only child is a leaf. -/
def Skipped (dag : ECDAG) (id : ℕ) : Prop :=
  ∃ nd c, dag.nodes.lookup id = some nd ∧ nd.childNodes = [c] ∧ dag.coefNum c = 0 ∧
    nd.coefMap.keys.length ≠ 1

/-- **The two compilers make the same compute task**, except for the nodes `parseForClient` skips. -/
theorem parseForClient_eq_iff (dag : ECDAG) (nodeIp : ℕ → ℕ) (ip id : ℕ) :
    dag.parseForClient id = (dag.parseForOEC nodeIp ip id).bind OECTasks.compute ↔ ¬dag.Skipped id := by
  rw [parseForClient, parseForOEC]
  cases hnd : dag.nodes.lookup id with
  | none => exact iff_of_true rfl fun ⟨nd, c, h, _⟩ ↦ Option.some_ne_none nd (h.symm.trans hnd)
  | some nd =>
    have hskip : dag.Skipped id ↔ ∃ c, nd.childNodes = [c] ∧ dag.coefNum c = 0 ∧
        nd.coefMap.keys.length ≠ 1 := by
      constructor
      · rintro ⟨nd', c, h, hc⟩
        rw [hnd] at h
        exact ⟨c, Option.some.inj h ▸ hc⟩
      · rintro ⟨c, hc⟩
        exact ⟨nd, c, hnd, hc⟩
    rw [hskip, Option.bind_some, Option.map_some, Option.bind_some, computebool]
    rcases hcs : nd.childNodes with _ | ⟨c, _ | ⟨d, rest⟩⟩
    · exact iff_of_true rfl fun ⟨c, h, _⟩ ↦ List.cons_ne_nil c [] h.symm
    · by_cases hbind : 1 < dag.coefNum c
      · refine iff_of_true ?_ fun ⟨c', h, hzero, _⟩ ↦ ?_
        · simp [hbind]
        · rw [← (List.cons.inj h).1] at hzero
          omega
      · by_cases hone : dag.coefNum c = 1
        · refine iff_of_true ?_ fun ⟨c', h, hzero, _⟩ ↦ ?_
          · simp [hone]
          · rw [← (List.cons.inj h).1] at hzero
            omega
        · have hzero : dag.coefNum c = 0 := by omega
          by_cases hkeys : nd.coefMap.keys.length = 1
          · refine iff_of_true ?_ fun ⟨c', _, _, h⟩ ↦ h hkeys
            simp [hzero, hkeys]
          · refine iff_of_false ?_ fun h ↦ h ⟨c, rfl, hzero, hkeys⟩
            simp [hzero, hkeys]
    · exact iff_of_true rfl fun ⟨c', h, _⟩ ↦ List.cons_ne_nil d rest (List.cons.inj h).2

/-! ## Graphs of joins and binds -/

def Plain (S : ℕ → Option Shape) (c : ℕ) : Prop := ∀ sh, S c = some sh → sh.2.keys.length ≤ 1

/-- The part a node can play. -/
inductive Role (S : ℕ → Option Shape) (id : ℕ) : Shape → Prop
  | leaf : Role S id ([], ∅)
  | own {cs : List ℕ} {co : List GF256} (hne : cs ≠ []) (hlen : co.length = cs.length)
      (hplain : ∀ c ∈ cs, Plain S c) : Role S id (cs, AList.singleton id co)
  | bound {b : ℕ} {cs : List ℕ} {M : CoefMap} (hb : S b = some (cs, M)) (hkeys : 1 < M.keys.length)
      (hid : id ∈ M) : Role S id ([b], AList.singleton id [1])
  | bind {cs : List ℕ} {M : CoefMap} (hne : cs ≠ []) (hkeys : 1 < M.keys.length)
      (hplain : ∀ c ∈ cs, Plain S c) (hlen : ∀ t co, M.lookup t = some co → co.length = cs.length)
      (htarget : ∀ t ∈ M, t = id ∨ S t = some ([id], AList.singleton t [1])) : Role S id (cs, M)

/-- What holds of the graphs that joins and binds build. -/
structure Formed (dag : ECDAG) : Prop where
  closed : ∀ id sh, dag.shape id = some sh → ∀ c ∈ sh.1, c ∈ dag.nodes
  role : ∀ id sh, dag.shape id = some sh → Role dag.shape id sh
  /-- A header was joined, and is no bind node. -/
  header : ∀ h ∈ dag.headers, Plain dag.shape h ∧ ∃ sh, dag.shape h = some sh ∧ sh.1 ≠ []

/-- What holds of them when they have no cycles. -/
structure WellFormed (dag : ECDAG) : Prop extends Formed dag where
  acyclic : Acyclic dag.shape

section Rows

variable {S : ℕ → Option Shape} {env : ℕ → GF256} {id c t : ℕ} {cs : List ℕ} {M : CoefMap}
variable {co vs : List GF256}

theorem bindOf_eq_none (h : ∀ c ∈ cs, Plain S c) : bindOf S cs = none := by
  rcases cs with _ | ⟨c, _ | ⟨d, rest⟩⟩
  · rfl
  · rw [bindOf, Option.filter_eq_none_iff]
    intro sh hsh
    simpa using h c (List.mem_singleton_self c) sh hsh
  · rfl

theorem lookup_singleton (id t : ℕ) (co : List GF256) :
    (AList.singleton id co : CoefMap).lookup t = if t = id then some co else none := by
  rw [← AList.insert_empty]
  split
  · next h => rw [h, AList.lookup_insert]
  · next h => rw [AList.lookup_insert_ne h, AList.lookup_empty]

theorem bound_not_plain {b : ℕ} (hb : S b = some (cs, M)) (hkeys : 1 < M.keys.length) : ¬Plain S b :=
  fun h ↦ absurd (h _ hb) (Nat.not_le.mpr hkeys)

/-- **A node computes its targets.** The children of a node that is not bound are no bind nodes, and each
of its targets is the sum of the children with the coefficients for the target. -/
theorem Role.evaluates (h : Role S id (cs, M)) (hS : S id = some (cs, M)) (hne : cs ≠ [])
    (hplain : ∀ c ∈ cs, Plain S c) (ht : M.lookup t = some co)
    (hvs : List.Forall₂ (Evaluates S env) cs vs) : Evaluates S env t (dot co vs) := by
  have hown : M.lookup id = some co → Evaluates S env id (dot co vs) := by
    intro hid
    refine evaluates_row hS hne ?_ hvs
    rw [rowOf, bindOf_eq_none hplain, Option.getD_none, hid]
    rfl
  have hmem : t ∈ M := AList.lookup_isSome.mp (Option.isSome_iff_exists.mpr ⟨co, ht⟩)
  cases h with
  | leaf => exact absurd rfl hne
  | own =>
    have hlookup := ht
    rw [lookup_singleton] at hlookup
    split at hlookup
    · next htid =>
      subst htid
      exact hown ht
    · exact absurd hlookup.symm (Option.some_ne_none co)
  | bound hb hkeys => exact absurd (hplain _ (List.mem_singleton_self _)) (bound_not_plain hb hkeys)
  | bind _ hkeys _ _ htarget =>
    rcases htarget t hmem with rfl | htS
    · exact hown ht
    · exact evaluates_bound htS hS hkeys ht hvs

theorem Role.length_eq (h : Role S id (cs, M)) (hplain : ∀ c ∈ cs, Plain S c)
    (ht : M.lookup t = some co) : co.length = cs.length := by
  cases h with
  | leaf => exact absurd ht.symm (Option.some_ne_none co)
  | own _ hlen =>
    rw [lookup_singleton] at ht
    split at ht
    · rw [← Option.some.inj ht, hlen]
    · exact absurd ht.symm (Option.some_ne_none co)
  | bound hb hkeys => exact absurd (hplain _ (List.mem_singleton_self _)) (bound_not_plain hb hkeys)
  | bind _ _ _ hlen => exact hlen t co ht

end Rows

/-! ## Sorting and compiling a well formed graph -/

section Sorted

variable {dag : ECDAG} {order : List ℕ} {id c t : ℕ} {cs : List ℕ} {M : CoefMap}

theorem childs_of_shape (h : dag.shape id = some (cs, M)) : dag.childs id = cs := by
  obtain ⟨nd, hnd, hcs, -⟩ := exists_of_shape h
  rw [childs, hnd, ← hcs]
  rfl

theorem coefNum_of_shape (h : dag.shape id = some (cs, M)) : dag.coefNum id = M.keys.length := by
  obtain ⟨nd, hnd, -, hM⟩ := exists_of_shape h
  rw [coefNum, hnd, ← hM]

theorem bindOf_eq_none_iff {c : ℕ} : bindOf dag.shape [c] = none ↔ ¬1 < dag.coefNum c := by
  rw [bindOf, coefNum]
  cases hnd : dag.nodes.lookup c with
  | none =>
    rw [shape, hnd]
    exact iff_of_true rfl (Nat.not_lt_zero 1)
  | some nd =>
    rw [shape_of_lookup hnd, Option.filter_some]
    by_cases hbind : 1 < nd.coefMap.keys.length
    · rw [if_pos (decide_eq_true hbind)]
      exact iff_of_false (Option.some_ne_none _) (not_not_intro hbind)
    · rw [if_neg fun h ↦ hbind (of_decide_eq_true h)]
      exact iff_of_true rfl hbind

theorem Plain.coefNum_le (h : Plain dag.shape c) : dag.coefNum c ≤ 1 := by
  rw [coefNum]
  split
  · exact Nat.zero_le 1
  · next nd hnd => exact h (nd.childNodes, nd.coefMap) (shape_of_lookup hnd)

/-- **A well formed graph is sorted completely**, with the children first. -/
theorem WellFormed.toposort (h : WellFormed dag) (horder : order.Perm dag.nodes.keys) :
    (dag.toposort order).Perm order ∧ (dag.toposort order).Nodup ∧
      Toposort.ChildrenFirst dag.childs (dag.toposort order) := by
  have hnodup : order.Nodup := horder.nodup_iff.mpr dag.nodes.keys_nodup
  have hmem : ∀ {id}, id ∈ order ↔ id ∈ dag.nodes := fun {id} ↦ horder.mem_iff
  obtain ⟨hsorted, -, hfirst, -⟩ := Toposort.toposort_spec dag.childs hnodup
  obtain ⟨rank, hrank⟩ := h.acyclic
  have hshape : ∀ p ∈ order, ∃ sh, dag.shape p = some sh ∧ dag.childs p = sh.1 := by
    intro p hp
    obtain ⟨nd, hnd⟩ := Option.isSome_iff_exists.mp (AList.lookup_isSome.mpr (hmem.mp hp))
    exact ⟨(nd.childNodes, nd.coefMap), shape_of_lookup hnd, by rw [childs, hnd]; rfl⟩
  refine ⟨Toposort.toposort_perm rank hnodup (fun p hp c hc ↦ ?_) fun p hp c hc ↦ ?_, hsorted,
    hfirst⟩
  · obtain ⟨sh, hsh, hchilds⟩ := hshape p hp
    exact hmem.mpr (h.closed p sh hsh c (hchilds ▸ hc))
  · obtain ⟨sh, hsh, hchilds⟩ := hshape p hp
    exact hrank p sh hsh c (hchilds ▸ hc)

/-- The node is computed: it has children, and none of them is a bind node. -/
def Computes (dag : ECDAG) (id : ℕ) (cs : List ℕ) (M : CoefMap) : Prop :=
  dag.shape id = some (cs, M) ∧ cs ≠ [] ∧ ∀ c ∈ cs, Plain dag.shape c

/-- A node with children whose only child may be a bind node is computed or bound. -/
theorem Role.computes_or_bound (h : Role dag.shape id (cs, M)) (hsh : dag.shape id = some (cs, M))
    (hne : cs ≠ []) : Computes dag id cs M ∨
      ∃ b cs' M', cs = [b] ∧ dag.shape b = some (cs', M') ∧ 1 < M'.keys.length ∧ id ∈ M' := by
  cases h with
  | leaf => exact absurd rfl hne
  | own _ _ hplain => exact .inl ⟨hsh, hne, hplain⟩
  | bound hb hkeys hid => exact .inr ⟨_, _, _, rfl, hb, hkeys, hid⟩
  | bind _ _ hplain => exact .inl ⟨hsh, hne, hplain⟩

theorem Computes.parseForClient (h : Computes dag id cs M) (hskip : ¬dag.Skipped id) :
    dag.parseForClient id = some ⟨cs, M⟩ := by
  obtain ⟨hsh, hne, hplain⟩ := h
  obtain ⟨nd, hnd, hcs, hM⟩ := exists_of_shape hsh
  have hbool : dag.computebool nd = true := by
    rw [computebool, hcs]
    rcases cs with _ | ⟨c, _ | ⟨d, rest⟩⟩
    · exact absurd rfl hne
    · have hle := (hplain c (List.mem_singleton_self c)).coefNum_le
      by_cases hone : dag.coefNum c = 1
      · simp [hone]
      · have hzero : dag.coefNum c = 0 := by omega
        have hkeys : nd.coefMap.keys.length = 1 := by
          by_contra hkeys
          exact hskip ⟨nd, c, hnd, hcs, hzero, hkeys⟩
        simp [hzero, hkeys]
    · rfl
  rw [ECDAG.parseForClient, hnd, Option.bind_some, if_pos hbool, hcs, hM]

theorem parseForClient_leaf (h : dag.shape id = some ([], M)) : dag.parseForClient id = none := by
  obtain ⟨nd, hnd, hcs, -⟩ := exists_of_shape h
  rw [parseForClient, hnd, Option.bind_some, computebool, hcs]
  rfl

theorem parseForClient_bound {b : ℕ} {M' : CoefMap} (h : dag.shape id = some ([b], M))
    (hb : dag.shape b = some (cs, M')) (hkeys : 1 < M'.keys.length) : dag.parseForClient id = none := by
  obtain ⟨nd, hnd, hcs, -⟩ := exists_of_shape h
  have hnum : 1 < dag.coefNum b := by rwa [coefNum_of_shape hb]
  rw [parseForClient, hnd, Option.bind_some, computebool, hcs]
  simp [hnum]

theorem WellFormed.computes (h : WellFormed dag) {task : ComputeTask}
    (htask : dag.parseForClient id = some task) :
    Computes dag id task.children task.coefMap ∧ 0 < task.coefMap.keys.length := by
  obtain ⟨nd, hnd, hif⟩ := Option.bind_eq_some_iff.mp htask
  split at hif
  · have hsh : dag.shape id = some (nd.childNodes, nd.coefMap) := shape_of_lookup hnd
    rw [← Option.some.inj hif]
    by_cases hne : nd.childNodes = []
    · rw [hne] at hsh
      rw [parseForClient_leaf hsh] at htask
      exact absurd htask.symm (Option.some_ne_none _)
    have hrole := h.role id _ hsh
    rcases hrole.computes_or_bound hsh hne with hcomp | ⟨b, cs', M', hcs, hb, hkeys, -⟩
    · refine ⟨hcomp, ?_⟩
      dsimp only
      generalize nd.coefMap = M at hrole
      generalize nd.childNodes = cs at hrole hne
      cases hrole with
      | leaf => exact absurd rfl hne
      | own => exact Nat.one_pos
      | bound => exact Nat.one_pos
      | bind _ hkeys => exact Nat.zero_lt_of_lt hkeys
    · rw [hcs] at hsh
      rw [parseForClient_bound hsh hb hkeys] at htask
      exact absurd htask.symm (Option.some_ne_none _)
  · exact absurd hif.symm (Option.some_ne_none _)

/-- Some node of the list computes the target. -/
def ComputedBy (dag : ECDAG) (ids : List ℕ) (t : ℕ) : Prop :=
  ∃ id ∈ ids, ∃ cs M, Computes dag id cs M ∧ t ∈ M

/-- **A node that was joined is computed**: by itself, or by its bind node, which comes before it. -/
theorem WellFormed.computedBy (h : WellFormed dag) {l₁ l₂ : List ℕ}
    (hfirst : Toposort.ChildrenFirst dag.childs (l₁ ++ l₂)) (hc : c ∈ l₁)
    (hsh : dag.shape c = some (cs, M)) (hne : cs ≠ []) (hplain : Plain dag.shape c) :
    ComputedBy dag l₁ c := by
  have hrole := h.role c _ hsh
  rcases hrole.computes_or_bound hsh hne with hcomp | ⟨b, cs', M', rfl, hb, hkeys, hid⟩
  · refine ⟨c, hc, cs, M, hcomp, ?_⟩
    cases hrole with
    | leaf => exact absurd rfl hne
    | own => exact List.mem_singleton_self c
    | bound => exact List.mem_singleton_self c
    | bind _ hkeys => exact absurd (hplain _ hsh) (Nat.not_le.mpr hkeys)
  · obtain ⟨a, a', rfl⟩ := List.append_of_mem hc
    have hba : b ∈ a := hfirst a c (a' ++ l₂) (by simp) b (by
      rw [childs_of_shape hsh]
      exact List.mem_singleton_self b)
    refine ⟨b, List.mem_append_left _ hba, cs', M', ?_, hid⟩
    have hbrole := h.role b _ hb
    cases hbrole with
    | leaf => exact absurd hkeys (Nat.not_lt_zero 1)
    | own => exact absurd hkeys (lt_irrefl 1)
    | bound => exact absurd hkeys (lt_irrefl 1)
    | bind hne' _ hplain' => exact ⟨hb, hne', hplain'⟩

/-- The targets of a node that is computed are no children of it, and no leaves. -/
theorem WellFormed.target (h : WellFormed dag) (hcomp : Computes dag id cs M) (ht : t ∈ M) :
    t ∉ cs ∧ ¬IsLeaf dag.shape t := by
  obtain ⟨hsh, hne, hplain⟩ := hcomp
  obtain ⟨rank, hrank⟩ := h.acyclic
  have hself : id ∉ cs ∧ ¬IsLeaf dag.shape id := by
    refine ⟨fun hmem ↦ lt_irrefl _ (hrank id _ hsh id hmem), ?_⟩
    rintro ⟨M', hM'⟩
    rw [hsh] at hM'
    exact hne (congrArg Prod.fst (Option.some.inj hM'))
  have hrole := h.role id _ hsh
  cases hrole with
  | leaf => exact absurd rfl hne
  | own =>
    obtain rfl : t = id := List.mem_singleton.mp ht
    exact hself
  | bound hb hkeys => exact absurd (hplain _ (List.mem_singleton_self _)) (bound_not_plain hb hkeys)
  | bind _ _ _ _ htarget =>
    rcases htarget t ht with rfl | htS
    · exact hself
    · refine ⟨fun hmem ↦ ?_, ?_⟩
      · have hlt := hrank t _ htS id (List.mem_singleton_self id)
        have hgt := hrank id _ hsh t hmem
        omega
      · rintro ⟨M', hM'⟩
        rw [htS] at hM'
        exact absurd (congrArg Prod.fst (Option.some.inj hM')) (List.cons_ne_nil id [])

end Sorted

end ECDAG

end UniDedup.Storage
