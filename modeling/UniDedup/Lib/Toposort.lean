import Mathlib.Data.Fintype.Card
import Mathlib.Data.List.Count
import Mathlib.Data.List.Induction
import Mathlib.Data.List.Nodup
import Mathlib.Data.List.Perm.Subperm
import Mathlib.Data.Set.Finite.Basic
import Mathlib.Logic.Function.Basic
import Mathlib.Logic.Function.Iterate
import Mathlib.Logic.Relation
import Mathlib.Order.Nat

/-!
# Topological sorting by incoming numbers

Every node has a list of children. The algorithm keeps, for each node, the number of children that are
not sorted yet, and the nodes by this number; in each round it takes out the nodes whose number is zero
and lowers the numbers of their parents.

On any graph the nodes it sorts come after their children, and a node it leaves out has a child that is
left out. So what is sorted are the nodes from which no cycle is reachable: an acyclic graph is sorted
completely, and a graph in which every node has a child not at all.
-/

namespace UniDedup.Toposort

variable {α : Type*} [DecidableEq α]

/-- The maps the algorithm maintains, and the nodes sorted so far. -/
structure State (α : Type*) where
  child2Parent : α → List α
  inNum2List : ℕ → List α
  id2InNum : α → ℕ
  toret : List α

def enter (children : α → List α) (s : State α) (id : α) : State α :=
  let inNum := (children id).length
  { s with
    id2InNum := Function.update s.id2InNum id inNum
    child2Parent := (children id).foldl (fun m c ↦ Function.update m c (m c ++ [id])) s.child2Parent
    inNum2List := Function.update s.inNum2List inNum (s.inNum2List inNum ++ [id]) }

def start (children : α → List α) (order : List α) : State α :=
  order.foldl (enter children) ⟨fun _ ↦ [], fun _ ↦ [], fun _ ↦ 0, []⟩

/-- Lower the number of a parent by one. -/
def lower (s : State α) (p : α) : State α :=
  let curInNum := s.id2InNum p
  let updatedInNum := curInNum - 1
  let lists := Function.update s.inNum2List curInNum ((s.inNum2List curInNum).erase p)
  { s with
    id2InNum := Function.update s.id2InNum p updatedInNum
    inNum2List := Function.update lists updatedInNum (lists updatedInNum ++ [p]) }

/-- Lower the numbers of the parents of a node that is taken out. -/
def process (s : State α) (id : α) : State α := (s.child2Parent id).foldl lower s

def round (s : State α) : State α :=
  let zerolist := s.inNum2List 0
  zerolist.foldl process
    { s with toret := s.toret ++ zerolist, inNum2List := Function.update s.inNum2List 0 [] }

/-- The rounds, until no node has the number zero. -/
def rounds : ℕ → State α → List α
  | 0, s => s.toret
  | fuel + 1, s => if s.inNum2List 0 = [] then s.toret else rounds fuel (round s)

/-- The nodes, in the order the algorithm sorts them. The maps are filled in the given order. -/
def toposort (children : α → List α) (order : List α) : List α :=
  rounds (order.length + 1) (start children order)

/-! ## What the maps hold -/

section Counts

variable {children : α → List α} {order : List α} {s : State α} {num : α → ℕ}

/-- The maps hold the parents of every node, and every node that is not sorted once, under its number. -/
structure Counts (children : α → List α) (order : List α) (num : α → ℕ) (s : State α) : Prop where
  parent : ∀ c p, (s.child2Parent c).count p = if p ∈ order then (children p).count c else 0
  inNum : ∀ p ∈ order, s.id2InNum p = num p
  list : ∀ n p, (s.inNum2List n).count p = if p ∈ order ∧ p ∉ s.toret ∧ num p = n then 1 else 0

theorem Counts.congr {num' : α → ℕ} (h : Counts children order num s) (hnum : ∀ p ∈ order, num p = num' p) :
    Counts children order num' s where
  parent := h.parent
  inNum p hp := (h.inNum p hp).trans (hnum p hp)
  list n p := by
    rw [h.list]
    by_cases hp : p ∈ order
    · rw [hnum p hp]
    · rw [if_neg fun h ↦ hp h.1, if_neg fun h ↦ hp h.1]

theorem count_foldl_update (id c p : α) (cs : List α) (m : α → List α) :
    ((cs.foldl (fun m c ↦ Function.update m c (m c ++ [id])) m) c).count p =
      (m c).count p + if p = id then cs.count c else 0 := by
  induction cs generalizing m with
  | nil => simp
  | cons d cs ih =>
    rw [List.foldl_cons, ih]
    by_cases hd : c = d
    · subst hd
      rw [Function.update_self, List.count_append, List.count_cons_self]
      by_cases hp : p = id
      · rw [hp, List.count_singleton_self, if_pos rfl, if_pos rfl]
        omega
      · rw [List.count_eq_zero (a := p) (l := [id]) |>.mpr (by simpa using hp), if_neg hp, if_neg hp]
    · rw [Function.update_of_ne hd, List.count_cons_of_ne (Ne.symm hd)]

theorem counts_start (children : α → List α) (hnodup : order.Nodup) :
    Counts children order (fun p ↦ (children p).length) (start children order) ∧
      (start children order).toret = [] := by
  rw [start]
  induction order using List.reverseRecOn with
  | nil => exact ⟨⟨fun _ _ ↦ rfl, fun _ h ↦ absurd h List.not_mem_nil, fun n p ↦ by simp⟩, rfl⟩
  | append_singleton order id ih =>
    rw [← List.concat_eq_append, List.nodup_concat] at hnodup
    obtain ⟨hid, hnodup⟩ := hnodup
    obtain ⟨hcounts, htoret⟩ := ih hnodup
    rw [List.foldl_append, List.foldl_cons, List.foldl_nil]
    generalize order.foldl (enter children) _ = s at hcounts htoret
    refine ⟨⟨fun c p ↦ ?_, fun p hp ↦ ?_, fun n p ↦ ?_⟩, htoret⟩
    · show ((List.foldl _ s.child2Parent (children id)) c).count p = _
      rw [count_foldl_update, hcounts.parent]
      by_cases hpid : p = id
      · subst hpid
        simp [hid]
      · simp [hpid]
    · show Function.update s.id2InNum id _ p = _
      by_cases hpid : p = id
      · rw [hpid, Function.update_self]
      · rw [Function.update_of_ne hpid]
        exact hcounts.inNum p ((List.mem_append.mp hp).resolve_right (by simpa using hpid))
    · have htoret' : (enter children s id).toret = [] := htoret
      have hlists : (enter children s id).inNum2List = Function.update s.inNum2List (children id).length
        (s.inNum2List (children id).length ++ [id]) := rfl
      simp only [htoret', hlists]
      have hlist := hcounts.list n p
      simp only [htoret] at hlist
      by_cases hn : n = (children id).length
      · subst hn
        rw [Function.update_self, List.count_append, hlist]
        by_cases hpid : p = id
        · subst hpid
          simp [hid]
        · simp [hpid, Ne.symm hpid]
      · rw [Function.update_of_ne hn, hlist]
        by_cases hpid : p = id
        · subst hpid
          simp [hid, Ne.symm hn]
        · simp [hpid]

@[simp] theorem toret_lower (s : State α) (p : α) : (lower s p).toret = s.toret := rfl

@[simp] theorem child2Parent_lower (s : State α) (p : α) : (lower s p).child2Parent = s.child2Parent := rfl

theorem Counts.lower {p : α} (h : Counts children order num s) (hp : p ∈ order) (hnot : p ∉ s.toret)
    (hpos : 0 < num p) :
    Counts children order (Function.update num p (num p - 1)) (Toposort.lower s p) where
  parent := h.parent
  inNum q hq := by
    show Function.update s.id2InNum p (s.id2InNum p - 1) q = _
    rw [h.inNum p hp]
    by_cases hqp : q = p
    · rw [hqp, Function.update_self, Function.update_self]
    · rw [Function.update_of_ne hqp, Function.update_of_ne hqp, h.inNum q hq]
  list n q := by
    have hne : num p - 1 ≠ num p := by omega
    simp only [Toposort.lower, h.inNum p hp]
    rw [Function.update_of_ne hne]
    have hcur := h.list (num p) q
    have hupd := h.list (num p - 1) q
    have hother := h.list n q
    by_cases hqp : q = p
    · -- the parent moves from its list to the list below
      subst hqp
      rw [if_pos ⟨hp, hnot, rfl⟩] at hcur
      rw [if_neg fun h ↦ hne h.2.2.symm] at hupd
      rw [Function.update_self]
      by_cases hn : n = num q - 1
      · subst hn
        rw [Function.update_self, List.count_append, hupd, List.count_singleton_self,
          if_pos ⟨hp, hnot, rfl⟩]
      · rw [Function.update_of_ne hn, if_neg fun h ↦ hn h.2.2.symm]
        by_cases hn' : n = num q
        · rw [hn', Function.update_self, List.count_erase_self, hcur]
        · rw [Function.update_of_ne hn', hother, if_neg fun h ↦ hn' h.2.2.symm]
    · rw [Function.update_of_ne hqp, ← hother]
      by_cases hn : n = num p - 1
      · rw [hn, Function.update_self, List.count_append, List.count_singleton]
        simp [Ne.symm hqp]
      · rw [Function.update_of_ne hn]
        by_cases hn' : n = num p
        · rw [hn', Function.update_self, List.count_erase_of_ne hqp]
        · rw [Function.update_of_ne hn']

theorem Counts.foldl_lower (ps : List α) (h : Counts children order num s)
    (hps : ∀ p ∈ ps, p ∈ order ∧ p ∉ s.toret) (hle : ∀ p, ps.count p ≤ num p) :
    Counts children order (fun p ↦ num p - ps.count p) (ps.foldl Toposort.lower s) ∧
      (ps.foldl Toposort.lower s).toret = s.toret := by
  induction ps generalizing s num with
  | nil => exact ⟨h, rfl⟩
  | cons q ps ih =>
    obtain ⟨hq, hnot⟩ := hps q List.mem_cons_self
    have hpos : 0 < num q := by
      have := hle q
      rw [List.count_cons_self] at this
      omega
    obtain ⟨hcounts, htoret⟩ := ih (h.lower hq hnot hpos)
      (fun p hp ↦ hps p (List.mem_cons_of_mem q hp)) fun p ↦ by
        have := hle p
        by_cases hpq : p = q
        · subst hpq
          rw [List.count_cons_self] at this
          rw [Function.update_self]
          omega
        · rw [List.count_cons_of_ne (Ne.symm hpq)] at this
          rwa [Function.update_of_ne hpq]
    refine ⟨hcounts.congr fun p _ ↦ ?_, htoret⟩
    by_cases hpq : p = q
    · subst hpq
      rw [Function.update_self, List.count_cons_self]
      omega
    · rw [Function.update_of_ne hpq, List.count_cons_of_ne (Ne.symm hpq)]

end Counts

/-! ## The rounds -/

section Rounds

variable {children : α → List α} {order done todo : List α} {s : State α}

/-- The number of children that are not done. -/
def remaining (children : α → List α) (done : List α) (p : α) : ℕ := (children p).countP (· ∉ done)

theorem remaining_eq_zero {p : α} : remaining children done p = 0 ↔ ∀ c ∈ children p, c ∈ done := by
  simp [remaining, List.countP_eq_zero]

theorem remaining_append_singleton {id : α} (hid : id ∉ done) (p : α) :
    remaining children done p - (children p).count id = remaining children (done ++ [id]) p ∧
      (children p).count id ≤ remaining children done p := by
  have hsplit : remaining children done p =
      (children p).count id + remaining children (done ++ [id]) p := by
    rw [remaining, remaining]
    induction children p with
    | nil => rfl
    | cons c cs ih =>
      by_cases hc : c = id
      · rw [hc, List.countP_cons_of_pos (by simpa using hid), List.count_cons_self,
          List.countP_cons_of_neg (by simp), ih]
        omega
      · rw [List.count_cons_of_ne hc]
        by_cases hdone : c ∈ done
        · rw [List.countP_cons_of_neg (by simpa using hdone), List.countP_cons_of_neg (by simp [hdone]), ih]
        · rw [List.countP_cons_of_pos (by simpa using hdone), List.countP_cons_of_pos (by simp [hdone, hc]), ih]
          omega
  omega

theorem Counts.process {id : α} (h : Counts children order (remaining children done) s)
    (hid : id ∉ done) (hsorted : ∀ p ∈ s.toret, ∀ c ∈ children p, c ∈ done) :
    Counts children order (remaining children (done ++ [id])) (Toposort.process s id) ∧
      (Toposort.process s id).toret = s.toret := by
  have hcount : ∀ p, (s.child2Parent id).count p ≤ (children p).count id := by
    intro p
    rw [h.parent]
    split
    · exact le_rfl
    · exact Nat.zero_le _
  have hparents : ∀ p ∈ s.child2Parent id, p ∈ order ∧ p ∉ s.toret := by
    intro p hp
    have hpos := List.count_pos_iff.mpr hp
    have hparent := h.parent id p
    by_cases hpo : p ∈ order
    · refine ⟨hpo, fun hmem ↦ hid (hsorted p hmem id ?_)⟩
      rw [if_pos hpo] at hparent
      exact List.count_pos_iff.mp (hparent ▸ hpos)
    · rw [if_neg hpo] at hparent
      omega
  obtain ⟨hcounts, htoret⟩ := h.foldl_lower (s.child2Parent id) hparents
    fun p ↦ (hcount p).trans (remaining_append_singleton hid p).2
  refine ⟨hcounts.congr fun p hp ↦ ?_, htoret⟩
  rw [h.parent, if_pos hp]
  exact (remaining_append_singleton hid p).1

theorem Counts.foldl_process (h : Counts children order (remaining children done) s)
    (hnodup : todo.Nodup) (hdisjoint : ∀ id ∈ todo, id ∉ done)
    (hsorted : ∀ p ∈ s.toret, ∀ c ∈ children p, c ∈ done) :
    Counts children order (remaining children (done ++ todo)) (todo.foldl Toposort.process s) ∧
      (todo.foldl Toposort.process s).toret = s.toret := by
  induction todo generalizing s done with
  | nil =>
    rw [List.append_nil]
    exact ⟨h, rfl⟩
  | cons id todo ih =>
    obtain ⟨hid, hnodup⟩ := List.nodup_cons.mp hnodup
    obtain ⟨hcounts, htoret⟩ := h.process (hdisjoint id List.mem_cons_self) hsorted
    obtain ⟨hcounts', htoret'⟩ := ih hcounts hnodup
      (fun j hj hmem ↦ by
        rcases List.mem_append.mp hmem with hmem | hmem
        · exact hdisjoint j (List.mem_cons_of_mem id hj) hmem
        · exact hid (List.mem_singleton.mp hmem ▸ hj))
      (fun p hp c hc ↦ List.mem_append_left _ (hsorted p (htoret ▸ hp) c hc))
    rw [List.append_assoc] at hcounts'
    exact ⟨hcounts', htoret'.trans htoret⟩

/-- Every node of the list comes after its children. -/
def ChildrenFirst (children : α → List α) (sorted : List α) : Prop :=
  ∀ l₁ id l₂, sorted = l₁ ++ id :: l₂ → ∀ c ∈ children id, c ∈ l₁

omit [DecidableEq α] in
theorem ChildrenFirst.mem {sorted : List α} (h : ChildrenFirst children sorted) {id c : α}
    (hid : id ∈ sorted) (hc : c ∈ children id) : c ∈ sorted := by
  obtain ⟨l₁, l₂, hsplit⟩ := List.append_of_mem hid
  rw [hsplit]
  exact List.mem_append_left _ (h l₁ id l₂ hsplit c hc)

omit [DecidableEq α] in
theorem ChildrenFirst.append {sorted new : List α} (h : ChildrenFirst children sorted)
    (hnew : ∀ id ∈ new, ∀ c ∈ children id, c ∈ sorted) : ChildrenFirst children (sorted ++ new) := by
  intro l₁ id l₂ hsplit c hc
  rcases List.append_eq_append_iff.mp hsplit with ⟨as, hl₁, hnew'⟩ | ⟨bs, hsorted, hrest⟩
  · rw [hl₁]
    refine List.mem_append_left _ (hnew id ?_ c hc)
    rw [hnew']
    exact List.mem_append_right _ List.mem_cons_self
  · rcases bs with _ | ⟨b, bs⟩
    · rw [List.append_nil] at hsorted
      rw [← hsorted]
      refine hnew id ?_ c hc
      rw [List.nil_append] at hrest
      rw [← hrest]
      exact List.mem_cons_self
    · obtain ⟨rfl, -⟩ := List.cons.inj hrest
      exact h l₁ id bs hsorted c hc

/-- What a round keeps. -/
structure Sorting (children : α → List α) (order : List α) (s : State α) : Prop where
  counts : Counts children order (remaining children s.toret) s
  nodup : s.toret.Nodup
  subset : s.toret ⊆ order
  childrenFirst : ChildrenFirst children s.toret

theorem sorting_start (children : α → List α) (hnodup : order.Nodup) : Sorting children order (start children order) := by
  obtain ⟨hcounts, htoret⟩ := counts_start children hnodup
  refine ⟨hcounts.congr fun p _ ↦ ?_, htoret ▸ List.nodup_nil, htoret ▸ List.nil_subset _, ?_⟩
  · rw [htoret, remaining]
    simp
  · rw [htoret]
    intro l₁ id l₂ hsplit
    simp at hsplit

theorem Sorting.zerolist (h : Sorting children order s) : (s.inNum2List 0).Nodup ∧
    ∀ id, id ∈ s.inNum2List 0 ↔ id ∈ order ∧ id ∉ s.toret ∧ ∀ c ∈ children id, c ∈ s.toret := by
  refine ⟨List.nodup_iff_count_le_one.mpr fun id ↦ ?_, fun id ↦ ?_⟩
  · rw [h.counts.list]
    split
    · exact le_rfl
    · exact Nat.zero_le 1
  · rw [← List.count_pos_iff, h.counts.list, ← remaining_eq_zero]
    split
    · next hid => exact iff_of_true Nat.one_pos hid
    · next hid => exact iff_of_false (lt_irrefl 0) hid

theorem Sorting.round (h : Sorting children order s) :
    Sorting children order (Toposort.round s) ∧
      (Toposort.round s).toret = s.toret ++ s.inNum2List 0 := by
  obtain ⟨hnodup, hmem⟩ := h.zerolist
  have hnew : ∀ id ∈ s.inNum2List 0, ∀ c ∈ children id, c ∈ s.toret := fun id hid ↦ ((hmem id).mp hid).2.2
  -- the nodes that are taken out are in no list any more
  have hcounts : Counts children order (remaining children s.toret)
      { s with toret := s.toret ++ s.inNum2List 0, inNum2List := Function.update s.inNum2List 0 [] } := by
    refine ⟨h.counts.parent, h.counts.inNum, fun n p ↦ ?_⟩
    dsimp only
    by_cases hn : n = 0
    · subst hn
      rw [Function.update_self, List.count_nil, if_neg]
      rintro ⟨hp, hnot, hzero⟩
      refine hnot (List.mem_append_right _ ((hmem p).mpr ⟨hp, ?_, remaining_eq_zero.mp hzero⟩))
      exact fun hmem ↦ hnot (List.mem_append_left _ hmem)
    · rw [Function.update_of_ne hn, h.counts.list]
      refine if_congr (and_congr_right fun _ ↦ and_congr_left fun hrem ↦ ?_) rfl rfl
      rw [List.mem_append, not_or, hmem]
      refine ⟨fun hnot ↦ ⟨hnot, fun hzero ↦ hn ?_⟩, And.left⟩
      rw [← hrem, remaining_eq_zero.mpr hzero.2.2]
  obtain ⟨hcounts', htoret⟩ := hcounts.foldl_process hnodup
    (fun id hid ↦ ((hmem id).mp hid).2.1) (fun p hp c hc ↦ by
      rcases List.mem_append.mp hp with hp | hp
      · exact h.childrenFirst.mem hp hc
      · exact hnew p hp c hc)
  have htoret' : (Toposort.round s).toret = s.toret ++ s.inNum2List 0 := htoret
  refine ⟨⟨?_, ?_, ?_, ?_⟩, htoret'⟩
  · rw [htoret']
    exact hcounts'
  · rw [htoret']
    exact h.nodup.append hnodup fun id hid hid' ↦ ((hmem id).mp hid').2.1 hid
  · rw [htoret']
    exact List.append_subset.mpr ⟨h.subset, fun id hid ↦ ((hmem id).mp hid).1⟩
  · rw [htoret']
    exact h.childrenFirst.append hnew

theorem Sorting.length_le (h : Sorting children order s) : s.toret.length ≤ order.length :=
  (h.nodup.subperm h.subset).length_le

theorem Sorting.rounds {fuel : ℕ} (h : Sorting children order s)
    (hfuel : order.length < fuel + s.toret.length) :
    ∃ k, k + s.toret.length ≤ order.length ∧ Sorting children order (Toposort.round^[k] s) ∧
      (Toposort.round^[k] s).inNum2List 0 = [] ∧ (∀ j < k, (Toposort.round^[j] s).inNum2List 0 ≠ []) ∧
      Toposort.rounds fuel s = (Toposort.round^[k] s).toret := by
  induction fuel generalizing s with
  | zero =>
    have := h.length_le
    omega
  | succ fuel ih =>
    have hle := h.length_le
    rw [Toposort.rounds]
    split
    · next hnil => exact ⟨0, by omega, h, hnil, fun j hj ↦ absurd hj (Nat.not_lt_zero j), rfl⟩
    · next hne =>
      obtain ⟨hround, htoret⟩ := h.round
      have hpos := List.length_pos_of_ne_nil hne
      have hlen : (Toposort.round s).toret.length = s.toret.length + (s.inNum2List 0).length := by
        rw [htoret, List.length_append]
      obtain ⟨k, hk, hsorting, hnil, hbefore, heq⟩ := ih hround (by omega)
      refine ⟨k + 1, by omega, hsorting, hnil, fun j hj ↦ ?_, heq⟩
      rcases j with _ | j
      · exact hne
      · exact hbefore j (Nat.lt_of_succ_lt_succ hj)

end Rounds

/-! ## What is sorted -/

section Spec

variable {children : α → List α} {order : List α}

/-- **What the algorithm does on any graph.** -/
theorem toposort_spec (children : α → List α) (hnodup : order.Nodup) :
    (toposort children order).Nodup ∧ toposort children order ⊆ order ∧
      ChildrenFirst children (toposort children order) ∧
      ∀ p ∈ order, p ∉ toposort children order → ∃ c ∈ children p, c ∉ toposort children order := by
  obtain ⟨k, -, hs, hnil, -, heq⟩ := (sorting_start children hnodup).rounds
    (show order.length < order.length + 1 + (start children order).toret.length by omega)
  rw [toposort, heq]
  refine ⟨hs.nodup, hs.subset, hs.childrenFirst, fun p hp hnot ↦ ?_⟩
  by_contra hall
  push Not at hall
  have hmem := (hs.zerolist.2 p).mpr ⟨hp, hnot, hall⟩
  rw [hnil] at hmem
  exact List.not_mem_nil hmem

theorem exists_iterate_round (children : α → List α) (hnodup : order.Nodup) :
    ∃ k ≤ order.length, (round^[k] (start children order)).inNum2List 0 = [] ∧
      (∀ j < k, (round^[j] (start children order)).inNum2List 0 ≠ []) ∧
      toposort children order = (round^[k] (start children order)).toret := by
  obtain ⟨k, hk, -, hrest⟩ := (sorting_start children hnodup).rounds
    (show order.length < order.length + 1 + (start children order).toret.length by omega)
  exact ⟨k, by omega, hrest⟩

/-- **An acyclic graph is sorted completely.** -/
theorem toposort_perm (rank : α → ℕ) (hnodup : order.Nodup)
    (hclosed : ∀ p ∈ order, ∀ c ∈ children p, c ∈ order) (hrank : ∀ p ∈ order, ∀ c ∈ children p, rank c < rank p) :
    (toposort children order).Perm order := by
  obtain ⟨hnodup', hsub, -, hleft⟩ := toposort_spec children hnodup
  have hall : ∀ p ∈ order, p ∈ toposort children order := by
    intro p hp
    induction hr : rank p using Nat.strong_induction_on generalizing p with
    | _ r ih =>
      subst hr
      by_contra hnot
      obtain ⟨c, hc, hcnot⟩ := hleft p hp hnot
      exact hcnot (ih _ (hrank p hp c hc) c (hclosed p hp c hc) rfl)
  exact (List.perm_ext_iff_of_nodup hnodup' hnodup).mpr fun p ↦ ⟨fun h ↦ hsub h, hall p⟩

/-- **Where every node has a child, nothing is sorted.** -/
theorem toposort_eq_nil (hnodup : order.Nodup) (h : ∀ p ∈ order, children p ≠ []) :
    toposort children order = [] := by
  obtain ⟨-, hsub, hfirst, -⟩ := toposort_spec children hnodup
  rcases hcase : toposort children order with _ | ⟨id, rest⟩
  · rfl
  · rw [hcase] at hsub hfirst
    obtain ⟨c, hc⟩ := List.exists_mem_of_ne_nil _ (h id (hsub List.mem_cons_self))
    exact absurd (hfirst [] id rest rfl c hc) List.not_mem_nil

end Spec

/-! ## Cycles -/

section Cycles

variable {children : α → List α} {order : List α}

def Edge (children : α → List α) (p c : α) : Prop := c ∈ children p

/-- A cycle can be reached from the node. -/
def ReachesCycle (children : α → List α) (id : α) : Prop :=
  ∃ x, Relation.ReflTransGen (Edge children) id x ∧ Relation.TransGen (Edge children) x x

/-- What is sorted can be numbered so that every node is above its children. -/
theorem ChildrenFirst.idxOf_lt {sorted : List α} (h : ChildrenFirst children sorted) {p c : α}
    (hp : p ∈ sorted) (hc : c ∈ children p) : sorted.idxOf c < sorted.idxOf p := by
  -- the node at its first place
  obtain ⟨l₁, l₂, hsplit, hnot⟩ := List.eq_append_cons_of_mem hp
  have hmem := h l₁ p l₂ hsplit c hc
  rw [hsplit, List.idxOf_append_of_mem hmem, List.idxOf_append_of_notMem hnot, List.idxOf_cons_self]
  exact List.idxOf_lt_length_of_mem hmem

theorem ChildrenFirst.not_reachesCycle {sorted : List α} (h : ChildrenFirst children sorted) {id : α}
    (hid : id ∈ sorted) : ¬ReachesCycle children id := by
  rintro ⟨x, hreach, hcycle⟩
  have hx : x ∈ sorted := by
    clear hcycle
    induction hreach with
    | refl => exact hid
    | tail _ hedge ih => exact h.mem ih hedge
  have hlt : ∀ y, Relation.TransGen (Edge children) x y → y ∈ sorted ∧ sorted.idxOf y < sorted.idxOf x := by
    intro y hy
    induction hy with
    | single hedge => exact ⟨h.mem hx hedge, h.idxOf_lt hx hedge⟩
    | tail _ hedge ih => exact ⟨h.mem ih.1 hedge, (h.idxOf_lt ih.1 hedge).trans ih.2⟩
  exact lt_irrefl _ (hlt x hcycle).2

variable (order) in
omit [DecidableEq α] in
/-- The nodes that can be reached from a node that reaches no cycle are well founded under their children. -/
theorem wellFounded_of_not_reachesCycle {id : α} (hid : ¬ReachesCycle children id) :
    WellFounded fun y x : {x // x ∈ order ∧ Relation.ReflTransGen (Edge children) id x} ↦
      Relation.TransGen (Edge children) x.1 y.1 := by
  have hfinite : Finite {x // x ∈ order ∧ Relation.ReflTransGen (Edge children) id x} :=
    (order.finite_toSet.subset fun _ hx ↦ hx.1).to_subtype
  have htrans : IsTrans {x // x ∈ order ∧ Relation.ReflTransGen (Edge children) id x}
      fun y x ↦ Relation.TransGen (Edge children) x.1 y.1 := ⟨fun _ _ _ h h' ↦ h'.trans h⟩
  have hirrefl : Std.Irrefl fun y x : {x // x ∈ order ∧ Relation.ReflTransGen (Edge children) id x} ↦
      Relation.TransGen (Edge children) x.1 y.1 := ⟨fun x h ↦ hid ⟨x.1, x.2.2, h⟩⟩
  exact Finite.wellFounded_of_trans_of_irrefl _

/-- **What is sorted are the nodes from which no cycle is reachable.** -/
theorem mem_toposort_iff (hnodup : order.Nodup) (hclosed : ∀ p ∈ order, ∀ c ∈ children p, c ∈ order) {id : α} :
    id ∈ toposort children order ↔ id ∈ order ∧ ¬ReachesCycle children id := by
  obtain ⟨-, hsub, hfirst, hleft⟩ := toposort_spec children hnodup
  constructor
  · exact fun h ↦ ⟨hsub h, hfirst.not_reachesCycle h⟩
  · rintro ⟨hid, hnot⟩
    have hall : ∀ x : {x // x ∈ order ∧ Relation.ReflTransGen (Edge children) id x},
        x.1 ∈ toposort children order := by
      intro x
      induction x using (wellFounded_of_not_reachesCycle order hnot).induction with
      | _ x ih =>
        by_contra hx
        obtain ⟨c, hc, hcnot⟩ := hleft x.1 x.2.1 hx
        exact hcnot (ih ⟨c, hclosed x.1 x.2.1 c hc, x.2.2.tail hc⟩ (.single hc))
    exact hall ⟨id, hid, .refl⟩

end Cycles

end UniDedup.Toposort
