import Mathlib.Algebra.BigOperators.Group.List.Basic
import UniDedup.Lib.Fold
import UniDedup.Storage.ECDAG

/-!
# What a graph computes

A node without children is read from the stripe. Any other node is the sum of its children, each times
its coefficient; when its only child is a bind node, the row is the one the bind node holds for it, over
the children of the bind node.

The evaluation follows the children as far as its fuel lasts, and a value found with some fuel is found
with more. A `Join` changes the value of its root only, as long as the root is not a child of a node:
this is how the temporaries of a decoding, and a target that is joined again, leave everything else as it
was.
-/

namespace UniDedup.Storage

namespace ECDAG

/-- The sum of the values, each times its coefficient. -/
def dot (coefs vs : List GF256) : GF256 := (List.zipWith (· * ·) coefs vs).sum

@[simp] theorem dot_nil (vs : List GF256) : dot [] vs = 0 := rfl

@[simp] theorem dot_cons (c v : GF256) (coefs vs : List GF256) :
    dot (c :: coefs) (v :: vs) = c * v + dot coefs vs := by
  rw [dot, List.zipWith_cons_cons, List.sum_cons, dot]

/-- The bind node a node with these children is computed by. -/
def bindOf (S : ℕ → Option Shape) : List ℕ → Option Shape
  | [c] => (S c).filter fun sh ↦ 1 < sh.2.keys.length
  | _ => none

/-- The children and the coefficients a node is computed with. -/
def rowOf (S : ℕ → Option Shape) (id : ℕ) (sh : Shape) : Option (List ℕ × List GF256) :=
  let src := (bindOf S sh.1).getD sh
  (src.2.lookup id).map fun coefs ↦ (src.1, coefs)

/-- The value of a node, when the children are followed `fuel` levels deep. -/
def value (S : ℕ → Option Shape) (env : ℕ → GF256) : ℕ → ℕ → Option GF256
  | 0, _ => none
  | fuel + 1, id =>
    (S id).bind fun sh ↦
      if sh.1 = [] then some (env id)
      else (rowOf S id sh).bind fun row ↦ (row.1.mapM (value S env fuel)).map (dot row.2)

def Evaluates (S : ℕ → Option Shape) (env : ℕ → GF256) (id : ℕ) (v : GF256) : Prop :=
  ∃ fuel, value S env fuel id = some v

theorem mapM_eq_some_iff {β : Type*} {f : ℕ → Option β} {ids : List ℕ} {vs : List β} :
    ids.mapM f = some vs ↔ List.Forall₂ (fun id v ↦ f id = some v) ids vs := Fold.mapM_iff_forall₂

section Rules

variable {S : ℕ → Option Shape} {env : ℕ → GF256} {id fuel fuel' : ℕ} {v v' : GF256} {sh : Shape}

/-- How a value comes about: a leaf, or a row over the values of the children. -/
theorem value_succ_eq_some_iff : value S env (fuel + 1) id = some v ↔
    ∃ sh, S id = some sh ∧ (sh.1 = [] ∧ v = env id ∨ sh.1 ≠ [] ∧ ∃ cs coefs vs,
      rowOf S id sh = some (cs, coefs) ∧
      List.Forall₂ (fun id v ↦ value S env fuel id = some v) cs vs ∧ v = dot coefs vs) := by
  rw [value, Option.bind_eq_some_iff]
  refine exists_congr fun sh ↦ and_congr_right fun _ ↦ ?_
  by_cases hleaf : sh.1 = []
  · rw [if_pos hleaf, Option.some_inj]
    exact ⟨fun h ↦ .inl ⟨hleaf, h.symm⟩, fun h ↦ (h.resolve_right fun h ↦ h.1 hleaf).2.symm⟩
  · rw [if_neg hleaf, Option.bind_eq_some_iff]
    constructor
    · rintro ⟨⟨cs, coefs⟩, hrow, h⟩
      obtain ⟨vs, hvs, hv⟩ := Option.map_eq_some_iff.mp h
      exact .inr ⟨hleaf, cs, coefs, vs, hrow, mapM_eq_some_iff.mp hvs, hv.symm⟩
    · rintro (⟨h, -⟩ | ⟨-, cs, coefs, vs, hrow, hvs, rfl⟩)
      · exact absurd h hleaf
      · exact ⟨(cs, coefs), hrow, Option.map_eq_some_iff.mpr ⟨vs, mapM_eq_some_iff.mpr hvs, rfl⟩⟩

theorem value_succ (h : value S env fuel id = some v) : value S env (fuel + 1) id = some v := by
  induction fuel generalizing id v with
  | zero => exact absurd h.symm (Option.some_ne_none v)
  | succ fuel ih =>
    obtain ⟨sh, hsh, hleaf | ⟨hne, cs, coefs, vs, hrow, hvs, hv⟩⟩ := value_succ_eq_some_iff.mp h
    · exact value_succ_eq_some_iff.mpr ⟨sh, hsh, .inl hleaf⟩
    · refine value_succ_eq_some_iff.mpr ⟨sh, hsh, .inr ⟨hne, cs, coefs, vs, hrow, ?_, hv⟩⟩
      exact hvs.imp fun _ _ h ↦ ih h

theorem value_mono (h : value S env fuel id = some v) (hle : fuel ≤ fuel') :
    value S env fuel' id = some v := by
  induction hle with
  | refl => exact h
  | step _ ih => exact value_succ ih

/-- **A node has at most one value.** -/
theorem Evaluates.unique (h : Evaluates S env id v) (h' : Evaluates S env id v') : v = v' := by
  obtain ⟨fuel, h⟩ := h
  obtain ⟨fuel', h'⟩ := h'
  have hmax := value_mono h (le_max_left fuel fuel')
  rw [value_mono h' (le_max_right fuel fuel')] at hmax
  exact (Option.some_inj.mp hmax).symm

theorem Evaluates.ne_none (h : Evaluates S env id v) : S id ≠ none := by
  obtain ⟨fuel, h⟩ := h
  cases fuel with
  | zero => exact absurd h.symm (Option.some_ne_none v)
  | succ fuel =>
    obtain ⟨sh, hsh, -⟩ := value_succ_eq_some_iff.mp h
    rw [hsh]
    exact Option.some_ne_none sh

theorem evaluates_leaf {M : CoefMap} (h : S id = some ([], M)) : Evaluates S env id (env id) :=
  ⟨1, value_succ_eq_some_iff.mpr ⟨_, h, .inl ⟨rfl, rfl⟩⟩⟩

theorem exists_fuel {cs : List ℕ} {vs : List GF256} (h : List.Forall₂ (Evaluates S env) cs vs) :
    ∃ fuel, List.Forall₂ (fun id v ↦ value S env fuel id = some v) cs vs := by
  induction h with
  | nil => exact ⟨0, .nil⟩
  | cons hc _ ih =>
    obtain ⟨fuel, hc⟩ := hc
    obtain ⟨fuel', hcs⟩ := ih
    exact ⟨max fuel fuel', .cons (value_mono hc (le_max_left ..))
      (hcs.imp fun _ _ h ↦ value_mono h (le_max_right ..))⟩

theorem evaluates_row {cs : List ℕ} {coefs vs : List GF256} (h : S id = some sh) (hne : sh.1 ≠ [])
    (hrow : rowOf S id sh = some (cs, coefs)) (hvs : List.Forall₂ (Evaluates S env) cs vs) :
    Evaluates S env id (dot coefs vs) := by
  obtain ⟨fuel, hvs⟩ := exists_fuel hvs
  exact ⟨fuel + 1, value_succ_eq_some_iff.mpr ⟨sh, h, .inr ⟨hne, cs, coefs, vs, hrow, hvs, rfl⟩⟩⟩

/-- A node with two children or more is computed with its own coefficients. -/
theorem evaluates_own {cs : List ℕ} {coefs vs : List GF256}
    (h : S id = some (cs, AList.singleton id coefs)) (hlen : 2 ≤ cs.length)
    (hvs : List.Forall₂ (Evaluates S env) cs vs) : Evaluates S env id (dot coefs vs) := by
  have hne : cs ≠ [] := List.ne_nil_of_length_pos (by omega)
  refine evaluates_row h hne ?_ hvs
  have hbind : bindOf S cs = none := by
    rcases cs with _ | ⟨c, _ | ⟨d, rest⟩⟩
    · rfl
    · exact absurd hlen (Nat.not_succ_le_self 1)
    · rfl
  have hlookup : (AList.singleton id coefs : CoefMap).lookup id = some coefs := AList.lookup_insert ∅
  rw [rowOf, hbind, Option.getD_none, hlookup]
  rfl

/-- A node whose only child is a bind node is computed with the row the bind node has for it. -/
theorem evaluates_bound {b : ℕ} {cs : List ℕ} {M M' : CoefMap} {coefs vs : List GF256}
    (h : S id = some ([b], M)) (hb : S b = some (cs, M')) (hnum : 1 < M'.keys.length)
    (hrow : M'.lookup id = some coefs) (hvs : List.Forall₂ (Evaluates S env) cs vs) :
    Evaluates S env id (dot coefs vs) := by
  refine evaluates_row h (List.cons_ne_nil b []) ?_ hvs
  have hbind : bindOf S [b] = some (cs, M') := by
    rw [bindOf, hb, Option.filter_some, if_pos (decide_eq_true hnum)]
  rw [rowOf, hbind, Option.getD_some, hrow]
  rfl

end Rules

/-! ## Graphs that grow -/

/-- The node is not a child of any node. -/
def NotChild (S : ℕ → Option Shape) (p : ℕ) : Prop := ∀ id sh, S id = some sh → p ∉ sh.1

/-- The node can be used: it has the value, or it is not there and will be read. -/
def Ready (S : ℕ → Option Shape) (env : ℕ → GF256) (id : ℕ) (v : GF256) : Prop :=
  S id = none ∧ v = env id ∨ Evaluates S env id v

section Growing

variable {S S' : ℕ → Option Shape} {env : ℕ → GF256} {p id : ℕ} {v : GF256}

/-- A row is over the children of the node or over those of the bind node. -/
theorem notMem_row {sh : Shape} {cs : List ℕ} {coefs : List GF256} (hp : NotChild S p)
    (hsh : S id = some sh) (hrow : rowOf S id sh = some (cs, coefs)) : p ∉ cs := by
  obtain ⟨_, -, hpair⟩ := Option.map_eq_some_iff.mp hrow
  have hcs : ((bindOf S sh.1).getD sh).1 = cs := congrArg Prod.fst hpair
  rw [← hcs]
  cases hb : bindOf S sh.1 with
  | none => exact hp id sh hsh
  | some b =>
    rcases hc : sh.1 with _ | ⟨c, _ | ⟨d, rest⟩⟩
    · rw [hc] at hb
      exact absurd hb.symm (Option.some_ne_none b)
    · rw [hc, bindOf, Option.filter_eq_some_iff] at hb
      exact hp c b hb.1
    · rw [hc] at hb
      exact absurd hb.symm (Option.some_ne_none b)

theorem child_ne_none {sh : Shape} {cs : List ℕ} {coefs vs : List GF256} {c : ℕ} (hc : sh.1 = [c])
    (hrow : rowOf S id sh = some (cs, coefs)) (hvs : List.Forall₂ (Evaluates S env) cs vs) :
    S c ≠ none := by
  intro hnone
  have hbind : bindOf S sh.1 = none := by rw [hc, bindOf, hnone]; rfl
  rw [rowOf, hbind] at hrow
  obtain ⟨_, -, hpair⟩ := Option.map_eq_some_iff.mp hrow
  have hcs : cs = [c] := by rw [← hc]; exact (congrArg Prod.fst hpair).symm
  rw [hcs] at hvs
  obtain ⟨_, _, hval, -⟩ := List.forall₂_cons_left_iff.mp hvs
  exact hval.ne_none hnone

/-- **Nodes keep their values when only a node that is no child changes.** -/
theorem Evaluates.mono (hkeep : ∀ id, id ≠ p → S id ≠ none → S' id = S id) (hp : NotChild S p)
    (hid : id ≠ p) (h : Evaluates S env id v) : Evaluates S' env id v := by
  obtain ⟨fuel, h⟩ := h
  refine ⟨fuel, ?_⟩
  induction fuel generalizing id v with
  | zero => exact absurd h.symm (Option.some_ne_none v)
  | succ fuel ih =>
    obtain ⟨sh, hsh, hcase⟩ := value_succ_eq_some_iff.mp h
    have hsh' : S' id = some sh := by rw [hkeep id hid (by rw [hsh]; exact Option.some_ne_none sh), hsh]
    refine value_succ_eq_some_iff.mpr ⟨sh, hsh', hcase.imp_right ?_⟩
    rintro ⟨hne, cs, coefs, vs, hrow, hvs, hv⟩
    have hbind : bindOf S' sh.1 = bindOf S sh.1 := by
      rcases hc : sh.1 with _ | ⟨c, _ | ⟨d, rest⟩⟩
      · rfl
      · have hcp : c ≠ p := fun h ↦ hp id sh hsh (by rw [hc, h]; exact List.mem_singleton_self p)
        have hcS : S c ≠ none := child_ne_none hc hrow (hvs.imp fun _ _ h ↦ ⟨fuel, h⟩)
        rw [bindOf, bindOf, hkeep c hcp hcS]
      · rfl
    have hrow' : rowOf S' id sh = some (cs, coefs) := by
      rw [rowOf, hbind]
      exact hrow
    refine ⟨hne, cs, coefs, vs, hrow', ?_, hv⟩
    refine List.forall₂_iff_get.mpr ⟨hvs.length_eq, fun i hi hi' ↦ ih ?_ (hvs.get hi hi')⟩
    exact fun h ↦ notMem_row hp hsh hrow (h ▸ List.get_mem cs ⟨i, hi⟩)

/-! A node whose value is used stays usable when the graph is joined elsewhere. -/

variable {dag : ECDAG} {cs : List ℕ} {coefs vs : List GF256}

theorem join_keep (dag : ECDAG) (cs : List ℕ) (coefs : List GF256) (hid : id ≠ p)
    (h : dag.shape id ≠ none) : (dag.join p cs coefs).shape id = dag.shape id := by
  rw [shape_join, if_neg hid, if_neg fun hnone ↦ h hnone.2]

theorem Evaluates.join (cs : List ℕ) (coefs : List GF256) (hp : NotChild dag.shape p) (hid : id ≠ p)
    (h : Evaluates dag.shape env id v) : Evaluates (dag.join p cs coefs).shape env id v :=
  h.mono (fun _ hid hne ↦ join_keep dag cs coefs hid hne) hp hid

theorem Ready.join_mem (coefs : List GF256) (hp : NotChild dag.shape p) (hid : id ≠ p) (hmem : id ∈ cs)
    (h : Ready dag.shape env id v) : Evaluates (dag.join p cs coefs).shape env id v := by
  rcases h with ⟨hnone, rfl⟩ | h
  · refine evaluates_leaf (M := ∅) ?_
    rw [shape_join, if_neg hid, if_pos ⟨hmem, hnone⟩]
  · exact h.join cs coefs hp hid

theorem Ready.join (cs : List ℕ) (coefs : List GF256) (hp : NotChild dag.shape p) (hid : id ≠ p)
    (h : Ready dag.shape env id v) : Ready (dag.join p cs coefs).shape env id v := by
  by_cases hmem : id ∈ cs
  · exact .inr (h.join_mem coefs hp hid hmem)
  · rcases h with ⟨hnone, rfl⟩ | h
    · refine .inl ⟨?_, rfl⟩
      rw [shape_join, if_neg hid, if_neg fun h ↦ hmem h.1, hnone]
    · exact .inr (h.join cs coefs hp hid)

/-- **The value of the root of a `Join`** of two children or more. -/
theorem evaluates_join_root (hp : NotChild dag.shape p) (hpc : p ∉ cs) (hlen : 2 ≤ cs.length)
    (h : List.Forall₂ (Ready dag.shape env) cs vs) :
    Evaluates (dag.join p cs coefs).shape env p (dot coefs vs) := by
  have hshape : (dag.join p cs coefs).shape p = some (cs, AList.singleton p coefs) := by
    rw [shape_join, if_pos rfl]
  refine evaluates_own hshape hlen (List.forall₂_iff_get.mpr ⟨h.length_eq, fun i hi hi' ↦ ?_⟩)
  have hmem := List.get_mem cs ⟨i, hi⟩
  exact (h.get hi hi').join_mem coefs hp (fun heq ↦ hpc (heq ▸ hmem)) hmem

theorem NotChild.join {q : ℕ} (coefs : List GF256) (h : NotChild dag.shape q) (hq : q ∉ cs) :
    NotChild (dag.join p cs coefs).shape q := by
  intro id sh hsh
  rw [shape_join] at hsh
  split at hsh
  · rw [← Option.some_inj.mp hsh]
    exact hq
  · split at hsh
    · rw [← Option.some_inj.mp hsh]
      exact List.not_mem_nil
    · exact h id sh hsh

end Growing

end ECDAG

end UniDedup.Storage
