import UniDedup.Lib.Pointwise
import UniDedup.Storage.MessageSizes

/-!
# The commands of a graph

Every node that is loaded or computed has one command, in the order in which the nodes are sorted, and what it says but
for addresses and reference counts is in the shape of the graph. The loads of a block become one, which has as many
numbers as the block has leaves, and takes the place of all commands under the numbers of the block. Every command writes
its message when it is built, those that are dropped then as well.
-/

namespace UniDedup.Storage

open Codec Wire

namespace ECDAG

/-- The node is not bound to a bind node, so that it has a command. -/
def commanded (S : ℕ → Option Shape) (id : ℕ) : Bool := (S id).any fun sh ↦ (bindOf S sh.1).isNone

def loaded (S : ℕ → Option Shape) (id : ℕ) : Bool := (S id).any fun sh ↦ sh.1.isEmpty

/-- What the command of a node says. -/
inductive CommandOf (S : ℕ → Option Shape) (w id : ℕ) : AGCommand → Prop
  | load {M : CoefMap} (hS : S id = some ([], M)) (ip : ℕ) (refs : RefMap) :
    CommandOf S w id (.readDisk ip (id / w) [id] refs)
  | compute {cs : List ℕ} {M : CoefMap} {prevs : List (ℕ × ℕ)} (hS : S id = some (cs, M)) (hne : cs ≠ [])
    (hprevs : prevs.map Prod.fst = cs) (ip : ℕ) (refs : RefMap) : CommandOf S w id (.fetchCompute ip prevs M refs)

/-- A command under the number of its node. -/
def Entry (S : ℕ → Option Shape) (w : ℕ) (x : ℕ × AGCommand) (id : ℕ) : Prop := x.1 = id ∧ CommandOf S w id x.2

section Parsing

variable {dag : ECDAG} {w : ℕ} {s : Parsed}

theorem forall₂_parseTurn (cid2ip : ℕ → ℕ) {done : List ℕ} {id : ℕ} (hid : id ∈ dag.nodes)
    (hs : List.Forall₂ (Entry dag.shape w) s.agCmds (done.filter (commanded dag.shape))) :
    List.Forall₂ (Entry dag.shape w) (dag.parseTurn w cid2ip s id).agCmds
      ((done ++ [id]).filter (commanded dag.shape)) := by
  obtain ⟨nd, hnd⟩ := Option.isSome_iff_exists.mp (AList.lookup_isSome.mpr hid)
  have hsh := shape_of_lookup hnd
  have hone : ∀ {cmd : AGCommand}, CommandOf dag.shape w id cmd →
      List.Forall₂ (Entry dag.shape w) (s.agCmds ++ [(id, cmd)]) (done.filter (commanded dag.shape) ++ [id]) :=
    fun hcmd ↦ List.rel_append hs (.cons ⟨rfl, hcmd⟩ .nil)
  rw [List.filter_append, List.filter_singleton, commanded, hsh, Option.any_some, parseTurn, ECDAG.parseForOEC, hnd,
    Option.map_some]
  generalize hcs : nd.childNodes = cs at hsh
  rcases cs with _ | ⟨c, _ | ⟨d, rest⟩⟩
  · exact hone (.load hsh _ _)
  · by_cases hbind : 1 < dag.coefNum c
    · have hsome : (bindOf dag.shape [c]).isNone = false := by
        rw [Bool.eq_false_iff, Ne, Option.isNone_iff_eq_none, bindOf_eq_none_iff]
        exact not_not_intro hbind
      rw [hsome]
      dsimp only
      rw [if_pos hbind]
      simp only [parseAGCommand, Option.toList_none, List.map_nil, List.append_nil, cond_false]
      exact hs
    · have hnone : (bindOf dag.shape [c]).isNone = true := by
        rw [Option.isNone_iff_eq_none, bindOf_eq_none_iff]
        exact hbind
      rw [hnone]
      dsimp only
      rw [if_neg hbind]
      exact hone (.compute hsh (List.cons_ne_nil _ _) rfl _ _)
  · exact hone (.compute hsh (List.cons_ne_nil _ _) (by rw [List.map_map]; exact List.map_id _) _ _)

/-- **The commands before the loads are merged** are those of the sorted nodes. -/
theorem forall₂_parseTurns (cid2ip : ℕ → ℕ) {order : List ℕ} (horder : ∀ id ∈ dag.toposort order, id ∈ dag.nodes) :
    List.Forall₂ (Entry dag.shape w) (dag.parseTurns order w cid2ip).agCmds
      ((dag.toposort order).filter (commanded dag.shape)) := by
  rw [parseTurns]
  generalize dag.toposort order = l at horder
  suffices h : ∀ (done : List ℕ) (s : Parsed),
      List.Forall₂ (Entry dag.shape w) s.agCmds (done.filter (commanded dag.shape)) →
      List.Forall₂ (Entry dag.shape w) (l.foldl (dag.parseTurn w cid2ip) s).agCmds
        ((done ++ l).filter (commanded dag.shape)) from
    h [] {} .nil
  induction l with
  | nil =>
    intro done s hs
    rwa [List.append_nil]
  | cons id l ih =>
    intro done s hs
    have hturn := forall₂_parseTurn cid2ip (horder id List.mem_cons_self) hs
    have hrest := ih (fun j hj ↦ horder j (List.mem_cons_of_mem id hj)) _ _ hturn
    rwa [List.append_assoc] at hrest

end Parsing

/-! ## Merging -/

section Merging

variable {S : ℕ → Option Shape} {w sid : ℕ} {s : StripeNames}

theorem loaded_iff {id : ℕ} : loaded S id ↔ ∃ M, S id = some ([], M) := by
  rw [loaded, Option.any_eq_true]
  constructor
  · rintro ⟨⟨cs, M⟩, hS, hempty⟩
    obtain rfl : cs = [] := List.isEmpty_iff.mp hempty
    exact ⟨M, hS⟩
  · rintro ⟨M, hS⟩
    exact ⟨_, hS, rfl⟩

theorem commanded_iff {id : ℕ} : commanded S id ↔ ∃ cs M, S id = some (cs, M) ∧ bindOf S cs = none := by
  rw [commanded, Option.any_eq_true]
  constructor
  · rintro ⟨⟨cs, M⟩, hS, hnone⟩
    exact ⟨cs, M, hS, Option.isNone_iff_eq_none.mp hnone⟩
  · rintro ⟨cs, M, hS, hnone⟩
    exact ⟨(cs, M), hS, Option.isNone_iff_eq_none.mpr hnone⟩

theorem commanded_of_loaded {id : ℕ} (h : loaded S id) : commanded S id := by
  obtain ⟨M, hS⟩ := loaded_iff.mp h
  exact commanded_iff.mpr ⟨[], M, hS, rfl⟩

theorem CommandOf.isLoad_iff {id : ℕ} {cmd : AGCommand} (h : CommandOf S w id cmd) : cmd.isLoad ↔ loaded S id := by
  cases h with
  | load hS => exact iff_of_true rfl (loaded_iff.mpr ⟨_, hS⟩)
  | compute hS hne =>
    refine iff_of_false Bool.false_ne_true fun h ↦ ?_
    obtain ⟨M, hM⟩ := loaded_iff.mp h
    rw [hS] at hM
    exact hne (congrArg Prod.fst (Option.some.inj hM))

theorem exists_mergeGroup {cmds : List (ℕ × AGCommand)} {ids : List ℕ} (h : List.Forall₂ (Entry S w) cmds ids)
    (hids : ∀ id ∈ ids, loaded S id ∧ id / w = sid) (hne : ids ≠ []) :
    ∃ ip cids refs, mergeGroup cmds = some (.readDisk ip sid cids refs) ∧ cids.length = ids.length := by
  induction h with
  | nil => exact absurd rfl hne
  | @cons x id cmds ids hx hrest ih =>
    obtain ⟨hload, hsid⟩ := hids id List.mem_cons_self
    obtain ⟨ip, refs, hcmd⟩ : ∃ ip refs, x.2 = .readDisk ip sid [id] refs := by
      obtain ⟨-, hcmd⟩ := hx
      obtain ⟨M, hM⟩ := loaded_iff.mp hload
      generalize x.2 = cmd at hcmd
      cases hcmd with
      | load hS ip refs => exact ⟨ip, refs, by rw [hsid]⟩
      | compute hS hne' =>
        rw [hM] at hS
        exact absurd (congrArg Prod.fst (Option.some.inj hS)).symm hne'
    cases hrest with
    | nil => exact ⟨ip, [id], refs, congrArg some hcmd, rfl⟩
    | cons hy hrest =>
      obtain ⟨ip', cids, refs', hgroup, hlen⟩ :=
        ih (fun j hj ↦ hids j (List.mem_cons_of_mem id hj)) (List.cons_ne_nil _ _)
      refine ⟨ip, id :: cids, refs ∪ refs', ?_, congrArg Nat.succ hlen⟩
      rw [mergeGroup, hgroup, Option.map_some, hcmd]
      · rfl
      · exact List.cons_ne_nil _ _

/-- Leaves of the block are sorted among the nodes. -/
def HasLeaf (S : ℕ → Option Shape) (sorted : List ℕ) (w sid : ℕ) : Prop := ∃ id ∈ sorted, loaded S id ∧ id / w = sid

def leafCount (S : ℕ → Option Shape) (sorted : List ℕ) (w sid : ℕ) : ℕ :=
  (sorted.filter fun id ↦ loaded S id && decide (id / w = sid)).length

/-- The loads of a block of the stripe are merged when blocks have several sub-packets. -/
def Merges (n w sid : ℕ) : Prop := 1 < w ∧ sid < n

instance (n w sid : ℕ) : Decidable (Merges n w sid) := inferInstanceAs (Decidable (_ ∧ _))

theorem leafCount_pos {sorted : List ℕ} {id : ℕ} (hid : id ∈ sorted) (hload : loaded S id) :
    0 < leafCount S sorted w (id / w) := by
  refine List.length_pos_of_mem (List.mem_filter.mpr ⟨hid, ?_⟩)
  rw [hload, Bool.true_and]
  exact decide_eq_true rfl

/-- Loads and computations of the sorted nodes are small enough for their buffers. -/
structure SmallNodes (S : ℕ → Option Shape) (sorted : List ℕ) (s : StripeNames) (n : ℕ) : Prop where
  load : ∀ id ∈ sorted, loaded S id → s.blockLength (id / s.w)
    (if Merges n s.w (id / s.w) then leafCount S sorted s.w (id / s.w) else 1) ≤ Wire.maxCommandLen
  compute : ∀ id ∈ sorted, ∀ cs M, S id = some (cs, M) → cs ≠ [] → bindOf S cs = none →
    s.computeLength cs.length M.keys.length ≤ Wire.maxCommandLen

theorem CommandOf.length_le_iff {id N : ℕ} {cmd : AGCommand} (hcmd : CommandOf S w id cmd) (h : commanded S id) :
    cmd.messageLength s ≤ N ↔ (loaded S id → s.blockLength (id / w) 1 ≤ N) ∧
      ∀ cs M, S id = some (cs, M) → cs ≠ [] → bindOf S cs = none → s.computeLength cs.length M.keys.length ≤ N := by
  obtain ⟨cs, M, hS, hnone⟩ := commanded_iff.mp h
  have hsame : ∀ {cs' : List ℕ} {M' : CoefMap}, S id = some (cs', M') → cs' = cs ∧ M' = M :=
    fun hS' ↦ Prod.mk.inj (Option.some.inj (hS'.symm.trans hS))
  have hload := hcmd.isLoad_iff
  cases hcmd with
  | load hM =>
    obtain ⟨rfl, rfl⟩ := hsame hM
    refine ⟨fun hle ↦ ⟨fun _ ↦ hle, fun cs' M' hS' hne ↦ absurd (hsame hS').1 hne⟩, fun hle ↦ hle.1 (hload.mp rfl)⟩
  | compute hS' hne hprevs =>
    obtain ⟨rfl, rfl⟩ := hsame hS'
    have hlen := congrArg List.length hprevs
    rw [List.length_map] at hlen
    rw [AGCommand.messageLength, hlen]
    constructor
    · intro hle
      refine ⟨fun hl ↦ absurd (hload.mpr hl) Bool.false_ne_true, fun cs' M' hS'' _ _ ↦ ?_⟩
      obtain ⟨rfl, rfl⟩ := hsame hS''
      exact hle
    · exact fun hle ↦ hle.2 _ _ hS' hne hnone

section Groups

variable {A : List (ℕ × AGCommand)} {sorted : List ℕ} {n : ℕ}

theorem forall₂_group (h : List.Forall₂ (Entry S w) A (sorted.filter (commanded S))) (hsid : sid < n) :
    List.Forall₂ (Entry S w)
      ((A.filter fun cmd ↦ cmd.2.isLoad && decide (cmd.1 / w < n)).filter fun cmd ↦ decide (cmd.1 / w = sid))
      (sorted.filter fun id ↦ loaded S id && decide (id / w = sid)) := by
  have hids : (sorted.filter fun id ↦ loaded S id && decide (id / w = sid)) =
      (sorted.filter (commanded S)).filter fun id ↦ loaded S id && decide (id / w = sid) := by
    rw [List.filter_filter]
    refine List.filter_congr fun id _ ↦ ?_
    by_cases hload : loaded S id
    · rw [commanded_of_loaded hload, Bool.and_true]
    · rw [Bool.eq_false_iff.mpr hload, Bool.false_and, Bool.false_and]
  rw [hids, List.filter_filter]
  refine List.rel_filter (fun x id hx ↦ ?_) h
  obtain ⟨rfl, hcmd⟩ := hx
  simp only [Bool.and_eq_true, decide_eq_true_eq, hcmd.isLoad_iff]
  constructor
  · rintro ⟨hblock, hload, -⟩
    exact ⟨hload, hblock⟩
  · rintro ⟨hload, hblock⟩
    exact ⟨hblock, hload, hblock ▸ hsid⟩

theorem mem_merged_iff (h : List.Forall₂ (Entry S w) A (sorted.filter (commanded S))) :
    sid ∈ ((A.filter fun cmd ↦ cmd.2.isLoad && decide (cmd.1 / w < n)).map (·.1 / w)).dedup ↔
      sid < n ∧ HasLeaf S sorted w sid := by
  rw [List.mem_dedup, List.mem_map]
  constructor
  · rintro ⟨x, hx, rfl⟩
    obtain ⟨hx, hmerge⟩ := List.mem_filter.mp hx
    obtain ⟨hload, hlt⟩ := (Bool.and_eq_true _ _).mp hmerge
    obtain ⟨id, hid, rfl, hcmd⟩ := h.exists_of_mem_left hx
    exact ⟨of_decide_eq_true hlt, x.1, (List.mem_filter.mp hid).1, hcmd.isLoad_iff.mp hload, rfl⟩
  · rintro ⟨hlt, id, hid, hload, rfl⟩
    obtain ⟨x, hx, rfl, hcmd⟩ := h.exists_of_mem_right (List.mem_filter.mpr ⟨hid, commanded_of_loaded hload⟩)
    refine ⟨x, List.mem_filter.mpr ⟨hx, ?_⟩, rfl⟩
    rw [hcmd.isLoad_iff.mpr hload, Bool.true_and]
    exact decide_eq_true hlt

theorem exists_load_of_hasLeaf (h : List.Forall₂ (Entry S w) A (sorted.filter (commanded S))) (hsid : sid < n)
    (hleaf : HasLeaf S sorted w sid) : ∃ ip cids refs,
      mergeGroup ((A.filter fun cmd ↦ cmd.2.isLoad && decide (cmd.1 / w < n)).filter fun cmd ↦
        decide (cmd.1 / w = sid)) = some (.readDisk ip sid cids refs) ∧ cids.length = leafCount S sorted w sid := by
  have hids : ∀ id ∈ sorted.filter fun id ↦ loaded S id && decide (id / w = sid), loaded S id ∧ id / w = sid := by
    intro id hid
    obtain ⟨hload, hblock⟩ := (Bool.and_eq_true _ _).mp (List.mem_filter.mp hid).2
    exact ⟨hload, of_decide_eq_true hblock⟩
  have hne : (sorted.filter fun id ↦ loaded S id && decide (id / w = sid)) ≠ [] := by
    obtain ⟨id, hid, hload, hblock⟩ := hleaf
    refine List.ne_nil_of_mem (List.mem_filter.mpr ⟨hid, ?_⟩)
    rw [hload, Bool.true_and]
    exact decide_eq_true hblock
  exact exists_mergeGroup (forall₂_group h hsid) hids hne

/-- The commands after the loads are merged: those outside of merged blocks, and one for each merged block. -/
theorem mem_mergeLoads_iff (h : List.Forall₂ (Entry S w) A (sorted.filter (commanded S))) {cmd : AGCommand} :
    cmd ∈ mergeLoads n w A ↔
      (∃ x ∈ A, ¬(Merges n w (x.1 / w) ∧ HasLeaf S sorted w (x.1 / w)) ∧ x.2 = cmd) ∨
      ∃ sid, Merges n w sid ∧ HasLeaf S sorted w sid ∧
        mergeGroup ((A.filter fun cmd ↦ cmd.2.isLoad && decide (cmd.1 / w < n)).filter fun cmd ↦
          decide (cmd.1 / w = sid)) = some cmd := by
  rw [mergeLoads]
  by_cases hw : w ≤ 1
  · have hnot : ∀ sid, ¬Merges n w sid := fun _ hm ↦ absurd hm.1 (Nat.not_lt.mpr hw)
    rw [if_pos hw, List.mem_map]
    constructor
    · rintro ⟨x, hx, rfl⟩
      exact .inl ⟨x, hx, fun hm ↦ hnot _ hm.1, rfl⟩
    · rintro (⟨x, hx, -, rfl⟩ | ⟨sid, hm, -⟩)
      · exact ⟨x, hx, rfl⟩
      · exact absurd hm (hnot sid)
  · have hmerged : ∀ {sid}, sid ∈ ((A.filter fun cmd ↦ cmd.2.isLoad && decide (cmd.1 / w < n)).map (·.1 / w)).dedup ↔
        Merges n w sid ∧ HasLeaf S sorted w sid := by
      intro sid
      rw [mem_merged_iff h, Merges, and_iff_right (Nat.not_le.mp hw)]
    rw [if_neg hw]
    dsimp only
    rw [List.mem_append, List.mem_map, List.mem_filterMap]
    refine or_congr ?_ ?_
    · refine exists_congr fun x ↦ ?_
      rw [List.mem_filter, decide_eq_true_iff, hmerged, and_assoc]
    · refine exists_congr fun sid ↦ ?_
      rw [hmerged, and_assoc]

theorem SmallNodes.messageLength_le (hsmall : SmallNodes S sorted s n)
    (h : List.Forall₂ (Entry S s.w) A (sorted.filter (commanded S))) {x : ℕ × AGCommand} (hx : x ∈ A) :
    x.2.messageLength s ≤ Wire.maxCommandLen := by
  obtain ⟨id, hid, rfl, hcmd⟩ := h.exists_of_mem_left hx
  obtain ⟨hsorted, hcommanded⟩ := List.mem_filter.mp hid
  refine (hcmd.length_le_iff hcommanded).mpr ⟨fun hload ↦ ?_, hsmall.compute x.1 hsorted⟩
  have hle := hsmall.load x.1 hsorted hload
  split_ifs at hle with hm
  · have hpos : 0 < leafCount S sorted s.w (x.1 / s.w) := leafCount_pos hsorted hload
    rw [StripeNames.blockLength] at hle ⊢
    omega
  · exact hle

/-- **The commands of `parseForOEC` are small**, those that it drops when it merges the loads too, exactly when the nodes
are. -/
theorem forall_builtCmds_iff (h : List.Forall₂ (Entry S s.w) A (sorted.filter (commanded S))) :
    (∀ cmd ∈ A.map Prod.snd ++ mergeLoads n s.w A, cmd.messageLength s ≤ Wire.maxCommandLen) ↔
      SmallNodes S sorted s n := by
  constructor
  · intro hall
    have hbuilt : ∀ id ∈ sorted, commanded S id →
        ∃ cmd, CommandOf S s.w id cmd ∧ cmd.messageLength s ≤ Wire.maxCommandLen := by
      intro id hid hcommanded
      obtain ⟨x, hx, rfl, hcmd⟩ := h.exists_of_mem_right (List.mem_filter.mpr ⟨hid, hcommanded⟩)
      exact ⟨x.2, hcmd, hall _ (List.mem_append_left _ (List.mem_map_of_mem hx))⟩
    refine ⟨fun id hid hload ↦ ?_, fun id hid cs M hS hne hnone ↦ ?_⟩
    · have hcommanded := commanded_of_loaded hload
      have hleaf : HasLeaf S sorted s.w (id / s.w) := ⟨id, hid, hload, rfl⟩
      split_ifs with hm
      · obtain ⟨ip, cids, refs, hcmd, hlen⟩ := exists_load_of_hasLeaf h hm.2 hleaf
        rw [← hlen]
        exact hall _ (List.mem_append_right _ ((mem_mergeLoads_iff h).mpr (.inr ⟨_, hm, hleaf, hcmd⟩)))
      · obtain ⟨cmd, hcmd, hle⟩ := hbuilt id hid hcommanded
        exact ((hcmd.length_le_iff hcommanded).mp hle).1 hload
    · have hcommanded : commanded S id := commanded_iff.mpr ⟨cs, M, hS, hnone⟩
      obtain ⟨cmd, hcmd, hle⟩ := hbuilt id hid hcommanded
      exact ((hcmd.length_le_iff hcommanded).mp hle).2 cs M hS hne hnone
  · intro hsmall
    rw [List.forall_mem_append, List.forall_mem_map]
    refine ⟨fun x hx ↦ hsmall.messageLength_le h hx, fun cmd hcmd ↦ ?_⟩
    rcases (mem_mergeLoads_iff h).mp hcmd with ⟨x, hx, -, rfl⟩ | ⟨sid, hm, hleaf, hgroup⟩
    · exact hsmall.messageLength_le h hx
    · obtain ⟨ip, cids, refs, hload', hlen⟩ := exists_load_of_hasLeaf h hm.2 hleaf
      obtain rfl := Option.some.inj (hgroup.symm.trans hload')
      obtain ⟨id, hid, hload, rfl⟩ := hleaf
      have hle := hsmall.load id hid hload
      rw [if_pos hm] at hle
      rw [AGCommand.messageLength, hlen]
      exact hle

end Groups

end Merging

end ECDAG

end UniDedup.Storage
