import UniDedup.Lib.Grouping
import UniDedup.Storage.Agents
import UniDedup.Storage.References

/-!
# The command of a node

What a command loads, computes and caches, and that merged loads do what the loads did. When every child has its address,
`parseForOEC` makes the command of a node from the graph alone.
-/

namespace UniDedup.Storage

open ECDAG

/-! ## Commands -/

namespace AGCommand

def loads : AGCommand → List ℕ
  | readDisk _ _ cids _ => cids
  | _ => []

def targets : AGCommand → List ℕ
  | fetchCompute _ _ coefs _ => coefs.keys
  | _ => []

/-- The sub-packets a command caches, each with the address and the reference count. -/
def entries : AGCommand → List (ℕ × ℕ × ℤ)
  | readDisk ip _ cids refs => cids.map fun c ↦ (c, ip, (refs.lookup c).getD 0)
  | fetchCompute ip _ coefs refs => coefs.keys.map fun c ↦ (c, ip, (refs.lookup c).getD 0)
  | persist .. => []

/-- The command loads one sub-packet to the agent, and counts no other. -/
def LoadOf (ip obj id : ℕ) (cmd : AGCommand) : Prop :=
  ∃ refs : RefMap, cmd = .readDisk ip obj [id] refs ∧ ∀ c ≠ id, refs.lookup c = none

end AGCommand

open AGCommand

/-- Loads of one block to one agent are merged into a load that does the same. -/
theorem mergeGroup_loads {ip obj : ℕ} {cmds : List (ℕ × AGCommand)} (hne : cmds ≠ [])
    (h : ∀ x ∈ cmds, x.2.LoadOf ip obj x.1) (hnodup : (cmds.map Prod.fst).Nodup) :
    ∃ refs : RefMap, mergeGroup cmds = some (.readDisk ip obj (cmds.map Prod.fst) refs) ∧
      (∀ c ∉ cmds.map Prod.fst, refs.lookup c = none) ∧
      (AGCommand.readDisk ip obj (cmds.map Prod.fst) refs).entries = cmds.flatMap fun x ↦ x.2.entries := by
  induction cmds with
  | nil => exact absurd rfl hne
  | cons x rest ih =>
    obtain ⟨refs, hx, hrefs⟩ := h x List.mem_cons_self
    rcases rest with _ | ⟨y, rest⟩
    · refine ⟨refs, ?_, fun c hc ↦ hrefs c fun hcx ↦ hc (hcx ▸ List.mem_singleton_self _), ?_⟩
      · rw [mergeGroup, hx]
        rfl
      · rw [List.flatMap_singleton, hx]
        rfl
    obtain ⟨hnot, hnodup'⟩ := List.nodup_cons.mp hnodup
    obtain ⟨refs', hmerge, hrefs', hentries⟩ :=
      ih (List.cons_ne_nil y rest) (fun z hz ↦ h z (List.mem_cons_of_mem x hz)) hnodup'
    have hself : (refs ∪ refs').lookup x.1 = refs.lookup x.1 := by
      by_cases hmem : x.1 ∈ refs
      · exact AList.lookup_union_left hmem
      · rw [AList.lookup_union_right hmem, hrefs' x.1 hnot, AList.lookup_eq_none.mpr hmem]
    have hother : ∀ c ≠ x.1, (refs ∪ refs').lookup c = refs'.lookup c := fun c hc ↦
      AList.lookup_union_right (AList.lookup_eq_none.mp (hrefs c hc))
    refine ⟨refs ∪ refs', ?_, fun c hc ↦ ?_, ?_⟩
    · show (mergeGroup (y :: rest)).map x.2.mergeInto = _
      rw [hmerge, hx]
      rfl
    · rw [List.map_cons, List.mem_cons, not_or] at hc
      rw [hother c hc.1, hrefs' c hc.2]
    · rw [List.flatMap_cons, ← hentries, hx]
      show (x.1, ip, ((refs ∪ refs').lookup x.1).getD 0) :: ((y :: rest).map Prod.fst).map _ =
        (x.1, ip, (refs.lookup x.1).getD 0) ::
          ((y :: rest).map Prod.fst).map fun c ↦ (c, ip, (refs'.lookup c).getD 0)
      rw [hself]
      refine congrArg (List.cons _) (List.map_congr_left fun c hc ↦ ?_)
      rw [hother c fun hcx ↦ hnot (hcx ▸ hc)]

/-- What a merge of loads keeps: what the merged command does is done by the loads. -/
def Additive {β : Type*} (f : AGCommand → List β) : Prop :=
  ∀ (ip obj : ℕ) (cmds : List (ℕ × AGCommand)) (refs : RefMap), (∀ x ∈ cmds, x.2.LoadOf ip obj x.1) →
    (AGCommand.readDisk ip obj (cmds.map Prod.fst) refs).entries = cmds.flatMap (fun x ↦ x.2.entries) →
    f (.readDisk ip obj (cmds.map Prod.fst) refs) = cmds.flatMap fun x ↦ f x.2

/-- The loads of a block go to one agent, and no command of a block below `n` that loads has one beside it that
computes. -/
structure Blocks (n w : ℕ) (cid2ip : ℕ → ℕ) (cmds : List (ℕ × AGCommand)) : Prop where
  nodup : (cmds.map Prod.fst).Nodup
  load : ∀ x ∈ cmds, x.2.isLoad → x.2.LoadOf (cid2ip x.1) (x.1 / w) x.1
  place : ∀ x ∈ cmds, ∀ y ∈ cmds, x.2.isLoad → y.2.isLoad → x.1 / w = y.1 / w → cid2ip x.1 = cid2ip y.1
  alike : ∀ x ∈ cmds, ∀ y ∈ cmds, x.1 / w = y.1 / w → x.1 / w < n → x.2.isLoad → y.2.isLoad

/-- **Merging loads keeps what is done.** -/
theorem Blocks.mergeLoads_perm {β : Type*} {n w : ℕ} {cid2ip : ℕ → ℕ} {cmds : List (ℕ × AGCommand)}
    (h : Blocks n w cid2ip cmds) {f : AGCommand → List β} (hf : Additive f) :
    ((mergeLoads n w cmds).flatMap f).Perm (cmds.flatMap fun x ↦ f x.2) := by
  rw [mergeLoads]
  split_ifs with hw
  · rw [List.flatMap_map]
  dsimp only
  generalize hp : (fun cmd : ℕ × AGCommand ↦ cmd.2.isLoad && decide (cmd.1 / w < n)) = p
  have hmem : ∀ x ∈ cmds.filter p, x ∈ cmds ∧ x.2.isLoad ∧ x.1 / w < n := by
    intro x hx
    obtain ⟨hx, hpx⟩ := List.mem_filter.mp hx
    rw [← hp, Bool.and_eq_true, decide_eq_true_eq] at hpx
    exact ⟨hx, hpx⟩
  generalize hsids : ((cmds.filter p).map fun cmd ↦ cmd.1 / w).dedup = sids
  have hmem_sids : ∀ sid, sid ∈ sids ↔ ∃ x ∈ cmds.filter p, x.1 / w = sid := by
    intro sid
    rw [← hsids, List.mem_dedup, List.mem_map]
  have hkept : cmds.filter (fun cmd ↦ cmd.1 / w ∉ sids) = cmds.filter fun cmd ↦ !p cmd := by
    refine List.filter_congr fun x hx ↦ ?_
    rw [Bool.eq_iff_iff, decide_eq_true_eq, Bool.not_eq_true', ← Bool.not_eq_true, hmem_sids]
    refine not_congr ⟨?_, fun hpx ↦ ⟨x, List.mem_filter.mpr ⟨hx, hpx⟩, rfl⟩⟩
    rintro ⟨y, hy, heq⟩
    obtain ⟨hy, hyload, hyn⟩ := hmem y hy
    rw [← hp, Bool.and_eq_true, decide_eq_true_eq]
    exact ⟨h.alike y hy x hx heq hyn hyload, heq ▸ hyn⟩
  -- A block of loads becomes one load, which does what they do.
  have hgroup : ∀ sid ∈ sids, ∃ cmd, mergeGroup ((cmds.filter p).filter (·.1 / w = sid)) = some cmd ∧
      f cmd = ((cmds.filter p).filter (·.1 / w = sid)).flatMap fun x ↦ f x.2 := by
    intro sid hsid
    obtain ⟨y, hy, hysid⟩ := (hmem_sids sid).mp hsid
    have hload : ∀ x ∈ (cmds.filter p).filter (·.1 / w = sid), x.2.LoadOf (cid2ip y.1) sid x.1 := by
      intro x hx
      obtain ⟨hx, hxsid⟩ := List.mem_filter.mp hx
      have hxsid : x.1 / w = sid := of_decide_eq_true hxsid
      obtain ⟨hx, hxload, -⟩ := hmem x hx
      obtain ⟨hy, hyload, -⟩ := hmem y hy
      have hplace := h.place x hx y hy hxload hyload (hxsid.trans hysid.symm)
      have hxof := h.load x hx hxload
      rwa [hplace, hxsid] at hxof
    have hne : (cmds.filter p).filter (·.1 / w = sid) ≠ [] :=
      List.ne_nil_of_mem (List.mem_filter.mpr ⟨hy, decide_eq_true hysid⟩)
    have hnodup : (((cmds.filter p).filter (·.1 / w = sid)).map Prod.fst).Nodup :=
      h.nodup.sublist ((List.filter_sublist.trans List.filter_sublist).map Prod.fst)
    obtain ⟨refs, hmerge, -, hentries⟩ := mergeGroup_loads hne hload hnodup
    exact ⟨_, hmerge, hf _ _ _ refs hload hentries⟩
  have : Nonempty AGCommand := ⟨.readDisk 0 0 [] ∅⟩
  choose! merged hmerged hfmerged using hgroup
  have hloads : (sids.filterMap fun sid ↦ mergeGroup ((cmds.filter p).filter (·.1 / w = sid))).flatMap f =
      (sids.flatMap fun sid ↦ (cmds.filter p).filter (·.1 / w = sid)).flatMap fun x ↦ f x.2 := by
    rw [List.filterMap_eq_map_iff_forall_eq_some.mpr hmerged, List.flatMap_map, List.flatMap_assoc]
    exact List.flatMap_congr hfmerged
  rw [List.flatMap_append, List.flatMap_map, hkept, hloads]
  have hall : (cmds.filter p).filter (fun x ↦ decide (x.1 / w ∈ sids)) = cmds.filter p :=
    List.filter_eq_self.mpr fun x hx ↦ decide_eq_true ((hmem_sids _).mpr ⟨x, hx, rfl⟩)
  have hnodup : sids.Nodup := hsids ▸ List.nodup_dedup _
  have hgrouped := Grouping.flatMap_filter_perm (fun x : ℕ × AGCommand ↦ x.1 / w) (cmds.filter p) hnodup
  rw [hall] at hgrouped
  refine ((hgrouped.flatMap_right _).append_left _).trans ?_
  rw [← List.flatMap_append]
  exact (List.perm_append_comm.trans (List.filter_append_perm p cmds)).flatMap_right _

/-! ## The command of a node -/

namespace ECDAG

/-- The node where a node is cached: its bind node, if it is bound. -/
def home (S : ℕ → Option Shape) (id : ℕ) : ℕ := (chain S id).getLastD id

/-- The command of a node that is not bound. -/
def commandOf (dag : ECDAG) (w : ℕ) (cid2ip : ℕ → ℕ) (id : ℕ) : Option AGCommand :=
  (dag.nodes.lookup id).bind fun nd ↦
    match nd.childNodes with
    | [] => some (.readDisk (cid2ip id) (id / w) [id] nd.refNumFor)
    | childs =>
      if (bindOf dag.shape childs).isSome then none
      else
        some (.fetchCompute (cid2ip id) (childs.map fun c ↦ (c, cid2ip (home dag.shape c))) nd.coefMap nd.refNumFor)

section CommandOf

variable {dag : ECDAG} {id b : ℕ} {cs : List ℕ} {M : CoefMap} {w : ℕ} {cid2ip : ℕ → ℕ}

theorem commandOf_of_leaf {nd : ECNode} (hnd : dag.nodes.lookup id = some nd) (hnil : nd.childNodes = []) :
    dag.commandOf w cid2ip id = some (.readDisk (cid2ip id) (id / w) [id] nd.refNumFor) := by
  rw [commandOf, hnd, Option.bind_some, hnil]

theorem commandOf_of_ne_nil {nd : ECNode} (hnd : dag.nodes.lookup id = some nd) (hne : nd.childNodes ≠ []) :
    dag.commandOf w cid2ip id =
      if (bindOf dag.shape nd.childNodes).isSome then none
      else some (.fetchCompute (cid2ip id) (nd.childNodes.map fun c ↦ (c, cid2ip (home dag.shape c))) nd.coefMap
        nd.refNumFor) := by
  rw [commandOf, hnd, Option.bind_some]
  rcases hcs : nd.childNodes with _ | ⟨c, rest⟩
  · exact absurd hcs hne
  · rfl

theorem home_of_bindOf (hS : dag.shape id = some (cs, M)) (h : bindOf dag.shape cs = none) : home dag.shape id = id := by
  rw [home, chain_of_bindOf hS h]
  rfl

theorem home_bound (hS : dag.shape id = some ([b], M)) (hb : ¬Plain dag.shape b) : home dag.shape id = b := by
  rw [home, chain_bound hS hb]
  rfl

theorem home_mem_chain (h : dag.shape id ≠ none) : home dag.shape id ∈ chain dag.shape id := by
  obtain ⟨⟨cs, M⟩, hS⟩ := Option.ne_none_iff_exists'.mp h
  by_cases hbind : bindOf dag.shape cs = none
  · rw [home_of_bindOf hS hbind]
    exact mem_chain_iff.mpr ⟨h, .inl rfl⟩
  · obtain ⟨b, rfl, hb⟩ := bindOf_isSome_iff.mp (Option.isSome_iff_ne_none.mpr hbind)
    rw [home_bound hS hb, chain_bound hS hb]
    exact List.mem_pair.mpr (.inr rfl)

theorem parseTurn_eq (hflat : Flat dag.shape) {s : Parsed} (hS : dag.shape id = some (cs, M))
    (hnodeIp : ∀ c ∈ cs, s.nodeIp c = cid2ip (home dag.shape c)) (hself : id ∉ cs) :
    dag.parseTurn w cid2ip s id =
      ⟨Function.update s.nodeIp id (cid2ip (home dag.shape id)),
        s.agCmds ++ (dag.commandOf w cid2ip id).toList.map fun cmd ↦ (id, cmd)⟩ := by
  obtain ⟨nd, hnd, rfl, rfl⟩ := exists_of_shape hS
  have hprevs : ∀ ip, nd.childNodes.map (fun c ↦ (c, Function.update s.nodeIp id ip c)) =
      nd.childNodes.map fun c ↦ (c, cid2ip (home dag.shape c)) := by
    intro ip
    refine List.map_congr_left fun c hc ↦ ?_
    have hcid : c ≠ id := fun hcid ↦ hself (hcid ▸ hc)
    rw [Function.update_of_ne hcid, hnodeIp c hc]
  rw [parseTurn, parseForOEC, commandOf, hnd, Option.map_some, Option.bind_some]
  dsimp only
  rcases hcs : nd.childNodes with _ | ⟨c, _ | ⟨d, rest⟩⟩
  · rw [hcs] at hS
    rw [home_of_bindOf hS rfl]
    rfl
  · rw [hcs] at hS hprevs hnodeIp
    by_cases hbind : 1 < dag.coefNum c
    · have hc : ¬Plain dag.shape c := fun hplain ↦ absurd hplain.coefNum_le (Nat.not_le.mpr hbind)
      have hcS : dag.shape c ≠ none := fun hnone ↦ hc fun sh hsh ↦ absurd (hnone.symm.trans hsh).symm (Option.some_ne_none sh)
      obtain ⟨⟨ds, M'⟩, hcS⟩ := Option.ne_none_iff_exists'.mp hcS
      have hhome : s.nodeIp c = cid2ip (home dag.shape id) := by
        rw [hnodeIp c (List.mem_singleton_self c), home_of_bindOf hcS (hflat c _ hcS hc), home_bound hS hc]
      have hsome : (bindOf dag.shape [c]).isSome := bindOf_isSome_iff.mpr ⟨c, rfl, hc⟩
      dsimp only
      rw [if_pos hbind, if_pos hsome]
      dsimp only
      rw [hhome]
      rfl
    · have hnone : bindOf dag.shape [c] = none := bindOf_eq_none_iff.mpr hbind
      dsimp only
      rw [if_neg hbind, hnone, home_of_bindOf hS hnone]
      show Parsed.mk _ (s.agCmds ++ [(id, .fetchCompute (cid2ip id) _ nd.coefMap nd.refNumFor)]) = _
      rw [hprevs]
      rfl
  · rw [hcs] at hS hprevs
    rw [home_of_bindOf hS rfl]
    show Parsed.mk _ (s.agCmds ++ [(id, .fetchCompute (cid2ip id) _ nd.coefMap nd.refNumFor)]) = _
    rw [hprevs]
    rfl

/-- **What `parseForOEC` makes** of sorted nodes: the commands of the nodes, and the addresses where they are cached. -/
theorem foldl_parseTurn (w : ℕ) (cid2ip : ℕ → ℕ) (hflat : Flat dag.shape) {sorted : List ℕ} (hnodup : sorted.Nodup)
    (hmem : ∀ id ∈ sorted, id ∈ dag.nodes) (hfirst : Toposort.ChildrenFirst dag.childs sorted) :
    (sorted.foldl (dag.parseTurn w cid2ip) {}).agCmds =
        sorted.flatMap (fun id ↦ (dag.commandOf w cid2ip id).toList.map fun cmd ↦ (id, cmd)) ∧
      ∀ id ∈ sorted, (sorted.foldl (dag.parseTurn w cid2ip) {}).nodeIp id = cid2ip (home dag.shape id) := by
  induction sorted using List.reverseRecOn with
  | nil => exact ⟨rfl, fun id hid ↦ absurd hid List.not_mem_nil⟩
  | append_singleton sorted id ih =>
    obtain ⟨hnodup', -, hdisjoint⟩ := List.nodup_append.mp hnodup
    have hfirst' : Toposort.ChildrenFirst dag.childs sorted := by
      intro l₁ j l₂ hsplit
      exact hfirst l₁ j (l₂ ++ [id]) (by rw [hsplit, List.append_assoc, List.cons_append])
    obtain ⟨hcmds, hips⟩ := ih hnodup' (fun j hj ↦ hmem j (List.mem_append_left _ hj)) hfirst'
    obtain ⟨⟨cs, M⟩, hS⟩ := mem_nodes_iff.mp (hmem id (by simp))
    have hcs : ∀ c ∈ cs, c ∈ sorted := fun c hc ↦ hfirst sorted id [] rfl c (by rwa [childs_of_shape hS])
    have hnot : id ∉ sorted := fun hid ↦ hdisjoint id hid id (List.mem_singleton_self id) rfl
    have hturn := parseTurn_eq (w := w) hflat hS (fun c hc ↦ hips c (hcs c hc)) fun hid ↦ hnot (hcs id hid)
    rw [List.foldl_append, List.foldl_cons, List.foldl_nil, hturn]
    refine ⟨?_, fun j hj ↦ ?_⟩
    · rw [hcmds, List.flatMap_append, List.flatMap_singleton]
    · by_cases hjid : j = id
      · rw [hjid]
        exact Function.update_self ..
      · have hj : j ∈ sorted := (List.mem_append.mp hj).resolve_right fun h ↦ hjid (List.mem_singleton.mp h)
        exact (Function.update_of_ne hjid ..).trans (hips j hj)

end CommandOf

end ECDAG

end UniDedup.Storage
