import Mathlib.Data.List.Perm.Subperm
import UniDedup.Storage.Coordinator

/-!
# Where the objects of a stripe go

Every placement works the same way. Some agents are taken by the objects placed before, and a group says with
which of them the new object should share a rack. The candidates are the free agents in the racks of
those, or all free agents if there are none; and then some agents are removed from them: the client, where it is
to be avoided, or the agents of the later objects, when a lost object gets a new place.

As the removal comes last, nothing may be left although there are free agents elsewhere.
-/

namespace UniDedup.Storage

/-! ## The lists of candidates -/

/-- What a list of candidates is made from. -/
structure Placement where
  placedIp : List ℕ
  colocWith : List ℕ
  /-- The agents that are erased from what `getCandidates` returns. -/
  removed : List ℕ

namespace Placement

/-- The list that `chooseFromCandidates` gets. -/
def candidates (p : Placement) (conf : Config) : List ℕ :=
  p.removed.foldl List.erase (conf.getCandidates p.placedIp p.colocWith)

/-- A free agent in the rack of a member of the group that has its place already. -/
def IsNear (p : Placement) (conf : Config) (ip : ℕ) : Prop :=
  ip ∉ p.placedIp ∧ ∃ curIdx ∈ p.colocWith, ∃ curIp ∈ p.placedIp[curIdx]?,
    ip ∈ conf.rack2Ips (conf.ip2Rack curIp)

/-- If there are free agents in these racks, then one of them may be taken. -/
def Fits (p : Placement) (conf : Config) : Prop :=
  (∃ ip, p.IsNear conf ip) → ∃ ip, p.IsNear conf ip ∧ ip ∉ p.removed

end Placement

section Candidates

variable {conf : Config} {p : Placement} {placedIp toret : List ℕ} {ip : ℕ}

theorem mem_rackCandidates {rack : Name} : ip ∈ conf.rackCandidates placedIp toret rack ↔
    ip ∈ toret ∨ ip ∈ conf.rack2Ips rack ∧ ip ∉ placedIp := by
  unfold Config.rackCandidates
  induction conf.rack2Ips rack generalizing toret with
  | nil => simp
  | cons item ips ih =>
    rw [List.foldl_cons, ih, List.mem_cons]
    split_ifs with hitem
    · rw [List.mem_append, List.mem_singleton]
      constructor
      · rintro ((h | rfl) | h)
        · exact .inl h
        · exact .inr ⟨.inl rfl, hitem.2⟩
        · exact .inr ⟨.inr h.1, h.2⟩
      · rintro (h | ⟨rfl | h, hfree⟩)
        · exact .inl (.inl h)
        · exact .inl (.inr rfl)
        · exact .inr ⟨h, hfree⟩
    · constructor
      · exact fun h ↦ h.imp_right fun h ↦ ⟨.inr h.1, h.2⟩
      · rintro (h | ⟨rfl | h, hfree⟩)
        · exact .inl h
        · exact .inl (by_contra fun hnot ↦ hitem ⟨hnot, hfree⟩)
        · exact .inr ⟨h, hfree⟩

theorem nodup_rackCandidates {rack : Name} (h : toret.Nodup) :
    (conf.rackCandidates placedIp toret rack).Nodup := by
  unfold Config.rackCandidates
  induction conf.rack2Ips rack generalizing toret with
  | nil => exact h
  | cons item ips ih =>
    refine ih ?_
    dsimp only
    split_ifs with hitem
    · rw [List.nodup_append]
      exact ⟨h, List.nodup_singleton _, fun a ha b hb ↦ by
        rw [List.mem_singleton.mp hb]
        exact fun heq ↦ hitem.1 (heq ▸ ha)⟩
    · exact h

/-- The free agents in the racks of the members of a group, behind a list. -/
def Config.nearIps (conf : Config) (placedIp toret colocWith : List ℕ) : List ℕ :=
  colocWith.foldl (fun toret curIdx ↦
    match placedIp[curIdx]? with
    | none => toret
    | some curIp => conf.rackCandidates placedIp toret (conf.ip2Rack curIp)) toret

theorem nearIps_cons (conf : Config) (placedIp toret : List ℕ) (curIdx : ℕ) (colocWith : List ℕ) :
    conf.nearIps placedIp toret (curIdx :: colocWith) = conf.nearIps placedIp
      (placedIp[curIdx]?.elim toret fun curIp ↦ conf.rackCandidates placedIp toret (conf.ip2Rack curIp))
      colocWith := by
  rw [Config.nearIps, List.foldl_cons]
  cases placedIp[curIdx]? <;> rfl

theorem nearIps_spec {colocWith : List ℕ} (h : toret.Nodup) :
    (conf.nearIps placedIp toret colocWith).Nodup ∧
      ∀ ip, ip ∈ conf.nearIps placedIp toret colocWith ↔ ip ∈ toret ∨ ip ∉ placedIp ∧
        ∃ curIdx ∈ colocWith, ∃ curIp ∈ placedIp[curIdx]?, ip ∈ conf.rack2Ips (conf.ip2Rack curIp) := by
  induction colocWith generalizing toret with
  | nil => exact ⟨h, fun ip ↦ by simp [Config.nearIps]⟩
  | cons curIdx colocWith ih =>
    rw [nearIps_cons]
    cases hcur : placedIp[curIdx]? with
    | none =>
      obtain ⟨hnodup, hmem⟩ := ih h
      refine ⟨hnodup, fun ip ↦ ?_⟩
      rw [Option.elim_none, hmem]
      simp [hcur]
    | some curIp =>
      obtain ⟨hnodup, hmem⟩ := ih (nodup_rackCandidates h)
      refine ⟨hnodup, fun ip ↦ ?_⟩
      rw [Option.elim_some, hmem, mem_rackCandidates]
      simp only [List.mem_cons, exists_eq_or_imp, hcur, Option.mem_some_iff, exists_eq_left']
      tauto

theorem Placement.mem_nearIps {ip : ℕ} : ip ∈ conf.nearIps p.placedIp [] p.colocWith ↔ p.IsNear conf ip := by
  rw [(nearIps_spec List.nodup_nil).2]
  simp [Placement.IsNear]

theorem getCandidates_eq (hfixed : conf.fixedLoc = false) (placedIp colocWith : List ℕ) :
    conf.getCandidates placedIp colocWith =
      if conf.nearIps placedIp [] colocWith = [] then conf.agentsIPs.filter (· ∉ placedIp)
      else conf.nearIps placedIp [] colocWith := by
  rw [Config.getCandidates, if_neg (hfixed ▸ Bool.false_ne_true)]
  rfl

theorem mem_agentsIPs_of_mem_rack {rack : Name} (h : ip ∈ conf.rack2Ips rack) : ip ∈ conf.agentsIPs := by
  obtain ⟨agent, hagent, rfl⟩ := List.mem_map.mp h
  exact List.mem_map_of_mem (List.mem_of_mem_filter hagent)

theorem nodup_getCandidates (hfixed : conf.fixedLoc = false) (hagents : conf.agentsIPs.Nodup)
    (placedIp colocWith : List ℕ) : (conf.getCandidates placedIp colocWith).Nodup := by
  rw [getCandidates_eq hfixed]
  split_ifs
  · exact hagents.filter _
  · exact (nearIps_spec List.nodup_nil).1

theorem of_mem_getCandidates (hfixed : conf.fixedLoc = false) {colocWith : List ℕ}
    (h : ip ∈ conf.getCandidates placedIp colocWith) : ip ∈ conf.agentsIPs ∧ ip ∉ placedIp := by
  rw [getCandidates_eq hfixed] at h
  split_ifs at h with hnear
  · obtain ⟨hagent, hfree⟩ := List.mem_filter.mp h
    exact ⟨hagent, of_decide_eq_true hfree⟩
  · obtain ⟨hfree, curIdx, -, curIp, -, hrack⟩ := (Placement.mem_nearIps (p := ⟨placedIp, colocWith, []⟩)).mp h
    exact ⟨mem_agentsIPs_of_mem_rack hrack, hfree⟩

theorem Placement.mem_candidates (hfixed : conf.fixedLoc = false) (hagents : conf.agentsIPs.Nodup) :
    ip ∈ p.candidates conf ↔ ip ∈ conf.getCandidates p.placedIp p.colocWith ∧ ip ∉ p.removed := by
  rw [candidates, ← List.diff_eq_foldl]
  exact (nodup_getCandidates hfixed hagents _ _).mem_sdiff_iff

/-- **The candidates are free agents** that have not been removed. -/
theorem Placement.of_mem_candidates (hfixed : conf.fixedLoc = false) (hagents : conf.agentsIPs.Nodup)
    (h : ip ∈ p.candidates conf) : ip ∈ conf.agentsIPs ∧ ip ∉ p.placedIp ∧ ip ∉ p.removed := by
  obtain ⟨hmem, hnot⟩ := (mem_candidates hfixed hagents).mp h
  obtain ⟨hagent, hfree⟩ := of_mem_getCandidates hfixed hmem
  exact ⟨hagent, hfree, hnot⟩

/-- **When there is a candidate.** -/
theorem Placement.candidates_ne_nil_iff (hfixed : conf.fixedLoc = false) (hagents : conf.agentsIPs.Nodup)
    (hlen : p.placedIp.length + p.removed.length < conf.agentsIPs.length) :
    p.candidates conf ≠ [] ↔ p.Fits conf := by
  have hne : p.candidates conf ≠ [] ↔ ∃ ip ∈ conf.getCandidates p.placedIp p.colocWith, ip ∉ p.removed := by
    simp only [← mem_candidates hfixed hagents]
    exact ⟨List.exists_mem_of_ne_nil _, fun ⟨_, hip⟩ ↦ List.ne_nil_of_mem hip⟩
  rw [hne, getCandidates_eq hfixed]
  split_ifs with hnear
  · -- All free agents are candidates, and there are more of them than are removed.
    have hnone : ∀ ip, ¬p.IsNear conf ip := fun ip hip ↦ by
      have hmem := mem_nearIps.mpr hip
      rw [hnear] at hmem
      exact List.not_mem_nil hmem
    refine iff_of_true ?_ fun ⟨ip, hip⟩ ↦ absurd hip (hnone ip)
    obtain ⟨ip, hip, hnot⟩ : ∃ ip ∈ conf.agentsIPs, ip ∉ p.placedIp ++ p.removed := by
      by_contra hall
      push Not at hall
      have hle := (hagents.subperm hall).length_le
      rw [List.length_append] at hle
      exact absurd hlen (Nat.not_lt.mpr hle)
    rw [List.mem_append, not_or] at hnot
    exact ⟨ip, List.mem_filter.mpr ⟨hip, decide_eq_true hnot.1⟩, hnot.2⟩
  · have hsome : ∃ ip, p.IsNear conf ip := by
      obtain ⟨ip, hip⟩ := List.exists_mem_of_ne_nil _ hnear
      exact ⟨ip, mem_nearIps.mp hip⟩
    rw [Fits, forall_prop_of_true hsome]
    simp only [mem_nearIps]

theorem mem_of_chooseFromCandidates {l : List ℕ} {pick : ℕ} (h : chooseFromCandidates l pick = some ip) :
    ip ∈ l := List.mem_of_getElem? h

end Candidates

/-! ## The objects a client writes -/

/-- The list made for an object of a client; there is none where the object stays with the client. -/
def Config.dataPlacement (conf : Config) (clientIp : ℕ) (placedIp colocWith : List ℕ) : Option Placement :=
  if conf.avoidLocal then some ⟨placedIp, colocWith, [clientIp]⟩
  else if clientIp ∈ conf.getCandidates placedIp colocWith then none
  else some ⟨placedIp, colocWith, []⟩

theorem placeData_eq (conf : Config) (clientIp : ℕ) (placedIp colocWith : List ℕ) (pick : ℕ) :
    conf.placeData clientIp placedIp colocWith pick =
      match conf.dataPlacement clientIp placedIp colocWith with
      | none => some clientIp
      | some p => chooseFromCandidates (p.candidates conf) pick := by
  rw [Config.placeData, Config.dataPlacement]
  unfold Config.dataCandidates
  cases conf.avoidLocal with
  | true => rfl
  | false =>
    by_cases hclient : clientIp ∈ conf.getCandidates placedIp colocWith
    · simp [hclient]
    · simp [hclient, Placement.candidates]

theorem placedIp_dataPlacement {conf : Config} {clientIp : ℕ} {placedIp colocWith : List ℕ} {p : Placement}
    (h : conf.dataPlacement clientIp placedIp colocWith = some p) :
    p.placedIp = placedIp ∧ p.removed.length ≤ 1 := by
  rw [Config.dataPlacement] at h
  split_ifs at h
  · exact Option.some.inj h ▸ ⟨rfl, le_rfl⟩
  · exact Option.some.inj h ▸ ⟨rfl, Nat.zero_le 1⟩

/-- **Where a client's object goes.** -/
theorem of_placeData {conf : Config} (hfixed : conf.fixedLoc = false) (hagents : conf.agentsIPs.Nodup)
    {clientIp pick curIp : ℕ} {placedIp colocWith : List ℕ}
    (h : conf.placeData clientIp placedIp colocWith pick = some curIp) :
    curIp ∈ conf.agentsIPs ∧ curIp ∉ placedIp := by
  rw [placeData_eq] at h
  cases hplacement : conf.dataPlacement clientIp placedIp colocWith with
  | none =>
    rw [hplacement] at h
    obtain rfl := Option.some.inj h
    rw [Config.dataPlacement] at hplacement
    split_ifs at hplacement with havoid hclient
    exact of_mem_getCandidates hfixed hclient
  | some p =>
    rw [hplacement] at h
    obtain ⟨hagent, hfree, -⟩ := Placement.of_mem_candidates hfixed hagents (mem_of_chooseFromCandidates h)
    rw [(placedIp_dataPlacement hplacement).1] at hfree
    exact ⟨hagent, hfree⟩

/-! ## The objects of a stripe that is encoded -/

/-- `offlineEnc` before its loop over the parity objects. -/
def encodingStart (st : StripeStore) (pool : OfflineECPool) (stripename : Name) : Option Encoding :=
  let stripelist := pool.getStripeObjList stripename
  (stripelist.mapM st.locOf).map fun stripeips ↦
    ⟨st, pool, (List.range stripelist.length).foldl
      (fun m i ↦ emplace m i (stripelist.getD i [], stripeips.getD i 0)) ∅, stripeips⟩

theorem offlineEnc_eq (conf : Config) (st : StripeStore) (pool : OfflineECPool) (stripename : Name)
    (picks : ℕ → ℕ) : offlineEnc conf st pool stripename picks =
      (encodingStart st pool stripename).bind
        ((List.range' pool.ecpolicy.k (pool.ecpolicy.n - pool.ecpolicy.k)).foldlM
          (encodeParity conf stripename picks)) := by
  rw [offlineEnc, encodingStart]
  cases (pool.getStripeObjList stripename).mapM st.locOf <;> rfl

/-! ## Relocating lost objects -/

/-- How the `i`-th object of a stripe is placed when it is lost: the locations of the intact objects behind it
are removed. -/
def relocation (ec : ECPolicy) (lost : List Name) (objs : List (Name × ℕ)) (placedIps : List ℕ) (i : ℕ) :
    Placement :=
  ⟨placedIps, ec.idx2group i, ((objs.drop (i + 1)).filter fun obj ↦ obj.1 ∉ lost).map Prod.snd⟩

/-- One round of the relocation, over the objects of a stripe with their locations: the store and the
locations. `none` where there is no candidate or the object has no entry. -/
def relocateOne (conf : Config) (ec : ECPolicy) (lost : List Name) (objs : List (Name × ℕ)) (picks : ℕ → ℕ)
    (s : StripeStore × List ℕ) (i : ℕ) : Option (StripeStore × List ℕ) := do
  let (objname, ip) ← objs[i]?
  if objname ∉ lost then some (s.1, s.2 ++ [ip])
  else do
    let curip ← chooseFromCandidates ((relocation ec lost objs s.2 i).candidates conf) (picks i)
    let st ← s.1.updateObjLoc objname curip
    return (st, s.2 ++ [curip])

/-- The recorded locations of the objects of a stripe, with 0 for the lost ones. -/
def stripeIps (st : StripeStore) (stripeobjs lost : List Name) : Option (List ℕ) :=
  stripeobjs.mapM fun objname ↦ if objname ∈ lost then some 0 else st.locOf objname

/-- The relocation in a recovery; `none` where the stripe is not complete, so that `integrity` is read out of
bounds. -/
def relocate (conf : Config) (ec : ECPolicy) (st : StripeStore) (stripeobjs lost : List Name)
    (picks : ℕ → ℕ) : Option (StripeStore × List ℕ) :=
  if stripeobjs.length = ec.n then do
    let stripeips ← stripeIps st stripeobjs lost
    (List.range ec.n).foldlM (relocateOne conf ec lost (stripeobjs.zip stripeips) picks) (st, [])
  else none

end UniDedup.Storage
