import UniDedup.Storage.StagedDecoding

/-!
# Recovering in stages

What the graphs of the three codes compute for at least two lost blocks, and what they leave out: with one
rack or none nothing is joined to the lost sub-packets that the racks should repair.
-/

namespace UniDedup.Storage

open ECDAG Fold WordField

/-! ## What the stages leave out -/

section Misses

variable {c : RSCode} {m v wi pick x : ℕ} {data tosids : List ℕ} {coefs : List (List GF256)}

theorem RSPIPE.pipeline_misses {cidx : ℕ} (hcidx : x ≠ cidx) (fuel : ℕ) {dag : ECDAG} {tmp : ℕ}
    {queue : List (ℕ × GF256)} (h : Misses dag x) (hx : x < tmp) (hqueue : ∀ e ∈ queue, x ≠ e.1)
    {s' : ECDAG × ℕ} (hrun : RSPIPE.pipeline cidx fuel dag tmp queue = some s') :
    Misses s'.1 x ∧ x < s'.2 := by
  induction fuel generalizing dag tmp queue with
  | zero =>
    rw [← Option.some.inj hrun]
    exact ⟨h, hx⟩
  | succ fuel ih =>
    rcases queue with _ | ⟨⟨d₀, c₀⟩, _ | ⟨⟨d₁, c₁⟩, queue⟩⟩
    · rw [← Option.some.inj hrun]
      exact ⟨h, hx⟩
    · rw [← Option.some.inj hrun]
      exact ⟨h, hx⟩
    have hpair : x ∉ [d₀, d₁] := by
      have h₀ := hqueue (d₀, c₀) List.mem_cons_self
      have h₁ := hqueue (d₁, c₁) (List.mem_cons_of_mem _ List.mem_cons_self)
      simp only [List.mem_cons, List.not_mem_nil, or_false, not_or]
      exact ⟨h₀, h₁⟩
    rw [pipeline] at hrun
    dsimp only at hrun
    obtain ⟨dag', hbind, hrun⟩ := Option.bind_eq_some_iff.mp hrun
    have htoadd : x ≠ (if queue.isEmpty then (cidx, tmp) else (tmp, tmp + 1)).1 ∧
        x < (if queue.isEmpty then (cidx, tmp) else (tmp, tmp + 1)).2 := by
      split
      · exact ⟨hcidx, hx⟩
      · exact ⟨hx.ne, hx.trans (Nat.lt_succ_self tmp)⟩
    refine ih ((h.join _ htoadd.1 hpair).bindY hbind) htoadd.2 (fun e he ↦ ?_) hrun
    rcases List.mem_cons.mp he with rfl | he
    · exact htoadd.1
    · exact hqueue e (List.mem_cons_of_mem _ (List.mem_cons_of_mem _ he))

variable (hdata : ∀ j < c.k, x ≠ data.getD j 0 * c.w + wi)
include hdata

/-- The chains join the sub-packets of the lost blocks and temporaries only. -/
theorem chainStage_misses (htosids : ∀ r ∈ tosids, x ≠ r * c.w + wi) {s s' : ECDAG × ℕ}
    (h : Misses s.1 x ∧ x < s.2) (hrun : chainStage c data tosids coefs s wi = some s') :
    Misses s'.1 x ∧ x < s'.2 := by
  refine foldlM_invariant (I := fun s : ECDAG × ℕ ↦ Misses s.1 x ∧ x < s.2) (fun e he s s' h hrun ↦ ?_) h hrun
  refine RSPIPE.pipeline_misses (htosids e.1 (List.of_mem_zip he).1) c.k h.1 h.2 (fun e' he' ↦ ?_) hrun
  obtain ⟨j, hj, rfl⟩ := List.mem_map.mp he'
  exact hdata j (List.mem_range.mp hj)

theorem convStage_misses (htosids : ∀ r ∈ tosids, x ≠ r * c.w + wi) {convbindY : ℕ} {dag dag' : ECDAG}
    (h : Misses dag x) (hrun : convStage c data tosids coefs convbindY dag wi = some dag') : Misses dag' x := by
  have hread : x ∉ (List.range c.k).map fun ki ↦ data.getD ki 0 * c.w + wi := by
    rw [List.mem_map]
    rintro ⟨j, hj, heq⟩
    exact hdata j (List.mem_range.mp hj) heq.symm
  simp only [convStage, Option.bind_eq_bind] at hrun
  obtain ⟨⟨d, b⟩, hbind, hrun⟩ := Option.bind_eq_some_iff.mp hrun
  have hjoin := h.foldl_join (tosids.zip coefs) (fun e ↦ e.1 * c.w + wi) Prod.snd
    (fun e he ↦ htosids e.1 (List.of_mem_zip he).1) hread
  exact (hjoin.bindX hbind).bindYOf hrun

/-- A rack joins temporaries only, and adds one to the list of every lost block. -/
theorem innerRack_misses {l ri : ℕ} {s s' : ECDAG × ℕ × List (List ℕ)} (h : Misses s.1 x ∧ x < s.2.1)
    (hrun : innerRack c m data coefs l pick wi s ri = some s') :
    (Misses s'.1 x ∧ x < s'.2.1) ∧ ∀ i, (s'.2.2.getD i []).length ≤ (s.2.2.getD i []).length + 1 := by
  obtain ⟨dag, tmp, tmpridxs⟩ := s
  simp only [innerRack] at hrun
  split at hrun
  · exact absurd hrun.symm (Option.some_ne_none _)
  next hri =>
  obtain ⟨⟨d, b⟩, hbind, hrun⟩ := Option.bind_eq_some_iff.mp hrun
  obtain ⟨d', hbindY, hrun⟩ := Option.bind_eq_some_iff.mp hrun
  obtain ⟨d'', hfold, hrun⟩ := Option.bind_eq_some_iff.mp hrun
  have hread : x ∉ (List.range m).map fun mi ↦ data.getD (ri * m + mi) 0 * c.w + wi := by
    rw [List.mem_map]
    rintro ⟨j, hj, heq⟩
    have hj := List.mem_range.mp hj
    exact hdata (ri * m + j) (by omega) heq.symm
  have hjoin := h.1.foldl_join (List.range l) (tmp + ·)
    (fun i ↦ (List.range m).map fun j ↦ (coefs.getD i []).getD (ri * m + j) 0)
    (fun i _ ↦ (h.2.trans_le (Nat.le_add_right tmp i)).ne) hread
  have hbound : Misses d'' x :=
    foldlM_invariant (I := (Misses · x)) (fun _ _ _ _ h hrun ↦ h.bindY hrun)
      ((hjoin.bindX hbind).bindYOf hbindY) hfold
  rw [← Option.some.inj hrun]
  refine ⟨⟨hbound, h.2.trans_le (Nat.le_add_right tmp l)⟩, fun i ↦ ?_⟩
  dsimp only
  by_cases hi : i < l
  · rw [List.getD_eq_getElem _ _ (by rw [List.length_map, List.length_range]; exact hi), List.getElem_map,
      List.getElem_range, List.length_append, List.length_singleton]
  · rw [List.getD_eq_default _ _ (by rw [List.length_map, List.length_range]; exact not_lt.mp hi)]
    exact Nat.zero_le _

/-- **With one rack or none** nothing is joined to a lost sub-packet. -/
theorem rackStage_misses (hv : v ≤ 1) {s s' : ECDAG × ℕ} (h : Misses s.1 x ∧ x < s.2)
    (hrun : rackStage c m v data tosids coefs pick s wi = some s') : Misses s'.1 x ∧ x < s'.2 := by
  rw [rackStage, Option.bind_eq_bind] at hrun
  obtain ⟨⟨dag, tmp, tmpridxs⟩, hracks, hrun⟩ := Option.bind_eq_some_iff.mp hrun
  have hnil : ∀ i, ((tosids.map fun _ ↦ ([] : List ℕ)).getD i []).length = 0 := by
    intro i
    rw [List.getD_eq_getElem?_getD, List.getElem?_map]
    cases tosids[i]? <;> rfl
  have hracks' : (Misses dag x ∧ x < tmp) ∧ ∀ i, (tmpridxs.getD i []).length ≤ 1 := by
    rcases Nat.le_one_iff_eq_zero_or_eq_one.mp hv with rfl | rfl
    · obtain ⟨rfl, rfl, rfl⟩ : s.1 = dag ∧ s.2 = tmp ∧ (tosids.map fun _ ↦ []) = tmpridxs := by
        simpa using Option.some.inj hracks
      exact ⟨h, fun i ↦ (hnil i).le.trans (Nat.zero_le 1)⟩
    · rw [List.range_one, List.foldlM_cons] at hracks
      obtain ⟨s₁, hs₁, hracks⟩ := Option.bind_eq_some_iff.mp hracks
      obtain rfl := Option.some.inj hracks
      obtain ⟨hmiss, hlen⟩ := innerRack_misses hdata h hs₁
      exact ⟨hmiss, fun i ↦ (hlen i).trans (by rw [hnil])⟩
  refine foldlM_invariant (I := fun s : ECDAG × ℕ ↦ Misses s.1 x ∧ x < s.2) (fun i _ s s' h hrun ↦ ?_)
    hracks'.1 hrun
  rw [crossRack_short _ _ _ _ (by rw [List.length_map]; exact hracks'.2 i)] at hrun
  rwa [← Option.some.inj hrun]

end Misses

/-! ## Recovering -/

section Recovers

variable {gfMultiply : GF256 → GF256 → GF256} {invert : (ℕ → ℕ) → ℕ → ℕ → ℕ → ℕ}
variable {c : RSCode} {L : Loss c} {helpers : Option (List ℕ)} {encode decode : Option ECDAG} {r wi : ℕ}

/-- Whatever the leaves hold, the value of a lost sub-packet is a combination of the sub-packets of the first `k`
helpers, each of which enters once, with a coefficient of its own. -/
def Loss.FromHelpers (L : Loss c) (helpers : Option (List ℕ)) (dec : ECDAG) : Prop :=
  ∃ (data : List ℕ) (co : ℕ → List GF256), helpers = some data ∧
    ∀ r ∈ L.lost, (co r).length = c.k ∧ ∀ wi < c.w, ∀ env : ℕ → GF256, Evaluates dec.shape env (r * c.w + wi)
      (dot (co r) ((List.range c.k).map fun j ↦ env (data.getD j 0 * c.w + wi)))

/-- Decoding inverts encoding; every lost sub-packet becomes a header and is computed from the helpers. -/
def Loss.Recovers (L : Loss c) (helpers : Option (List ℕ)) (encode decode : Option ECDAG) : Prop :=
  L.Decodes encode decode ∧ ∀ dec, decode = some dec →
    (∀ r ∈ L.lost, ∀ wi < c.w, r * c.w + wi ∈ dec.headers) ∧ L.FromHelpers helpers dec

/-- Distinct survivors, `l` lost blocks, and helpers whose rows can be inverted. -/
structure Loss.Given (gfMultiply : GF256 → GF256 → GF256) (helpers : Option (List ℕ)) (l : ℕ) (L : Loss c) :
    Prop where
  survivors : L.survivors.Nodup
  lost : L.lost.Nodup
  length : L.lost.length = l
  isUnit : ∀ data, helpers = some data →
    IsUnit (selectMatrix (c.encodeMatrix gfMultiply) fun i : Fin c.k ↦ data.getD i 0)

/-- The loss, with some of the survivors only. -/
def Loss.withHelpers (L : Loss c) (data : List ℕ) (hlen : data.length = c.k) (hsub : data ⊆ L.survivors) :
    Loss c where
  survivors := data
  lost := L.lost
  enough := hlen.ge
  survivors_lt s hs := L.survivors_lt s (hsub hs)
  lost_lt := L.lost_lt
  disjoint r hr hs := L.disjoint r hr (hsub hs)

/-- What is recovered from some of the survivors is recovered from all of them. -/
theorem Loss.Recovers.of_withHelpers {data : List ℕ} {hlen : data.length = c.k} {hsub : data ⊆ L.survivors}
    (h : (L.withHelpers data hlen hsub).Recovers helpers encode decode) : L.Recovers helpers encode decode := by
  obtain ⟨⟨enc, dec, henc, hdec, hdecodes⟩, hheaders⟩ := h
  refine ⟨⟨enc, dec, henc, hdec, fun d ↦ ⟨(hdecodes d).1, fun stripe env hstripe hagrees ↦ ?_⟩⟩, hheaders⟩
  exact (hdecodes d).2 stripe env hstripe fun s hs ↦ hagrees s (hsub hs)

theorem Loss.not_recovers_of_notMem (hr : r ∈ L.lost) (hwi : wi < c.w)
    (hmem : ∀ dec, decode = some dec → r * c.w + wi ∉ dec.nodes) : ¬L.Recovers helpers encode decode := by
  rintro ⟨⟨enc, dec, -, hdec, hdecodes⟩, -⟩
  obtain ⟨hvalues, hrebuild⟩ := hdecodes 0
  choose! stripe hstripe using hvalues
  have hval := hrebuild stripe stripe hstripe (L.agrees_self stripe) r hr wi hwi
  exact hval.ne_none (shape_eq_none.mpr (hmem dec hdec))

theorem Loss.not_recovers_of_eq_none (hnone : decode = none) : ¬L.Recovers helpers encode decode := by
  rintro ⟨⟨enc, dec, -, hdec, -⟩, -⟩
  exact Option.some_ne_none dec (hdec.symm.trans hnone)

/-- Decoding computes the given values of the lost sub-packets, on every stripe. -/
def Loss.Computes (L : Loss c) (decode : Option ECDAG) (f : (ℕ → GF256) → ℕ → ℕ → GF256) : Prop :=
  ∀ stripe, ∃ dec lim tmp, decode = some dec ∧
    Grown (L.wantPlan stripe (f stripe)) lim dec tmp fun id ↦ ∃ wi < c.w, ∃ r ∈ L.lost, id = r * c.w + wi

section Computes

variable {f : (ℕ → GF256) → ℕ → ℕ → GF256} {co : ℕ → List GF256} (h : L.Computes decode f) (hencode : Encodes c encode)
include h

theorem Loss.Computes.evaluates (stripe : ℕ → GF256) (hr : r ∈ L.lost) (hwi : wi < c.w) :
    ∃ dec, decode = some dec ∧ Evaluates dec.shape stripe (r * c.w + wi) (f stripe r wi) ∧
      r * c.w + wi ∈ dec.headers := by
  obtain ⟨dec, lim, tmp, hdec, hgrown⟩ := h stripe
  have hdone : ∃ wi' < c.w, ∃ r' ∈ L.lost, r * c.w + wi = r' * c.w + wi' := ⟨wi, hwi, r, hr, rfl⟩
  have hval := hgrown.value _ hdone
  rw [L.want_wantPlan _ hr hwi] at hval
  exact ⟨dec, hdec, hval, hgrown.header (L.wantPlan_target hwi hr) hdone⟩

include hencode

/-- What combines the helpers, with coefficients that rebuild the symbols, is recovered. -/
theorem Loss.Computes.recovers {data : List ℕ} (hlen : c.k ≤ data.length) (hsub : data ⊆ L.survivors)
    (hco : ∀ r ∈ L.lost, (co r).length = c.k)
    (hf : ∀ env, ∀ r ∈ L.lost, ∀ wi < c.w,
      f env r wi = dot (co r) ((List.range c.k).map fun j ↦ env (data.getD j 0 * c.w + wi)))
    (hdot : ∀ d : ℕ → GF256, ∀ r ∈ L.lost, ∀ wi < c.w,
      dot (co r) ((List.range c.k).map fun j ↦ c.symbol d (data.getD j 0) wi) = c.symbol d r wi) :
    L.Recovers (some data) encode decode := by
  obtain ⟨dec, -, -, hdec, -⟩ := h 0
  have hval : ∀ env, ∀ r ∈ L.lost, ∀ wi < c.w, Evaluates dec.shape env (r * c.w + wi)
      (dot (co r) ((List.range c.k).map fun j ↦ env (data.getD j 0 * c.w + wi))) ∧ r * c.w + wi ∈ dec.headers := by
    intro env r hr wi hwi
    obtain ⟨dec', hdec', hval, hheader⟩ := h.evaluates env hr hwi
    obtain rfl := Option.some.inj (hdec.symm.trans hdec')
    exact ⟨hf env r hr wi hwi ▸ hval, hheader⟩
  refine ⟨(L.decodes_iff hencode).mpr ⟨dec, hdec, fun d stripe env hstripe hagrees r hr wi hwi ↦ ?_⟩, ?_⟩
  · have hmem : ∀ j ∈ List.range c.k, data.getD j 0 ∈ L.survivors := by
      intro j hj
      rw [List.getD_eq_getElem _ _ ((List.mem_range.mp hj).trans_le hlen)]
      exact hsub (List.getElem_mem _)
    have hsymbols : (List.range c.k).map (fun j ↦ env (data.getD j 0 * c.w + wi)) =
        (List.range c.k).map fun j ↦ c.symbol d (data.getD j 0) wi := List.map_congr_left fun j hj ↦
      (hagrees _ (hmem j hj) wi hwi).trans (hstripe _ (L.survivors_lt _ (hmem j hj)) wi hwi)
    have hvalue := (hval env r hr wi hwi).1
    rwa [hsymbols, hdot d r hr wi hwi, ← hstripe r (L.lost_lt r hr) wi hwi] at hvalue
  · intro dec' hdec'
    obtain rfl := Option.some.inj (hdec.symm.trans hdec')
    exact ⟨fun r hr wi hwi ↦ (hval 0 r hr wi hwi).2,
      data, co, rfl, fun r hr ↦ ⟨hco r hr, fun wi hwi env ↦ (hval env r hr wi hwi).1⟩⟩

/-- What is another value on some data is not, whatever else survives. -/
theorem Loss.Computes.not_recovers {M : Loss c} (hlost : M.lost = L.lost) (hr : r ∈ L.lost) (hwi : wi < c.w)
    {data : ℕ → GF256} (hf : ∀ stripe, IsStripe c data stripe → f stripe r wi ≠ c.symbol data r wi) :
    ¬M.Recovers helpers encode decode := by
  rintro ⟨hdecodes, -⟩
  obtain ⟨dec, hdec, hrebuilds⟩ := (M.decodes_iff hencode).mp hdecodes
  obtain ⟨stripe, hstripe⟩ := exists_isStripe c data
  obtain ⟨dec', hdec', hval, -⟩ := h.evaluates stripe hr hwi
  obtain rfl := Option.some.inj (hdec.symm.trans hdec')
  refine hf stripe hstripe ?_
  rw [hval.unique (hrebuilds data stripe stripe hstripe (M.agrees_self stripe) r (hlost ▸ hr) wi hwi),
    hstripe r (L.lost_lt r hr) wi hwi]

end Computes

/-! ## The graphs of the codes -/

section Graphs

variable {co : ℕ → List GF256} {width : ℕ} {data : List ℕ}

theorem length_coefInts {co : List GF256} (h : c.coefInts gfMultiply invert width data r = some co) :
    co.length = c.k := by
  rw [← (mapM_eq_some_iff.mp h).length_eq, List.length_range]

theorem mapM_coefInts {lost : List ℕ} (h : ∀ r ∈ lost, c.coefInts gfMultiply invert width data r = some (co r)) :
    lost.mapM (c.coefInts gfMultiply invert width data) = some (lost.map co) := by
  rw [mapM_eq_some_iff, List.forall₂_map_right_iff, List.forall₂_same]
  exact h

theorem Loss.not_lost (L : Loss c) {wi' : ℕ} (hwi : wi < c.w) (hwi' : wi' < c.w) (hne : wi ≠ wi') (r : ℕ) :
    ¬∃ r' ∈ L.lost, r * c.w + wi = r' * c.w + wi' := by
  rintro ⟨r', -, heq⟩
  exact hne ((cell_inj hwi hwi').mp heq).2

theorem Loss.lost_three (L : Loss c) (hw : c.w = 3) (id : ℕ) :
    (∃ wi < c.w, ∃ r ∈ L.lost, id = r * c.w + wi) ↔
      ((False ∨ ∃ r ∈ L.lost, id = r * c.w + 0) ∨ ∃ r ∈ L.lost, id = r * c.w + 1) ∨
        ∃ r ∈ L.lost, id = r * c.w + 2 := by
  constructor
  · rintro ⟨wi, hwi, hid⟩
    obtain rfl | rfl | rfl : wi = 0 ∨ wi = 1 ∨ wi = 2 := by omega
    · exact .inl (.inl (.inr hid))
    · exact .inl (.inr hid)
    · exact .inr hid
  · rintro (((hfalse | hid) | hid) | hid)
    · exact hfalse.elim
    · exact ⟨0, by omega, hid⟩
    · exact ⟨1, by omega, hid⟩
    · exact ⟨2, by omega, hid⟩

variable (L) (hk : 2 ≤ c.k) (hkn : c.k < c.n) (hbound : c.n * c.w ≤ bindStart)
variable (hlost : L.lost.Nodup) (hlen : 2 ≤ L.lost.length)
include hk hkn hbound hlost hlen

theorem RSRPCONV.decode_computes (hw : c.w = rpNum + convNum) (convbindY : ℕ)
    (hco : ∀ r ∈ L.lost, c.coefInts gfMultiply invert 8 L.survivors r = some (co r)) :
    L.Computes (RSRPCONV.decode gfMultiply invert c convbindY (subPackets c.w L.survivors) (subPackets c.w L.lost))
      (L.combine co) := by
  intro stripe
  have hw3 : c.w = 3 := hw
  have hroom : 6 ≤ c.n * c.w := by
    rw [hw3]
    omega
  have hempty := Grown.empty (L.wantPlan stripe (L.combine co stripe)) hbound (Nat.le_add_right bindStart (c.n * c.w))
  obtain ⟨s, hs, hid, hgrown⟩ := chainStage_grown L (s := ({}, bindStart + c.n * c.w)) hk
    (show 0 < c.w by omega) hlost (fun r hr ↦ length_coefInts (hco r hr)) (fun _ _ ↦ rfl) hempty
    (Nat.le_add_right bindStart _) fun _ _ ↦ not_false
  have hid : s.1.bindId = bindStart := hid
  have hfresh : ∀ wi < c.w, ∀ wi' < c.w, wi ≠ wi' → ∀ r ∈ L.lost, ¬∃ r' ∈ L.lost, r * c.w + wi = r' * c.w + wi' :=
    fun wi hwi wi' hwi' hne r _ ↦ L.not_lost hwi hwi' hne r
  obtain ⟨dag₁, hdag₁, hid₁, hgrown₁⟩ := convStage_grown L hk (show 1 < c.w by omega) hlost hlen
    (fun r _ ↦ Eq.refl (L.combine co stripe r 1)) (convbindY + 0) hgrown (by omega) fun r hr ↦
      not_or.mpr ⟨not_false, hfresh 1 (by omega) 0 (by omega) (by decide) r hr⟩
  obtain ⟨dag₂, hdag₂, -, hgrown₂⟩ := convStage_grown L hk (show 2 < c.w by omega) hlost hlen
    (fun r _ ↦ Eq.refl (L.combine co stripe r 2)) (convbindY + 1) hgrown₁ (by omega) fun r hr ↦
      not_or.mpr ⟨not_or.mpr ⟨not_false, hfresh 2 (by omega) 0 (by omega) (by decide) r hr⟩,
        hfresh 2 (by omega) 1 (by omega) (by decide) r hr⟩
  refine ⟨dag₂, _, _, ?_, hgrown₂.congr_done (L.lost_three hw3)⟩
  have hw1 : 1 ≤ c.w := by omega
  have hcond : ¬(c.w ≠ rpNum + convNum ∨ L.survivors.length < c.k) :=
    not_or.mpr ⟨not_not.mpr hw, not_lt.mpr L.enough⟩
  simp only [RSRPCONV.decode, blockIds_subPackets hw1, if_neg hcond, mapM_coefInts hco, Option.bind_eq_bind,
    Option.bind_some]
  rw [show List.range rpNum = [0] from rfl, show List.range convNum = [0, 1] from rfl, List.foldlM_cons, hs]
  show (convStage c L.survivors L.lost (L.lost.map co) (convbindY + 0) s.1 1 >>= fun dag ↦
    List.foldlM _ dag [1]) = _
  rw [hdag₁]
  show (convStage c L.survivors L.lost (L.lost.map co) (convbindY + 1) dag₁ 2 >>= fun dag ↦ some dag) = _
  rw [hdag₂]
  rfl

/-- `RSSMARTLZ` leaves out what is in no whole rack, but for the first sub-packet. -/
theorem RSSMARTLZ.decode_computes {L' : Loss c} (hw : c.w = rpNum + convNum) (hm : 2 ≤ c.n - c.k)
    (htwo : 2 ≤ c.k / (c.n - c.k))
    (hhelpers : selectHelpers c.n c.k (c.n - c.k) L'.survivors = some L.survivors) (heq : L'.lost = L.lost)
    (hco : ∀ r ∈ L.lost, c.coefInts gfMultiply invert 8 L.survivors r = some (co r)) :
    L.Computes (RSSMARTLZ.decode gfMultiply invert c (subPackets c.w L'.survivors) (subPackets c.w L'.lost))
      fun stripe r wi ↦
        L.combineFirst (if wi < rpNum then c.k else c.k / (c.n - c.k) * (c.n - c.k)) co stripe r wi := by
  intro stripe
  have hw3 : c.w = 3 := hw
  have hv : c.k / (c.n - c.k) * (c.n - c.k) ≤ c.k := Nat.div_mul_le_self ..
  have hvk : c.k / (c.n - c.k) ≤ c.k := Nat.div_le_self ..
  have hroom : 2 * c.k ≤ c.n * c.w := by
    rw [hw3]
    omega
  let f : ℕ → ℕ → GF256 := fun r wi ↦
    L.combineFirst (if wi < rpNum then c.k else c.k / (c.n - c.k) * (c.n - c.k)) co stripe r wi
  have hfirst : ∀ r ∈ L.lost, f r 0 = L.combine co stripe r 0 :=
    fun r hr ↦ L.combineFirst_of_length (length_coefInts (hco r hr))
  have hrest : ∀ wi, rpNum ≤ wi → ∀ r ∈ L.lost, f r wi =
      ((List.range (c.k / (c.n - c.k))).map (L.share (c.n - c.k) (co r) stripe wi)).sum := by
    intro wi hwi r _
    rw [L.sum_share]
    simp only [f, if_neg (not_lt.mpr hwi)]
  have hempty := Grown.empty (L.wantPlan stripe f) hbound (Nat.le_add_right bindStart (c.n * c.w))
  obtain ⟨s, hs, hid, hgrown⟩ := chainStage_grown L (s := ({}, bindStart + c.n * c.w)) hk
    (show 0 < c.w by omega) hlost (fun r hr ↦ length_coefInts (hco r hr)) hfirst hempty
    (Nat.le_add_right bindStart _) fun _ _ ↦ not_false
  have hid : s.1.bindId = bindStart := hid
  have hfresh : ∀ wi < c.w, ∀ wi' < c.w, wi ≠ wi' → ∀ r ∈ L.lost, ¬∃ r' ∈ L.lost, r * c.w + wi = r' * c.w + wi' :=
    fun wi hwi wi' hwi' hne r _ ↦ L.not_lost hwi hwi' hne r
  -- the two rack stages run on the graph of the chain, each for a sub-packet of its own
  obtain ⟨s₁, hs₁, hid₁, hgrown₁⟩ := rackStage_grown L hm (show 1 < c.w by omega) hlen hlost hv htwo
    (Nat.mod_lt 1 (Nat.zero_lt_of_lt hm)) (hrest 1 le_rfl) hgrown (by omega) fun r hr ↦
      not_or.mpr ⟨not_false, hfresh 1 (by omega) 0 (by omega) (by decide) r hr⟩
  obtain ⟨s₂, hs₂, -, hgrown₂⟩ := rackStage_grown L hm (show 2 < c.w by omega) hlen hlost hv htwo
    (Nat.mod_lt 2 (Nat.zero_lt_of_lt hm)) (hrest 2 (by decide)) hgrown₁ (by omega) fun r hr ↦
      not_or.mpr ⟨not_or.mpr ⟨not_false, hfresh 2 (by omega) 0 (by omega) (by decide) r hr⟩,
        hfresh 2 (by omega) 1 (by omega) (by decide) r hr⟩
  refine ⟨s₂.1, _, _, ?_, hgrown₂.congr_done (L.lost_three hw3)⟩
  have hw1 : 1 ≤ c.w := by omega
  simp only [RSSMARTLZ.decode, blockIds_subPackets hw1, if_neg (not_not.mpr hw), hhelpers, heq, mapM_coefInts hco,
    Option.bind_eq_bind, Option.bind_some]
  rw [show List.range rpNum = [0] from rfl, show List.range convNum = [0, 1] from rfl, List.foldlM_cons, hs]
  show ((rackStage c (c.n - c.k) (c.k / (c.n - c.k)) L.survivors L.lost (L.lost.map co) (1 % (c.n - c.k)) s 1 >>=
    fun s ↦ List.foldlM _ s [1]) >>= _) = _
  rw [hs₁]
  show ((rackStage c (c.n - c.k) (c.k / (c.n - c.k)) L.survivors L.lost (L.lost.map co) (2 % (c.n - c.k)) s₁ 2 >>=
    fun s ↦ some s) >>= _) = _
  rw [hs₂]
  rfl

omit hk in
theorem RSASP.decode_computes {L' : Loss c} (hw : c.w = c.n - c.k) (hm : 2 ≤ c.n - c.k) (hdvd : c.n - c.k ∣ c.k)
    (htwo : 2 ≤ c.k / (c.n - c.k))
    (hhelpers : selectHelpers c.n c.k (c.n - c.k) L'.survivors = some L.survivors) (heq : L'.lost = L.lost)
    (hco : ∀ r ∈ L.lost, c.coefInts gfMultiply invert c.k L.survivors r = some (co r)) :
    L.Computes (RSASP.decode gfMultiply invert c (subPackets c.w L'.survivors) (subPackets c.w L'.lost))
      (L.combine co) := by
  intro stripe
  have hv : c.k / (c.n - c.k) * (c.n - c.k) = c.k := Nat.div_mul_cancel hdvd
  have hroom : c.k ≤ c.n * c.w := hkn.le.trans (Nat.le_mul_of_pos_right _ (by omega))
  have hshares : ∀ wi, ∀ r ∈ L.lost, L.combine co stripe r wi =
      ((List.range (c.k / (c.n - c.k))).map (L.share (c.n - c.k) (co r) stripe wi)).sum := by
    intro wi r hr
    rw [L.sum_share, hv, L.combineFirst_of_length (length_coefInts (hco r hr))]
  have hempty := Grown.empty (L.wantPlan stripe (L.combine co stripe)) hbound (Nat.le_add_right bindStart (c.n * c.w))
  have hstep : ∀ wi ∈ List.range c.w, ∀ (s : ECDAG × ℕ) (done' : ℕ → Prop),
      (∀ id, done' id → False ∨ ∃ wi' ∈ List.range c.w, wi' ≠ wi ∧ ∃ r ∈ L.lost, id = r * c.w + wi') →
      Grown (L.wantPlan stripe (L.combine co stripe)) (bindStart + c.n * c.w) s.1 s.2 done' → True →
      s.1.bindId + c.k / (c.n - c.k) ≤ bindStart + c.n * c.w →
      ∃ s', rackStage c (c.n - c.k) (c.k / (c.n - c.k)) L.survivors L.lost (L.lost.map co) wi s wi = some s' ∧
        s'.1.bindId = s.1.bindId + c.k / (c.n - c.k) ∧
        Grown (L.wantPlan stripe (L.combine co stripe)) (bindStart + c.n * c.w) s'.1 s'.2
          (fun id ↦ done' id ∨ ∃ r ∈ L.lost, id = r * c.w + wi) ∧ True := by
    intro wi hwi s done' hdone h _ hlim
    have hwi := List.mem_range.mp hwi
    obtain ⟨s', hs', hid, hgrown⟩ := rackStage_grown L hm hwi hlen hlost hv.le htwo (hw ▸ hwi) (hshares wi) h hlim
      fun r hr hdone' ↦ by
        rcases hdone _ hdone' with hfalse | ⟨wi', hwi', hne, hlost'⟩
        · exact hfalse
        · exact L.not_lost hwi (List.mem_range.mp hwi') hne.symm r hlost'
    exact ⟨s', hs', hid, hgrown, trivial⟩
  have hwidth : c.w * (c.k / (c.n - c.k)) = c.k := by
    rw [hw, mul_comm]
    exact hv
  obtain ⟨s, hs, -, hgrown⟩ := Grown.foldlM (s := ({}, bindStart + c.n * c.w)) (c.k / (c.n - c.k))
    (fun s : ECDAG × ℕ ↦ s) List.nodup_range hstep hempty trivial (by
      rw [List.length_range, hwidth]
      exact Nat.add_le_add_left hroom _)
  refine ⟨s.1, _, _, ?_, hgrown.congr_done fun id ↦ ?_⟩
  · have hw1 : 1 ≤ c.w := by omega
    have hmod : c.k % (c.n - c.k) = 0 := Nat.mod_eq_zero_of_dvd hdvd
    simp only [RSASP.decode, blockIds_subPackets hw1, if_neg (not_not.mpr hw), hhelpers, heq, mapM_coefInts hco,
      Option.bind_eq_bind, Option.bind_some, hmod, if_true, add_zero, hs]
  · simp only [false_or, List.mem_range]

end Graphs

end Recovers

end UniDedup.Storage
