import UniDedup.Lib.Fold
import UniDedup.Storage.Staged

/-!
# What the stages compute

With coefficients for every lost block, a chain and a join to all helpers compute the combination of all
helpers. The two stages over `v` racks of `m` compute the combination of the first `v * m` helpers, when
there are at least two racks and two lost blocks. With one lost block `BindX` binds nothing and the stages
fail. With one rack or none the loop across the racks does nothing, and the lost sub-packets are never joined.
-/

namespace UniDedup.Storage

open ECDAG Fold WordField

theorem dot_map_range {co : List GF256} {k : ℕ} (hco : co.length = k) (g : ℕ → GF256) :
    dot co ((List.range k).map g) = ((List.range k).map fun j ↦ co.getD j 0 * g j).sum := by
  have hmap : co = (List.range k).map fun j ↦ co.getD j 0 := by
    refine List.ext_getElem (by simp [hco]) fun i hi _ ↦ ?_
    rw [List.getElem_map, List.getElem_range, List.getD_eq_getElem _ _ hi]
  conv_lhs => rw [hmap]
  rw [dot, List.zipWith_map, List.zipWith_self]

section Chain

variable {P : Plan} {lim tmp p : ℕ} {dag : ECDAG} {done : ℕ → Prop} {queue : List (ℕ × GF256)}

/-- **The chain across the racks** ends at a join of the sub-packet to the last temporary. -/
theorem crossRack_grown (hp : P.target p) (hnot : ¬done p) (fuel : ℕ) (hfuel : queue.length ≤ fuel)
    (hlen : 2 ≤ queue.length) (h : Grown P lim dag tmp done) (hqueue : Queued P lim dag tmp queue)
    (hsum : Sums dag.shape P.env queue (P.want p)) :
    ∃ dag' tmp', crossRack p fuel dag tmp queue = some (dag', tmp') ∧ dag'.bindId = dag.bindId ∧
      Grown P lim dag' tmp' (fun q ↦ done q ∨ q = p) ∧ Keeps P tmp dag dag' ∧ tmp ≤ tmp' := by
  induction fuel generalizing dag tmp queue with
  | zero => omega
  | succ fuel ih =>
    rcases queue with _ | ⟨⟨d₀, c₀⟩, _ | ⟨⟨d₁, c₁⟩, rest⟩⟩
    · exact absurd hlen (Nat.not_succ_le_zero 1)
    · exact absurd hlen (Nat.not_succ_le_self 1)
    obtain ⟨dag', hbind, hbindId, hgrown, hkeeps, hplain, hsum', hqueue'⟩ := h.chainStep hqueue hsum
    rcases rest with _ | ⟨e, rest⟩
    · obtain ⟨v, s', hv, hs', hwant⟩ := hsum'
      have hs0 : s' = 0 := hs'
      have hchild : ∀ c ∈ [tmp], Child P lim dag' (tmp + 1) c := by
        intro c hc
        rw [List.mem_singleton.mp hc]
        exact .temporary h.bound_le h.lim_le (Nat.lt_succ_self tmp)
      have hne : tmp ≠ p := fun heq ↦ (hchild tmp (List.mem_singleton_self tmp)).not_target (heq ▸ hp)
      have hroot : Evaluates (dag'.join p [tmp] [1]).shape P.env p (dot [1] [v]) :=
        evaluates_join_one (hgrown.fresh p (.inl hp)) hne hplain hv
      rw [dot_cons, dot_nil, ← hs0, ← hwant] at hroot
      refine ⟨dag'.join p [tmp] [1], tmp + 1, ?_, (bindId_join ..).trans hbindId,
        hgrown.joinTarget hchild hp hnot hroot, ?_, Nat.le_succ tmp⟩
      · simp only [crossRack, List.isEmpty_nil, if_true, hbind, Option.bind_eq_bind, Option.bind_some]
      · exact hkeeps.trans (hgrown.keeps_join [tmp] [1] (.inl hp)) (Nat.le_succ tmp)
    · rw [List.length_cons, List.length_cons] at hfuel
      obtain ⟨dag'', tmp', heq, hbindId', hgrown', hkeeps', hle⟩ :=
        ih (by simpa using hfuel) (by simp) hgrown hqueue' hsum'
      refine ⟨dag'', tmp', ?_, hbindId'.trans hbindId, hgrown', hkeeps.trans hkeeps' (Nat.le_succ tmp), by omega⟩
      rw [← heq]
      simp only [crossRack, List.isEmpty_cons, Bool.false_eq_true, if_false, hbind, Option.bind_eq_bind,
        Option.bind_some]

end Chain

section Stages

variable {c : RSCode} (L : Loss c) {co : ℕ → List GF256} {stripe : ℕ → GF256} {f : ℕ → ℕ → GF256}
variable {lim wi : ℕ} {done : ℕ → Prop}

theorem Loss.wantPlan_src (hwi : wi < c.w) {j : ℕ} (hj : j < c.k) :
    (L.wantPlan stripe f).src (L.survivors.getD j 0 * c.w + wi) := ⟨j, hj, wi, hwi, rfl⟩

theorem Loss.wantPlan_target (hwi : wi < c.w) {r : ℕ} (hr : r ∈ L.lost) :
    (L.wantPlan stripe f).target (r * c.w + wi) := ⟨r, hr, wi, hwi, rfl⟩

/-- **The chains** compute the combination of the helpers. -/
theorem chainStage_grown (hk : 2 ≤ c.k) (hwi : wi < c.w) (hnodup : L.lost.Nodup)
    (hlen : ∀ r ∈ L.lost, (co r).length = c.k) (hf : ∀ r ∈ L.lost, f r wi = L.combine co stripe r wi)
    {s : ECDAG × ℕ} (h : Grown (L.wantPlan stripe f) lim s.1 s.2 done) (hlim : s.1.bindId ≤ lim)
    (hnot : ∀ r ∈ L.lost, ¬done (r * c.w + wi)) :
    ∃ s', chainStage c L.survivors L.lost (L.lost.map co) s wi = some s' ∧ s'.1.bindId = s.1.bindId ∧
      Grown (L.wantPlan stripe f) lim s'.1 s'.2 fun id ↦ done id ∨ ∃ r ∈ L.lost, id = r * c.w + wi := by
  have hstep : ∀ r ∈ L.lost, ∀ (s : ECDAG × ℕ) (done' : ℕ → Prop),
      (∀ id, done' id → done id ∨ ∃ y ∈ L.lost, y ≠ r ∧ id = y * c.w + wi) →
      Grown (L.wantPlan stripe f) lim s.1 s.2 done' → True → s.1.bindId + 0 ≤ lim →
      ∃ s', RSPIPE.pipeline (r * c.w + wi) c.k s.1 s.2 ((List.range c.k).map fun j ↦
          (L.survivors.getD j 0 * c.w + wi, (co r).getD j 0)) = some s' ∧
        s'.1.bindId = s.1.bindId + 0 ∧
        Grown (L.wantPlan stripe f) lim s'.1 s'.2 (fun id ↦ done' id ∨ id = r * c.w + wi) ∧ True := by
    intro r hr s done' hdone h _ _
    have hnot' : ¬done' (r * c.w + wi) := by
      intro hdone'
      rcases hdone _ hdone' with hdone' | ⟨y, -, hne, heq⟩
      · exact hnot r hr hdone'
      · exact hne ((cell_inj hwi hwi).mp heq).1.symm
    have hsums : Sums s.1.shape stripe ((List.range c.k).map fun j ↦
        (L.survivors.getD j 0 * c.w + wi, (co r).getD j 0)) _ :=
      h.toBuilt.sums fun j hj ↦ L.wantPlan_src hwi (List.mem_range.mp hj)
    have hwant : (L.wantPlan stripe f).want (r * c.w + wi) =
        ((List.range c.k).map fun j ↦ (co r).getD j 0 * stripe (L.survivors.getD j 0 * c.w + wi)).sum := by
      rw [L.want_wantPlan f hr hwi, hf r hr, Loss.combine, dot_map_range (hlen r hr)]
    have hlength : ((List.range c.k).map fun j ↦
        (L.survivors.getD j 0 * c.w + wi, (co r).getD j 0)).length = c.k := by simp
    have hqueued : Queued (L.wantPlan stripe f) lim s.1 s.2 ((List.range c.k).map fun j ↦
        (L.survivors.getD j 0 * c.w + wi, (co r).getD j 0)) := by
      intro e he
      obtain ⟨j, hj, rfl⟩ := List.mem_map.mp he
      exact .src h.toBindBuilt (L.wantPlan_src hwi (List.mem_range.mp hj))
    obtain ⟨dag', tmp', heq, hbindId, hgrown⟩ := RSPIPE.pipeline_grown (L.wantPlan_target hwi hr) c.k hnot'
      hlength.le (hk.trans hlength.ge) h hqueued (hwant ▸ hsums)
    exact ⟨(dag', tmp'), heq, hbindId, hgrown, trivial⟩
  obtain ⟨s', hs', hbindId, hgrown⟩ :=
    Grown.foldlM 0 (fun s : ECDAG × ℕ ↦ s) hnodup hstep h trivial (by simpa using hlim)
  refine ⟨s', ?_, by simpa using hbindId, hgrown⟩
  rw [chainStage, ← List.map_prod_left_eq_zip, List.foldlM_map]
  exact hs'

/-- **The joins to all helpers**, bound together. -/
theorem convStage_grown (hk : 2 ≤ c.k) (hwi : wi < c.w) (hnodup : L.lost.Nodup) (hlost : 2 ≤ L.lost.length)
    (hf : ∀ r ∈ L.lost, f r wi = L.combine co stripe r wi) (convbindY : ℕ) {dag : ECDAG} {tmp : ℕ}
    (h : Grown (L.wantPlan stripe f) lim dag tmp done) (hlim : dag.bindId < lim)
    (hnot : ∀ r ∈ L.lost, ¬done (r * c.w + wi)) :
    ∃ dag', convStage c L.survivors L.lost (L.lost.map co) convbindY dag wi = some dag' ∧
      dag'.bindId = dag.bindId + 1 ∧
      Grown (L.wantPlan stripe f) lim dag' tmp fun id ↦ done id ∨ ∃ r ∈ L.lost, id = r * c.w + wi := by
  have hsrc : ∀ id ∈ L.read wi, (L.wantPlan stripe f).src id := by
    intro id hid
    obtain ⟨j, hj, rfl⟩ := List.mem_map.mp hid
    exact L.wantPlan_src hwi (List.mem_range.mp hj)
  have hlength : 2 ≤ (L.read wi).length := by
    rw [L.length_read]
    exact hk
  have htargets : ∀ p ∈ L.targets wi, (L.wantPlan stripe f).target p ∧ ¬done p := by
    intro p hp
    obtain ⟨r, hr, rfl⟩ := List.mem_map.mp hp
    exact ⟨L.wantPlan_target hwi hr, hnot r hr⟩
  have hdistinct : (L.targets wi).Nodup := hnodup.map fun r r' hrr ↦ ((cell_inj hwi hwi).mp hrr).1
  have hdot : ∀ p ∈ L.targets wi, dot (co (p / c.w)) ((L.read wi).map (L.wantPlan stripe f).env) =
      (L.wantPlan stripe f).want p := by
    intro p hp
    obtain ⟨r, hr, rfl⟩ := List.mem_map.mp hp
    rw [L.want_wantPlan f hr hwi, hf r hr, subPacket_div hwi, Loss.combine, Loss.read, List.map_map]
    rfl
  have htwo : 2 ≤ (L.targets wi).length := by
    rw [Loss.targets, List.length_map]
    exact hlost
  have hne : L.targets wi ≠ [] := List.ne_nil_of_length_pos (by omega)
  have hjoin := h.joinTargets hsrc hlength (fun p ↦ co (p / c.w)) htargets hdistinct hdot
  have hbindId := bindId_foldl_join (L.read wi) (fun p ↦ co (p / c.w)) (L.targets wi) dag
  have hcluster := findCluster_foldl_join (L.read wi) (fun p ↦ co (p / c.w)) hne dag
  have hrow : ∀ t ∈ L.targets wi, ((L.targets wi).foldl
      (fun dag p ↦ dag.join p (L.read wi) (co (p / c.w))) dag).shape t =
      some (L.read wi, AList.singleton t (co (t / c.w))) := fun t ht ↦ by rw [shape_foldl_join, if_pos ht]
  have hconv : convStage c L.survivors L.lost (L.lost.map co) convbindY dag wi =
      (((L.targets wi).foldl (fun dag p ↦ dag.join p (L.read wi) (co (p / c.w))) dag).bindX (L.targets wi)).bind
        fun e ↦ e.1.bindYOf e.2 (L.lost.getD (convbindY % L.lost.length) 0 * c.w + wi) := by
    rw [← L.foldl_zip co hwi]
    rfl
  rw [hconv]
  generalize (L.targets wi).foldl (fun dag p ↦ dag.join p (L.read wi) (co (p / c.w))) dag = joined at *
  obtain ⟨d, M, hbind, hbindId', hframe, hreb, hgrown, -⟩ :=
    hjoin.bindX (hbindId ▸ hlim) hlength hcluster hdistinct htwo hrow
  have hplace : L.lost.getD (convbindY % L.lost.length) 0 * c.w + wi ∈ L.targets wi := by
    refine List.mem_map.mpr ⟨_, ?_, rfl⟩
    rw [List.getD_eq_getElem _ _ (Nat.mod_lt _ (by omega))]
    exact List.getElem_mem _
  obtain ⟨dag', hbindY, hbindId'', -, -, hgrown'⟩ :=
    hgrown.bindYOf hframe hcluster hreb (hgrown.value _ (.inr hplace)).ne_none
  refine ⟨dag', by rw [hbind]; exact hbindY, by rw [hbindId'', hbindId', hbindId],
    hgrown'.congr_done fun id ↦ or_congr_right ?_⟩
  rw [Loss.targets, List.mem_map]
  simp only [eq_comm]

/-! ### Racks -/

/-- What a rack contributes to a lost sub-packet. -/
def Loss.share (m : ℕ) (co : List GF256) (stripe : ℕ → GF256) (wi ri : ℕ) : GF256 :=
  ((List.range m).map fun j ↦ co.getD (ri * m + j) 0 * stripe (L.survivors.getD (ri * m + j) 0 * c.w + wi)).sum

/-- The temporaries hold the shares of the first `v` racks. -/
def Loss.Shares (m : ℕ) (co : ℕ → List GF256) (stripe : ℕ → GF256) (lim wi v : ℕ)
    (s : ECDAG × ℕ × List (List ℕ)) : Prop :=
  ∀ i < L.lost.length, List.Forall₂
    (fun t ri ↦ c.n * c.w ≤ t ∧ lim ≤ t ∧ t < s.2.1 ∧
      Evaluates s.1.shape stripe t (L.share m (co (L.lost.getD i 0)) stripe wi ri))
    (s.2.2.getD i []) (List.range v)

theorem Loss.Shares.keep {m v : ℕ} {s : ECDAG × ℕ × List (List ℕ)} (h : L.Shares m co stripe lim wi v s)
    {dag' : ECDAG} {tmp' : ℕ} (hkeeps : Keeps (L.wantPlan stripe f) s.2.1 s.1 dag') (hle : s.2.1 ≤ tmp') :
    L.Shares m co stripe lim wi v (dag', tmp', s.2.2) := by
  intro i hi
  refine (h i hi).imp fun t ri ht ↦ ?_
  exact ⟨ht.1, ht.2.1, ht.2.2.1.trans_le hle, hkeeps t _ ht.1 ht.2.2.1 ht.2.2.2⟩

/-- **A rack** computes its share of every lost sub-packet of the index. -/
theorem innerRack_grown {m ri pick : ℕ} (hm : 2 ≤ m) (hwi : wi < c.w) (hlost : 2 ≤ L.lost.length)
    (hri : ri * m + m ≤ c.k) (hpick : pick < m) {s : ECDAG × ℕ × List (List ℕ)}
    (h : Grown (L.wantPlan stripe f) lim s.1 s.2.1 done) (hlim : s.1.bindId < lim)
    (hshares : L.Shares m co stripe lim wi ri s) :
    ∃ s', innerRack c m L.survivors (L.lost.map co) L.lost.length pick wi s ri = some s' ∧
      s'.1.bindId = s.1.bindId + 1 ∧ Grown (L.wantPlan stripe f) lim s'.1 s'.2.1 done ∧
      L.Shares m co stripe lim wi (ri + 1) s' := by
  obtain ⟨dag, tmp, tmpridxs⟩ := s
  let rdata := (List.range m).map fun mi ↦ L.survivors.getD (ri * m + mi) 0 * c.w + wi
  let rcoefs : ℕ → List GF256 := fun i ↦
    (List.range m).map fun j ↦ ((L.lost.map co).getD i []).getD (ri * m + j) 0
  let tobindx := (List.range L.lost.length).map (tmp + ·)
  have hsrc : ∀ id ∈ rdata, (L.wantPlan stripe f).src id := by
    intro id hid
    obtain ⟨j, hj, rfl⟩ := List.mem_map.mp hid
    have := List.mem_range.mp hj
    exact L.wantPlan_src hwi ((Nat.add_lt_add_left this _).trans_le hri)
  have hlength : 2 ≤ rdata.length := by
    rw [List.length_map, List.length_range]
    exact hm
  have htwo : 2 ≤ tobindx.length := by
    rw [List.length_map, List.length_range]
    exact hlost
  have hnodup : tobindx.Nodup := List.nodup_range.map (add_right_injective tmp)
  obtain ⟨hjoin, hkeeps, hvals⟩ := h.joinTemporaries hsrc hlength rcoefs L.lost.length
  have hfold : (List.range L.lost.length).foldl (fun dag i ↦ dag.join (tmp + i) rdata (rcoefs i)) dag =
      tobindx.foldl (fun dag p ↦ dag.join p rdata (rcoefs (p - tmp))) dag := by
    rw [List.foldl_map]
    simp only [Nat.add_sub_cancel_left]
  have hbindId := bindId_foldl_join rdata (fun p ↦ rcoefs (p - tmp)) tobindx dag
  have hne : tobindx ≠ [] := List.ne_nil_of_length_pos (Nat.zero_lt_of_lt htwo)
  have hcluster := findCluster_foldl_join rdata (fun p ↦ rcoefs (p - tmp)) hne dag
  have hrow : ∀ t ∈ tobindx, (tobindx.foldl (fun dag p ↦ dag.join p rdata (rcoefs (p - tmp))) dag).shape t =
      some (rdata, AList.singleton t (rcoefs (t - tmp))) := fun t ht ↦ by rw [shape_foldl_join, if_pos ht]
  have hread : ∀ id ∈ rdata, (tobindx.foldl (fun dag p ↦ dag.join p rdata (rcoefs (p - tmp))) dag).shape id ≠
      none := by
    intro id hid
    rw [shape_foldl_join]
    split
    · exact Option.some_ne_none _
    · split
      · exact Option.some_ne_none _
      · next hnone => exact fun hshape ↦ hnone ⟨hne, hid, hshape⟩
  rw [hfold] at hjoin hkeeps hvals
  have hrack : innerRack c m L.survivors (L.lost.map co) L.lost.length pick wi (dag, tmp, tmpridxs) ri =
      ((tobindx.foldl (fun dag p ↦ dag.join p rdata (rcoefs (p - tmp))) dag).bindX tobindx).bind fun e ↦
        (e.1.bindYOf e.2 (rdata.getD pick 0)).bind fun dag : ECDAG ↦
          (tobindx.foldlM (fun (dag : ECDAG) t ↦ dag.bindY t e.2.toNat) dag).bind fun dag ↦
            some (dag, tmp + L.lost.length, (List.range L.lost.length).map fun i ↦
              tmpridxs.getD i [] ++ [tmp + i]) := by
    rw [← hfold]
    simp only [innerRack, if_neg (not_lt.mpr hri), Option.bind_eq_bind]
    rfl
  rw [hrack]
  generalize tobindx.foldl (fun dag p ↦ dag.join p rdata (rcoefs (p - tmp))) dag = joined at *
  obtain ⟨d, M, hbind, hbindId', hframe, hreb, hgrown, hkeeps'⟩ :=
    hjoin.bindX (hbindId ▸ hlim) hlength hcluster hnodup htwo hrow
  -- the bind node goes to one of the helpers, and its targets go where it is
  have hpicked : rdata.getD pick 0 ∈ rdata := by
    rw [List.getD_eq_getElem _ _ (by rw [List.length_map, List.length_range]; exact hpick)]
    exact List.getElem_mem _
  have hpresent : d.shape (rdata.getD pick 0) ≠ none := by
    rw [hreb.shape]
    split
    · exact Option.some_ne_none _
    · split
      · exact Option.some_ne_none _
      · exact hread _ hpicked
  obtain ⟨d', hbindY, hbindId'', hshape, hcons, hgrown'⟩ := hgrown.bindYOf hframe hcluster hreb hpresent
  have htargets : ∀ p ∈ tobindx, d'.shape p ≠ none := by
    intro p hp
    rw [hshape, hreb.shape, if_pos hp]
    exact Option.some_ne_none _
  obtain ⟨d'', hfoldM, hshape', hkeepId, hheaders⟩ := foldlM_bindY tobindx hcons htargets
  refine ⟨_, by rw [hbind, Option.bind_some, hbindY, Option.bind_some, Int.toNat_natCast, hfoldM,
    Option.bind_some], ?_, hgrown'.congr hshape' hkeepId hheaders, fun i hi ↦ ?_⟩
  · rw [hkeepId, hbindId'', hbindId', hbindId]
  · have hnames : ((List.range L.lost.length).map fun i ↦ tmpridxs.getD i [] ++ [tmp + i]).getD i [] =
        tmpridxs.getD i [] ++ [tmp + i] := by
      rw [List.getD_eq_getElem _ _ (by rw [List.length_map, List.length_range]; exact hi)]
      simp
    dsimp only
    rw [hnames, List.range_succ]
    have hkeepAll : Keeps (L.wantPlan stripe f) tmp dag d'' := by
      refine (hkeeps.trans hkeeps' (Nat.le_add_right ..)).trans (.of_shape ?_) le_rfl
      rw [hshape', hshape]
    refine List.rel_append ((hshares.keep L hkeepAll (Nat.le_add_right tmp L.lost.length)) i hi)
      (.cons ⟨h.bound_le.trans (Nat.le_add_right ..), h.lim_le.trans (Nat.le_add_right ..),
        Nat.add_lt_add_left hi tmp, ?_⟩ .nil)
    have hval := hkeeps' _ _ (h.bound_le.trans (Nat.le_add_right tmp i)) (Nat.add_lt_add_left hi tmp) (hvals i hi)
    rw [← hshape, ← hshape'] at hval
    have hshare : dot (rcoefs i) (rdata.map (L.wantPlan stripe f).env) =
        L.share m (co (L.lost.getD i 0)) stripe wi ri := by
      have hcoefs : (L.lost.map co).getD i [] = co (L.lost.getD i 0) := by
        rw [List.getD_eq_getElem _ _ (by rw [List.length_map]; exact hi), List.getElem_map,
          List.getD_eq_getElem _ _ hi]
      rw [dot, List.map_map, List.zipWith_map, List.zipWith_self, Loss.share, hcoefs]
      rfl
    rwa [hshare] at hval

theorem innerRacks_grown (co : ℕ → List GF256) {m v pick : ℕ} (hm : 2 ≤ m) (hwi : wi < c.w) (hlost : 2 ≤ L.lost.length)
    (hv : v * m ≤ c.k) (hpick : pick < m) {dag : ECDAG} {tmp : ℕ}
    (h : Grown (L.wantPlan stripe f) lim dag tmp done) (hlim : dag.bindId + v ≤ lim) :
    ∃ s', (List.range v).foldlM (innerRack c m L.survivors (L.lost.map co) L.lost.length pick wi)
        (dag, tmp, L.lost.map fun _ ↦ []) = some s' ∧ s'.1.bindId = dag.bindId + v ∧
      Grown (L.wantPlan stripe f) lim s'.1 s'.2.1 done ∧ L.Shares m co stripe lim wi v s' := by
  induction v with
  | zero =>
    refine ⟨_, rfl, rfl, h, fun i hi ↦ ?_⟩
    have hnil : (L.lost.map fun _ ↦ ([] : List ℕ)).getD i [] = [] := by
      rw [List.getD_eq_getElem _ _ (by rw [List.length_map]; exact hi), List.getElem_map]
    dsimp only
    rw [hnil]
    exact .nil
  | succ v ih =>
    rw [Nat.succ_mul] at hv
    obtain ⟨s, hs, hbindId, hgrown, hshares⟩ := ih (by omega) (by omega)
    obtain ⟨s', hs', hbindId', hgrown', hshares'⟩ :=
      innerRack_grown L hm hwi hlost hv hpick hgrown (by omega) hshares
    refine ⟨s', ?_, by omega, hgrown', hshares'⟩
    rw [List.range_succ, List.foldlM_append, hs]
    simp only [Option.bind_eq_bind, Option.bind_some, List.foldlM_cons, hs', List.foldlM_nil]
    rfl

theorem sums_shares {S : ℕ → Option Shape} {env : ℕ → GF256} {ts ris : List ℕ} {g : ℕ → GF256} {p : ℕ → Prop}
    (h : List.Forall₂ (fun t ri ↦ p t ∧ Evaluates S env t (g ri)) ts ris) :
    Sums S env (ts.map (·, 1)) (ris.map g).sum := by
  induction h with
  | nil => rfl
  | @cons t ri ts ris ht _ ih => exact ⟨g ri, _, .inr ht.2, ih, by rw [one_mul]; rfl⟩

/-- **The two stages** compute the sum of the shares of at least two racks. -/
theorem rackStage_grown {m v pick : ℕ} (hm : 2 ≤ m) (hwi : wi < c.w) (hlost : 2 ≤ L.lost.length)
    (hnodup : L.lost.Nodup) (hv : v * m ≤ c.k) (htwo : 2 ≤ v) (hpick : pick < m)
    (hf : ∀ r ∈ L.lost, f r wi = ((List.range v).map (L.share m (co r) stripe wi)).sum) {s : ECDAG × ℕ}
    (h : Grown (L.wantPlan stripe f) lim s.1 s.2 done) (hlim : s.1.bindId + v ≤ lim)
    (hnot : ∀ r ∈ L.lost, ¬done (r * c.w + wi)) :
    ∃ s', rackStage c m v L.survivors L.lost (L.lost.map co) pick s wi = some s' ∧
      s'.1.bindId = s.1.bindId + v ∧
      Grown (L.wantPlan stripe f) lim s'.1 s'.2 fun id ↦ done id ∨ ∃ r ∈ L.lost, id = r * c.w + wi := by
  obtain ⟨⟨dag, tmp, tmpridxs⟩, hracks, hbindId, hgrown, hshares⟩ :=
    innerRacks_grown L co hm hwi hlost hv hpick h hlim
  have hget : ∀ i < L.lost.length, L.lost.getD i 0 ∈ L.lost := fun i hi ↦ by
    rw [List.getD_eq_getElem _ _ hi]
    exact List.getElem_mem _
  have hstep : ∀ i ∈ List.range L.lost.length, ∀ (s : ECDAG × ℕ) (done' : ℕ → Prop),
      (∀ id, done' id → done id ∨ ∃ j ∈ List.range L.lost.length, j ≠ i ∧ id = L.lost.getD j 0 * c.w + wi) →
      Grown (L.wantPlan stripe f) lim s.1 s.2 done' →
      (Keeps (L.wantPlan stripe f) tmp dag s.1 ∧ tmp ≤ s.2) → s.1.bindId + 0 ≤ lim →
      ∃ s', crossRack (L.lost.getD i 0 * c.w + wi) v s.1 s.2 ((tmpridxs.getD i []).map (·, 1)) = some s' ∧
        s'.1.bindId = s.1.bindId + 0 ∧
        Grown (L.wantPlan stripe f) lim s'.1 s'.2 (fun id ↦ done' id ∨ id = L.lost.getD i 0 * c.w + wi) ∧
        (Keeps (L.wantPlan stripe f) tmp dag s'.1 ∧ tmp ≤ s'.2) := by
    intro i hi s done' hdone h hkeeps _
    have hi := List.mem_range.mp hi
    have hr := hget i hi
    have hnot' : ¬done' (L.lost.getD i 0 * c.w + wi) := by
      intro hdone'
      rcases hdone _ hdone' with hdone' | ⟨j, hj, hne, heq⟩
      · exact hnot _ hr hdone'
      · have heq := ((cell_inj hwi hwi).mp heq).1
        have hj := List.mem_range.mp hj
        rw [List.getD_eq_getElem _ _ hi, List.getD_eq_getElem _ _ hj] at heq
        exact hne ((hnodup.getElem_inj_iff.mp heq).symm)
    have hshares' := hshares.keep L hkeeps.1 hkeeps.2 i hi
    have hlength : ((tmpridxs.getD i []).map fun t ↦ (t, (1 : GF256))).length = v := by
      rw [List.length_map, hshares'.length_eq, List.length_range]
    have hsums : Sums s.1.shape stripe ((tmpridxs.getD i []).map (·, 1))
        ((L.wantPlan stripe f).want (L.lost.getD i 0 * c.w + wi)) := by
      rw [L.want_wantPlan f hr hwi, hf _ hr]
      exact sums_shares (p := fun _ ↦ True) (hshares'.imp fun t ri ht ↦ ⟨trivial, ht.2.2.2⟩)
    have hqueued : Queued (L.wantPlan stripe f) lim s.1 s.2 ((tmpridxs.getD i []).map (·, 1)) := by
      intro e he
      obtain ⟨t, ht, rfl⟩ := List.mem_map.mp he
      have hall := (List.forall₂_and_left
        (p := fun t ↦ c.n * c.w ≤ t ∧ lim ≤ t ∧ t < s.2) (tmpridxs.getD i []) (List.range v)).mp
        (hshares'.imp fun t ri ht ↦ ⟨⟨ht.1, ht.2.1, ht.2.2.1⟩, ht.2.2.2⟩)
      obtain ⟨hbound, hle, hlt⟩ := hall.1 t ht
      exact .temporary hbound hle hlt
    obtain ⟨dag', tmp', heq, hbindId, hgrown, hkeeps', hle⟩ := crossRack_grown (L.wantPlan_target hwi hr) hnot' v
      hlength.le (htwo.trans hlength.ge) h hqueued hsums
    exact ⟨(dag', tmp'), heq, hbindId, hgrown, hkeeps.1.trans hkeeps' hkeeps.2, hkeeps.2.trans hle⟩
  obtain ⟨s', hs', hbindId', hgrown'⟩ := Grown.foldlM (s := (dag, tmp)) 0 (fun s : ECDAG × ℕ ↦ s) List.nodup_range
    hstep hgrown ⟨fun _ _ _ _ hval ↦ hval, le_rfl⟩ (by simpa using hbindId.trans_le hlim)
  refine ⟨s', ?_, ?_, hgrown'.congr_done fun id ↦ or_congr_right ?_⟩
  · rw [rackStage, hracks, Option.bind_eq_bind, Option.bind_some]
    exact hs'
  · rw [hbindId', Nat.mul_zero, add_zero, ← hbindId]
  · constructor
    · rintro ⟨r, hr, rfl⟩
      obtain ⟨i, hi, rfl⟩ := List.mem_iff_getElem.mp hr
      exact ⟨i, List.mem_range.mpr hi, by rw [List.getD_eq_getElem _ _ hi]⟩
    · rintro ⟨i, hi, rfl⟩
      exact ⟨_, hget i (List.mem_range.mp hi), rfl⟩

/-! ### The first helpers -/

theorem sum_range_mul (g : ℕ → GF256) (v m : ℕ) :
    ((List.range v).map fun ri ↦ ((List.range m).map fun j ↦ g (ri * m + j)).sum).sum =
      ((List.range (v * m)).map g).sum := by
  induction v with
  | zero => rw [Nat.zero_mul]; rfl
  | succ v ih =>
    rw [List.range_succ, List.map_append, List.sum_append, ih, Nat.succ_mul, List.range_add, List.map_append,
      List.sum_append, List.map_map, List.map_cons, List.map_nil, List.sum_cons, List.sum_nil, add_zero]
    rfl

/-- The combination of the first `u` helpers. -/
def Loss.combineFirst (u : ℕ) (co : ℕ → List GF256) (stripe : ℕ → GF256) (r wi : ℕ) : GF256 :=
  ((List.range u).map fun j ↦ (co r).getD j 0 * stripe (L.survivors.getD j 0 * c.w + wi)).sum

theorem Loss.combineFirst_of_length {r : ℕ} (hlen : (co r).length = c.k) :
    L.combineFirst c.k co stripe r wi = L.combine co stripe r wi :=
  (dot_map_range hlen _).symm

theorem Loss.sum_share (m v r : ℕ) :
    ((List.range v).map (L.share m (co r) stripe wi)).sum = L.combineFirst (v * m) co stripe r wi :=
  sum_range_mul (fun j ↦ (co r).getD j 0 * stripe (L.survivors.getD j 0 * c.w + wi)) v m

end Stages

/-! ## Where the stages do not work -/

section Failing

variable {c : RSCode} {m v wi pick : ℕ} {data tosids : List ℕ} {coefs : List (List GF256)} {x : ℕ}

theorem crossRack_short (target fuel : ℕ) (dag : ECDAG) (tmp : ℕ) {queue : List (ℕ × GF256)}
    (hlen : queue.length ≤ 1) : crossRack target fuel dag tmp queue = some (dag, tmp) := by
  rcases queue with _ | ⟨e, _ | ⟨e', rest⟩⟩
  · cases fuel <;> rfl
  · cases fuel <;> rfl
  · exact absurd hlen (by simp)

/-! ### One lost block -/

/-! `BindX` of one node returns no node, and `BindY` fails on what it returns. -/

theorem chainStage_idle (hk : c.k ≤ 1) (s : ECDAG × ℕ) : chainStage c data tosids coefs s wi = some s := by
  have hpipeline : ∀ (p : ℕ) (s : ECDAG × ℕ) (queue : List (ℕ × GF256)), queue.length ≤ 1 →
      RSPIPE.pipeline p c.k s.1 s.2 queue = some s := by
    intro p s queue hqueue
    rcases queue with _ | ⟨e, _ | ⟨e', rest⟩⟩
    · cases c.k <;> rfl
    · cases c.k <;> rfl
    · exact absurd hqueue (by simp)
  rw [chainStage]
  induction tosids.zip coefs with
  | nil => rfl
  | cons e es ih =>
    rw [List.foldlM_cons, hpipeline _ _ _ (by rw [List.length_map, List.length_range]; exact hk)]
    exact ih

theorem convStage_single (hone : tosids.length = 1) (convbindY : ℕ) (dag : ECDAG) :
    convStage c data tosids coefs convbindY dag wi = none := by
  obtain ⟨r, rfl⟩ := List.length_eq_one_iff.mp hone
  rfl

theorem innerRack_single (s : ECDAG × ℕ × List (List ℕ)) (ri : ℕ) :
    innerRack c m data coefs 1 pick wi s ri = none := by
  obtain ⟨dag, tmp, tmpridxs⟩ := s
  simp only [innerRack]
  split
  · rfl
  · rfl

theorem innerRack_short {l ri : ℕ} (hri : c.k < ri * m + m) (s : ECDAG × ℕ × List (List ℕ)) :
    innerRack c m data coefs l pick wi s ri = none := by
  obtain ⟨dag, tmp, tmpridxs⟩ := s
  simp only [innerRack, if_pos hri]

theorem rackStage_eq_none {ri : ℕ} (hri : ri < v)
    (h : ∀ s, innerRack c m data coefs tosids.length pick wi s ri = none) (s : ECDAG × ℕ) :
    rackStage c m v data tosids coefs pick s wi = none := by
  rw [rackStage, foldlM_eq_none (List.mem_range.mpr hri) h]
  rfl

end Failing

end UniDedup.Storage
