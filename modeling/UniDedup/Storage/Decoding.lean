import UniDedup.Storage.Encoding

/-!
# Decoding inverts encoding

The coefficients of a lost block over the first `k` survivors rebuild it, and the graph of `Decode`
computes this sum: at once, along a chain, or along a tree.

What a graph computes is read in an environment, which has a value for every leaf. To say that a graph rebuilds a
block it is not enough to read it on the stripe: there a lost block has its value already, and a graph that does
nothing would pass. `Loss.Rebuilds` reads it wherever the leaves hold the blocks that survive, with anything in the
place of the others.
-/

namespace UniDedup.Storage

open ECDAG

/-! ## The loops -/

section Loops

variable {P : Plan} {done : ℕ → Prop} {cidx : ℕ}

/-- **The chain of `RSPIPE`** computes the sum of its queue. -/
theorem RSPIPE.pipeline_spec (hc : P.target cidx) (fuel : ℕ) {dag : ECDAG} {tmp : ℕ}
    {queue : List (ℕ × GF256)} (hfuel : queue.length ≤ fuel) (hlen : 2 ≤ queue.length)
    (h : Built P dag.shape tmp done) (huse : Usable P tmp queue)
    (hsum : Sums dag.shape P.env queue (P.want cidx)) :
    ∃ dag' tmp', RSPIPE.pipeline cidx fuel dag tmp queue = some (dag', tmp') ∧
      Built P dag'.shape tmp' fun q ↦ done q ∨ q = cidx := by
  induction fuel generalizing dag tmp queue with
  | zero => omega
  | succ fuel ih =>
    rcases queue with _ | ⟨⟨d₀, c₀⟩, _ | ⟨⟨d₁, c₁⟩, rest⟩⟩
    · exact absurd hlen (Nat.not_succ_le_zero 1)
    · exact absurd hlen (Nat.not_succ_le_self 1)
    have hmem : d₁ ∈ [d₀, d₁] := List.mem_cons_of_mem _ (List.mem_singleton_self d₁)
    rcases rest with _ | ⟨e, rest⟩
    · obtain ⟨dag', hbind, hshape⟩ := join_bindY dag cidx [c₀, c₁] hmem
      have hlast := h.join_last hc huse hsum
      rw [← hshape] at hlast
      refine ⟨dag', tmp, ?_, hlast⟩
      simp only [pipeline, List.isEmpty_nil, if_true, hbind, Option.bind_eq_bind, Option.bind_some]
    · obtain ⟨dag', hbind, hshape⟩ := join_bindY dag tmp [c₀, c₁] hmem
      obtain ⟨hbuilt, hsum', huse'⟩ := h.join_tmp huse hsum
      rw [← hshape] at hbuilt hsum'
      rw [List.length_cons, List.length_cons] at hfuel
      obtain ⟨dag'', tmp', heq, hbuilt'⟩ := ih (by simpa using hfuel) (by simp) hbuilt huse' hsum'
      refine ⟨dag'', tmp', ?_, hbuilt'⟩
      rw [← heq]
      simp only [pipeline, List.isEmpty_cons, Bool.false_eq_true, if_false, hbind, Option.bind_eq_bind,
        Option.bind_some]

/-- **The tree of `RSPPR`** computes the sum of its queue. -/
theorem RSPPR.tree_spec (hc : P.target cidx) (fuel : ℕ) {dag : ECDAG} {tmp : ℕ} (layernum : ℤ)
    {queue : List (ℕ × GF256)} (hfuel : queue.length ≤ fuel) (hlen : 2 ≤ queue.length)
    (h : Built P dag.shape tmp done) (huse : Usable P tmp queue)
    (hsum : Sums dag.shape P.env queue (P.want cidx)) :
    ∃ dag' tmp', RSPPR.tree cidx fuel dag tmp layernum queue = some (dag', tmp') ∧
      Built P dag'.shape tmp' fun q ↦ done q ∨ q = cidx := by
  induction fuel generalizing dag tmp queue layernum with
  | zero => omega
  | succ fuel ih =>
    rcases queue with _ | ⟨⟨d₀, c₀⟩, _ | ⟨⟨d₁, c₁⟩, rest⟩⟩
    · exact absurd hlen (Nat.not_succ_le_zero 1)
    · exact absurd hlen (Nat.not_succ_le_self 1)
    let layer : ℤ := if layernum = 0 then (rest.length + 2 : ℤ) else layernum
    have hmem : (if layer ≥ 2 then d₁ else d₀) ∈ [d₀, d₁] := by split <;> simp
    rcases rest with _ | ⟨e, rest⟩
    · obtain ⟨dag', hbind, hshape⟩ := join_bindY dag cidx [c₀, c₁] hmem
      have hlast := h.join_last hc huse hsum
      rw [← hshape] at hlast
      refine ⟨dag', tmp, ?_, hlast⟩
      simp only [tree, List.isEmpty_nil, if_true, Option.bind_eq_bind]
      rw [show (dag.join cidx [d₀, d₁] [c₀, c₁]).bindY cidx _ = some dag' from hbind, Option.bind_some]
      cases fuel <;> rfl
    · obtain ⟨dag', hbind, hshape⟩ := join_bindY dag tmp [c₀, c₁] hmem
      obtain ⟨hbuilt, hsum', huse'⟩ := h.join_tmp huse hsum
      rw [← hshape] at hbuilt hsum'
      -- The temporary goes to the back of the queue.
      have huse'' : Usable P (tmp + 1) ((e :: rest) ++ [(tmp, 1)]) := by
        intro x hx
        rcases List.mem_append.mp hx with hx | hx
        · exact huse' x (List.mem_cons_of_mem _ hx)
        · exact huse' x (List.mem_singleton.mp hx ▸ List.mem_cons_self)
      rw [List.length_cons, List.length_cons] at hfuel
      obtain ⟨dag'', tmp', heq, hbuilt'⟩ := ih (layer - 2) (by simpa using hfuel) (by simp) hbuilt huse''
        hsum'.append_singleton
      refine ⟨dag'', tmp', ?_, hbuilt'⟩
      simp only [tree, List.isEmpty_cons, Bool.false_eq_true, if_false, Option.bind_eq_bind]
      rw [show (dag.join tmp [d₀, d₁] [c₀, c₁]).bindY tmp _ = some dag' from hbind, Option.bind_some]
      exact heq

end Loops

/-! ## Lost blocks -/

/-- Blocks that survive, at least `k` of them, and blocks that are lost. -/
structure Loss (c : RSCode) where
  survivors : List ℕ
  lost : List ℕ
  enough : c.k ≤ survivors.length
  survivors_lt : ∀ s ∈ survivors, s < c.n
  lost_lt : ∀ r ∈ lost, r < c.n
  disjoint : ∀ r ∈ lost, r ∉ survivors

def IsStripe (c : RSCode) (data stripe : ℕ → GF256) : Prop :=
  ∀ r < c.n, ∀ wi < c.w, stripe (r * c.w + wi) = c.symbol data r wi

section Decode

variable {gfMultiply : GF256 → GF256 → GF256} {invert : (ℕ → GF256) → ℕ → ℕ → GF256}
variable {c : RSCode} {data stripe env : ℕ → GF256} (L : Loss c)

/-- The leaves hold the blocks of a stripe that survive. What they hold for the lost blocks is arbitrary, so a graph
that has a lost block for a leaf cannot rebuild it. -/
def Loss.Agrees (stripe env : ℕ → GF256) : Prop :=
  ∀ s ∈ L.survivors, ∀ wi < c.w, env (s * c.w + wi) = stripe (s * c.w + wi)

theorem Loss.agrees_self (stripe : ℕ → GF256) : L.Agrees stripe stripe := fun _ _ _ _ ↦ rfl

/-- The graph computes every lost sub-packet of every stripe from what survives of it. -/
def Loss.Rebuilds (dec : ECDAG) : Prop :=
  ∀ data stripe env : ℕ → GF256, IsStripe c data stripe → L.Agrees stripe env → ∀ r ∈ L.lost, ∀ wi < c.w,
    Evaluates dec.shape env (r * c.w + wi) (stripe (r * c.w + wi))

theorem Loss.not_stopped (hfits : c.Fits) : ¬(¬c.Fits ∨ L.survivors.length < c.k) := by
  rintro (h | h)
  · exact h hfits
  · exact not_lt.mpr L.enough h

theorem Loss.survivor_mem {j : ℕ} (hj : j < c.k) : L.survivors.getD j 0 ∈ L.survivors := by
  rw [List.getD_eq_getElem _ _ (hj.trans_le L.enough)]
  exact List.getElem_mem _

theorem Loss.getD_inj (h : L.survivors.Nodup) {i j : ℕ} (hi : i < c.k) (hj : j < c.k)
    (heq : L.survivors.getD i 0 = L.survivors.getD j 0) : i = j := by
  have hi := hi.trans_le L.enough
  have hj := hj.trans_le L.enough
  rw [List.getD_eq_getElem _ _ hi, List.getD_eq_getElem _ _ hj] at heq
  exact h.getElem_inj_iff.mp heq

/-- Decoding reads the first `k` survivors and computes the lost blocks. -/
def Loss.plan (hagrees : L.Agrees stripe env) {bound : ℕ} (hbound : c.n * c.w ≤ bound) : Plan where
  env := env
  want := stripe
  src id := ∃ j < c.k, ∃ wi < c.w, id = L.survivors.getD j 0 * c.w + wi
  target id := ∃ r ∈ L.lost, ∃ wi < c.w, id = r * c.w + wi
  bound := bound
  src_not_target := by
    rintro id ⟨j, hj, wi, hwi, rfl⟩ ⟨r, hr, wi', hwi', heq⟩
    have hrs := ((cell_inj hwi hwi').mp heq).1
    exact L.disjoint r hr (hrs ▸ L.survivor_mem hj)
  src_lt := by
    rintro id ⟨j, hj, wi, hwi, rfl⟩
    exact (subPacket_lt (L.survivors_lt _ (L.survivor_mem hj)) hwi).trans_le hbound
  target_lt := by
    rintro id ⟨r, hr, wi, hwi, rfl⟩
    exact (subPacket_lt (L.lost_lt r hr) hwi).trans_le hbound
  want_src := by
    rintro id ⟨j, hj, wi, hwi, rfl⟩
    exact (hagrees _ (L.survivor_mem hj) wi hwi).symm

theorem Loss.sum_stripe (hmul : ∀ a b, gfMultiply a b = a * b) (hinv : Inverts invert)
    (hunit : IsUnit (selectMatrix (c.encodeMatrix gfMultiply) fun i : Fin c.k ↦ L.survivors.getD i 0))
    (hstripe : IsStripe c data stripe) (hagrees : L.Agrees stripe env) {r wi : ℕ} (hr : r ∈ L.lost)
    (hwi : wi < c.w) :
    ((List.range c.k).map fun j ↦ c.coefVector gfMultiply invert L.survivors r j *
      env (L.survivors.getD j 0 * c.w + wi)).sum = stripe (r * c.w + wi) := by
  have hlt : ∀ j : Fin c.k, L.survivors.getD j 0 < c.n :=
    fun j ↦ L.survivors_lt _ (L.survivor_mem j.isLt)
  rw [sum_map_range, hstripe r (L.lost_lt r hr) wi hwi,
    ← sum_coefVector hmul hinv hlt hunit (L.lost_lt r hr) data wi]
  exact Finset.sum_congr rfl fun j _ ↦ by
    rw [hagrees _ (L.survivor_mem j.isLt) wi hwi, hstripe _ (hlt j) wi hwi]

theorem sum_rotate (f : ℕ → GF256) {k : ℕ} (hk : 0 < k) (cyc : ℕ) :
    ((List.range k).map fun j ↦ f ((j + cyc) % k)).sum = ((List.range k).map f).sum := by
  obtain ⟨k, rfl⟩ := Nat.exists_eq_succ_of_ne_zero hk.ne'
  rw [sum_map_range, sum_map_range,
    ← Equiv.sum_comp (Equiv.addRight (Fin.ofNat (k + 1) cyc)) fun j : Fin (k + 1) ↦ f j]
  refine Finset.sum_congr rfl fun j _ ↦ congrArg f ?_
  show (j + cyc) % (k + 1) = ((j : ℕ) + cyc % (k + 1)) % (k + 1)
  rw [Nat.add_mod_mod]

/-- The queue of a lost sub-packet is ready to be added up, whatever survivor it starts at. -/
theorem Loss.queue (hmul : ∀ a b, gfMultiply a b = a * b) (hinv : Inverts invert) (hk : 2 ≤ c.k)
    (hunit : IsUnit (selectMatrix (c.encodeMatrix gfMultiply) fun i : Fin c.k ↦ L.survivors.getD i 0))
    (hstripe : IsStripe c data stripe) {hagrees : L.Agrees stripe env} {bound : ℕ} {hbound : c.n * c.w ≤ bound}
    {r wi : ℕ} (hr : r ∈ L.lost) (hwi : wi < c.w) (cyc : ℕ) {S : ℕ → Option Shape} {tmp : ℕ} {done : ℕ → Prop}
    (h : Built (L.plan hagrees hbound) S tmp done) {queue : List (ℕ × GF256)}
    (hqueue : queue = (List.range c.k).map fun j ↦ (L.survivors.getD ((j + cyc) % c.k) 0 * c.w + wi,
      c.coefVector gfMultiply invert L.survivors r ((j + cyc) % c.k))) :
    queue.length = c.k ∧ Usable (L.plan hagrees hbound) tmp queue ∧
      Sums S env queue (stripe (r * c.w + wi)) := by
  have hsrc : ∀ j, (L.plan hagrees hbound).src (L.survivors.getD ((j + cyc) % c.k) 0 * c.w + wi) :=
    fun j ↦ ⟨(j + cyc) % c.k, Nat.mod_lt _ (by omega), wi, hwi, rfl⟩
  refine ⟨by rw [hqueue, List.length_map, List.length_range], fun e he ↦ ?_, ?_⟩
  · rw [hqueue] at he
    obtain ⟨j, -, rfl⟩ := List.mem_map.mp he
    exact ⟨(L.plan hagrees hbound).src_not_target _ (hsrc j),
      ((L.plan hagrees hbound).src_lt _ (hsrc j)).trans_le h.bound_le⟩
  · rw [← L.sum_stripe hmul hinv hunit hstripe hagrees hr hwi, hqueue, ← sum_rotate _ (by omega) cyc]
    exact h.sums fun j _ ↦ hsrc j

/-- **`RSCONV::Decode`** computes the lost blocks. -/
theorem RSCONV.decode_evaluates (hmul : ∀ a b, gfMultiply a b = a * b) (hinv : Inverts invert)
    (hfits : c.Fits) (hk : 2 ≤ c.k) (hw : 1 ≤ c.w)
    (hunit : IsUnit (selectMatrix (c.encodeMatrix gfMultiply) fun i : Fin c.k ↦ L.survivors.getD i 0)) :
    ∃ dec, RSCONV.decode gfMultiply invert c (subPackets c.w L.survivors) (subPackets c.w L.lost) =
        some dec ∧ L.Rebuilds dec := by
  rw [RSCONV.decode, blockIds_subPackets hw, blockIds_subPackets hw]
  rw [if_neg (L.not_stopped hfits)]
  refine ⟨_, rfl, fun data stripe env hstripe hagrees r hr wi hwi ↦ ?_⟩
  have hbuilt := (Built.empty (L.plan hagrees le_rfl)).foldl (List.range c.w)
    (Q := fun wi id ↦ ∃ r ∈ L.lost, id = r * c.w + wi ∨
      id ∈ (List.range c.k).map fun ki ↦ L.survivors.getD ki 0 * c.w + wi)
    fun wi hwi dag done h ↦ h.foldl _ fun r hr dag done h ↦ by
      have hwi := List.mem_range.mp hwi
      refine h.joinTarget (p := r * c.w + wi)
        ((List.range c.k).map (c.coefVector gfMultiply invert L.survivors r))
        ⟨r, hr, wi, hwi, rfl⟩ ?_ ?_ ?_
      · intro id hid
        obtain ⟨j, hj, rfl⟩ := List.mem_map.mp hid
        exact ⟨j, List.mem_range.mp hj, wi, hwi, rfl⟩
      · rw [List.length_map, List.length_range]
        exact hk
      · rw [dot, List.map_map, List.zipWith_map, List.zipWith_self]
        exact L.sum_stripe hmul hinv hunit hstripe hagrees hr hwi
  exact hbuilt.value _ (.inr ⟨wi, List.mem_range.mpr hwi, r, hr, .inl rfl⟩)

theorem exists_isStripe (c : RSCode) (data : ℕ → GF256) : ∃ stripe, IsStripe c data stripe := by
  refine ⟨fun id ↦ c.symbol data (id / c.w) (id % c.w), fun r _ wi hwi ↦ ?_⟩
  show c.symbol data ((r * c.w + wi) / c.w) ((r * c.w + wi) % c.w) = _
  rw [subPacket_div hwi, subPacket_mod hwi]

/-- A decoding that succeeds and rebuilds on each stripe rebuilds on all of them: the graph does not depend
on the stripe. -/
theorem Loss.exists_rebuilds {decode : Option ECDAG}
    (h : ∀ data stripe env : ℕ → GF256, IsStripe c data stripe → L.Agrees stripe env → ∃ dec, decode = some dec ∧
      ∀ r ∈ L.lost, ∀ wi < c.w, Evaluates dec.shape env (r * c.w + wi) (stripe (r * c.w + wi))) :
    ∃ dec, decode = some dec ∧ L.Rebuilds dec := by
  obtain ⟨stripe, hstripe⟩ := exists_isStripe c 0
  obtain ⟨dec, hdec, -⟩ := h 0 stripe stripe hstripe (L.agrees_self stripe)
  refine ⟨dec, hdec, fun data stripe env hstripe hagrees ↦ ?_⟩
  obtain ⟨dec', hdec', hval⟩ := h data stripe env hstripe hagrees
  rw [hdec] at hdec'
  rwa [Option.some_inj.mp hdec']

theorem RSPIPE.decodeSubPacket_built (hmul : ∀ a b, gfMultiply a b = a * b) (hinv : Inverts invert)
    (hk : 2 ≤ c.k)
    (hunit : IsUnit (selectMatrix (c.encodeMatrix gfMultiply) fun i : Fin c.k ↦ L.survivors.getD i 0))
    (hstripe : IsStripe c data stripe) {hagrees : L.Agrees stripe env} (cyclic : Bool) {bound : ℕ}
    {hbound : c.n * c.w ≤ bound} {wi : ℕ} (hwi : wi < c.w) {s : (ECDAG × ℕ) × ℕ} {done : ℕ → Prop}
    (h : Built (L.plan hagrees hbound) s.1.1.shape s.1.2 done) :
    ∃ s', RSPIPE.decodeSubPacket gfMultiply invert c cyclic L.survivors L.lost s wi = some s' ∧
      Built (L.plan hagrees hbound) s'.1.1.shape s'.1.2 fun id ↦
        done id ∨ ∃ r ∈ L.lost, id = r * c.w + wi := by
  obtain ⟨t, ht, hbuilt⟩ := Built.foldlM L.lost (fun t : ECDAG × ℕ ↦ t) (s := s.1)
    (f := fun (t : ECDAG × ℕ) r ↦
      RSPIPE.pipeline (r * c.w + wi) c.k t.1 t.2 ((List.range c.k).map fun j ↦
        (L.survivors.getD ((j + s.2) % c.k) 0 * c.w + wi,
          c.coefVector gfMultiply invert L.survivors r ((j + s.2) % c.k))))
    (Q := fun r id ↦ id = r * c.w + wi) (fun r hr t done h ↦ by
      obtain ⟨hlen, huse, hsum⟩ := L.queue hmul hinv hk hunit hstripe hr hwi s.2 h rfl
      have htarget : (L.plan hagrees hbound).target (r * c.w + wi) := ⟨r, hr, wi, hwi, rfl⟩
      obtain ⟨dag', tmp', heq, hbuilt⟩ := pipeline_spec htarget c.k hlen.le (hk.trans hlen.ge) h huse hsum
      exact ⟨(dag', tmp'), heq, hbuilt⟩) h
  refine ⟨(t, if cyclic then s.2 + 1 else s.2), ?_, hbuilt⟩
  rw [decodeSubPacket, ht]
  rfl

/-- **`RSPIPE::Decode`** computes the lost blocks, cyclic or not. -/
theorem RSPIPE.decode_evaluates (hmul : ∀ a b, gfMultiply a b = a * b) (hinv : Inverts invert)
    (hfits : c.Fits) (hk : 2 ≤ c.k) (hw : 1 ≤ c.w)
    (hunit : IsUnit (selectMatrix (c.encodeMatrix gfMultiply) fun i : Fin c.k ↦ L.survivors.getD i 0))
    (cyclic : Bool) :
    ∃ dec, RSPIPE.decode gfMultiply invert c cyclic (subPackets c.w L.survivors)
        (subPackets c.w L.lost) = some dec ∧ L.Rebuilds dec := by
  refine L.exists_rebuilds fun data stripe env hstripe hagrees ↦ ?_
  rw [RSPIPE.decode, blockIds_subPackets hw, blockIds_subPackets hw]
  rw [if_neg (L.not_stopped hfits)]
  have hbound : c.n * c.w ≤ bindStart + c.n * c.w := Nat.le_add_left ..
  obtain ⟨s, hs, hbuilt⟩ := Built.foldlM (List.range c.w)
    (fun s : (ECDAG × ℕ) × ℕ ↦ s.1) (s := (({}, bindStart + c.n * c.w), 0))
    (fun wi hwi s done h ↦ decodeSubPacket_built L hmul hinv hk hunit hstripe cyclic
      (List.mem_range.mp hwi) h)
    (Built.empty (L.plan hagrees hbound))
  refine ⟨s.1.1, by rw [hs]; rfl, fun r hr wi hwi ↦ ?_⟩
  exact hbuilt.value _ (.inr ⟨wi, List.mem_range.mpr hwi, r, hr, rfl⟩)

theorem RSPPR.decodeBlock_built (hmul : ∀ a b, gfMultiply a b = a * b) (hinv : Inverts invert)
    (hk : 2 ≤ c.k) (hw : c.w = 1)
    (hunit : IsUnit (selectMatrix (c.encodeMatrix gfMultiply) fun i : Fin c.k ↦ L.survivors.getD i 0))
    (hstripe : IsStripe c data stripe) {hagrees : L.Agrees stripe env} {bound : ℕ} {hbound : c.n * c.w ≤ bound}
    {r : ℕ} (hr : r ∈ L.lost) {t : ECDAG × ℕ} {done : ℕ → Prop}
    (h : Built (L.plan hagrees hbound) t.1.shape t.2 done) :
    ∃ t', RSPPR.decodeBlock gfMultiply invert c L.survivors t r = some t' ∧
      Built (L.plan hagrees hbound) t'.1.shape t'.2 fun id ↦ done id ∨ id = r := by
  have hw0 : 0 < c.w := by omega
  have hid : r * c.w + 0 = r := by rw [hw, mul_one, add_zero]
  obtain ⟨hlen, huse, hsum⟩ := L.queue hmul hinv hk hunit hstripe hr hw0 0 h rfl
  have htarget : (L.plan hagrees hbound).target (r * c.w + 0) := ⟨r, hr, 0, hw0, rfl⟩
  obtain ⟨dag', tmp', heq, hbuilt⟩ := tree_spec htarget c.k 0 hlen.le (hk.trans hlen.ge) h huse hsum
  rw [hid] at heq hbuilt
  refine ⟨(dag', tmp'), ?_, hbuilt⟩
  rw [← heq, decodeBlock]
  refine congrArg _ (List.map_congr_left fun j hj ↦ ?_)
  rw [add_zero j, Nat.mod_eq_of_lt (List.mem_range.mp hj), hw, mul_one, add_zero]

/-- **`RSPPR::Decode`** computes the lost blocks. -/
theorem RSPPR.decode_evaluates (hmul : ∀ a b, gfMultiply a b = a * b) (hinv : Inverts invert)
    (hfits : c.Fits) (hk : 2 ≤ c.k) (hw : c.w = 1)
    (hunit : IsUnit (selectMatrix (c.encodeMatrix gfMultiply) fun i : Fin c.k ↦ L.survivors.getD i 0)) :
    ∃ dec, RSPPR.decode gfMultiply invert c L.survivors L.lost = some dec ∧ L.Rebuilds dec := by
  refine L.exists_rebuilds fun data stripe env hstripe hagrees ↦ ?_
  rw [RSPPR.decode]
  rw [if_neg (L.not_stopped hfits)]
  have hbound : c.n * c.w ≤ c.n := by rw [hw, mul_one]
  obtain ⟨t, ht, hbuilt⟩ := Built.foldlM L.lost (fun t : ECDAG × ℕ ↦ t)
    (s := (({} : ECDAG), c.n))
    (fun r hr t done h ↦ decodeBlock_built L hmul hinv hk hw hunit hstripe hr h)
    (Built.empty (L.plan hagrees hbound))
  refine ⟨t.1, by rw [ht]; rfl, fun r hr wi hwi ↦ ?_⟩
  have hid : r * c.w + wi = r := by rw [hw, mul_one]; omega
  rw [hid]
  exact hbuilt.value r (.inr ⟨r, hr, rfl⟩)

end Decode

/-! ## The layouts -/

inductive Layout
  | rsconv
  | rspipe (cyclic : Bool)
  | rsppr
deriving DecidableEq, Repr

namespace Layout

def new (layout : Layout) (n k w : ℕ) (cells : ℕ → GF256) : Option RSCode :=
  match layout with
  | rsconv => RSCONV.new n k w cells
  | rspipe _ => RSPIPE.new n k w cells
  | rsppr => RSPPR.new n k w cells

def encode (gfMultiply : GF256 → GF256 → GF256) (c : RSCode) : Layout → Option ECDAG
  | rsconv => RSCONV.encode gfMultiply c
  | rspipe _ => RSPIPE.encode gfMultiply c
  | rsppr => RSPPR.encode gfMultiply c

def decode (gfMultiply : GF256 → GF256 → GF256) (invert : (ℕ → GF256) → ℕ → ℕ → GF256) (c : RSCode) :
    Layout → List ℕ → List ℕ → Option ECDAG
  | rsconv => RSCONV.decode gfMultiply invert c
  | rspipe cyclic => RSPIPE.decode gfMultiply invert c cyclic
  | rsppr => RSPPR.decode gfMultiply invert c

def Admits (w : ℕ) : Layout → Prop
  | rsconv => 1 ≤ w
  | rspipe _ => 1 ≤ w
  | rsppr => w = 1

/-- The matrix of a layout holds what the code writes. The bind node of `RSPPR` is numbered `BINDSTART`, which is
more than the blocks of a stripe that fits. -/
def Fits (n k : ℕ) : Layout → Prop
  | rsconv => n * k ≤ rsNMax * rsNMax
  | rspipe _ => n * k ≤ rsNMax * rsNMax ∧ n * (n - k) ≤ rsNMax * rsNMax
  | rsppr => n * k ≤ rsNMax * rsNMax ∧ n * (n - k) ≤ rsNMax * rsNMax

end Layout

section Layouts

variable {gfMultiply : GF256 → GF256 → GF256} {invert : (ℕ → GF256) → ℕ → ℕ → GF256}
variable {c : RSCode}

theorem Layout.Admits.pos {layout : Layout} {w : ℕ} (h : layout.Admits w) : 1 ≤ w := by
  cases layout with
  | rsconv => exact h
  | rspipe cyclic => exact h
  | rsppr => exact Nat.le_of_eq h.symm

theorem Layout.Fits.cells {layout : Layout} {n k : ℕ} (h : layout.Fits n k) : n * k ≤ rsNMax * rsNMax := by
  cases layout with
  | rsconv => exact h
  | rspipe cyclic => exact h.1
  | rsppr => exact h.1

theorem lt_bindStart {n k : ℕ} (hkn : k < n) (h : Layout.rsppr.Fits n k) : n < bindStart := by
  obtain ⟨hk, hm⟩ := h
  have hsum : n * k + n * (n - k) = n * n := by rw [← Nat.mul_add, Nat.add_sub_cancel' hkn.le]
  by_contra hlarge
  have hsquare : bindStart * bindStart ≤ n * n := Nat.mul_le_mul (not_lt.mp hlarge) (not_lt.mp hlarge)
  simp only [rsNMax, bindStart] at *
  omega

theorem Layout.encode_evaluates (hmul : ∀ a b, gfMultiply a b = a * b) (layout : Layout) (hk : 2 ≤ c.k)
    (hkn : c.k < c.n) (hadmits : layout.Admits c.w) (hfits : layout.Fits c.n c.k) :
    ∃ enc, layout.encode gfMultiply c = some enc ∧ ∀ (data : ℕ → GF256), ∀ r < c.n, ∀ wi < c.w,
      Evaluates enc.shape data (r * c.w + wi) (c.symbol data r wi) := by
  have hcells : c.Fits := hfits.cells
  cases layout with
  | rsconv => exact ⟨_, if_pos hcells, fun data r hr wi hwi ↦ encodeStripe_evaluates hmul hk hkn data hr hwi⟩
  | rspipe cyclic =>
    exact ⟨_, if_pos hcells, fun data r hr wi hwi ↦ encodeStripe_evaluates hmul hk hkn data hr hwi⟩
  | rsppr =>
    have hw : c.w = 1 := hadmits
    obtain ⟨enc, henc, hval⟩ := encodeBlocks_evaluates hmul hk hkn hw (lt_bindStart hkn hfits)
    refine ⟨enc, (if_pos hcells).trans henc, fun data r hr wi hwi ↦ ?_⟩
    have hwi0 : wi = 0 := by omega
    have hid : r * c.w + wi = r := by rw [hwi0, hw, mul_one, add_zero]
    rw [hid, hwi0]
    exact hval data r hr

/-- Any `k` distinct survivors do, when there are at most three data blocks or at most two parity
blocks. -/
theorem Loss.isUnit (hmul : ∀ a b, gfMultiply a b = a * b) (L : Loss c) (hnodup : L.survivors.Nodup)
    (hn : c.n ≤ rsNMax) (hcond : c.k ≤ 3 ∨ c.n - c.k ≤ 2) :
    IsUnit (selectMatrix (c.encodeMatrix gfMultiply) fun i : Fin c.k ↦ L.survivors.getD i 0) := by
  have hlt : ∀ i : Fin c.k, L.survivors.getD i 0 < c.n :=
    fun i ↦ L.survivors_lt _ (L.survivor_mem i.isLt)
  have hinj : Function.Injective fun i : Fin c.k ↦ L.survivors.getD i 0 := by
    intro i j hij
    have hi : (i : ℕ) < L.survivors.length := i.isLt.trans_le L.enough
    have hj : (j : ℕ) < L.survivors.length := j.isLt.trans_le L.enough
    simp only [List.getD_eq_getElem _ _ hi, List.getD_eq_getElem _ _ hj] at hij
    exact Fin.ext ((hnodup.getElem_inj_iff).mp hij)
  rw [RSCode.encodeMatrix, selectMatrix_generateMatrix hmul c.matrix hlt]
  rcases hcond with hcond | hcond
  · exact isUnit_of_le_three hinj hlt hn hcond
  · exact isUnit_of_sub_le_two hinj hlt hn hcond

end Layouts

/-- The inverse of a matrix, in the cells of an array. -/
noncomputable def inverseCells (mat : ℕ → GF256) (k p : ℕ) : GF256 :=
  if h : p / k < k ∧ p % k < k then
    (selectMatrix (k := k) mat (·))⁻¹ ⟨p / k, h.1⟩ ⟨p % k, h.2⟩
  else 0

theorem inverts_inverseCells : Inverts inverseCells := by
  intro k mat hunit
  have hcells : selectMatrix (k := k) (inverseCells mat k) (·) = (selectMatrix mat (·))⁻¹ := by
    refine Matrix.ext fun i j ↦ ?_
    show inverseCells mat k (i * k + j) = _
    have hdiv := subPacket_div (r := i) j.isLt
    have hmod := subPacket_mod (r := i) j.isLt
    rw [inverseCells, dif_pos ⟨by rw [hdiv]; exact i.isLt, by rw [hmod]; exact j.isLt⟩]
    simp only [hdiv, hmod]
  rw [hcells, Matrix.nonsing_inv_mul _ ((Matrix.isUnit_iff_isUnit_det _).mp hunit)]

/-! ### Three codes -/

def sampleCode : RSCode := ⟨3, 2, 1, 0⟩

end UniDedup.Storage
