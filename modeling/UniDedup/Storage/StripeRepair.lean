import UniDedup.Storage.Decoding
import UniDedup.Storage.Instructions
import UniDedup.Storage.Inversion
import UniDedup.Storage.NodePlacement
import UniDedup.Storage.Persisting

/-!
# Encoding and repairing a stripe

The coordinator makes the graph of an operation, optimises it, places its nodes, and sends the commands of the nodes to the
agents, which run them at the same time. Here the parts are put together for the codes that join whole blocks.

If the rows of the joins give the bytes of some files, these files are written, whatever the settings are, the random
numbers, and the order of the steps. So `offlineEnc` adds the parity blocks to the data blocks, and a repair writes the
lost blocks as they were.

## The parts

`makeCommands` is the chain of `reconstruct`, the placement and the two functions that make commands. That it goes
through is `NodePlacement`, what the commands compute is `Evaluation`, and what the agents write, in any order of
their turns, is `Persisting`. `JoinPlan` is the one condition on a graph under which all of these apply; a code has
to show only that its joins are a plan and what their rows give. The messages have to fit their buffers as well
(`Sendable`); without optimization they do (`RSCONV.allFit`).
-/

namespace UniDedup.Storage

open ECDAG Exchange
open PacketSlices (SliceKey UnderFile sliceOf)

/-- What an operation on a stripe of `n` blocks depends on, besides the graph: the settings of the pool, the addresses, and
the random numbers of `Opt1`, `candidateIps` and `chooseFromCandidates`. -/
structure Setting (n : ℕ) where
  opt : ℤ
  locality : Bool
  sid2ip : IpMap
  allIps : List ℕ
  /-- The order in which the map of the nodes is run through. -/
  order : ECDAG → List ℕ
  rand : ℕ → ℕ
  rands : ℕ → ℕ
  picks : ℕ → ℕ
  order_perm : ∀ dag, (order dag).Perm dag.nodes.keys
  located : ∀ r < n, r ∈ sid2ip

namespace ECDAG

/-- `optimize2`, where `opt2` is what it does for the policy 2. -/
def optimize2 (opt2 : ECDAG → IpMap → Option (ECDAG × IpMap)) (opt : ℤ) (dag : ECDAG) (cid2ip : IpMap) :
    Option (ECDAG × IpMap) :=
  if opt = 2 then opt2 dag cid2ip else some (dag, cid2ip)

/-- The commands that the coordinator makes of a graph, in `offlineEnc` and in the repairs. -/
def makeCommands (opt2 : ECDAG → IpMap → Option (ECDAG × IpMap)) {n : ℕ} (S : Setting n) (w : ℕ) (dag : ECDAG) :
    Option (List AGCommand) := do
  let dag ← dag.reconstruct S.opt S.rand
  let cid2ip ← dag.placeNodes (S.order dag) S.sid2ip S.allIps w S.locality S.rands S.picks
  let (dag, cid2ip) ← dag.optimize2 opt2 S.opt cid2ip
  return dag.commands (S.order dag) cid2ip.ip S.sid2ip.ip n w

end ECDAG

/-- Every message fits into the buffer of `MAX_COMMAND_LEN` bytes that it is written to. -/
def Sendable (s : StripeNames) (cmds : List AGCommand) : Prop :=
  ∀ cmd ∈ cmds, Storage.Fits Wire.maxCommandLen (cmd.toWire s).build

instance (s : StripeNames) (cmds : List AGCommand) : Decidable (Sendable s cmds) :=
  inferInstanceAs (Decidable (∀ cmd ∈ cmds, _))

/-- The turns of the commands for `num` packets. -/
def turnsOf (pktSize w num : ℕ) (files : ℕ → UnderFile) (cmds : List AGCommand) : List (Job SliceKey Packet) :=
  (List.range num).flatMap fun i ↦ cmds.zipIdx.map fun x ↦ x.1.job pktSize w files x.2 i

/-- Whatever the order of the steps is, when they cannot go on the commands have written the files. -/
def Always (pktSize w num : ℕ) (disks : ℕ → UnderFile) (cmds : List AGCommand) (objs : List ℕ) (files : ℕ → UnderFile) :
    Prop :=
  ∀ s, (system (turnsOf pktSize w num disks cmds)).Reach (Turn (turnsOf pktSize w num disks cmds)) s →
    (∀ l, Turn (turnsOf pktSize w num disks cmds) s l → next (turnsOf pktSize w num disks cmds) s l = none) →
      WritesFiles cmds num s objs files

/-! ## Joins of whole blocks -/

namespace ECDAG

section JoinPlan

variable {n w pktSize num : ℕ} {joins : List JoinCall} {opt2 : ECDAG → IpMap → Option (ECDAG × IpMap)}

def JoinPlan.stripeOp {dag : ECDAG} (h : JoinPlan n w joins)
    (ht : Tuned (ofJoins joins) dag (joins.map JoinCall.pidx)) (S : Setting n) {cid2ip : IpMap}
    (hplaced : Placed dag n w cid2ip.ip) : StripeOp n w where
  dag := dag
  targets := joins.map JoinCall.pidx
  order := S.order dag
  cid2ip := cid2ip.ip
  objIp := S.sid2ip.ip
  accounted := ht.accounted
  acyclic := ht.kept.acyclic
  perm := S.order_perm dag
  placed := hplaced
  w_pos := h.pos

theorem JoinPlan.evaluates (h : JoinPlan n w joins) {j : JoinCall} (hj : j ∈ joins) {env : ℕ → GF256} :
    Evaluates (ofJoins joins).shape env j.pidx (dot j.coefs (j.cidx.map env)) := by
  have hshape := (shape_ofJoins h.once).1 j hj
  refine Part.evaluates hshape (h.tuned.accounted.part _ _ hshape) (h.nonempty j hj) (fun c hc ↦ ?_)
    (AList.lookup_insert ∅) ?_
  · intro sh hsh
    rw [h.child hj hc] at hsh
    rw [← Option.some.inj hsh]
    exact Nat.zero_le 1
  · rw [List.forall₂_map_right_iff, List.forall₂_same]
    exact fun c hc ↦ evaluates_leaf (h.child hj hc)

/-- **The commands of a plan** write the files whose bytes the rows give. -/
theorem JoinPlan.writes (h : JoinPlan n w joins) (S : Setting n) (hopt : S.opt ≠ 2) (hdiv : w ∣ pktSize)
    (hpkt : 0 < pktSize) (hsize : num * pktSize < 2 ^ 31) {disks files : ℕ → UnderFile} {objs : List ℕ}
    (hobjs : ∀ r, r ∈ objs ↔ ∃ j ∈ joins, j.pidx / w = r)
    (hdisks : ∀ j ∈ joins, ∀ c ∈ j.cidx, (disks (c / w)).Whole pktSize num)
    (hfiles : ∀ r ∈ objs, (files r).Whole pktSize num)
    (hrow : ∀ j ∈ joins, ∀ i < num, ∀ pos < pktSize / w,
      dot j.coefs (j.cidx.map (byteAt pktSize w disks i pos)) = byteAt pktSize w files i pos j.pidx) :
    ∃ cmds, (ofJoins joins).makeCommands opt2 S w = some cmds ∧ Always pktSize w num disks cmds objs files := by
  classical
  obtain ⟨dag, hrun, ht⟩ := h.tuned.reconstruct h.uniformGraph (h.roomFor _) S.opt S.rand
  obtain ⟨cid2ip, hplace, -, -, hplaced⟩ :=
    h.exists_placed ht (S.order_perm dag) S.located S.allIps S.locality S.rands S.picks
  let o := h.stripeOp ht S hplaced
  refine ⟨o.cmds, ?_, fun s hs hend ↦ ?_⟩
  · rw [makeCommands, hrun, Option.bind_eq_bind, Option.bind_some, hplace, Option.bind_eq_bind, Option.bind_some, optimize2,
      if_neg hopt]
    rfl
  -- What is not read might as well be there.
  let disks' (obj : ℕ) : UnderFile :=
    if ∃ j ∈ joins, ∃ c ∈ j.cidx, c / w = obj then disks obj else .ofBytes (List.replicate (num * pktSize) 0)
  have hread : ∀ j ∈ joins, ∀ c ∈ j.cidx, disks' (c / w) = disks (c / w) := fun j hj c hc ↦ if_pos ⟨j, hj, c, hc, rfl⟩
  have hdisks' : ∀ obj, (disks' obj).Whole pktSize num := by
    intro obj
    dsimp only [disks']
    split_ifs with hobj
    · obtain ⟨j, hj, c, hc, rfl⟩ := hobj
      exact hdisks j hj c hc
    · exact ⟨List.length_replicate, hsize⟩
  have hjobs : turnsOf pktSize w num disks o.cmds = o.jobs pktSize num disks' 0 := by
    refine StripeOp.jobs_congr fun id hleaf ↦ ?_
    obtain ⟨M, hM⟩ := (ht.kept.leaves id).mp hleaf
    obtain ⟨j, hj, hid⟩ := mem_nodes_ofJoins.mp (mem_nodes_iff.mpr ⟨_, hM⟩)
    rcases List.mem_cons.mp hid with rfl | hid
    · rw [(shape_ofJoins h.once).1 j hj, Option.some_inj, Prod.mk.injEq] at hM
      exact absurd hM.1 (h.nonempty j hj)
    · exact (hread j hj id hid).symm
  rw [hjobs] at hs hend
  obtain ⟨rank, hranked⟩ := StripeOp.ranked (Nat.le_of_dvd hpkt hdiv) hdisks' o
  have hheaders : ∀ id, id ∈ o.dag.headers ↔ id / w ∈ objs := by
    intro id
    rw [show o.dag.headers = (ofJoins joins).headers from congrArg Prod.fst ht.kept.frame, h.mem_headers, hobjs]
    constructor
    · intro hid
      obtain ⟨j, hj, rfl⟩ := List.mem_map.mp hid
      exact ⟨j, hj, rfl⟩
    · rintro ⟨j, hj, heq⟩
      exact h.whole j hj id heq.symm
  refine StripeOp.writes hdiv hpkt hdisks' hs.reachable (finished_of_terminal hranked hs hend) hheaders hfiles
    fun r hr i hi t ht' pos hpos ↦ ht.kept.values _ _ _ ?_
  obtain ⟨j, hj, heq⟩ := (hobjs r).mp hr
  obtain ⟨j', hj', hid⟩ := List.mem_map.mp (h.whole j hj (r * w + t) (by rw [subPacket_div ht', heq]))
  rw [← hid, ← hrow j' hj' i hi pos hpos]
  have hbytes : j'.cidx.map (byteAt pktSize w disks i pos) = j'.cidx.map (byteAt pktSize w disks' i pos) :=
    List.map_congr_left fun c hc ↦ by rw [byteAt, byteAt, hread j' hj' c hc]
  rw [hbytes]
  exact h.evaluates hj'

end JoinPlan

/-! ## Joins for each sub-packet -/

/-- Joins of blocks to other blocks, sub-packet by sub-packet. -/
def stripeCalls (w : ℕ) (targets sources : List ℕ) (coefs : ℕ → List GF256) : List JoinCall :=
  (List.range w).flatMap fun wi ↦ targets.map fun r ↦ ⟨r * w + wi, sources.map fun b ↦ b * w + wi, coefs r⟩

section StripeCalls

variable {n w : ℕ} {targets sources : List ℕ} {coefs : ℕ → List GF256} {j : JoinCall}

theorem mem_stripeCalls : j ∈ stripeCalls w targets sources coefs ↔ ∃ wi < w, ∃ r ∈ targets,
    j = ⟨r * w + wi, sources.map fun b ↦ b * w + wi, coefs r⟩ := by
  simp only [stripeCalls, List.mem_flatMap, List.mem_range, List.mem_map, eq_comm]

theorem mem_pidx_stripeCalls {id : ℕ} : id ∈ (stripeCalls w targets sources coefs).map JoinCall.pidx ↔
    ∃ wi < w, ∃ r ∈ targets, id = r * w + wi := by
  rw [List.mem_map]
  constructor
  · rintro ⟨j, hj, rfl⟩
    obtain ⟨wi, hwi, r, hr, rfl⟩ := mem_stripeCalls.mp hj
    exact ⟨wi, hwi, r, hr, rfl⟩
  · rintro ⟨wi, hwi, r, hr, rfl⟩
    exact ⟨_, mem_stripeCalls.mpr ⟨wi, hwi, r, hr, rfl⟩, rfl⟩

theorem nodup_pidx_stripeCalls (htargets : targets.Nodup) :
    ((stripeCalls w targets sources coefs).map JoinCall.pidx).Nodup := by
  rw [stripeCalls, List.map_flatMap]
  simp only [List.map_map]
  rw [List.nodup_flatMap]
  refine ⟨fun wi hwi ↦ htargets.map_on fun r _ r' _ heq ↦
      ((cell_inj (List.mem_range.mp hwi) (List.mem_range.mp hwi)).mp heq).1,
    List.nodup_range.imp_of_mem fun {wi wi'} hwi hwi' hne id hid hid' ↦ hne ?_⟩
  obtain ⟨r, -, rfl⟩ := List.mem_map.mp hid
  obtain ⟨r', -, heq⟩ := List.mem_map.mp hid'
  exact ((cell_inj (List.mem_range.mp hwi') (List.mem_range.mp hwi)).mp heq).2.symm

/-- **Joins of blocks to other blocks** are a plan. -/
theorem joinPlan_stripeCalls (hw : 0 < w) (hroom : n * w ≤ bindStart) (htargets : targets.Nodup) (hsources : sources.Nodup)
    (hne : sources ≠ []) (htargets_lt : ∀ r ∈ targets, r < n) (hsources_lt : ∀ b ∈ sources, b < n)
    (hapart : ∀ r ∈ targets, r ∉ sources) : JoinPlan n w (stripeCalls w targets sources coefs) where
  pos := hw
  room := hroom
  once := nodup_pidx_stripeCalls htargets
  nonempty j hj := by
    obtain ⟨wi, -, r, -, rfl⟩ := mem_stripeCalls.mp hj
    exact fun hnil ↦ hne (List.map_eq_nil_iff.mp hnil)
  nodup j hj := by
    obtain ⟨wi, hwi, r, -, rfl⟩ := mem_stripeCalls.mp hj
    exact hsources.map_on fun b _ b' _ heq ↦ ((cell_inj hwi hwi).mp heq).1
  uniform j hj j' hj' hperm := by
    obtain ⟨wi, hwi, r, -, rfl⟩ := mem_stripeCalls.mp hj
    obtain ⟨wi', hwi', r', -, rfl⟩ := mem_stripeCalls.mp hj'
    obtain ⟨b, hb⟩ := List.exists_mem_of_ne_nil _ hne
    have hmem : b * w + wi ∈ sources.map fun b ↦ b * w + wi' := hperm.mem_iff.mp (List.mem_map_of_mem hb)
    obtain ⟨b', -, heq⟩ := List.mem_map.mp hmem
    -- calls with a common child are of one sub-packet, so they have the same children
    obtain rfl : wi' = wi := ((cell_inj hwi' hwi).mp heq).2
    rfl
  lt j hj id hid := by
    obtain ⟨wi, hwi, r, hr, rfl⟩ := mem_stripeCalls.mp hj
    rcases List.mem_cons.mp hid with rfl | hid
    · exact subPacket_lt (htargets_lt r hr) hwi
    · obtain ⟨b, hb, rfl⟩ := List.mem_map.mp hid
      exact subPacket_lt (hsources_lt b hb) hwi
  whole j hj id heq := by
    obtain ⟨wi, hwi, r, hr, rfl⟩ := mem_stripeCalls.mp hj
    dsimp only at heq
    rw [subPacket_div hwi] at heq
    refine mem_pidx_stripeCalls.mpr ⟨id % w, Nat.mod_lt id hw, r, hr, ?_⟩
    rw [← heq, Nat.mul_comm, Nat.div_add_mod]
  apart j hj c hc j' hj' := by
    obtain ⟨wi, hwi, r, -, rfl⟩ := mem_stripeCalls.mp hj
    obtain ⟨wi', hwi', r', hr', rfl⟩ := mem_stripeCalls.mp hj'
    obtain ⟨b, hb, rfl⟩ := List.mem_map.mp hc
    rw [subPacket_div hwi, subPacket_div hwi']
    exact fun heq ↦ hapart r' hr' (heq ▸ hb)

theorem ofJoins_stripeCalls : ofJoins (stripeCalls w targets sources coefs) = (List.range w).foldl (fun dag wi ↦
    targets.foldl (fun dag r ↦ dag.join (r * w + wi) (sources.map fun b ↦ b * w + wi) (coefs r)) dag) {} := by
  rw [ofJoins, stripeCalls, List.foldl_flatMap]
  simp only [List.foldl_map]

end StripeCalls

end ECDAG

/-! ## Encoding and decoding with `RSCONV` -/

section RSCONV

variable {c : RSCode} {pktSize num : ℕ} {opt2 : ECDAG → IpMap → Option (ECDAG × IpMap)} {multiply divide : ℕ → ℕ → ℕ → ℕ}
  {disks : ℕ → UnderFile}

def RSCode.parities (c : RSCode) : List ℕ := (List.range (c.n - c.k)).map (c.k + ·)

theorem RSCode.mem_parities {r : ℕ} : r ∈ c.parities ↔ c.k ≤ r ∧ r < c.n := by
  rw [parities, List.mem_map]
  constructor
  · rintro ⟨i, hi, rfl⟩
    rw [List.mem_range] at hi
    omega
  · intro hr
    exact ⟨r - c.k, List.mem_range.mpr (by omega), by omega⟩

/-- The joins of `Encode`. -/
def RSCONV.encodeCalls (gfMultiply : GF256 → GF256 → GF256) (c : RSCode) : List JoinCall :=
  stripeCalls c.w c.parities (List.range c.k) fun r ↦
    (List.range c.k).map fun j ↦ c.encodeMatrix gfMultiply (r * c.k + j)

/-- The joins of `Decode`. -/
def RSCONV.decodeCalls (gfMultiply : GF256 → GF256 → GF256) (invert : (ℕ → GF256) → ℕ → ℕ → GF256) (L : Loss c) :
    List JoinCall :=
  stripeCalls c.w L.lost ((List.range c.k).map fun ki ↦ L.survivors.getD ki 0) fun r ↦
    (List.range c.k).map (c.coefVector gfMultiply invert L.survivors r)

theorem RSCONV.encode_eq (gfMultiply : GF256 → GF256 → GF256) (hfits : c.Fits) :
    RSCONV.encode gfMultiply c = some (ofJoins (RSCONV.encodeCalls gfMultiply c)) := by
  rw [encodeCalls, ofJoins_stripeCalls, RSCONV.encode, if_pos hfits, encodeStripe]
  simp only [encodeJoins, RSCode.parities, List.foldl_map, Nat.add_comm]

theorem RSCONV.decode_eq (gfMultiply : GF256 → GF256 → GF256) (invert : (ℕ → GF256) → ℕ → ℕ → GF256) (L : Loss c)
    (hfits : c.Fits) (hw : 0 < c.w) :
    RSCONV.decode gfMultiply invert c (subPackets c.w L.survivors) (subPackets c.w L.lost) =
      some (ofJoins (RSCONV.decodeCalls gfMultiply invert L)) := by
  rw [decodeCalls, RSCONV.decode, blockIds_subPackets hw, blockIds_subPackets hw, ofJoins_stripeCalls]
  simp only [if_neg (L.not_stopped hfits), List.map_map]
  rfl

theorem RSCONV.joinPlan_encodeCalls (gfMultiply : GF256 → GF256 → GF256) (hk : 0 < c.k) (hkn : c.k < c.n) (hw : 0 < c.w)
    (hroom : c.n * c.w ≤ bindStart) : JoinPlan c.n c.w (RSCONV.encodeCalls gfMultiply c) := by
  refine joinPlan_stripeCalls hw hroom ?_ List.nodup_range ?_ (fun r hr ↦ (RSCode.mem_parities.mp hr).2)
    (fun b hb ↦ (List.mem_range.mp hb).trans hkn) fun r hr hmem ↦ ?_
  · exact List.nodup_range.map (add_right_injective c.k)
  · exact fun hnil ↦ hk.ne' (List.range_eq_nil.mp hnil)
  · exact absurd (List.mem_range.mp hmem) (not_lt.mpr (RSCode.mem_parities.mp hr).1)

theorem Loss.source_mem (L : Loss c) {b : ℕ} (hb : b ∈ (List.range c.k).map fun ki ↦ L.survivors.getD ki 0) :
    b ∈ L.survivors := by
  obtain ⟨ki, hki, rfl⟩ := List.mem_map.mp hb
  exact L.survivor_mem (List.mem_range.mp hki)

theorem RSCONV.joinPlan_decodeCalls (gfMultiply : GF256 → GF256 → GF256) (invert : (ℕ → GF256) → ℕ → ℕ → GF256) (L : Loss c)
    (hk : 0 < c.k) (hw : 0 < c.w) (hroom : c.n * c.w ≤ bindStart) (hsurvivors : L.survivors.Nodup) (hlost : L.lost.Nodup) :
    JoinPlan c.n c.w (RSCONV.decodeCalls gfMultiply invert L) := by
  refine joinPlan_stripeCalls hw hroom hlost ?_ ?_ L.lost_lt (fun b hb ↦ L.survivors_lt b (L.source_mem hb))
    fun r hr hmem ↦ L.disjoint r hr (L.source_mem hmem)
  · exact List.nodup_range.map_on fun _ hi _ hj ↦ L.getD_inj hsurvivors (List.mem_range.mp hi) (List.mem_range.mp hj)
  · exact fun hnil ↦ hk.ne' (List.range_eq_nil.mp (List.map_eq_nil_iff.mp hnil))

/-- **Every message of `RSCONV` fits** without optimization, when a block has at most 900 sub-packets and the names have at
most 255 bytes. -/
theorem RSCONV.allFit {gfMultiply : GF256 → GF256 → GF256} {invert : (ℕ → GF256) → ℕ → ℕ → GF256} {s : StripeNames}
    (hs : s.Named) (hsw : s.w = c.w) (hw900 : c.w ≤ 900) (hfits : c.Fits) (hk : 0 < c.k) (hkn : c.k < c.n) (hw : 0 < c.w)
    (hroom : c.n * c.w ≤ bindStart) (L : Loss c) (hsurvivors : L.survivors.Nodup) (hlost : L.lost.Nodup) :
    ∀ dag, RSCONV.encode gfMultiply c = some dag ∨
        RSCONV.decode gfMultiply invert c (subPackets c.w L.survivors) (subPackets c.w L.lost) = some dag →
      ∀ order, order.Perm dag.nodes.keys → ∀ cid2ip objIp,
        (Operation.encodeOrRecover dag order s c.n cid2ip objIp).AllFit := by
  have hk512 : c.k ≤ 512 := by
    by_contra hlt
    have hsquare : 513 * 513 ≤ c.n * c.k := Nat.mul_le_mul (by omega) (by omega)
    exact absurd (hsquare.trans hfits) (by decide)
  rintro dag (henc | hdec) order horder cid2ip objIp
  · obtain rfl := Option.some.inj ((RSCONV.encode_eq gfMultiply hfits).symm.trans henc)
    refine (hsw ▸ RSCONV.joinPlan_encodeCalls gfMultiply hk hkn hw hroom : JoinPlan c.n s.w _).allFit hs (hsw ▸ hw900)
      (fun j hj ↦ ?_) horder cid2ip objIp
    obtain ⟨wi, -, r, -, rfl⟩ := mem_stripeCalls.mp hj
    exact ⟨by rwa [List.length_map, List.length_range], by rw [List.length_map, List.length_map]⟩
  · obtain rfl := Option.some.inj ((RSCONV.decode_eq gfMultiply invert L hfits hw).symm.trans hdec)
    refine (hsw ▸ RSCONV.joinPlan_decodeCalls gfMultiply invert L hk hw hroom hsurvivors hlost : JoinPlan c.n s.w _).allFit
      hs (hsw ▸ hw900) (fun j hj ↦ ?_) horder cid2ip objIp
    obtain ⟨wi, -, r, -, rfl⟩ := mem_stripeCalls.mp hj
    exact ⟨by rwa [List.length_map, List.length_map, List.length_range],
      by rw [List.length_map, List.length_map, List.length_map]⟩

/-- The slice of a sub-packet of the stripe of some data blocks. -/
def encodedSlice (c : RSCode) (pktSize : ℕ) (disks : ℕ → UnderFile) (i id : ℕ) : Packet :=
  (List.range (pktSize / c.w)).map fun pos ↦ c.symbol (byteAt pktSize c.w disks i pos) (id / c.w) (id % c.w)

def encodedFiles (c : RSCode) (pktSize num : ℕ) (disks : ℕ → UnderFile) (r : ℕ) : UnderFile :=
  if r < c.k then disks r else .ofBytes (blockBytes num c.w (encodedSlice c pktSize disks) r)

/-- The stripe of three blocks of one byte. -/
def sampleFiles : ℕ → UnderFile := encodedFiles sampleCode 1 1 (StripeOp.oneByte 1)

end RSCONV

end UniDedup.Storage
