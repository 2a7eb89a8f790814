import UniDedup.Storage.SliceExchange

/-!
# Objects that are persisted

A `persist` command takes the slices of the sub-packets of a block, for one packet after the other, and writes them one
after the other. When all is fetched, whatever the order of the steps was, the object has the bytes that the graph gives
the sub-packets of the block.
-/

namespace UniDedup.Storage

open ECDAG AGCommand Exchange
open PacketSlices (SliceKey UnderFile sliceOf computeSize length_sliceOf)

/-! ## Blocks of slices -/

/-- The block that slices make, packet by packet. -/
def blockBytes (num w : ℕ) (slice : ℕ → ℕ → Packet) (r : ℕ) : List GF256 :=
  (List.range num).flatMap fun i ↦ (List.range w).flatMap fun j ↦ slice i (r * w + j)

section Blocks

variable {pktSize w num : ℕ} {slice : ℕ → ℕ → Packet} {r : ℕ}

theorem blockBytes_sliceOf {f : UnderFile} (hdiv : w ∣ pktSize) (hf : f.Whole pktSize num) (r : ℕ) :
    blockBytes num w (sliceOf pktSize w f) r = f.bytes := by
  refine Eq.trans ?_ (Slices.flatMap_piece hf.1)
  refine List.flatMap_congr fun i _ ↦ ?_
  rw [PacketSlices.flatMap_sliceOf, Nat.mul_div_cancel' hdiv, Slices.piece]

section Length

variable (hdiv : w ∣ pktSize) (hlen : ∀ i < num, ∀ j < w, (slice i (r * w + j)).length = pktSize / w)
include hdiv hlen

end Length

end Blocks

/-! ## What is persisted -/

/-- What a `persist` writes that is the command `c` of `len` commands: for each packet it enqueues the slices that its
`nprevs` threads have fetched, in their order. -/
def persisted (len num : ℕ) (s : State SliceKey Packet) (c nprevs : ℕ) : Option (List GF256) :=
  (((List.range num).flatMap fun i ↦ (List.range nprevs).map fun p ↦ (i * len + c, p)).mapM s.got).bind
    fun queue ↦ writeObj queue (num * nprevs)

/-- The commands write some objects, which become the given files. -/
structure WritesFiles (cmds : List AGCommand) (num : ℕ) (s : State SliceKey Packet) (objs : List ℕ) (files : ℕ → UnderFile) :
    Prop where
  covered : ∀ r ∈ objs, ∃ (c ip : ℕ) (prevs : List (ℕ × ℕ)), cmds[c]? = some (AGCommand.persist ip prevs r)
  right : ∀ (c ip r : ℕ) (prevs : List (ℕ × ℕ)), cmds[c]? = some (AGCommand.persist ip prevs r) →
    r ∈ objs ∧ persisted cmds.length num s c prevs.length = some (files r).bytes

/-- The byte of a sub-packet at a position of packet `i`. -/
def byteAt (pktSize w : ℕ) (files : ℕ → UnderFile) (i pos id : ℕ) : GF256 :=
  (sliceOf pktSize w (files (id / w)) i id).getD pos 0

namespace StripeOp

variable {n w : ℕ} {o : StripeOp n w} {pktSize num first : ℕ} {files : ℕ → UnderFile} {s : State SliceKey Packet}

theorem exists_persist {id : ℕ} (hid : id ∈ o.dag.headers) : ∃ ip prevs, .persist ip prevs (id / w) ∈ o.cmds := by
  have hfetch : (id, o.cid2ip (home o.dag.shape id)) ∈
      (o.dag.persistCmds o.order o.cid2ip o.objIp w).flatMap fetches := by
    rw [o.accounted.fetches_persistCmds o.acyclic o.perm o.placed o.w_pos]
    exact List.mem_map_of_mem ((List.perm_insertionSort (· ≤ ·) o.dag.headers).mem_iff.mpr hid)
  obtain ⟨cmd, hcmd, hfetch⟩ := List.mem_flatMap.mp hfetch
  obtain ⟨i, -, hi⟩ := List.mem_map.mp hcmd
  have hmem : cmd ∈ o.cmds := List.mem_append_right _ hcmd
  rw [← hi] at hfetch hmem
  obtain ⟨j, hj, heq⟩ := List.mem_map.mp hfetch
  have hid' := congrArg Prod.fst heq
  dsimp only at hid'
  rw [← hid', subPacket_div (List.mem_range.mp hj)]
  exact ⟨_, _, hmem⟩

theorem header_of_persist {ip r : ℕ} {prevs : List (ℕ × ℕ)} (hcmd : .persist ip prevs r ∈ o.cmds) :
    r * w ∈ o.dag.headers := by
  have hpersist := (List.mem_append.mp hcmd).resolve_left fun hcmd ↦ ofBlock_agCmds hcmd
  obtain ⟨nodeIp, hprevs⟩ := prevs_of_persist hcmd
  have hfetch : (r * w, nodeIp (r * w)) ∈ (o.dag.persistCmds o.order o.cid2ip o.objIp w).flatMap fetches :=
    List.mem_flatMap.mpr ⟨_, hpersist, by
      rw [AGCommand.fetches, hprevs]
      exact List.mem_map.mpr ⟨0, List.mem_range.mpr o.w_pos, rfl⟩⟩
  rw [o.accounted.fetches_persistCmds o.acyclic o.perm o.placed o.w_pos] at hfetch
  obtain ⟨id, hid, heq⟩ := List.mem_map.mp hfetch
  obtain rfl : id = r * w := congrArg Prod.fst heq
  exact (List.perm_insertionSort (· ≤ ·) o.dag.headers).mem_iff.mp hid

theorem jobs_congr {files' : ℕ → UnderFile} (h : ∀ id, IsLeaf o.dag.shape id → files' (id / w) = files (id / w)) :
    o.jobs pktSize num files' first = o.jobs pktSize num files first := by
  rw [jobs, jobs]
  refine List.flatMap_congr fun i _ ↦ List.map_congr_left fun x hx ↦ ?_
  have hcmd := List.fst_mem_of_mem_zipIdx hx
  generalize x.1 = cmd at hcmd
  cases cmd with
  | readDisk ip obj cids refs =>
    obtain ⟨hne, hblock⟩ := ofBlock_commands hcmd rfl
    obtain ⟨cid, hcid⟩ := List.exists_mem_of_ne_nil _ hne
    have hfile : files' obj = files obj := by
      rw [← hblock cid hcid]
      exact h cid ((ofShape hcmd).2 cid hcid).1
    rw [AGCommand.job, AGCommand.job, hfile]
  | fetchCompute => rfl
  | persist => rfl

section Whole

variable (hdiv : w ∣ pktSize) (hpkt : 0 < pktSize) (hfiles : ∀ obj, (files obj).Whole pktSize num)
include hdiv hpkt hfiles

theorem sound_length (D : Steps SliceKey Packet) :
    Sound (o.jobs pktSize num files first) D fun _ slice ↦ slice.length = pktSize / w := by
  intro job hjob vs _ g q hg _ _
  obtain ⟨i, hi, ⟨cmd, c⟩, hx, rfl⟩ := mem_jobs.mp hjob
  have hcmd := ofShape (List.fst_mem_of_mem_zipIdx hx)
  have hg := List.mem_of_getElem? hg
  cases cmd with
  | readDisk ip obj cids refs =>
    obtain ⟨hnodup, hcids⟩ := hcmd
    rw [gives_readDisk o.w_pos (Nat.le_of_dvd hpkt hdiv) (hfiles obj) hi hnodup fun cid hcid ↦ (hcids cid hcid).2] at hg
    obtain ⟨cid, -, rfl⟩ := List.mem_map.mp hg
    exact length_sliceOf o.w_pos (hfiles obj) hi cid
  | fetchCompute ip prevs coefs refs =>
    obtain ⟨row, -, rfl⟩ := List.mem_map.mp hg
    dsimp only
    rw [rowSlice, List.length_map, List.length_range, computeSize, Nat.mod_eq_zero_of_dvd hdiv, ite_self, Nat.add_zero]
  | persist => exact absurd hg List.not_mem_nil

/-- A slice that is fetched is the one that has the bytes that the graph gives. -/
theorem got_eq (hs : (system (o.jobs pktSize num files 0)).Reachable s) {x : SliceKey × (ℕ × ℕ)}
    (hx : x ∈ needSlots (o.jobs pktSize num files 0)) {v slice : Packet} (hv : s.got x.2 = some v)
    (hlen : slice.length = pktSize / w) (hslice : ∀ pos < pktSize / w,
      Evaluates o.dag.shape (byteAt pktSize w files x.1.pkt pos) x.1.cid (slice.getD pos 0)) : v = slice := by
  have hwp := Nat.le_of_dvd hpkt hdiv
  have hright := (clean_of_reach (sound hwp hfiles 0 .all) (Within.all _) hs).got x hx v hv
  have hvlen := (clean_of_reach (sound_length hdiv hpkt hfiles .all) (Within.all _) hs).got x hx v hv
  refine List.ext_getElem (hvlen.trans hlen.symm) fun pos hpos hpos' ↦ ?_
  have heq := (hright pos (hvlen ▸ hpos)).unique (hslice pos (hvlen ▸ hpos))
  rwa [List.getD_eq_getElem _ _ hpos, List.getD_eq_getElem _ _ hpos'] at heq

/-- **What is persisted** is the block with the bytes that the graph gives. -/
theorem persisted_eq (hs : (system (o.jobs pktSize num files 0)).Reachable s)
    (hdone : Finished (o.jobs pktSize num files 0) s) {c ip r : ℕ} {prevs : List (ℕ × ℕ)}
    (hcmd : o.cmds[c]? = some (AGCommand.persist ip prevs r)) {slice : ℕ → ℕ → Packet}
    (hlen : ∀ i < num, ∀ j < w, (slice i (r * w + j)).length = pktSize / w)
    (hslice : ∀ i < num, ∀ j < w, ∀ pos < pktSize / w,
      Evaluates o.dag.shape (byteAt pktSize w files i pos) (r * w + j) ((slice i (r * w + j)).getD pos 0)) :
    persisted o.cmds.length num s c prevs.length = some (blockBytes num w slice r) := by
  have hc : c < o.cmds.length := (List.getElem?_eq_some_iff.mp hcmd).1
  obtain ⟨nodeIp, rfl⟩ := prevs_of_persist (List.mem_of_getElem? hcmd)
  rw [List.length_map, List.length_range]
  -- The threads have fetched the slices.
  have hgot : ∀ i < num, ∀ j < w, s.got (i * o.cmds.length + c, j) = some (slice i (r * w + j)) := by
    intro i hi j hj
    have hjob : (o.jobs pktSize num files 0)[i * o.cmds.length + c]? =
        some ((AGCommand.persist ip ((List.range w).map fun j ↦ (r * w + j, nodeIp (r * w + j))) r).job
          pktSize w files c i) := by
      rw [jobs, Slices.getElem?_flatMap_range (fun t _ ↦ by rw [List.length_map, List.length_zipIdx]) hi hc,
        List.getElem?_map, List.getElem?_zipIdx, hcmd]
      simp
    have hslot : (keyAt i (r * w + j, nodeIp (r * w + j)), (i * o.cmds.length + c, j)) ∈
        needSlots (o.jobs pktSize num files 0) := by
      refine mem_needSlots.mpr ⟨_, hjob, ?_⟩
      rw [needs_job, List.getElem?_map, AGCommand.fetches, List.getElem?_map, List.getElem?_range hj]
      rfl
    obtain ⟨v, hv⟩ := Option.isSome_iff_exists.mp (hdone (.fetch _ _) _ hslot)
    rw [hv, got_eq hdiv hpkt hfiles hs hslot hv (hlen i hi j hj) (hslice i hi j hj)]
  have hplaces : ((List.range num).flatMap fun i ↦ (List.range w).map fun p ↦ (i * o.cmds.length + c, p)).mapM s.got =
      some ((List.range num).flatMap fun i ↦ (List.range w).map fun j ↦ slice i (r * w + j)) := by
    rw [Fold.mapM_eq_map (g := fun x ↦ slice (x.1 / o.cmds.length) (r * w + x.2)) fun x hx ↦ ?_, List.map_flatMap]
    · refine congrArg some (List.flatMap_congr fun i _ ↦ ?_)
      rw [List.map_map]
      refine List.map_congr_left fun j _ ↦ ?_
      rw [Function.comp_apply, subPacket_div hc]
    · obtain ⟨i, hi, hx⟩ := List.mem_flatMap.mp hx
      obtain ⟨j, hj, rfl⟩ := List.mem_map.mp hx
      dsimp only
      rw [subPacket_div hc, hgot i (List.mem_range.mp hi) j (List.mem_range.mp hj)]
  have hqueue : ((List.range num).flatMap fun i ↦ (List.range w).map fun j ↦ slice i (r * w + j)).length = num * w := by
    simp
  rw [persisted, hplaces, Option.bind_some, writeObj, if_pos hqueue.ge, ← hqueue, List.take_length, blockBytes,
    ← List.flatMap_id, List.flatMap_assoc]
  refine congrArg some (List.flatMap_congr fun i _ ↦ ?_)
  rw [List.flatMap_map]
  rfl

/-- **The objects that are written.** -/
theorem writes (hs : (system (o.jobs pktSize num files 0)).Reachable s) (hdone : Finished (o.jobs pktSize num files 0) s)
    {objs : List ℕ} (hheaders : ∀ id, id ∈ o.dag.headers ↔ id / w ∈ objs) {files' : ℕ → UnderFile}
    (hwhole : ∀ r ∈ objs, (files' r).Whole pktSize num)
    (hval : ∀ r ∈ objs, ∀ i < num, ∀ j < w, ∀ pos < pktSize / w, Evaluates o.dag.shape (byteAt pktSize w files i pos)
      (r * w + j) (byteAt pktSize w files' i pos (r * w + j))) : WritesFiles o.cmds num s objs files' where
  covered r hr := by
    have hdivr : r * w / w = r := Nat.mul_div_cancel r o.w_pos
    obtain ⟨ip, prevs, hcmd⟩ := exists_persist ((hheaders (r * w)).mpr (by rwa [hdivr]))
    obtain ⟨c, hc⟩ := List.mem_iff_getElem?.mp hcmd
    exact ⟨c, ip, prevs, by rw [hc, hdivr]⟩
  right c ip r prevs hcmd := by
    have hr : r ∈ objs := by
      have hheader := (hheaders _).mp (header_of_persist (List.mem_of_getElem? hcmd))
      rwa [Nat.mul_div_cancel r o.w_pos] at hheader
    refine ⟨hr, ?_⟩
    rw [← blockBytes_sliceOf hdiv (hwhole r hr) r]
    refine persisted_eq hdiv hpkt hfiles hs hdone hcmd (fun i hi j _ ↦ length_sliceOf o.w_pos (hwhole r hr) hi _)
      fun i hi j hj pos hpos ↦ ?_
    have hbyte := hval r hr i hi j hj pos hpos
    rwa [byteAt, subPacket_div hj] at hbyte

end Whole

end StripeOp

end UniDedup.Storage
