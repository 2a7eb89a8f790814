import Mathlib.Data.List.Sort
import UniDedup.Storage.Encoding
import UniDedup.Storage.Executor
import UniDedup.Storage.OfflineFile

/-!
# Files of an online code

The agent that writes a file deals its packets out to `k` queues, fills the last stripe up with packets of zeros,
encodes stripe by stripe and stores as many packets of every object as are not filled up. The agent that reads
it takes the packets from the data objects in turn; when a data object is missing it decodes stripe by stripe.
-/

namespace UniDedup.Storage

open ECDAG Fold Slices

/-! ## Stripes -/

/-- The byte `b` of the sub-packets of a stripe, given its packets by their blocks. -/
def byteOf (ecw splitsize b : ℕ) (stripe : ℕ → Packet) (id : ℕ) : GF256 :=
  (stripe (id / ecw)).getD (id % ecw * splitsize + b) 0

/-- The packets of some blocks, when an executor has run for each byte of the sub-packets. -/
def packetsOf (pktSize ecw : ℕ) (sids : List ℕ) (run : ℕ → Option Buffers) : Option (List Packet) :=
  let splitsize := pktSize / ecw
  sids.mapM fun sid ↦ (List.range pktSize).mapM fun pos ↦
    (run (pos % splitsize)).bind fun s ↦ s.written (sid * ecw + pos / splitsize)

/-- The stripes a worker takes from its queues: one packet of each at a time. -/
def takeStripes (queues : List (List Packet)) (stripenum : ℕ) : Option (List (List Packet)) :=
  (List.range stripenum).mapM fun t ↦ queues.mapM fun queue ↦ queue[t]?

/-- A code as the client sees it: the graphs of `Encode` and `Decode`, and the order in which the nodes of a
graph are run through. -/
structure ClientCode where
  n : ℕ
  k : ℕ
  w : ℕ
  encode : ECDAG
  decode : List ℕ → List ℕ → ECDAG
  order : ECDAG → List ℕ

namespace ClientCode

variable (c : ClientCode) (pktSize : ℕ)

def tasksOf (dag : ECDAG) : List ComputeTask := dag.computeTasks (c.order dag)

/-- One round of `computeWorker` of a write. -/
def encodeStripe (cur : List Packet) : Option (List Packet) :=
  packetsOf pktSize c.w (List.range c.n) fun b ↦
    onlineEncode c.n c.k c.w (byteOf c.w (pktSize / c.w) b (cur.getD · [])) (c.tasksOf c.encode)

/-- One round of `computeWorker` of a degraded read. -/
def decodeStripe (loadidx : List ℕ) (tasks : List ComputeTask) (cur : List Packet) : Option (List Packet) :=
  packetsOf pktSize c.w (List.range c.k) fun b ↦
    degradedRead c.n c.k c.w loadidx (byteOf c.w (pktSize / c.w) b fun sid ↦ cur.getD (loadidx.idxOf sid) []) tasks

/-! ## Writing -/

/-- The packets that are left for the last stripe, `lastNum` of `onlineWrite`, make a stripe of their own. -/
def stripenum (totalNumPkt : ℕ) : ℕ := totalNumPkt / c.k + if 0 < totalNumPkt % c.k then 1 else 0

/-- The number of packets a load thread takes, and the length of a data object. -/
def loadnum (totalNumPkt i : ℕ) : ℕ := totalNumPkt / c.k + if 0 < totalNumPkt % c.k ∧ i < totalNumPkt % c.k then 1 else 0

def persistnum (totalNumPkt i : ℕ) : ℕ :=
  c.loadnum totalNumPkt i + if 0 < totalNumPkt % c.k ∧ c.k ≤ i then 1 else 0

/-- A load thread of `onlineWrite`. -/
def loadQueue (totalNumPkt : ℕ) (s : List (List Packet) × Cache) (i : ℕ) : Option (List (List Packet) × Cache) :=
  (loadWorker pktSize s.2 i c.k (c.loadnum totalNumPkt i)
    (decide (0 < totalNumPkt % c.k ∧ totalNumPkt % c.k ≤ i))).map fun x ↦ (s.1 ++ [x.1], x.2)

/-- `onlineWrite`: the objects, and what is left of the lists of the client. -/
def onlineWrite (filesizeMB : ℕ) (cache : Cache) : Option (List (List GF256) × Cache) := do
  let totalNumPkt := filesizeMB / pktSize
  let loaded ← (List.range c.k).foldlM (c.loadQueue pktSize totalNumPkt) ([], cache)
  let stripes ← takeStripes loaded.1 (c.stripenum totalNumPkt)
  let coded ← stripes.mapM (c.encodeStripe pktSize)
  let objs ← (List.range c.n).mapM fun i ↦ writeObj (coded.map (·.getD i [])) (c.persistnum totalNumPkt i)
  return (objs, loaded.2)

end ClientCode

/-! ## Reading -/

/-- An object that is read: its size, how far it has been taken, and the packets that are waiting. -/
structure FSObjInputStream where
  objbytes : ℕ
  offset : ℕ
  queue : List Packet

namespace FSObjInputStream

def hasNext (s : FSObjInputStream) : Bool := decide (s.offset < s.objbytes)

def dequeue (s : FSObjInputStream) : Option (Packet × FSObjInputStream) :=
  match s.queue with
  | [] => none
  | pkt :: rest => some (pkt, { s with offset := s.offset + pkt.length, queue := rest })

/-- Take a packet from an object if it has one, and go on to the next object. -/
def takeOne (x : List Packet × List FSObjInputStream) (s : FSObjInputStream) :
    Option (List Packet × List FSObjInputStream) :=
  if s.hasNext then s.dequeue.map fun y ↦ (if y.1.length ≠ 0 then x.1 ++ [y.1] else x.1, x.2 ++ [y.2])
  else some (x.1, x.2 ++ [s])

/-- The loop of `readOnline` over the data objects, for a number of rounds at most. -/
def takeAll : ℕ → List Packet × List FSObjInputStream → Option (List Packet)
  | 0, _ => none
  | fuel + 1, x => do
    let y ← x.2.foldlM takeOne (x.1, [])
    if y.2.any hasNext then takeAll fuel y else some y.1

end FSObjInputStream

def ECDAG.getLeaves (dag : ECDAG) : List ℕ :=
  ((dag.nodes.entries.filter fun x ↦ x.2.childNodes.isEmpty).map Sigma.fst).insertionSort (· ≤ ·)

/-- Append a number to a list if it is not there. -/
def addIdx (l : List ℕ) (i : ℕ) : List ℕ := if i ∈ l then l else l ++ [i]

namespace ClientCode

variable (c : ClientCode) (pktSize : ℕ)

/-- `onlineDegradedInst`: the blocks to load and the compute tasks. -/
def onlineDegradedInst (corruptIdx : List ℕ) : List ℕ × List ComputeTask :=
  let availcidx := blockSubPackets c.w ((List.range c.n).filter (· ∉ corruptIdx))
  let toreccidx := blockSubPackets c.w ((List.range c.k).filter (· ∈ corruptIdx))
  let dag := c.decode availcidx toreccidx
  let loadidx := (dag.getLeaves.map (· / c.w)).foldl addIdx []
  -- all data that is there is needed
  let loadidx := ((List.range c.k).filter (· ∉ corruptIdx)).foldl addIdx loadidx
  (loadidx.insertionSort (· ≤ ·), c.tasksOf dag)

/-- `readOnline`, where `objs i` is what is found of an object: the lists of the client. -/
def readOnline (filesizeMB : ℕ) (objs : ℕ → List GF256) (cache : Cache) : Option Cache :=
  let corruptIdx := (List.range c.n).filter fun i ↦ !exist (objs i)
  let pktnum := filesizeMB / pktSize
  if ∀ i ∈ corruptIdx, c.k ≤ i then
    let streams := (List.range c.k).map fun i ↦ ⟨(objs i).length, 0, readObj pktSize (objs i)⟩
    do
      let writeQueue ← FSObjInputStream.takeAll ((streams.map (·.objbytes)).sum + 1) ([], streams)
      cacheWorker writeQueue 0 pktnum cache
  else
    let inst := c.onlineDegradedInst corruptIdx
    let stripenum := pktnum / c.k
    do
      let stripes ← takeStripes (inst.1.map fun sid ↦ readObj pktSize (objs sid)) stripenum
      let decoded ← stripes.mapM (c.decodeStripe pktSize inst.1 inst.2)
      cacheWorker decoded.flatten 0 pktnum cache

/-- Write packets as a file, lose objects, and read the file back: the lists of the client. -/
def onlineRoundTrip (filesizeMB : ℕ) (pkts : List Packet) (lost : List ℕ) : Option Cache := do
  let written ← c.onlineWrite pktSize filesizeMB (OECOutputStream.write pkts fun _ ↦ [])
  c.readOnline pktSize filesizeMB (fun i ↦ if i ∈ lost then [] else written.1.getD i []) written.2

/-- A systematic code with a correct decoder. The compute tasks of `Encode` leave the data as it is, and for up to
`n - k` lost objects the compute tasks of `Decode` give the data back from objects that are not lost. -/
structure Correct : Prop where
  systematic : ∀ data, ∃ s, onlineEncode c.n c.k c.w data (c.tasksOf c.encode) = some s ∧
    ∀ id < c.k * c.w, s.written id = some (data id)
  decodes : ∀ corruptIdx : List ℕ, (∀ i ∈ corruptIdx, i < c.n) → corruptIdx.Nodup →
    corruptIdx.length ≤ c.n - c.k → (∃ i ∈ corruptIdx, i < c.k) →
    (∀ sid ∈ (c.onlineDegradedInst corruptIdx).1, sid < c.n ∧ sid ∉ corruptIdx) ∧
    ∀ data s env, onlineEncode c.n c.k c.w data (c.tasksOf c.encode) = some s →
      (∀ id < c.n * c.w, id / c.w ∈ (c.onlineDegradedInst corruptIdx).1 → s.written id = some (env id)) →
      ∃ s', degradedRead c.n c.k c.w (c.onlineDegradedInst corruptIdx).1 env
          (c.onlineDegradedInst corruptIdx).2 = some s' ∧ ∀ id < c.k * c.w, s'.written id = some (data id)

end ClientCode

/-! ## What the executors write -/

theorem mem_tarbufMap_compute {shared : Bool} {s s' : Buffers} {t : ComputeTask} {id : ℕ}
    (hs : s.compute shared t = some s') (hid : id ∈ s.tarbufMap) : id ∈ s'.tarbufMap := by
  have hprep : ∀ (keys : List ℕ) (s : Buffers), id ∈ s.tarbufMap →
      id ∈ (keys.foldl (Buffers.prepareCode shared) s).tarbufMap := by
    intro keys
    induction keys with
    | nil => exact fun _ h ↦ h
    | cons key keys ih =>
      intro s h
      refine ih _ ?_
      rw [Buffers.prepareCode]
      by_cases hkey : key ∈ s.tarbufMap
      · rwa [if_pos hkey]
      · rw [if_neg hkey]
        exact (AList.mem_insert _).mpr (.inr h)
  rw [Buffers.compute] at hs
  split_ifs at hs with hrow hshort
  · exact Option.some.inj hs ▸ hid
  · obtain ⟨data, -, hs⟩ := Option.bind_eq_some_iff.mp hs
    exact absurd hs.symm (Option.some_ne_none s')
  · obtain ⟨data, -, hs⟩ := Option.bind_eq_some_iff.mp hs
    rw [← Option.some.inj hs]
    exact hprep _ s hid

theorem written_onlineEncode {ecn eck ecw : ℕ} {data : ℕ → GF256} {tasks : List ComputeTask} {s : Buffers}
    (hs : onlineEncode ecn eck ecw data tasks = some s) {id : ℕ} (hid : id < ecn * ecw) :
    (s.written id).isSome := by
  have hmem : id ∈ s.tarbufMap := by
    refine foldlM_invariant (I := fun s : Buffers ↦ id ∈ s.tarbufMap)
      (fun t _ s s' h hstep ↦ mem_tarbufMap_compute hstep h) ?_ hs
    rw [← AList.lookup_isSome, lookup_packetBufs, if_pos (List.mem_range.mpr hid)]
    rfl
  rw [Buffers.written, Option.isSome_map]
  exact AList.lookup_isSome.mpr hmem

section Packets

variable {pktSize ecw m : ℕ} {run : ℕ → Option Buffers} {val : ℕ → ℕ → GF256}

/-- The packet with the given bytes in its sub-packets. -/
def packetOfBytes (pktSize ecw : ℕ) (val : ℕ → ℕ → GF256) (sid : ℕ) : Packet :=
  (List.range pktSize).map fun pos ↦ val (pos % (pktSize / ecw)) (sid * ecw + pos / (pktSize / ecw))

@[simp] theorem length_packetOfBytes (sid : ℕ) : (packetOfBytes pktSize ecw val sid).length = pktSize := by
  rw [packetOfBytes, List.length_map, List.length_range]

/-- The packets an executor writes, given what it writes for every byte. -/
theorem packetsOf_eq (hw : ecw ∣ pktSize) (hpos : 0 < pktSize)
    (hrun : ∀ b < pktSize / ecw, ∃ s, run b = some s ∧ ∀ id < m * ecw, s.written id = some (val b id)) :
    packetsOf pktSize ecw (List.range m) run = some ((List.range m).map (packetOfBytes pktSize ecw val)) := by
  obtain ⟨splitsize, rfl⟩ := hw
  have hecw : 0 < ecw := Nat.pos_of_mul_pos_right hpos
  have hsplit : 0 < splitsize := Nat.pos_of_mul_pos_left hpos
  rw [packetsOf]
  refine mapM_eq_map fun sid hsid ↦ ?_
  rw [packetOfBytes]
  rw [Nat.mul_div_cancel_left _ hecw] at hrun ⊢
  refine mapM_eq_map fun pos hpos' ↦ ?_
  rw [List.mem_range] at hsid hpos'
  obtain ⟨s, hs, hval⟩ := hrun (pos % splitsize) (Nat.mod_lt _ hsplit)
  rw [hs, Option.bind_some]
  exact hval _ (subPacket_lt hsid (Nat.div_lt_of_lt_mul (by rwa [Nat.mul_comm])))

theorem byteOf_packetOfBytes (hw : ecw ∣ pktSize) (hpos : 0 < pktSize) {stripe : ℕ → Packet} {b id : ℕ}
    (hb : b < pktSize / ecw) (hstripe : stripe (id / ecw) = packetOfBytes pktSize ecw val (id / ecw)) :
    byteOf ecw (pktSize / ecw) b stripe id = val b id := by
  obtain ⟨splitsize, rfl⟩ := hw
  have hecw : 0 < ecw := Nat.pos_of_mul_pos_right hpos
  have hsplit : 0 < splitsize := Nat.pos_of_mul_pos_left hpos
  rw [packetOfBytes] at hstripe
  rw [Nat.mul_div_cancel_left _ hecw] at hb hstripe ⊢
  have hlt : id % ecw * splitsize + b < ecw * splitsize := subPacket_lt (Nat.mod_lt id hecw) hb
  rw [byteOf, hstripe, List.getD_eq_getElem?_getD, List.getElem?_map, List.getElem?_range hlt, Option.map_some,
    Option.getD_some, subPacket_mod hb, subPacket_div hb, Nat.div_add_mod']

theorem packetOfBytes_byteOf (hw : ecw ∣ pktSize) (hpos : 0 < pktSize) (stripe : ℕ → Packet) {sid : ℕ}
    (hlen : (stripe sid).length = pktSize)
    (hval : ∀ b, ∀ id, id / ecw = sid → val b id = byteOf ecw (pktSize / ecw) b stripe id) :
    packetOfBytes pktSize ecw val sid = stripe sid := by
  obtain ⟨splitsize, rfl⟩ := hw
  have hecw : 0 < ecw := Nat.pos_of_mul_pos_right hpos
  have hsplit : 0 < splitsize := Nat.pos_of_mul_pos_left hpos
  rw [packetOfBytes]
  rw [Nat.mul_div_cancel_left _ hecw] at hval ⊢
  refine List.ext_getElem (by rw [List.length_map, List.length_range, hlen]) fun pos hpos' hpos'' ↦ ?_
  have hdiv : pos / splitsize < ecw := Nat.div_lt_of_lt_mul (by rw [Nat.mul_comm]; exact hlen ▸ hpos'')
  rw [List.getElem_map, List.getElem_range, hval _ _ (subPacket_div hdiv), byteOf, subPacket_div hdiv,
    subPacket_mod hdiv, Nat.div_add_mod', List.getD_eq_getElem?_getD, List.getElem?_eq_getElem hpos'',
    Option.getD_some]

end Packets

/-! ## Encoding and decoding a stripe -/

namespace ClientCode

variable {c : ClientCode} {pktSize : ℕ}

/-- The packets of the data and the packets they are encoded to. -/
structure Coded (c : ClientCode) (pktSize : ℕ) (cur coded : List Packet) : Prop where
  full : ∀ i < c.n, (coded.getD i []).length = pktSize
  data : ∀ i < c.k, coded.getD i [] = cur.getD i []
  encoded : ∀ b < pktSize / c.w, ∃ s,
    onlineEncode c.n c.k c.w (byteOf c.w (pktSize / c.w) b (cur.getD · [])) (c.tasksOf c.encode) = some s ∧
      ∀ id < c.n * c.w, s.written id = some (byteOf c.w (pktSize / c.w) b (coded.getD · []) id)

theorem div_lt_of_subPacket {w m id : ℕ} (h : id < m * w) : id / w < m :=
  Nat.div_lt_of_lt_mul (by rwa [Nat.mul_comm])

theorem Correct.encodeStripe (h : c.Correct) (hkn : c.k ≤ c.n) (hw : c.w ∣ pktSize) (hpos : 0 < pktSize)
    {cur : List Packet} (hfull : ∀ i < c.k, (cur.getD i []).length = pktSize) :
    ∃ coded, c.encodeStripe pktSize cur = some coded ∧ Coded c pktSize cur coded := by
  have hecw : 0 < c.w := Nat.pos_of_dvd_of_pos hw hpos
  choose run hrun hdata using fun b ↦ h.systematic (byteOf c.w (pktSize / c.w) b (cur.getD · []))
  have hval : ∀ b, ∀ id < c.n * c.w, (run b).written id = some (((run b).written id).getD 0) := by
    intro b id hid
    obtain ⟨v, hv⟩ := Option.isSome_iff_exists.mp (written_onlineEncode (hrun b) hid)
    rw [hv, Option.getD_some]
  generalize hv : (fun b id ↦ ((run b).written id).getD 0) = val
  have hget : ∀ i < c.n, ((List.range c.n).map (packetOfBytes pktSize c.w val)).getD i [] =
      packetOfBytes pktSize c.w val i := fun i hi ↦ by simp [hi]
  refine ⟨(List.range c.n).map (packetOfBytes pktSize c.w val), ?_,
    { full := fun i hi ↦ by rw [hget i hi, length_packetOfBytes]
      data := fun i hi ↦ ?_
      encoded := fun b hb ↦ ⟨run b, hrun b, fun id hid ↦ ?_⟩ }⟩
  · rw [ClientCode.encodeStripe]
    refine packetsOf_eq hw hpos fun b _ ↦ ⟨run b, hrun b, fun id hid ↦ ?_⟩
    rw [hval b id hid, ← hv]
  · rw [hget i (hi.trans_le hkn)]
    refine packetOfBytes_byteOf hw hpos (cur.getD · []) (hfull i hi) fun b id hid ↦ ?_
    have hlt : id < c.k * c.w := (Nat.div_lt_iff_lt_mul hecw).mp (hid ▸ hi)
    rw [← hv]
    dsimp only
    rw [hdata b id hlt, Option.getD_some]
  · rw [hval b id hid]
    refine congrArg some ?_
    rw [byteOf_packetOfBytes hw hpos hb (hget _ (div_lt_of_subPacket hid)), ← hv]

/-- **Decoding.** From the packets that are loaded the data comes back. -/
theorem Correct.decodeStripe (h : c.Correct) (hw : c.w ∣ pktSize) (hpos : 0 < pktSize) {corruptIdx : List ℕ}
    (hlt : ∀ i ∈ corruptIdx, i < c.n) (hnodup : corruptIdx.Nodup) (hfew : corruptIdx.length ≤ c.n - c.k)
    (hneed : ∃ i ∈ corruptIdx, i < c.k) {cur coded : List Packet} (hlen : cur.length = c.k)
    (hfull : ∀ i < c.k, (cur.getD i []).length = pktSize) (hcoded : Coded c pktSize cur coded) :
    c.decodeStripe pktSize (c.onlineDegradedInst corruptIdx).1 (c.onlineDegradedInst corruptIdx).2
      ((c.onlineDegradedInst corruptIdx).1.map fun sid ↦ coded.getD sid []) = some cur := by
  have hecw : 0 < c.w := Nat.pos_of_dvd_of_pos hw hpos
  obtain ⟨hload, hdec⟩ := h.decodes corruptIdx hlt hnodup hfew hneed
  generalize c.onlineDegradedInst corruptIdx = inst at hload hdec ⊢
  have hloaded : ∀ sid ∈ inst.1, (inst.1.map fun sid ↦ coded.getD sid []).getD (inst.1.idxOf sid) [] =
      coded.getD sid [] := by
    intro sid hsid
    have hidx := List.idxOf_lt_length_of_mem hsid
    rw [List.getD_eq_getElem?_getD, List.getElem?_map, List.getElem?_eq_getElem hidx, List.getElem_idxOf,
      Option.map_some, Option.getD_some]
  have hcur : (List.range c.k).map (packetOfBytes pktSize c.w fun b ↦
      byteOf c.w (pktSize / c.w) b (cur.getD · [])) = cur := by
    refine List.ext_getElem (by rw [List.length_map, List.length_range, hlen]) fun i hi hi' ↦ ?_
    have hik : i < c.k := hlen ▸ hi'
    rw [List.getElem_map, List.getElem_range,
      packetOfBytes_byteOf hw hpos (cur.getD · []) (hfull i hik) fun _ _ _ ↦ rfl,
      List.getD_eq_getElem?_getD, List.getElem?_eq_getElem hi', Option.getD_some]
  rw [← hcur, ClientCode.decodeStripe]
  refine packetsOf_eq hw hpos fun b hb ↦ ?_
  obtain ⟨s, hs, hwritten⟩ := hcoded.encoded b hb
  refine hdec _ s _ hs fun id hid hmem ↦ ?_
  rw [hwritten id hid, byteOf, byteOf, hloaded _ hmem]

end ClientCode

end UniDedup.Storage
