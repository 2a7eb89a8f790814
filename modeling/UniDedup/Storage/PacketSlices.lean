import UniDedup.Lib.Transition
import UniDedup.Storage.Coverage

/-!
# Packets in slices

A packet of a block in `w` sub-packets goes through the agents in slices. `readDisk` cuts each packet of an
object and caches the slices, `fetchCompute` fetches slices and caches the sums of their multiples, and
`persist` writes the slices of a lost block one after the other.

The three work out the size of a slice on their own. `readDisk` takes `w` slices of `pktSize / w` bytes, and
leaves the `pktSize % w` bytes behind them out; `fetchCompute` counts these bytes in when all the slices it
fetches are the first ones of their blocks. So nothing is lost exactly if `w` divides the packet size.

The commands are those of `Coverage`, here with the lists of the redis servers, where a slice is as often as it
is fetched, and packet by packet.
-/

namespace UniDedup.Storage.PacketSlices

open ECDAG Slices Transition

/-! ## The cache -/

/-- A key of the redis servers: the server, and the sub-packet and the packet that the name is made of. -/
structure SliceKey where
  ip : ℕ
  cid : ℕ
  pkt : ℕ
deriving DecidableEq

/-- The lists of a stripe. -/
abbrev SliceCache := SliceKey → List Packet

namespace SliceCache

variable (r : SliceCache)

def rpush (key : SliceKey) (slice : Packet) (times : ℕ) : SliceCache :=
  Function.update r key (r key ++ List.replicate times slice)

def blpop (key : SliceKey) : Option (Packet × SliceCache) :=
  match r key with
  | [] => none
  | slice :: rest => some (slice, Function.update r key rest)

/-- The fetch threads for packet `i`: one slice from each list. -/
def fetch (prevs : List (ℕ × ℕ)) (i : ℕ) : Option (List Packet × SliceCache) :=
  prevs.foldlM (fun s prev ↦ (s.2.blpop ⟨prev.2, prev.1, i⟩).map fun x ↦ (s.1 ++ [x.1], x.2)) ([], r)

end SliceCache

/-! ## Reading -/

/-- An object in the file system. A read may return less than is asked for, but something before the end. -/
structure UnderFile where
  bytes : List GF256
  /-- How much `pReadFile` reads at an offset, when it is asked for a number of bytes. -/
  count : ℕ → ℕ → ℕ
  count_le : ∀ off len, count off len ≤ min len (bytes.length - off)
  count_pos : ∀ off len, 0 < len → off < bytes.length → 0 < count off len

namespace UnderFile

def ofBytes (bytes : List GF256) : UnderFile where
  bytes := bytes
  count off len := min len (bytes.length - off)
  count_le _ _ := Nat.le_refl _
  count_pos off len hlen hoff := by omega

/-- The loop that fills a buffer. Every turn but the last reads something. -/
def readLoop (f : UnderFile) : ℕ → ℕ → ℕ → Packet
  | 0, _, _ => []
  | fuel + 1, off, len =>
    if f.count off len = 0 then []
    else (f.bytes.drop off).take (f.count off len) ++
      readLoop f fuel (off + f.count off len) (len - f.count off len)

/-- Fill a buffer of `len` bytes from an offset. -/
def readFully (f : UnderFile) (off len : ℕ) : Packet := f.readLoop len off len

theorem readLoop_eq (f : UnderFile) {fuel : ℕ} (off : ℕ) {len : ℕ} (hfuel : len ≤ fuel) :
    f.readLoop fuel off len = (f.bytes.drop off).take len := by
  induction fuel generalizing off len with
  | zero => rw [Nat.le_zero.mp hfuel, List.take_zero, readLoop]
  | succ fuel ih =>
    have hle := f.count_le off len
    have hpos := f.count_pos off len
    rw [readLoop]
    split_ifs with hzero
    · by_cases hlen : len = 0
      · rw [hlen, List.take_zero]
      · have hend : f.bytes.length ≤ off := by
          by_contra hoff
          exact Nat.ne_of_gt (hpos (Nat.pos_of_ne_zero hlen) (Nat.lt_of_not_le hoff)) hzero
        rw [List.drop_of_length_le hend, List.take_nil]
    · rw [ih _ (by omega), ← List.drop_drop, ← List.take_add]
      congr 1
      omega

/-- **Short reads make no difference.** -/
theorem readFully_eq (f : UnderFile) (off len : ℕ) : f.readFully off len = (f.bytes.drop off).take len :=
  f.readLoop_eq off (Nat.le_refl len)

end UnderFile

/-- `FSObjInputStream::readObj` for some of the slices of every packet. -/
def FSObjInputStream.readObj (pktSize : ℕ) (f : UnderFile) (w : ℕ) (list : List ℕ) (slicesize : ℕ) : List Packet :=
  if w = 1 then Storage.readObj pktSize f.bytes
  else
    let offsetlist := (list.map (· % w)).insertionSort (· ≤ ·)
    (List.range (f.bytes.length / pktSize)).flatMap fun stripeid ↦ offsetlist.flatMap fun offidx ↦
      let buf := f.readFully (stripeid * pktSize + offidx * slicesize) slicesize
      if buf = [] then [] else [buf]

/-- One turn of a worker that caches: take a slice from the queue, and push it as often as it is fetched. -/
def cacheSlice (ip : ℕ) (refs : RefMap) (i : ℕ) (s : List Packet × SliceCache) (cid : ℕ) :
    Option (List Packet × SliceCache) :=
  match s.1 with
  | [] => none
  | slice :: queue => some (queue, s.2.rpush ⟨ip, cid, i⟩ slice ((refs.lookup cid).getD 0).toNat)

def partialCacheWorker (cacheQueue : List Packet) (pktnum ip : ℕ) (idxlist : List ℕ) (refs : RefMap)
    (r : SliceCache) : Option SliceCache :=
  ((List.range pktnum).foldlM (fun s i ↦ idxlist.foldlM (cacheSlice ip refs i) s) (cacheQueue, r)).map Prod.snd

/-- One turn of `selectCacheWorker`: a slice that is not in the list is dropped. -/
def selectSlice (ip w : ℕ) (idxlist : List ℕ) (refs : RefMap) (i : ℕ) (s : List Packet × SliceCache) (j : ℕ) :
    Option (List Packet × SliceCache) :=
  match idxlist.find? (· % w = j) with
  | some cid => cacheSlice ip refs i s cid
  | none => if s.1 = [] then none else some (s.1.tail, s.2)

/-- `selectCacheWorker`, which takes `w` slices for every packet. -/
def selectCacheWorker (cacheQueue : List Packet) (pktnum ip w : ℕ) (idxlist : List ℕ) (refs : RefMap)
    (r : SliceCache) : Option SliceCache :=
  ((List.range pktnum).foldlM (fun s i ↦ (List.range w).foldlM (selectSlice ip w idxlist refs i) s)
    (cacheQueue, r)).map Prod.snd

def readDisk (pktSize w num ip : ℕ) (cidlist : List ℕ) (refs : RefMap) (f : UnderFile) (r : SliceCache) :
    Option SliceCache :=
  let cidlist := cidlist.insertionSort (· ≤ ·)
  let slicesize := pktSize / w
  if !exist f.bytes then some r
  else if w = 1 then selectCacheWorker (Storage.readObj slicesize f.bytes) num ip w cidlist refs r
  else partialCacheWorker (FSObjInputStream.readObj pktSize f w cidlist slicesize) num ip cidlist refs r

/-! ## Computing -/

/-- A call of `Computation::Multi`: the buffers it writes, those it reads, and the length. -/
structure MultiCall where
  dst : List Packet
  src : List Packet
  len : ℕ

namespace MultiCall

/-- Every buffer has the length it is used with. -/
def Safe (c : MultiCall) : Prop := ∀ buf ∈ c.src ++ c.dst, c.len ≤ buf.length

/-- What is in the buffers of the results. -/
def results (c : MultiCall) (coefs : CoefMap) : List (ℕ × Packet) :=
  coefs.entries.map fun row ↦
    (row.1, (List.range c.len).map fun pos ↦ dot row.2 (c.src.map fun buf ↦ buf.getD pos 0))

end MultiCall

/-- The size of the slices in `fetchCompute`, with the remainder if all that is fetched is a first slice. -/
def computeSize (pktSize w : ℕ) (prevs : List (ℕ × ℕ)) : ℕ :=
  pktSize / w + if prevs.all fun prev ↦ prev.1 % w = 0 then pktSize % w else 0

/-- What `fetchCompute` passes to `Computation::Multi` for a packet. -/
def multiCall (pktSize w : ℕ) (prevs : List (ℕ × ℕ)) (coefs : CoefMap) (data : List Packet) : MultiCall where
  dst := coefs.keys.map fun _ ↦ List.replicate (computeSize pktSize w prevs) 0
  src := data
  len := computeSize pktSize w prevs

/-- The cache threads of `fetchCompute` for packet `i`. -/
def cacheResults (ip : ℕ) (refs : RefMap) (i : ℕ) (results : List (ℕ × Packet)) (r : SliceCache) : SliceCache :=
  results.foldl (fun r res ↦ r.rpush ⟨ip, res.1, i⟩ res.2 ((refs.lookup res.1).getD 0).toNat) r

/-! ## Runs -/

/-- The state of a stripe. -/
structure SliceState where
  cache : SliceCache
  /-- The slices written to each object, packet by packet. -/
  objs : ℕ → List (List Packet)

/-- A command, or what it does for packet `i`. The objects have `num` packets. -/
def SliceState.step (pktSize w num : ℕ) (files : ℕ → UnderFile) (s : SliceState) :
    AGCommand × ℕ → Option SliceState
  | (.readDisk ip obj cidlist refs, _) =>
    (readDisk pktSize w num ip cidlist refs (files obj) s.cache).map fun r ↦ { s with cache := r }
  | (.fetchCompute ip prevs coefs refs, i) =>
    if i < num then
      (s.cache.fetch prevs i).map fun x ↦
        { s with cache := cacheResults ip refs i ((multiCall pktSize w prevs coefs x.1).results coefs) x.2 }
    else none
  | (.persist _ prevs obj, _) =>
    if prevs.length = w ∧ (s.objs obj).length < num then
      (s.cache.fetch prevs (s.objs obj).length).map fun x ↦
        ⟨x.2, Function.update s.objs obj (s.objs obj ++ [x.1])⟩
    else none

/-- The runs of the commands of a stripe, in any order and packet by packet. -/
def sliceSystem (pktSize w num : ℕ) (files : ℕ → UnderFile) : System SliceState (AGCommand × ℕ) where
  init s := s = ⟨fun _ ↦ [], fun _ ↦ []⟩
  next := SliceState.step pktSize w num files

theorem sliceSystem_next (pktSize w num : ℕ) (files : ℕ → UnderFile) (s : SliceState) (cmd : AGCommand × ℕ) :
    (sliceSystem pktSize w num files).next s cmd = s.step pktSize w num files cmd := rfl

/-! ## Nothing is lost -/

/-- An object of whole packets, smaller than `2 ^ 31` bytes. -/
def UnderFile.Whole (pktSize num : ℕ) (f : UnderFile) : Prop :=
  f.bytes.length = num * pktSize ∧ num * pktSize < 2 ^ 31

/-- The slices cached for a packet of a block make the packet. -/
def SlicesConcatenate (pktSize w : ℕ) : Prop :=
  ∀ (f : UnderFile) (num : ℕ), f.Whole pktSize num → ∀ (ip b : ℕ) (refs : RefMap),
    (∀ j < w, 0 < (refs.lookup (b * w + j)).getD 0) → ∀ cidlist : List ℕ,
    cidlist.Perm ((List.range w).map (b * w + ·)) → ∃ r : SliceCache,
      partialCacheWorker (FSObjInputStream.readObj pktSize f w (cidlist.insertionSort (· ≤ ·)) (pktSize / w)) num ip
        (cidlist.insertionSort (· ≤ ·)) refs (fun _ ↦ []) = some r ∧
      ∀ i < num, (List.range w).flatMap (fun j ↦ (r ⟨ip, b * w + j, i⟩).headD []) = piece pktSize i f.bytes

/-- In every run, what `fetchCompute` passes to `Computation::Multi` is long enough. -/
def MultiSafe (pktSize w : ℕ) : Prop :=
  ∀ (files : ℕ → UnderFile) (num : ℕ), (∀ obj, (files obj).Whole pktSize num) →
    ∀ s, (sliceSystem pktSize w num files).Reachable s → ∀ prevs i data r, s.cache.fetch prevs i = some (data, r) →
      ∀ coefs, (multiCall pktSize w prevs coefs data).Safe

/-- In every run, the packets written by `persist` have the size of a packet. -/
def RebuiltWhole (pktSize w : ℕ) : Prop :=
  ∀ (files : ℕ → UnderFile) (num : ℕ), (∀ obj, (files obj).Whole pktSize num) →
    ∀ s, (sliceSystem pktSize w num files).Reachable s → ∀ obj, ∀ slices ∈ s.objs obj,
      slices.flatten.length = pktSize

/-- Packets are cut and put together without loss. -/
structure Lossless (pktSize w : ℕ) : Prop where
  concatenate : SlicesConcatenate pktSize w
  safe : MultiSafe pktSize w
  rebuilt : RebuiltWhole pktSize w

/-! ## What is read and cached -/

def refTimes (refs : RefMap) (cid : ℕ) : ℕ := ((refs.lookup cid).getD 0).toNat

/-- The cache with one slice for each number of a list and each of the first `num` packets. -/
def cachedSlices (ip num : ℕ) (idxlist : List ℕ) (refs : RefMap) (slice : ℕ → ℕ → Packet) (r : SliceCache) :
    SliceCache := fun key ↦
  if key.ip = ip ∧ key.pkt < num ∧ key.cid ∈ idxlist then
    r key ++ List.replicate (refTimes refs key.cid) (slice key.pkt key.cid)
  else r key

theorem foldlM_cacheSlice {ip i : ℕ} {refs : RefMap} {slice : ℕ → Packet} {idxlist : List ℕ}
    (hnodup : idxlist.Nodup) (rest : List Packet) (r : SliceCache) :
    idxlist.foldlM (cacheSlice ip refs i) (idxlist.map slice ++ rest, r) = some (rest, fun key ↦
      if key.ip = ip ∧ key.pkt = i ∧ key.cid ∈ idxlist then
        r key ++ List.replicate (refTimes refs key.cid) (slice key.cid)
      else r key) := by
  induction idxlist generalizing r with
  | nil => simp [pure]
  | cons cid idxlist ih =>
    obtain ⟨hnot, hnodup⟩ := List.nodup_cons.mp hnodup
    rw [List.foldlM_cons, List.map_cons, List.cons_append]
    show (idxlist.foldlM (cacheSlice ip refs i)
      (idxlist.map slice ++ rest, r.rpush ⟨ip, cid, i⟩ (slice cid) (refTimes refs cid))) = _
    rw [ih hnodup]
    refine congrArg some (Prod.ext rfl (funext fun key ↦ ?_))
    obtain ⟨ip', cid', i'⟩ := key
    dsimp only
    by_cases hkey : (⟨ip', cid', i'⟩ : SliceKey) = ⟨ip, cid, i⟩
    · obtain ⟨rfl, rfl, rfl⟩ := SliceKey.mk.injEq .. ▸ hkey
      rw [if_neg fun h ↦ hnot h.2.2, if_pos ⟨rfl, rfl, List.mem_cons_self⟩, SliceCache.rpush, Function.update_self]
    · rw [SliceCache.rpush, Function.update_of_ne hkey]
      refine if_congr ?_ rfl rfl
      refine and_congr_right fun hip ↦ and_congr_right fun hi ↦ ?_
      rw [List.mem_cons, or_iff_right fun hcid ↦ hkey (by rw [hip, hi, hcid])]

/-- **A caching worker** that finds a slice for every number of its list and every packet. -/
theorem partialCacheWorker_eq {ip num : ℕ} {refs : RefMap} {slice : ℕ → ℕ → Packet} {idxlist : List ℕ}
    (hnodup : idxlist.Nodup) (r : SliceCache) :
    partialCacheWorker ((List.range num).flatMap fun i ↦ idxlist.map (slice i)) num ip idxlist refs r =
      some (cachedSlices ip num idxlist refs slice r) := by
  suffices hloop : ∀ rest : List Packet, (List.range num).foldlM
      (fun s i ↦ idxlist.foldlM (cacheSlice ip refs i) s)
      (((List.range num).flatMap fun i ↦ idxlist.map (slice i)) ++ rest, r) =
        some (rest, cachedSlices ip num idxlist refs slice r) by
    have := hloop []
    rw [List.append_nil] at this
    rw [partialCacheWorker, this]
    rfl
  induction num with
  | zero =>
    intro rest
    refine congrArg some (Prod.ext rfl (funext fun key ↦ ?_))
    exact (if_neg fun h ↦ Nat.not_lt_zero _ h.2.1).symm
  | succ num ih =>
    intro rest
    rw [List.range_succ, List.flatMap_append, List.flatMap_singleton, List.append_assoc, List.foldlM_append, ih,
      Option.bind_eq_bind, Option.bind_some, List.foldlM_cons, foldlM_cacheSlice hnodup]
    refine congrArg some (Prod.ext rfl (funext fun key ↦ ?_))
    unfold cachedSlices
    dsimp only
    by_cases hpkt : key.pkt = num
    · subst hpkt
      have hnot : ¬(key.ip = ip ∧ key.pkt < key.pkt ∧ key.cid ∈ idxlist) := fun h ↦ Nat.lt_irrefl _ h.2.1
      simp only [if_neg hnot]
      exact if_congr (by simp) rfl rfl
    · rw [if_neg fun h ↦ hpkt h.2.1]
      refine if_congr (and_congr_right fun _ ↦ and_congr_left fun _ ↦ ?_) rfl rfl
      omega

def sliceOf (pktSize w : ℕ) (f : UnderFile) (i cid : ℕ) : Packet :=
  (f.bytes.drop (i * pktSize + cid % w * (pktSize / w))).take (pktSize / w)

variable {pktSize w num : ℕ} {f : UnderFile}

theorem length_sliceOf (hw : 1 ≤ w) (hf : f.Whole pktSize num) {i : ℕ} (hi : i < num) (cid : ℕ) :
    (sliceOf pktSize w f i cid).length = pktSize / w := by
  have hoff : cid % w + 1 ≤ w := Nat.mod_lt cid hw
  have hend : (cid % w + 1) * (pktSize / w) ≤ pktSize :=
    (Nat.mul_le_mul_right _ hoff).trans (Nat.mul_div_le pktSize w)
  have hpkt : (i + 1) * pktSize ≤ num * pktSize := Nat.mul_le_mul_right pktSize hi
  rw [Nat.succ_mul] at hend hpkt
  rw [sliceOf, List.length_take, List.length_drop, hf.1]
  omega

theorem flatMap_sliceOf (b i : ℕ) :
    (List.range w).flatMap (fun j ↦ sliceOf pktSize w f i (b * w + j)) =
      (f.bytes.drop (i * pktSize)).take (w * (pktSize / w)) := by
  rw [← take_flatMap_piece, List.flatMap_def, List.flatMap_def]
  refine congrArg List.flatten (List.map_congr_left fun j hj ↦ ?_)
  rw [sliceOf, Nat.mul_add_mod_of_lt (List.mem_range.mp hj), piece, List.drop_drop]

theorem readPackets_eq (hpkt : 0 < pktSize) (hf : f.Whole pktSize num) (cid : ℕ) :
    Storage.readObj pktSize f.bytes = (List.range num).map fun i ↦ sliceOf pktSize 1 f i cid := by
  have hpiece : ∀ i, sliceOf pktSize 1 f i cid = piece pktSize i f.bytes := by
    intro i
    rw [sliceOf, Nat.mod_one, Nat.zero_mul, Nat.add_zero, Nat.div_one, piece]
  have hlen : ∀ p ∈ (List.range num).map (piece pktSize · f.bytes), p.length = pktSize := by
    intro p hp
    obtain ⟨i, hi, rfl⟩ := List.mem_map.mp hp
    exact length_piece hf.1 (List.mem_range.mp hi)
  have hslices := slices_flatten hpkt hlen
  rw [← List.flatMap_def, flatMap_piece hf.1] at hslices
  rw [Storage.readObj, hslices]
  exact List.map_congr_left fun i _ ↦ (hpiece i).symm

theorem readObj_eq (hw : 1 < w) (hwp : w ≤ pktSize) (hf : f.Whole pktSize num) (list : List ℕ) :
    FSObjInputStream.readObj pktSize f w list (pktSize / w) = (List.range num).flatMap fun i ↦
      ((list.map (· % w)).insertionSort (· ≤ ·)).map (sliceOf pktSize w f i) := by
  have hpkt : 0 < pktSize := by omega
  have hsize : 0 < pktSize / w := Nat.div_pos hwp (by omega)
  rw [FSObjInputStream.readObj, if_neg (by omega), hf.1, Nat.mul_div_cancel _ hpkt, List.flatMap_def,
    List.flatMap_def]
  refine congrArg List.flatten (List.map_congr_left fun i hi ↦ ?_)
  rw [← List.flatMap_pure_eq_map (sliceOf pktSize w f i), List.flatMap_def, List.flatMap_def]
  refine congrArg List.flatten (List.map_congr_left fun o ho ↦ ?_)
  -- An offset is below `w`, so the slice is within the packet.
  obtain ⟨cid, -, rfl⟩ := List.mem_map.mp ((List.mem_insertionSort _).mp ho)
  have hslice : f.readFully (i * pktSize + cid % w * (pktSize / w)) (pktSize / w) =
      sliceOf pktSize w f i (cid % w) := by
    rw [f.readFully_eq, sliceOf, Nat.mod_mod]
  have hne : sliceOf pktSize w f i (cid % w) ≠ [] := by
    intro hnil
    have hlen : (sliceOf pktSize w f i (cid % w)).length = pktSize / w :=
      length_sliceOf (Nat.le_of_lt hw) hf (List.mem_range.mp hi) (cid % w)
    rw [hnil, List.length_nil] at hlen
    omega
  dsimp only
  rw [hslice, if_neg hne]
  rfl

theorem readObj_block (hw : 1 ≤ w) (hwp : w ≤ pktSize) (hf : f.Whole pktSize num) (b : ℕ) :
    FSObjInputStream.readObj pktSize f w ((List.range w).map (b * w + ·)) (pktSize / w) =
      (List.range num).flatMap fun i ↦ ((List.range w).map (b * w + ·)).map (sliceOf pktSize w f i) := by
  obtain rfl | hw' := Nat.eq_or_lt_of_le hw
  · rw [FSObjInputStream.readObj, if_pos rfl, readPackets_eq (by omega) hf (b * 1 + 0), ← List.flatMap_pure_eq_map]
    rfl
  · have hoffsets : (((List.range w).map (b * w + ·)).map (· % w)) = List.range w := by
      rw [List.map_map]
      refine (List.map_congr_left fun j hj ↦ ?_).trans (List.map_id _)
      exact Nat.mul_add_mod_of_lt (List.mem_range.mp hj)
    rw [readObj_eq hw' hwp hf, hoffsets, List.Pairwise.insertionSort_eq (List.pairwise_le_range)]
    rw [List.flatMap_def, List.flatMap_def]
    refine congrArg List.flatten (List.map_congr_left fun i _ ↦ ?_)
    rw [List.map_map]
    refine List.map_congr_left fun j hj ↦ ?_
    rw [Function.comp_apply, sliceOf, sliceOf, Nat.mul_add_mod_of_lt (List.mem_range.mp hj),
      Nat.mod_eq_of_lt (List.mem_range.mp hj)]

theorem insertionSort_block {cidlist : List ℕ} {b : ℕ} (h : cidlist.Perm ((List.range w).map (b * w + ·))) :
    cidlist.insertionSort (· ≤ ·) = (List.range w).map (b * w + ·) := by
  have hsorted : ((List.range w).map (b * w + ·)).Pairwise (· ≤ ·) := by
    rw [List.pairwise_map]
    exact List.pairwise_le_range.imp fun hle ↦ Nat.add_le_add_left hle _
  exact ((List.perm_insertionSort _ cidlist).trans h).eq_of_pairwise
    (fun _ _ _ _ hab hba ↦ Nat.le_antisymm hab hba) (List.pairwise_insertionSort _ _) hsorted

theorem nodup_block (w b : ℕ) : ((List.range w).map (b * w + ·)).Nodup :=
  List.nodup_range.map fun _ _ h ↦ Nat.add_left_cancel h

theorem partialCacheWorker_block (hw : 1 ≤ w) (hwp : w ≤ pktSize) (hf : f.Whole pktSize num) (ip b : ℕ)
    (refs : RefMap) {cidlist : List ℕ} (h : cidlist.Perm ((List.range w).map (b * w + ·))) (r : SliceCache) :
    partialCacheWorker (FSObjInputStream.readObj pktSize f w (cidlist.insertionSort (· ≤ ·)) (pktSize / w)) num ip
      (cidlist.insertionSort (· ≤ ·)) refs r =
        some (cachedSlices ip num ((List.range w).map (b * w + ·)) refs (sliceOf pktSize w f) r) := by
  rw [insertionSort_block h, readObj_block hw hwp hf]
  exact partialCacheWorker_eq (nodup_block w b) r

theorem cachedSlices_block {ip i j b : ℕ} {refs : RefMap} (hi : i < num) (hj : j < w)
    (href : 0 < (refs.lookup (b * w + j)).getD 0) : ∃ rest : List Packet,
      cachedSlices ip num ((List.range w).map (b * w + ·)) refs (sliceOf pktSize w f) (fun _ ↦ [])
        ⟨ip, b * w + j, i⟩ = sliceOf pktSize w f i (b * w + j) :: rest := by
  have htimes : 0 < refTimes refs (b * w + j) := Int.pos_iff_toNat_pos.mp href
  refine ⟨List.replicate (refTimes refs (b * w + j) - 1) (sliceOf pktSize w f i (b * w + j)), ?_⟩
  rw [cachedSlices, if_pos ⟨rfl, hi, List.mem_map.mpr ⟨j, List.mem_range.mpr hj, rfl⟩⟩, List.nil_append,
    ← List.replicate_succ, Nat.sub_add_cancel htimes]

/-! ## The slices make the packet -/

/-- **The slices cached for a packet leave its last bytes out.** -/
theorem flatMap_cached {ip i b : ℕ} {refs : RefMap} (hi : i < num)
    (href : ∀ j < w, 0 < (refs.lookup (b * w + j)).getD 0) :
    (List.range w).flatMap (fun j ↦
      (cachedSlices ip num ((List.range w).map (b * w + ·)) refs (sliceOf pktSize w f) (fun _ ↦ [])
        ⟨ip, b * w + j, i⟩).headD []) = (f.bytes.drop (i * pktSize)).take (w * (pktSize / w)) := by
  rw [← flatMap_sliceOf b, List.flatMap_def, List.flatMap_def]
  refine congrArg List.flatten (List.map_congr_left fun j hj ↦ ?_)
  obtain ⟨rest, hrest⟩ : ∃ rest : List Packet, _ = sliceOf pktSize w f i (b * w + j) :: rest :=
    cachedSlices_block hi (List.mem_range.mp hj) (href j (List.mem_range.mp hj))
  rw [hrest]
  rfl

/-- One reference for each sub-packet of the first block. -/
def onceRefs (w : ℕ) : RefMap where
  entries := (List.range w).map fun j ↦ ⟨j, 1⟩
  nodupKeys := by
    rw [List.nodupKeys_iff_pairwise, List.pairwise_map]
    exact List.nodup_range

theorem onceRefs_pos {j : ℕ} (hj : j < w) : 0 < ((onceRefs w).lookup j).getD 0 := by
  have hlookup : (onceRefs w).lookup j = some 1 :=
    AList.mem_lookup_iff.mpr (List.mem_map.mpr ⟨j, List.mem_range.mpr hj, rfl⟩)
  rw [hlookup]
  exact Int.one_pos

def onePacket (pktSize : ℕ) : UnderFile := UnderFile.ofBytes (List.replicate pktSize 0)

theorem whole_onePacket (hpkt : pktSize < 2 ^ 31) : (onePacket pktSize).Whole pktSize 1 := by
  refine ⟨?_, by rwa [Nat.one_mul]⟩
  rw [Nat.one_mul]
  exact List.length_replicate

theorem dvd_of_mul_div (h : w * (pktSize / w) = pktSize) : w ∣ pktSize := ⟨_, h.symm⟩

/-- The slices make the packet if and only if there are no bytes left over. -/
theorem slicesConcatenate_iff (hpkt : pktSize < 2 ^ 31) (hw : 1 ≤ w) (hwp : w ≤ pktSize) :
    SlicesConcatenate pktSize w ↔ w ∣ pktSize := by
  constructor
  · intro h
    have href : ∀ j < w, 0 < ((onceRefs w).lookup (0 * w + j)).getD 0 := by
      intro j hj
      rw [Nat.zero_mul, Nat.zero_add]
      exact onceRefs_pos hj
    have hf := whole_onePacket hpkt
    obtain ⟨r, hr, hpackets⟩ := h _ 1 hf 0 0 (onceRefs w) href _ (List.Perm.refl _)
    rw [partialCacheWorker_block hw hwp hf 0 0 _ (List.Perm.refl _)] at hr
    cases hr
    have hlen := congrArg List.length (hpackets 0 Nat.one_pos)
    rw [flatMap_cached Nat.one_pos href, length_piece hf.1 Nat.one_pos, List.length_take, List.length_drop, hf.1,
      Nat.zero_mul, Nat.sub_zero, Nat.one_mul, Nat.min_eq_left (Nat.mul_div_le pktSize w)] at hlen
    exact dvd_of_mul_div hlen
  · rintro hdvd f num hf ip b refs href cidlist hcids
    refine ⟨_, partialCacheWorker_block hw hwp hf ip b refs hcids _, fun i hi ↦ ?_⟩
    rw [flatMap_cached hi href, Nat.mul_div_cancel' hdvd, piece]

/-! ## A run that loads a block -/

theorem SliceCache.fetch_eq {i : ℕ} {slice : ℕ × ℕ → Packet} {prevs : List (ℕ × ℕ)} (hnodup : prevs.Nodup)
    {r : SliceCache} (h : ∀ prev ∈ prevs, ∃ rest, r ⟨prev.2, prev.1, i⟩ = slice prev :: rest) :
    ∃ r' : SliceCache, r.fetch prevs i = some (prevs.map slice, r') := by
  suffices hloop : ∀ (acc : List Packet) (r : SliceCache),
      (∀ prev ∈ prevs, ∃ rest, r ⟨prev.2, prev.1, i⟩ = slice prev :: rest) → ∃ r' : SliceCache,
        prevs.foldlM (fun s prev ↦ (s.2.blpop ⟨prev.2, prev.1, i⟩).map fun x ↦ (s.1 ++ [x.1], x.2)) (acc, r) =
          some (acc ++ prevs.map slice, r') from hloop [] r h
  clear h
  induction prevs with
  | nil => exact fun acc r _ ↦ ⟨r, by rw [List.map_nil, List.append_nil]; rfl⟩
  | cons prev prevs ih =>
    intro acc r hall
    obtain ⟨hnot, hnodup⟩ := List.nodup_cons.mp hnodup
    obtain ⟨rest, hrest⟩ := hall prev List.mem_cons_self
    have hpop : r.blpop ⟨prev.2, prev.1, i⟩ =
        some (slice prev, Function.update r ⟨prev.2, prev.1, i⟩ rest) := by
      rw [SliceCache.blpop, hrest]
    have hothers : ∀ prev' ∈ prevs, ∃ rest', Function.update r ⟨prev.2, prev.1, i⟩ rest ⟨prev'.2, prev'.1, i⟩ =
        slice prev' :: rest' := by
      intro prev' hmem
      rw [Function.update_of_ne]
      · exact hall prev' (List.mem_cons_of_mem _ hmem)
      · intro hkey
        obtain ⟨h2, h1, -⟩ := SliceKey.mk.injEq .. ▸ hkey
        exact hnot (Prod.ext h1 h2 ▸ hmem)
    obtain ⟨r', hr'⟩ := ih hnodup (acc ++ [slice prev]) _ hothers
    refine ⟨r', ?_⟩
    rw [List.foldlM_cons, hpop, List.map_cons, List.append_cons]
    exact hr'

/-- The command that loads the first block. -/
def loadBlock (w : ℕ) : AGCommand := .readDisk 0 0 ((List.range w).map (0 * w + ·)) (onceRefs w)

/-- The state behind it, for objects of one packet. -/
def loadedState (pktSize w : ℕ) : SliceState where
  cache := cachedSlices 0 1 ((List.range w).map (0 * w + ·)) (onceRefs w) (sliceOf pktSize w (onePacket pktSize))
    fun _ ↦ []
  objs _ := []

theorem reachable_loadedState (hpkt : pktSize < 2 ^ 31) (hw : 1 < w) (hwp : w ≤ pktSize) :
    (sliceSystem pktSize w 1 fun _ ↦ onePacket pktSize).Reachable (loadedState pktSize w) := by
  have hexist : exist (onePacket pktSize).bytes = true := by
    have hne : List.replicate pktSize (0 : GF256) ≠ [] := by
      rw [Ne, List.replicate_eq_nil_iff]
      omega
    cases hb : List.replicate pktSize (0 : GF256) with
    | nil => exact absurd hb hne
    | cons => rw [onePacket, UnderFile.ofBytes, hb]; rfl
  have hload : readDisk pktSize w 1 0 ((List.range w).map (0 * w + ·)) (onceRefs w) (onePacket pktSize)
      (fun _ ↦ []) = some (loadedState pktSize w).cache := by
    rw [readDisk, hexist, if_neg (by simp), if_neg (by omega)]
    exact partialCacheWorker_block (Nat.le_of_lt hw) hwp (whole_onePacket hpkt) 0 0 _ (List.Perm.refl _) _
  refine .step (l := (loadBlock w, 0)) (.init rfl) trivial ?_
  show (readDisk pktSize w 1 0 _ _ _ _).map _ = _
  rw [hload]
  rfl

theorem loadedState_fetch (pktSize : ℕ) (js : List ℕ) (hjs : ∀ j ∈ js, j < w) (hnodup : js.Nodup) : ∃ r : SliceCache,
    (loadedState pktSize w).cache.fetch (js.map fun j ↦ (j, 0)) 0 =
      some ((js.map fun j ↦ (j, 0)).map fun prev ↦ sliceOf pktSize w (onePacket pktSize) 0 prev.1, r) := by
  refine SliceCache.fetch_eq (hnodup.map fun _ _ h ↦ congrArg Prod.fst h) fun prev hprev ↦ ?_
  obtain ⟨j, hj, rfl⟩ := List.mem_map.mp hprev
  have href : 0 < ((onceRefs w).lookup (0 * w + j)).getD 0 := by
    rw [Nat.zero_mul, Nat.zero_add]
    exact onceRefs_pos (hjs j hj)
  have hcached : ∃ rest : List Packet, (loadedState pktSize w).cache ⟨0, 0 * w + j, 0⟩ =
      sliceOf pktSize w (onePacket pktSize) 0 (0 * w + j) :: rest := cachedSlices_block Nat.one_pos (hjs j hj) href
  rw [Nat.zero_mul, Nat.zero_add] at hcached
  exact hcached

/-! ## The lengths of the slices -/

def SliceCache.Holds (Q : Packet → Prop) (r : SliceCache) : Prop := ∀ key, ∀ slice ∈ r key, Q slice

section Holds

variable {Q : Packet → Prop} {r : SliceCache}

theorem SliceCache.Holds.rpush (h : r.Holds Q) {slice : Packet} (hslice : Q slice) (key : SliceKey) (times : ℕ) :
    (r.rpush key slice times).Holds Q := by
  intro key' slice' hmem
  by_cases hkey : key' = key
  · subst hkey
    rw [SliceCache.rpush, Function.update_self, List.mem_append] at hmem
    rcases hmem with hmem | hmem
    · exact h _ _ hmem
    · rw [List.eq_of_mem_replicate hmem]
      exact hslice
  · rw [SliceCache.rpush, Function.update_of_ne hkey] at hmem
    exact h _ _ hmem

theorem SliceCache.Holds.fetch (h : r.Holds Q) {prevs : List (ℕ × ℕ)} {i : ℕ} {data : List Packet} {r' : SliceCache}
    (hr : r.fetch prevs i = some (data, r')) : r'.Holds Q ∧ (∀ slice ∈ data, Q slice) ∧ data.length = prevs.length := by
  suffices hloop : ∀ (acc : List Packet) (r : SliceCache), r.Holds Q → (∀ slice ∈ acc, Q slice) →
      prevs.foldlM (fun s prev ↦ (s.2.blpop ⟨prev.2, prev.1, i⟩).map fun x ↦ (s.1 ++ [x.1], x.2)) (acc, r) =
        some (data, r') → r'.Holds Q ∧ (∀ slice ∈ data, Q slice) ∧ data.length = acc.length + prevs.length by
    have := hloop [] r h (fun _ hmem ↦ absurd hmem List.not_mem_nil) hr
    rwa [List.length_nil, Nat.zero_add] at this
  clear hr h
  induction prevs with
  | nil =>
    intro acc r h hacc hr
    cases hr
    exact ⟨h, hacc, rfl⟩
  | cons prev prevs ih =>
    intro acc r h hacc hr
    rw [List.foldlM_cons] at hr
    obtain ⟨s, hs, hr⟩ := Option.bind_eq_some_iff.mp hr
    obtain ⟨x, hx, rfl⟩ := Option.map_eq_some_iff.mp hs
    rw [SliceCache.blpop] at hx
    dsimp only at hx
    cases hlist : r ⟨prev.2, prev.1, i⟩ with
    | nil =>
      rw [hlist] at hx
      cases hx
    | cons slice rest =>
      rw [hlist] at hx
      cases hx
      have hhead : ∀ slice' ∈ slice :: rest, Q slice' := hlist ▸ h ⟨prev.2, prev.1, i⟩
      have hcache : SliceCache.Holds Q (Function.update r ⟨prev.2, prev.1, i⟩ rest) := by
        intro key slice' hmem
        by_cases hkey : key = ⟨prev.2, prev.1, i⟩
        · subst hkey
          rw [Function.update_self] at hmem
          exact hhead slice' (List.mem_cons_of_mem _ hmem)
        · rw [Function.update_of_ne hkey] at hmem
          exact h _ _ hmem
      have hacc' : ∀ slice' ∈ acc ++ [slice], Q slice' := by
        intro slice' hmem
        rcases List.mem_append.mp hmem with hmem | hmem
        · exact hacc slice' hmem
        · rw [List.mem_singleton.mp hmem]
          exact hhead slice List.mem_cons_self
      obtain ⟨h₁, h₂, h₃⟩ := ih _ _ hcache hacc' hr
      refine ⟨h₁, h₂, ?_⟩
      rw [h₃, List.length_append, List.length_singleton, List.length_cons]
      omega

theorem SliceCache.Holds.cacheSlice {ip i cid : ℕ} {refs : RefMap} {s s' : List Packet × SliceCache}
    (h : (∀ slice ∈ s.1, Q slice) ∧ s.2.Holds Q) (hs : cacheSlice ip refs i s cid = some s') :
    (∀ slice ∈ s'.1, Q slice) ∧ s'.2.Holds Q := by
  obtain ⟨queue, r⟩ := s
  cases queue with
  | nil => cases hs
  | cons slice queue =>
    cases hs
    exact ⟨fun slice' hmem ↦ h.1 slice' (List.mem_cons_of_mem _ hmem), h.2.rpush (h.1 slice List.mem_cons_self) _ _⟩

theorem SliceCache.Holds.partialCacheWorker (h : r.Holds Q) {queue : List Packet} (hqueue : ∀ slice ∈ queue, Q slice)
    {pktnum ip : ℕ} {idxlist : List ℕ} {refs : RefMap} {r' : SliceCache}
    (hr : partialCacheWorker queue pktnum ip idxlist refs r = some r') : r'.Holds Q := by
  obtain ⟨s, hs, rfl⟩ := Option.map_eq_some_iff.mp hr
  refine (Fold.foldlM_invariant (I := fun s ↦ (∀ slice ∈ s.1, Q slice) ∧ SliceCache.Holds Q s.2)
    (fun i _ s s' hI hs ↦ ?_) ⟨hqueue, h⟩ hs).2
  exact Fold.foldlM_invariant (fun _ _ _ _ hI hs ↦ SliceCache.Holds.cacheSlice hI hs) hI hs

theorem SliceCache.Holds.selectCacheWorker (h : r.Holds Q) {queue : List Packet} (hqueue : ∀ slice ∈ queue, Q slice)
    {pktnum ip : ℕ} {idxlist : List ℕ} {refs : RefMap} {r' : SliceCache}
    (hr : selectCacheWorker queue pktnum ip w idxlist refs r = some r') : r'.Holds Q := by
  obtain ⟨s, hs, rfl⟩ := Option.map_eq_some_iff.mp hr
  refine (Fold.foldlM_invariant (I := fun s ↦ (∀ slice ∈ s.1, Q slice) ∧ SliceCache.Holds Q s.2)
    (fun i _ s s' hI hs ↦ ?_) ⟨hqueue, h⟩ hs).2
  refine Fold.foldlM_invariant (I := fun s ↦ (∀ slice ∈ s.1, Q slice) ∧ SliceCache.Holds Q s.2)
    (fun j _ s s' hI hs ↦ ?_) hI hs
  unfold selectSlice at hs
  split at hs
  · exact SliceCache.Holds.cacheSlice hI hs
  · split_ifs at hs
    cases hs
    exact ⟨fun slice hmem ↦ hI.1 slice (List.mem_of_mem_tail hmem), hI.2⟩

theorem SliceCache.Holds.cacheResults (h : r.Holds Q) {results : List (ℕ × Packet)}
    (hresults : ∀ res ∈ results, Q res.2) (ip i : ℕ) (refs : RefMap) : (cacheResults ip refs i results r).Holds Q := by
  unfold PacketSlices.cacheResults
  induction results generalizing r with
  | nil => exact h
  | cons res results ih =>
    exact ih (h.rpush (hresults res List.mem_cons_self) _ _)
      fun res' hmem ↦ hresults res' (List.mem_cons_of_mem _ hmem)

end Holds

theorem length_of_mem_readObj (hw : 1 < w) (hwp : w ≤ pktSize) (hf : f.Whole pktSize num) {list : List ℕ}
    {slice : Packet} (h : slice ∈ FSObjInputStream.readObj pktSize f w list (pktSize / w)) :
    slice.length = pktSize / w := by
  rw [readObj_eq hw hwp hf, List.mem_flatMap] at h
  obtain ⟨i, hi, h⟩ := h
  obtain ⟨cid, -, rfl⟩ := List.mem_map.mp h
  exact length_sliceOf (Nat.le_of_lt hw) hf (List.mem_range.mp hi) cid

theorem SliceCache.Holds.readDisk {r r' : SliceCache} (h : r.Holds fun slice ↦ slice.length = pktSize / w)
    (hw : 1 ≤ w) (hwp : w ≤ pktSize) (hf : f.Whole pktSize num) {ip : ℕ} {cidlist : List ℕ} {refs : RefMap}
    (hr : readDisk pktSize w num ip cidlist refs f r = some r') :
    r'.Holds fun slice ↦ slice.length = pktSize / w := by
  unfold PacketSlices.readDisk at hr
  dsimp only at hr
  split_ifs at hr with hexist hone
  · cases hr
    exact h
  · refine h.selectCacheWorker (fun slice hmem ↦ ?_) hr
    subst hone
    rw [Nat.div_one] at hmem ⊢
    rw [readPackets_eq (by omega) hf 0] at hmem
    obtain ⟨i, hi, rfl⟩ := List.mem_map.mp hmem
    rw [length_sliceOf (Nat.le_refl 1) hf (List.mem_range.mp hi), Nat.div_one]
  · exact h.partialCacheWorker (fun slice hmem ↦ length_of_mem_readObj (by omega) hwp hf hmem) hr

/-- Where nothing is left over, all slices of a stripe have one size. -/
structure SliceState.Even (pktSize w : ℕ) (s : SliceState) : Prop where
  cache : s.cache.Holds fun slice ↦ slice.length = pktSize / w
  objs : ∀ obj, ∀ slices ∈ s.objs obj, slices.length = w ∧ ∀ slice ∈ slices, slice.length = pktSize / w

theorem computeSize_of_dvd (hdvd : w ∣ pktSize) (prevs : List (ℕ × ℕ)) : computeSize pktSize w prevs = pktSize / w := by
  rw [computeSize, Nat.mod_eq_zero_of_dvd hdvd, ite_self, Nat.add_zero]

/-- **A command keeps the slices even.** -/
theorem SliceState.Even.step {files : ℕ → UnderFile} (hfiles : ∀ obj, (files obj).Whole pktSize num) (hw : 1 ≤ w)
    (hwp : w ≤ pktSize) (hdvd : w ∣ pktSize) {s s' : SliceState} (h : s.Even pktSize w) {cmd : AGCommand × ℕ}
    (hs : s.step pktSize w num files cmd = some s') : s'.Even pktSize w := by
  obtain ⟨cmd, i⟩ := cmd
  cases cmd with
  | readDisk ip obj cidlist refs =>
    obtain ⟨r, hr, rfl⟩ := Option.map_eq_some_iff.mp hs
    exact ⟨h.cache.readDisk hw hwp (hfiles obj) hr, h.objs⟩
  | fetchCompute ip prevs coefs refs =>
    rw [SliceState.step] at hs
    split_ifs at hs
    obtain ⟨x, hx, rfl⟩ := Option.map_eq_some_iff.mp hs
    obtain ⟨hcache, -, -⟩ := h.cache.fetch hx
    refine ⟨hcache.cacheResults (fun res hres ↦ ?_) ip i refs, h.objs⟩
    obtain ⟨row, -, rfl⟩ := List.mem_map.mp hres
    rw [List.length_map, List.length_range]
    exact computeSize_of_dvd hdvd prevs
  | persist ip prevs obj =>
    rw [SliceState.step] at hs
    split_ifs at hs with hprevs
    obtain ⟨x, hx, rfl⟩ := Option.map_eq_some_iff.mp hs
    obtain ⟨hcache, hdata, hlen⟩ := h.cache.fetch hx
    refine ⟨hcache, fun obj' slices hslices ↦ ?_⟩
    dsimp only at hslices
    by_cases hobj : obj' = obj
    · subst hobj
      rw [Function.update_self, List.mem_append, List.mem_singleton] at hslices
      rcases hslices with hslices | rfl
      · exact h.objs _ _ hslices
      · exact ⟨hlen.trans hprevs.1, hdata⟩
    · rw [Function.update_of_ne hobj] at hslices
      exact h.objs _ _ hslices

theorem even_of_reachable {files : ℕ → UnderFile} (hfiles : ∀ obj, (files obj).Whole pktSize num) (hw : 1 ≤ w)
    (hwp : w ≤ pktSize) (hdvd : w ∣ pktSize) {s : SliceState} (h : (sliceSystem pktSize w num files).Reachable s) :
    s.Even pktSize w := by
  refine h.invariant (fun s hinit ↦ ?_) fun s cmd s' hs hstep ↦ hs.step hfiles hw hwp hdvd hstep
  obtain rfl : s = ⟨fun _ ↦ [], fun _ ↦ []⟩ := hinit
  exact ⟨fun _ _ h ↦ absurd h List.not_mem_nil, fun _ _ h ↦ absurd h List.not_mem_nil⟩

/-! ## When nothing is lost -/

/-- The buffers are long enough if and only if there are no bytes left over: a computation from one first
slice reads behind its end. -/
theorem multiSafe_iff (hpkt : pktSize < 2 ^ 31) (hw : 1 ≤ w) (hwp : w ≤ pktSize) :
    MultiSafe pktSize w ↔ w ∣ pktSize := by
  constructor
  · intro h
    obtain rfl | hw' := Nat.eq_or_lt_of_le hw
    · exact one_dvd _
    · obtain ⟨r, hr⟩ := loadedState_fetch pktSize [0]
        (fun j hj ↦ by rw [List.mem_singleton.mp hj]; exact hw) (List.nodup_singleton 0)
      have hsafe := h _ 1 (fun _ ↦ whole_onePacket hpkt) _ (reachable_loadedState hpkt hw' hwp) _ 0 _ r hr ∅
      have hlong := hsafe _ (List.mem_append_left _ List.mem_cons_self)
      have hsize : computeSize pktSize w ([0].map fun j ↦ (j, 0)) = pktSize / w + pktSize % w := by
        simp [computeSize]
      rw [length_sliceOf hw (whole_onePacket hpkt) Nat.one_pos] at hlong
      replace hlong : computeSize pktSize w ([0].map fun j ↦ (j, 0)) ≤ pktSize / w := hlong
      rw [hsize] at hlong
      exact Nat.dvd_of_mod_eq_zero (by omega)
  · intro hdvd files num hfiles s hs prevs i data r hfetch coefs
    have heven := even_of_reachable hfiles hw hwp hdvd hs
    obtain ⟨-, hdata, -⟩ := heven.cache.fetch hfetch
    intro buf hbuf
    show computeSize pktSize w prevs ≤ buf.length
    rcases List.mem_append.mp hbuf with hbuf | hbuf
    · rw [computeSize_of_dvd hdvd, hdata buf hbuf]
    · obtain ⟨_, -, rfl⟩ := List.mem_map.mp hbuf
      rw [List.length_replicate]

/-- Rebuilt packets have the size of a packet if and only if there are no bytes left over. -/
theorem rebuiltWhole_iff (hpkt : pktSize < 2 ^ 31) (hw : 1 ≤ w) (hwp : w ≤ pktSize) :
    RebuiltWhole pktSize w ↔ w ∣ pktSize := by
  constructor
  · intro h
    obtain rfl | hw' := Nat.eq_or_lt_of_le hw
    · exact one_dvd _
    · -- A block that is read and written again.
      obtain ⟨r, hr⟩ := loadedState_fetch pktSize (List.range w)
        (fun j hj ↦ List.mem_range.mp hj) List.nodup_range
      generalize hdata : ((List.range w).map fun j ↦ (j, 0)).map
        (fun prev ↦ sliceOf pktSize w (onePacket pktSize) 0 prev.1) = data at hr
      have hstep : (sliceSystem pktSize w 1 fun _ ↦ onePacket pktSize).next (loadedState pktSize w)
          (.persist 0 ((List.range w).map fun j ↦ (j, 0)) 0, 0) =
            some ⟨r, Function.update (fun _ ↦ []) 0 [data]⟩ := by
        rw [sliceSystem_next, SliceState.step, if_pos ⟨by rw [List.length_map, List.length_range], Nat.one_pos⟩]
        show ((loadedState pktSize w).cache.fetch _ 0).map _ = _
        rw [hr]
        rfl
      have hreach : (sliceSystem pktSize w 1 fun _ ↦ onePacket pktSize).Reachable
          ⟨r, Function.update (fun _ ↦ []) 0 [data]⟩ :=
        .step (reachable_loadedState hpkt hw' hwp) trivial hstep
      have hlen := h _ 1 (fun _ ↦ whole_onePacket hpkt) _ hreach 0 data (by simp)
      have hslices : ∀ slice ∈ data, slice.length = pktSize / w := by
        rw [← hdata]
        intro slice hslice
        obtain ⟨prev, -, rfl⟩ := List.mem_map.mp hslice
        exact length_sliceOf hw (whole_onePacket hpkt) Nat.one_pos _
      rw [length_flatten_of_forall hslices, ← hdata, List.length_map, List.length_map, List.length_range] at hlen
      exact dvd_of_mul_div hlen
  · intro hdvd files num hfiles s hs obj slices hslices
    obtain ⟨hlen, hsize⟩ := (even_of_reachable hfiles hw hwp hdvd hs).objs obj slices hslices
    rw [length_flatten_of_forall hsize, hlen, Nat.mul_div_cancel' hdvd]

/-- **Packets are cut and put together without loss if and only if the sub-packetisation divides the packet
size.** -/
theorem lossless_iff (hpkt : pktSize < 2 ^ 31) (hw : 1 ≤ w) (hwp : w ≤ pktSize) :
    Lossless pktSize w ↔ w ∣ pktSize :=
  ⟨fun h ↦ (slicesConcatenate_iff hpkt hw hwp).mp h.concatenate, fun hdvd ↦
    ⟨(slicesConcatenate_iff hpkt hw hwp).mpr hdvd, (multiSafe_iff hpkt hw hwp).mpr hdvd,
      (rebuiltWhole_iff hpkt hw hwp).mpr hdvd⟩⟩

theorem lossless_iff_mebibyte : Lossless 1048576 4 ↔ 4 ∣ 1048576 :=
  lossless_iff (by decide) (by decide) (by decide)

/-- A packet of four bytes in three slices: the last byte is not cached, a computation from the first slice
reads behind its end, and a packet rebuilt from the three slices has three bytes. -/
theorem not_lossless_fourThree : ¬SlicesConcatenate 4 3 ∧ ¬MultiSafe 4 3 ∧ ¬RebuiltWhole 4 3 ∧ ¬Lossless 4 3 := by
  have hno : ¬3 ∣ 4 := by decide
  refine ⟨?_, ?_, ?_, fun h ↦ ?_⟩
  · rwa [slicesConcatenate_iff (by decide) (by decide) (by decide)]
  · rwa [multiSafe_iff (by decide) (by decide) (by decide)]
  · rwa [rebuiltWhole_iff (by decide) (by decide) (by decide)]
  · exact hno ((slicesConcatenate_iff (by decide) (by decide) (by decide)).mp h.concatenate)

end UniDedup.Storage.PacketSlices
