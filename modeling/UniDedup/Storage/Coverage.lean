import UniDedup.Storage.AGCommand
import UniDedup.Storage.OnlineRoundTrip

/-!
# How much of the objects the agents encode and repair

The coordinator puts one number of packets into all commands of an operation. A load takes that many packets of
its object, and waits forever when the object has less; so many packets are computed, and so many are written.

As in the reads of files, a command that waits for what never comes is `none`. The commands wait for what they
fetch, so the order they are run in does not matter: the loads come first here.

## The proof

The objects are described by their packets (`Stored`). All loads end if each object that is loaded has enough of
them, and then they fill the caches with known slices (`foldlM_runLoad`); the commands that compute are, slice by
slice, those on one byte of each block; and `persist_eq` puts the slices together again. Otherwise some load does
not end, and nothing is written at all.
-/

namespace UniDedup.Storage

open ECDAG Fold Slices

/-! ## The commands at an agent -/

/-- The slices that are cached, by packet and by sub-packet. -/
abbrev SliceCache := ℕ → ℕ → Option Packet

/-- `FSObjInputStream::readObj` of some slices of every packet. -/
def readSlices (pktSize w : ℕ) (list : List ℕ) (obj : List GF256) : List Packet :=
  let slicesize := pktSize / w
  let offsetlist := (list.map (· % w)).insertionSort (· ≤ ·)
  ((List.range (obj.length / pktSize)).flatMap fun stripeid ↦ offsetlist.map fun offidx ↦
    (obj.drop (stripeid * pktSize + offidx * slicesize)).take slicesize).filter (!·.isEmpty)

def selectCacheWorker (cacheQueue : List Packet) (pktnum w : ℕ) (idxlist : List ℕ) (r : SliceCache) :
    Option SliceCache :=
  if pktnum * w ≤ cacheQueue.length then
    some fun i cid ↦ if i < pktnum ∧ cid ∈ idxlist then cacheQueue[i * w + cid % w]? else r i cid
  else none

def partialCacheWorker (cacheQueue : List Packet) (pktnum : ℕ) (idxlist : List ℕ) (r : SliceCache) :
    Option SliceCache :=
  if pktnum * idxlist.length ≤ cacheQueue.length then
    some fun i cid ↦
      if i < pktnum ∧ cid ∈ idxlist then cacheQueue[i * idxlist.length + idxlist.idxOf cid]? else r i cid
  else none

/-- `readDisk`. Nothing is cached when the object is not there. -/
def readDisk (pktSize w num : ℕ) (obj : List GF256) (cidlist : List ℕ) (r : SliceCache) : Option SliceCache :=
  let cids := cidlist.insertionSort (· ≤ ·)
  if !exist obj then some r
  else if w = 1 then selectCacheWorker (readObj pktSize obj) num w cids r
  else partialCacheWorker (readSlices pktSize w cids obj) num cids r

/-- The bytes at one position of the slices of one packet. -/
abbrev ByteCache := ℕ → Option GF256

/-- `fetchCompute`, for one byte of the slices. -/
def fetchCompute (prevs : List (ℕ × ℕ)) (coefs : CoefMap) (r : ByteCache) : Option ByteCache :=
  (prevs.mapM fun prev ↦ r prev.1).map fun vs id ↦ (coefs.lookup id).elim (r id) fun co ↦ some (dot co vs)

namespace AGCommand

def runLoad (pktSize w num : ℕ) (objs : ℕ → List GF256) (r : SliceCache) : AGCommand → Option SliceCache
  | readDisk _ obj cids _ => UniDedup.Storage.readDisk pktSize w num (objs obj) cids r
  | _ => some r

def runCompute (r : ByteCache) : AGCommand → Option ByteCache
  | fetchCompute _ prevs coefs _ => UniDedup.Storage.fetchCompute prevs coefs r
  | _ => some r

/-- What a `persist` fetches, and the object it writes. -/
def written : AGCommand → Option (List (ℕ × ℕ) × ℕ)
  | persist _ prevs obj => some (prevs, obj)
  | _ => none

end AGCommand

/-- The sub-packets after all computations, for one byte. -/
def computeAll (cmds : List AGCommand) (r : ByteCache) : Option ByteCache := cmds.foldlM AGCommand.runCompute r

/-- `persist`: the slices of packet after packet. -/
def persist (pktSize w num : ℕ) (cmds : List AGCommand) (r : SliceCache) (prevs : List (ℕ × ℕ)) :
    Option (List GF256) :=
  ((List.range num).mapM fun i ↦ (prevs.mapM fun prev ↦ (List.range (pktSize / w)).mapM fun pos ↦
    (computeAll cmds fun cid ↦ (r i cid).map (·.getD pos 0)).bind (· prev.1)).map List.flatten).map List.flatten

/-- Run the commands of an operation: the objects that are written, when all commands come to an end. -/
def runCommands (pktSize w num : ℕ) (cmds : List AGCommand) (objs : ℕ → List GF256) :
    Option (List (ℕ × List GF256)) := do
  let r ← cmds.foldlM (AGCommand.runLoad pktSize w num objs) fun _ _ ↦ none
  (cmds.filterMap AGCommand.written).mapM fun x ↦ (persist pktSize w num cmds r x.1).map fun obj ↦ (x.2, obj)

/-! ## The operations of the coordinator -/

namespace ClientCode

variable (c : ClientCode) (pktSize : ℕ)

/-- `offlineEnc` with the commands of its graph: the objects of the stripe, given the data objects. -/
def offlineEnc (basesizeMB : ℕ) (cmds : List AGCommand) (data : ℕ → List GF256) : Option (ℕ → List GF256) :=
  let pktnum := basesizeMB / pktSize
  (runCommands pktSize c.w pktnum cmds data).map fun objs sid ↦
    if sid < c.k then data sid else ((objs.find? (·.1 = sid)).map Prod.snd).getD []

def recoveryOnline (filesizeMB : ℕ) (cmds : List AGCommand) (objs : ℕ → List GF256) :
    Option (List (ℕ × List GF256)) :=
  let objsizeMB := filesizeMB / c.k
  let pktnum := objsizeMB / pktSize
  runCommands pktSize c.w pktnum cmds objs

/-- `recoveryOffline`, where the lost object is of a file of the given size. -/
def recoveryOffline (basesizeMB filesizeMB lostidx : ℕ) (cmds : List AGCommand) (objs : ℕ → List GF256) :
    Option (List (ℕ × List GF256)) :=
  let pktnum := if c.k ≤ lostidx then filesizeMB / pktSize else basesizeMB / pktSize
  runCommands pktSize c.w pktnum cmds objs

def recoveryOfflineDelay (basesizeMB : ℕ) (cmds : List AGCommand) (objs : ℕ → List GF256) :
    Option (List (ℕ × List GF256)) :=
  let pktnum := basesizeMB / pktSize
  runCommands pktSize c.w pktnum cmds objs

end ClientCode

/-! ## Loading -/

section Loading

variable {s w num sid : ℕ} {pkts : List Packet} {cids : List ℕ}

theorem readSlices_flatten (hw : w ∣ s) (hs : 0 < s) (hpkts : ∀ pkt ∈ pkts, pkt.length = s)
    (hsorted : cids.Pairwise (· ≤ ·)) (hcids : ∀ cid ∈ cids, cid / w = sid) :
    readSlices s w cids pkts.flatten = (List.range pkts.length).flatMap fun t ↦
      cids.map fun cid ↦ piece (s / w) (cid % w) (pkts.getD t []) := by
  obtain ⟨z, rfl⟩ := hw
  have hwpos : 0 < w := Nat.pos_of_mul_pos_right hs
  have hz : 0 < z := Nat.pos_of_mul_pos_left hs
  have hoffsets : (cids.map (· % w)).insertionSort (· ≤ ·) = cids.map (· % w) := by
    refine List.Pairwise.insertionSort_eq (List.pairwise_map.mpr (hsorted.imp_of_mem fun {a b} ha hb hab ↦ ?_))
    have hda := Nat.div_add_mod a w
    have hdb := Nat.div_add_mod b w
    rw [hcids a ha] at hda
    rw [hcids b hb] at hdb
    omega
  have hpkt : ∀ t < pkts.length, (pkts.getD t []).length = w * z := by
    intro t ht
    rw [List.getD_eq_getElem?_getD, List.getElem?_eq_getElem ht, Option.getD_some]
    exact hpkts _ (List.getElem_mem ht)
  rw [readSlices, Nat.mul_div_cancel_left _ hwpos, hoffsets, length_flatten_of_forall hpkts, Nat.mul_div_cancel _ hs]
  have hread : (List.range pkts.length).flatMap (fun t ↦ (cids.map (· % w)).map fun offidx ↦
      (pkts.flatten.drop (t * (w * z) + offidx * z)).take z) =
      (List.range pkts.length).flatMap fun t ↦ cids.map fun cid ↦ piece z (cid % w) (pkts.getD t []) := by
    refine List.flatMap_congr fun t ht ↦ ?_
    rw [List.map_map]
    refine List.map_congr_left fun cid _ ↦ ?_
    have ht' := List.mem_range.mp ht
    have hle : (cid % w + 1) * z ≤ w * z := Nat.mul_le_mul_right z (Nat.mod_lt cid hwpos)
    have hlen := hpkt t ht'
    rw [List.getD_eq_getElem?_getD, List.getElem?_eq_getElem ht', Option.getD_some] at hlen ⊢
    rw [Nat.succ_mul] at hle
    rw [Function.comp_apply, ← List.drop_drop, drop_flatten hpkts, List.drop_eq_getElem_cons ht', List.flatten_cons,
      List.drop_append_of_le_length (by omega), List.take_append_of_le_length (by rw [List.length_drop]; omega), piece]
  rw [hread, List.filter_eq_self]
  intro p hp
  obtain ⟨t, ht, hp⟩ := List.mem_flatMap.mp hp
  obtain ⟨cid, -, rfl⟩ := List.mem_map.mp hp
  have hlen := length_piece (hpkt t (List.mem_range.mp ht)) (Nat.mod_lt cid hwpos)
  rw [Bool.not_eq_true', List.isEmpty_eq_false_iff]
  exact List.ne_nil_of_length_pos (hz.trans_eq hlen.symm)

/-- **A load of whole packets.** It waits forever when there are not enough of them. -/
theorem readDisk_flatten (hw : w ∣ s) (hs : 0 < s) (hpkts : ∀ pkt ∈ pkts, pkt.length = s)
    (hcids : ∀ cid ∈ cids, cid / w = sid) (hne : cids ≠ []) (hexist : pkts = [] → num = 0) (r : SliceCache) :
    readDisk s w num pkts.flatten cids r = if num ≤ pkts.length then
      some fun i cid ↦ if i < num ∧ cid ∈ cids then some (piece (s / w) (cid % w) (pkts.getD i [])) else r i cid
      else none := by
  have hget : ∀ i < pkts.length, pkts[i]? = some (pkts.getD i []) := by
    intro i hi
    rw [List.getD_eq_getElem?_getD, List.getElem?_eq_getElem hi, Option.getD_some]
  rw [readDisk]
  by_cases hempty : pkts = []
  · have hgone : (!exist pkts.flatten) = true := by rw [hempty]; rfl
    rw [hexist hempty, if_pos hgone, if_pos (Nat.zero_le _)]
    refine congrArg some (funext fun i ↦ funext fun cid ↦ ?_)
    rw [if_neg fun h ↦ Nat.not_lt_zero i h.1]
  · have hthere : (!exist pkts.flatten) = false := by
      rw [exist, Bool.not_not, List.isEmpty_eq_false_iff, ne_eq, List.flatten_eq_nil_iff]
      intro hall
      obtain ⟨pkt, hpkt⟩ := List.exists_mem_of_ne_nil pkts hempty
      have hlen := hpkts pkt hpkt
      rw [hall pkt hpkt, List.length_nil] at hlen
      exact hs.ne hlen
    rw [hthere, if_neg Bool.false_ne_true]
    have hmem : ∀ cid, cid ∈ cids.insertionSort (· ≤ ·) ↔ cid ∈ cids := fun cid ↦ List.mem_insertionSort _
    by_cases hone : w = 1
    · subst hone
      rw [if_pos rfl, readObj, slices_flatten hs hpkts, selectCacheWorker, Nat.mul_one]
      by_cases hle : num ≤ pkts.length
      · rw [if_pos hle, if_pos hle]
        refine congrArg some (funext fun i ↦ funext fun cid ↦ ?_)
        by_cases hi : i < num ∧ cid ∈ cids
        · have hi' := hi.1.trans_le hle
          have hlen : (pkts.getD i []).length = s := hpkts _ (List.mem_of_getElem? (hget i hi'))
          rw [if_pos ⟨hi.1, (hmem cid).mpr hi.2⟩, if_pos hi, Nat.mod_one, Nat.mul_one, Nat.add_zero, hget i hi', piece,
            Nat.zero_mul, List.drop_zero, Nat.div_one, ← hlen, List.take_length]
        · rw [if_neg fun h ↦ hi ⟨h.1, (hmem cid).mp h.2⟩, if_neg hi]
      · rw [if_neg hle, if_neg hle]
    · rw [if_neg hone, readSlices_flatten hw hs hpkts (List.pairwise_insertionSort _ _)
        fun cid hcid ↦ hcids cid ((hmem cid).mp hcid), partialCacheWorker]
      generalize hsorted : cids.insertionSort (· ≤ ·) = sorted at hmem ⊢
      have hpos : 0 < sorted.length := by
        rw [← hsorted, List.length_insertionSort]
        exact List.length_pos_of_ne_nil hne
      have hqueue : ((List.range pkts.length).flatMap fun t ↦
          sorted.map fun cid ↦ piece (s / w) (cid % w) (pkts.getD t [])).length = pkts.length * sorted.length := by
        rw [List.length_flatMap, List.map_congr_left fun t _ ↦ List.length_map _, List.map_const', List.sum_replicate,
          List.length_range, smul_eq_mul]
      rw [hqueue]
      by_cases hle : num ≤ pkts.length
      · rw [if_pos (Nat.mul_le_mul_right _ hle), if_pos hle]
        refine congrArg some (funext fun i ↦ funext fun cid ↦ ?_)
        by_cases hi : i < num ∧ cid ∈ cids
        · have hidx := List.idxOf_lt_length_of_mem ((hmem cid).mpr hi.2)
          rw [if_pos ⟨hi.1, (hmem cid).mpr hi.2⟩, if_pos hi,
            getElem?_flatMap_range (fun t _ ↦ List.length_map _) (hi.1.trans_le hle) hidx, List.getElem?_map, List.getElem?_eq_getElem hidx, List.getElem_idxOf, Option.map_some]
        · rw [if_neg fun h ↦ hi ⟨h.1, (hmem cid).mp h.2⟩, if_neg hi]
      · rw [if_neg fun h ↦ hle (Nat.le_of_mul_le_mul_right h hpos), if_neg hle]

end Loading

namespace AGCommand

def loadCids : AGCommand → List ℕ
  | readDisk _ _ cids _ => cids
  | _ => []

end AGCommand

def loadCids (cmds : List AGCommand) : List ℕ := cmds.flatMap AGCommand.loadCids

section Running

variable {s w num : ℕ} {pkts : ℕ → List Packet} {objs : ℕ → List GF256} {cmds : List AGCommand}

/-- The objects of the blocks of some sub-packets hold whole packets. -/
structure Stored (s num w : ℕ) (objs : ℕ → List GF256) (pkts : ℕ → List Packet) (cids : List ℕ) : Prop where
  eq : ∀ cid ∈ cids, objs (cid / w) = (pkts (cid / w)).flatten
  full : ∀ cid ∈ cids, ∀ pkt ∈ pkts (cid / w), pkt.length = s
  exist : ∀ cid ∈ cids, pkts (cid / w) = [] → num = 0

/-- **All loads.** They come to an end when every object has enough packets. -/
theorem foldlM_runLoad (hw : w ∣ s) (hs : 0 < s) (hcmds : ∀ cmd ∈ cmds, cmd.isLoad → cmd.OfBlock w)
    (hstored : Stored s num w objs pkts (loadCids cmds)) (r : SliceCache) :
    cmds.foldlM (AGCommand.runLoad s w num objs) r =
      if ∀ cid ∈ loadCids cmds, num ≤ (pkts (cid / w)).length then
        some fun i cid ↦ if i < num ∧ cid ∈ loadCids cmds then
          some (piece (s / w) (cid % w) ((pkts (cid / w)).getD i [])) else r i cid
      else none := by
  induction cmds generalizing r with
  | nil => exact congrArg some (funext fun i ↦ funext fun cid ↦ (if_neg fun h ↦ List.not_mem_nil h.2).symm)
  | cons cmd cmds ih =>
    have hcons : ∀ cid, cid ∈ loadCids (cmd :: cmds) ↔ cid ∈ cmd.loadCids ∨ cid ∈ loadCids cmds := fun cid ↦ by
      rw [loadCids, List.flatMap_cons, List.mem_append]; rfl
    have hrest : Stored s num w objs pkts (loadCids cmds) :=
      { eq := fun cid h ↦ hstored.eq cid ((hcons cid).mpr (.inr h))
        full := fun cid h ↦ hstored.full cid ((hcons cid).mpr (.inr h))
        exist := fun cid h ↦ hstored.exist cid ((hcons cid).mpr (.inr h)) }
    have ih := ih (fun cmd' h ↦ hcmds cmd' (List.mem_cons_of_mem cmd h)) hrest
    cases cmd with
    | readDisk ip obj cids refs =>
      obtain ⟨hnil, hblock⟩ := hcmds _ List.mem_cons_self rfl
      obtain ⟨cid₀, hcid₀⟩ := List.exists_mem_of_ne_nil cids hnil
      obtain rfl := hblock cid₀ hcid₀
      have hmem := (hcons cid₀).mpr (.inl hcid₀)
      rw [List.foldlM_cons, AGCommand.runLoad, hstored.eq cid₀ hmem,
        readDisk_flatten hw hs (hstored.full cid₀ hmem) hblock hnil (hstored.exist cid₀ hmem)]
      by_cases hle : num ≤ (pkts (cid₀ / w)).length
      · rw [if_pos hle, Option.bind_eq_bind, Option.bind_some, ih]
        by_cases hall : ∀ cid ∈ loadCids cmds, num ≤ (pkts (cid / w)).length
        · rw [if_pos hall, if_pos]
          · refine congrArg some (funext fun i ↦ funext fun cid ↦ ?_)
            by_cases hi : i < num
            · by_cases hrest : cid ∈ loadCids cmds
              · rw [if_pos ⟨hi, hrest⟩, if_pos ⟨hi, (hcons cid).mpr (.inr hrest)⟩]
              · rw [if_neg fun h ↦ hrest h.2]
                by_cases hcid : cid ∈ cids
                · rw [if_pos ⟨hi, hcid⟩, if_pos ⟨hi, (hcons cid).mpr (.inl hcid)⟩, hblock cid hcid]
                · rw [if_neg fun h ↦ hcid h.2, if_neg fun h ↦ ((hcons cid).mp h.2).elim hcid hrest]
            · rw [if_neg fun h ↦ hi h.1, if_neg fun h ↦ hi h.1, if_neg fun h ↦ hi h.1]
          · intro cid hcid
            rcases (hcons cid).mp hcid with hcid | hcid
            · rw [hblock cid hcid]
              exact hle
            · exact hall cid hcid
        · rw [if_neg hall, if_neg fun h ↦ hall fun cid hcid ↦ h cid ((hcons cid).mpr (.inr hcid))]
      · rw [if_neg hle, if_neg fun h ↦ hle (h cid₀ hmem)]
        rfl
    | fetchCompute => exact ih r
    | persist => exact ih r

end Running

/-! ## Running the commands of a code -/

namespace ClientCode

def word (c : ClientCode) (data : ℕ → GF256) (id : ℕ) : GF256 :=
  ((onlineEncode c.n c.k c.w data (c.tasksOf c.encode)).bind (·.written id)).getD 0

/-- Commands that give back some blocks of every codeword, reading others. -/
structure Serves (c : ClientCode) (cmds : List AGCommand) (avail torec : List ℕ) : Prop where
  loads : ∀ cid ∈ loadCids cmds, cid / c.w ∈ avail
  persists : (cmds.filterMap AGCommand.written).map Prod.snd = torec
  computes : ∀ data, ∃ out,
    computeAll cmds (fun cid ↦ if cid ∈ loadCids cmds then some (c.word data cid) else none) = some out ∧
      ∀ sid ∈ torec, ∀ j < c.w, out (sid * c.w + j) = some (c.word data (sid * c.w + j))

section Commands

variable {c : ClientCode} {s num : ℕ} {dag : ECDAG} {cid2ip objIp : ℕ → ℕ} {avail torec : List ℕ}
  {cur coded : ℕ → List Packet}

theorem Coded.word_eq {cur coded : List Packet} (h : Coded c s cur coded) {b id : ℕ} (hb : b < s / c.w)
    (hid : id < c.n * c.w) :
    c.word (byteOf c.w (s / c.w) b (cur.getD · [])) id = byteOf c.w (s / c.w) b (coded.getD · []) id := by
  obtain ⟨st, hst, hwritten⟩ := h.encoded b hb
  rw [word, hst, Option.bind_some, hwritten id hid, Option.getD_some]

/-- **What is persisted.** From slices of coded packets a block of the coded packets is put together. -/
theorem persist_eq {cmds : List AGCommand} (hw : c.w ∣ s) (hs : 0 < s) (hserves : c.Serves cmds avail torec)
    (havail : ∀ sid ∈ avail, sid < c.n) (hcoded : ∀ i < num, Coded c s (cur i) (coded i)) {r : SliceCache}
    (hr : ∀ i < num, ∀ cid, r i cid = if cid ∈ loadCids cmds then
      some (piece (s / c.w) (cid % c.w) ((coded i).getD (cid / c.w) [])) else none)
    {sid : ℕ} (hsid : sid ∈ torec) (hlt : sid < c.n) (ip : ℕ → ℕ) :
    persist s c.w num cmds r ((List.range c.w).map fun j ↦ (sid * c.w + j, ip j)) =
      some ((List.range num).map fun i ↦ (coded i).getD sid []).flatten := by
  obtain ⟨z, hz⟩ := hw
  have hwpos : 0 < c.w := Nat.pos_of_mul_pos_right (hz ▸ hs)
  have hsplit : s / c.w = z := by rw [hz, Nat.mul_div_cancel_left _ hwpos]
  rw [persist, mapM_eq_map (g := fun i ↦ (coded i).getD sid []), Option.map_some]
  intro i hi
  rw [List.mem_range] at hi
  have hlen : ((coded i).getD sid []).length = c.w * z := hz ▸ (hcoded i hi).full sid hlt
  rw [List.mapM_map, mapM_eq_map (g := fun j ↦ piece z j ((coded i).getD sid [])), Option.map_some,
    ← List.flatMap_def, flatMap_piece hlen]
  intro j hj
  rw [List.mem_range] at hj
  rw [Function.comp_apply, hsplit, ← map_getD_eq_piece hlen hj 0]
  refine mapM_eq_map fun pos hpos ↦ ?_
  rw [List.mem_range] at hpos
  obtain ⟨out, hout, hval⟩ := hserves.computes (byteOf c.w (s / c.w) pos ((cur i).getD · []))
  have henv : (fun cid ↦ (r i cid).map (·.getD pos 0)) = fun cid ↦ if cid ∈ loadCids cmds then
      some (c.word (byteOf c.w (s / c.w) pos ((cur i).getD · [])) cid) else none := by
    funext cid
    rw [hr i hi]
    by_cases hcid : cid ∈ loadCids cmds
    · have hbound : cid < c.n * c.w :=
        (Nat.div_lt_iff_lt_mul hwpos).mp (havail _ (hserves.loads cid hcid))
      rw [if_pos hcid, if_pos hcid, Option.map_some, Coded.word_eq (hcoded i hi) (hsplit.symm ▸ hpos) hbound, byteOf,
        getD_piece _ (hsplit.symm ▸ hpos)]
    · rw [if_neg hcid, if_neg hcid]
      rfl
  rw [henv, hout, Option.bind_some, hval sid hsid j hj, Coded.word_eq (hcoded i hi) (hsplit.symm ▸ hpos)
    (subPacket_lt hlt hj), byteOf, subPacket_div hj, subPacket_mod hj, hsplit]

/-- **A run of the commands.** It ends when every object that is read has enough packets, and gives back the
blocks. -/
theorem runCommands_eq (hw : c.w ∣ s) (hs : 0 < s)
    (hserves : c.Serves (dag.commands (c.order dag) cid2ip objIp c.n c.w) avail torec)
    (havail : ∀ sid ∈ avail, sid < c.n) (htorec : ∀ sid ∈ torec, sid < c.n)
    (hcoded : ∀ i < num, Coded c s (cur i) (coded i)) {objs : ℕ → List GF256} {pkts : ℕ → List Packet}
    (hstored : Stored s num c.w objs pkts (loadCids (dag.commands (c.order dag) cid2ip objIp c.n c.w)))
    (hpkts : ∀ cid ∈ loadCids (dag.commands (c.order dag) cid2ip objIp c.n c.w),
      ∀ i < num, i < (pkts (cid / c.w)).length →
        (pkts (cid / c.w)).getD i [] = (coded i).getD (cid / c.w) []) :
    runCommands s c.w num (dag.commands (c.order dag) cid2ip objIp c.n c.w) objs =
      if ∀ cid ∈ loadCids (dag.commands (c.order dag) cid2ip objIp c.n c.w), num ≤ (pkts (cid / c.w)).length then
        some (torec.map fun sid ↦ (sid, ((List.range num).map fun i ↦ (coded i).getD sid []).flatten))
      else none := by
  generalize hcmds : dag.commands (c.order dag) cid2ip objIp c.n c.w = cmds at hserves hstored hpkts ⊢
  have hload : ∀ cmd ∈ cmds, cmd.isLoad → cmd.OfBlock c.w := fun cmd hcmd ↦ ofBlock_commands (hcmds ▸ hcmd)
  rw [runCommands, foldlM_runLoad hw hs hload hstored]
  by_cases hall : ∀ cid ∈ loadCids cmds, num ≤ (pkts (cid / c.w)).length
  · rw [if_pos hall, if_pos hall, Option.bind_eq_bind, Option.bind_some, ← hserves.persists, List.map_map]
    refine mapM_eq_map fun x hx ↦ ?_
    have hmem : x.2 ∈ torec := hserves.persists ▸ List.mem_map_of_mem hx
    obtain ⟨cmd, hcmd, hwritten⟩ := List.mem_filterMap.mp hx
    cases cmd with
    | readDisk => exact absurd hwritten.symm (Option.some_ne_none x)
    | fetchCompute => exact absurd hwritten.symm (Option.some_ne_none x)
    | persist ip prevs obj =>
      obtain rfl := Option.some.inj hwritten
      obtain ⟨nodeIp, rfl⟩ := prevs_of_persist (hcmds ▸ hcmd)
      rw [persist_eq hw hs hserves havail hcoded (fun i hi cid ↦ ?_) hmem (htorec _ hmem), Option.map_some]
      · rfl
      · by_cases hcid : cid ∈ loadCids cmds
        · rw [if_pos ⟨hi, hcid⟩, if_pos hcid, hpkts cid hcid i hi (hi.trans_le (hall cid hcid))]
        · rw [if_neg fun h ↦ hcid h.2, if_neg hcid]
  · rw [if_neg hall, if_neg hall]
    rfl

end Commands

end ClientCode

/-! ## Repairs of online files -/

/-- The objects that are found when some are lost. -/
def lose (lost : List ℕ) (objs : ℕ → List GF256) (sid : ℕ) : List GF256 := if sid ∈ lost then [] else objs sid

/-- A file of an online code and a repair of one of its objects. -/
structure OnlineRepair (c : ClientCode) (s : ℕ) where
  pkts : List Packet
  full : ∀ pkt ∈ pkts, pkt.length = s
  lostidx : ℕ
  lostidx_lt : lostidx < c.n
  dag : ECDAG
  cid2ip : ℕ → ℕ
  objIp : ℕ → ℕ
  avail : List ℕ
  avail_found : ∀ sid ∈ avail, sid < c.n ∧ sid ∉ [lostidx]
  serves : c.Serves (dag.commands (c.order dag) cid2ip objIp c.n c.w) avail [lostidx]

namespace OnlineRepair

variable {c : ClientCode} {s : ℕ} (R : OnlineRepair c s)

/-- The commands of the repair come to an end, and the object they write is the one that was lost. -/
def Covers : Prop :=
  ∃ written, c.onlineWrite s (R.pkts.length * s) (OECOutputStream.write R.pkts fun _ ↦ []) = some written ∧
    c.recoveryOnline s (R.pkts.length * s) (R.dag.commands (c.order R.dag) R.cid2ip R.objIp c.n c.w)
      (lose [R.lostidx] (written.1.getD · [])) = some [(R.lostidx, written.1.getD R.lostidx [])]

theorem persistnum_eq_iff {p i : ℕ} : c.persistnum p i = p / c.k ↔ c.k ∣ p ∨ i < c.k ∧ p % c.k ≤ i := by
  rw [ClientCode.persistnum, ClientCode.loadnum, Nat.dvd_iff_mod_eq_zero]
  split_ifs <;> omega

theorem le_persistnum (c : ClientCode) (p i : ℕ) : p / c.k ≤ c.persistnum p i :=
  (Nat.le_add_right _ _).trans (Nat.le_add_right _ _)

/-- **The repair of an object of an online file.** -/
theorem covers_iff (h : c.Correct) (hk : 0 < c.k) (hkn : c.k ≤ c.n) (hw : c.w ∣ s) (hs : 0 < s) :
    R.Covers ↔ c.k ∣ R.pkts.length ∨ R.lostidx < c.k ∧ R.pkts.length % c.k ≤ R.lostidx := by
  rw [← persistnum_eq_iff, Covers, write_eq_pending]
  generalize hp : R.pkts.length = p
  obtain ⟨coded, hrel, hwrite⟩ := ClientCode.onlineWrite_eq h hk hkn hw hs
    (P := (R.pkts.getD · [])) (p := p) fun j hj ↦ length_getD R.full (hp ▸ hj)
  have hnum : p * s / c.k / s = p / c.k := by rw [Nat.div_right_comm, Nat.mul_div_cancel p hs]
  have hobj : ∀ sid < c.n, ((List.range c.n).map fun i ↦ (c.objPkts p coded i).flatten).getD sid [] =
      (c.objPkts p coded sid).flatten := fun sid hsid ↦ by simp [hsid]
  have hfound : ∀ cid ∈ loadCids (R.dag.commands (c.order R.dag) R.cid2ip R.objIp c.n c.w),
      cid / c.w < c.n ∧ cid / c.w ∉ [R.lostidx] := fun cid hcid ↦ R.avail_found _ (R.serves.loads cid hcid)
  have hlen : ∀ sid, (c.objPkts p coded sid).length = c.persistnum p sid := fun sid ↦ by
    rw [ClientCode.objPkts, List.length_map, List.length_range]
  have hstored : Stored s (p / c.k) c.w
      (lose [R.lostidx] (((List.range c.n).map fun i ↦ (c.objPkts p coded i).flatten).getD · []))
      (c.objPkts p coded) (loadCids (R.dag.commands (c.order R.dag) R.cid2ip R.objIp c.n c.w)) :=
    { eq := fun cid hcid ↦ by rw [lose, if_neg (hfound cid hcid).2, hobj _ (hfound cid hcid).1]
      full := fun cid hcid pkt hpkt ↦ ClientCode.length_of_mem_objPkts hrel (hfound cid hcid).1 hpkt
      exist := fun cid _ hnil ↦ by
        have hle := le_persistnum c p (cid / c.w)
        rw [← hlen, hnil] at hle
        exact Nat.le_zero.mp hle }
  have hrun := ClientCode.runCommands_eq hw hs R.serves (fun sid hsid ↦ (R.avail_found sid hsid).1)
    (fun sid hsid ↦ List.mem_singleton.mp hsid ▸ R.lostidx_lt) (fun i _ ↦ hrel i) hstored
    fun cid _ i _ hi ↦ by
      rw [hlen] at hi
      simp [ClientCode.objPkts, hi]
  rw [if_pos fun cid _ ↦ (hlen _).symm ▸ le_persistnum c p (cid / c.w), List.map_singleton] at hrun
  constructor
  · rintro ⟨written, hwritten, hrecovered⟩
    obtain rfl := Option.some.inj (hwrite.symm.trans hwritten)
    rw [ClientCode.recoveryOnline, hnum, hrun, hobj _ R.lostidx_lt] at hrecovered
    have heq := congrArg (List.length ∘ Prod.snd) (List.cons.inj (Option.some.inj hrecovered)).1
    dsimp only [Function.comp_apply] at heq
    rw [length_flatten_of_forall (n := s) (fun pkt hpkt ↦ ?_), length_flatten_of_forall (n := s) (fun pkt hpkt ↦
      ClientCode.length_of_mem_objPkts hrel R.lostidx_lt hpkt), hlen, List.length_map, List.length_range] at heq
    · exact (Nat.eq_of_mul_eq_mul_right hs heq).symm
    · obtain ⟨t, -, rfl⟩ := List.mem_map.mp hpkt
      exact (hrel t).full _ R.lostidx_lt
  · intro heq
    refine ⟨_, hwrite, ?_⟩
    rw [ClientCode.recoveryOnline, hnum, hrun, hobj _ R.lostidx_lt, ClientCode.objPkts, heq]

end OnlineRepair

/-! ## Repairs of offline stripes -/

/-- A data object of an offline stripe: the object with a number of a file, sizes in packets. -/
structure DataObj (s b : ℕ) where
  filesize : ℕ
  idx : ℕ
  idx_lt : idx < objnum filesize b
  pkts : List Packet
  full : ∀ pkt ∈ pkts, pkt.length = s
  length_eq : pkts.length = objLength b filesize idx

namespace DataObj

variable {s b : ℕ} (d : DataObj s b)

theorem filesize_pos : 0 < d.filesize := by
  by_contra hzero
  have hlt := d.idx_lt
  rw [Nat.eq_zero_of_not_pos hzero, objnum, Nat.zero_div, Nat.zero_mod, if_pos rfl] at hlt
  exact Nat.not_lt_zero _ hlt

theorem start_lt (hb : 0 < b) : b * d.idx < d.filesize := by
  obtain ⟨hlast, -, -⟩ := objnum_bounds hb d.filesize_pos
  have hle : b * d.idx ≤ b * (objnum d.filesize b - 1) := Nat.mul_le_mul_left b (Nat.le_sub_one_of_lt d.idx_lt)
  exact hle.trans_lt hlast

theorem length_pos (hb : 0 < b) : 0 < d.pkts.length := by
  have hstart := d.start_lt hb
  rw [d.length_eq, objLength, objStart, objStart, Nat.mul_succ]
  omega

/-- The object has the base size unless it is the short last one of its file. -/
theorem le_length_iff (hb : 0 < b) : b ≤ d.pkts.length ↔ b * (d.idx + 1) ≤ d.filesize := by
  have hstart := d.start_lt hb
  rw [d.length_eq, objLength, objStart, objStart, Nat.mul_succ]
  omega

theorem length_le : d.pkts.length ≤ b := by
  rw [d.length_eq, objLength, objStart, objStart, Nat.mul_succ]
  omega

end DataObj

def parities (c : ClientCode) : List ℕ := (List.range c.n).filter (c.k ≤ ·)

/-- A stripe of an offline code, its encoding and a repair of some of its objects. -/
structure OfflineRepair (c : ClientCode) (s b : ℕ) where
  data : ℕ → DataObj s b
  encDag : ECDAG
  decDag : ECDAG
  cid2ip : ℕ → ℕ
  objIp : ℕ → ℕ
  lostidxs : List ℕ
  lostidxs_lt : ∀ sid ∈ lostidxs, sid < c.n
  avail : List ℕ
  avail_found : ∀ sid ∈ avail, sid < c.n ∧ sid ∉ lostidxs
  encServes : c.Serves (encDag.commands (c.order encDag) cid2ip objIp c.n c.w) (List.range c.k) (parities c)
  decServes : c.Serves (decDag.commands (c.order decDag) cid2ip objIp c.n c.w) avail lostidxs

namespace OfflineRepair

variable {c : ClientCode} {s b : ℕ} (R : OfflineRepair c s b)

def encCmds : List AGCommand := R.encDag.commands (c.order R.encDag) R.cid2ip R.objIp c.n c.w

def decCmds : List AGCommand := R.decDag.commands (c.order R.decDag) R.cid2ip R.objIp c.n c.w

/-- The data objects, where an encoding finds them. -/
def dataObjs (sid : ℕ) : List GF256 := if sid < c.k then (R.data sid).pkts.flatten else []

/-- The file size in the entry of an object. -/
def filesizeMB (sid : ℕ) : ℕ := if sid < c.k then (R.data sid).filesize * s else b * s

/-- The encoding comes to an end, and so does a repair, which writes the objects that were lost. -/
def Covers (recover : (ℕ → List GF256) → Option (List (ℕ × List GF256))) : Prop :=
  ∃ objs, c.offlineEnc s (b * s) R.encCmds R.dataObjs = some objs ∧
    recover (lose R.lostidxs objs) = some (R.lostidxs.map fun sid ↦ (sid, objs sid))

def CoversOffline (lostidx : ℕ) : Prop :=
  R.Covers (c.recoveryOffline s (b * s) (R.filesizeMB lostidx) lostidx R.decCmds)

def CoversDelay : Prop := R.Covers (c.recoveryOfflineDelay s (b * s) R.decCmds)

/-- The blocks that must be full: those that are read, and those that are lost. -/
def used : List ℕ := (loadCids R.encCmds ++ loadCids R.decCmds).map (· / c.w) ++ R.lostidxs

/-- The packets of a stripe before it is encoded; short objects are filled up. -/
def cur (i : ℕ) : List Packet := (List.range c.k).map fun sid ↦ (R.data sid).pkts.getD i (List.replicate s 0)

theorem getD_cur {i sid : ℕ} (hsid : sid < c.k) :
    (R.cur i).getD sid [] = (R.data sid).pkts.getD i (List.replicate s 0) := by
  simp [cur, hsid]

/-- The packets of an object of the encoded stripe. -/
def stripePkts (coded : ℕ → List Packet) (sid : ℕ) : List Packet :=
  if sid < c.k then (R.data sid).pkts else (List.range b).map fun i ↦ (coded i).getD sid []

theorem find?_map_pair {α : Type*} (f : ℕ → α) {l : List ℕ} {sid : ℕ} (hsid : sid ∈ l) :
    (l.map fun sid ↦ (sid, f sid)).find? (·.1 = sid) = some (sid, f sid) := by
  induction l with
  | nil => exact absurd hsid List.not_mem_nil
  | cons a l ih =>
    rw [List.map_cons, List.find?_cons]
    by_cases ha : a = sid
    · rw [ha, decide_eq_true rfl]
    · rw [decide_eq_false ha]
      exact ih ((List.mem_cons.mp hsid).resolve_left (Ne.symm ha))

section Runs

variable {coded : ℕ → List Packet}

theorem stripePkts_ne_nil (hb : 0 < b) (sid : ℕ) : R.stripePkts coded sid ≠ [] := by
  rw [stripePkts]
  split_ifs
  · exact List.ne_nil_of_length_pos ((R.data sid).length_pos hb)
  · exact List.ne_nil_of_length_pos (by rwa [List.length_map, List.length_range])

theorem le_length_stripePkts_iff (hb : 0 < b) (sid : ℕ) : b ≤ (R.stripePkts coded sid).length ↔
    (sid < c.k → b * ((R.data sid).idx + 1) ≤ (R.data sid).filesize) := by
  rw [stripePkts]
  split_ifs with hsid
  · rw [(R.data sid).le_length_iff hb]
    exact ⟨fun h _ ↦ h, fun h ↦ h hsid⟩
  · rw [List.length_map, List.length_range]
    exact iff_of_true le_rfl fun h ↦ absurd h hsid

variable (hcoded : ∀ i, ClientCode.Coded c s (R.cur i) (coded i))

include hcoded

theorem getD_stripePkts {sid i : ℕ} (hi : i < (R.stripePkts coded sid).length) :
    (R.stripePkts coded sid).getD i [] = (coded i).getD sid [] := by
  rw [stripePkts] at hi ⊢
  by_cases hsid : sid < c.k
  · rw [if_pos hsid] at hi ⊢
    rw [(hcoded i).data sid hsid, R.getD_cur hsid]
    simp [hi]
  · rw [if_neg hsid] at hi ⊢
    rw [List.length_map, List.length_range] at hi
    simp [hi]

theorem full_stripePkts {sid : ℕ} (hsid : sid < c.n) : ∀ pkt ∈ R.stripePkts coded sid, pkt.length = s := by
  rw [stripePkts]
  split_ifs with hlt
  · exact (R.data sid).full
  · intro pkt hpkt
    obtain ⟨i, -, rfl⟩ := List.mem_map.mp hpkt
    exact (hcoded i).full sid hsid

theorem coded_eq_iff (hs : 0 < s) {sid : ℕ} (hsid : sid < c.n) :
    ((List.range b).map fun i ↦ (coded i).getD sid []).flatten = (R.stripePkts coded sid).flatten ↔
      b ≤ (R.stripePkts coded sid).length := by
  constructor
  · intro heq
    have hlen := congrArg List.length heq
    rw [length_flatten_of_forall (n := s) (fun pkt hpkt ↦ ?_),
      length_flatten_of_forall (R.full_stripePkts hcoded hsid), List.length_map, List.length_range] at hlen
    · exact (Nat.eq_of_mul_eq_mul_right hs hlen).le
    · obtain ⟨i, -, rfl⟩ := List.mem_map.mp hpkt
      exact (hcoded i).full sid hsid
  · intro hle
    have hlen : (R.stripePkts coded sid).length = b := by
      refine Nat.le_antisymm ?_ hle
      rw [stripePkts]
      split_ifs
      · exact (R.data sid).length_le
      · rw [List.length_map, List.length_range]
    refine congrArg List.flatten (List.ext_getElem (by rw [List.length_map, List.length_range, hlen]) fun i hi hi' ↦ ?_)
    rw [List.getElem_map, List.getElem_range, ← R.getD_stripePkts hcoded hi', List.getD_eq_getElem?_getD,
      List.getElem?_eq_getElem hi', Option.getD_some]

theorem runCommands_stripe (hw : c.w ∣ s) (hs : 0 < s) (hb : 0 < b) {dag : ECDAG} {avail torec : List ℕ}
    {objs : ℕ → List GF256}
    (hserves : c.Serves (dag.commands (c.order dag) R.cid2ip R.objIp c.n c.w) avail torec)
    (havail : ∀ sid ∈ avail, sid < c.n ∧ objs sid = (R.stripePkts coded sid).flatten)
    (htorec : ∀ sid ∈ torec, sid < c.n) :
    runCommands s c.w b (dag.commands (c.order dag) R.cid2ip R.objIp c.n c.w) objs =
      if ∀ cid ∈ loadCids (dag.commands (c.order dag) R.cid2ip R.objIp c.n c.w),
          b ≤ (R.stripePkts coded (cid / c.w)).length then
        some (torec.map fun sid ↦ (sid, ((List.range b).map fun i ↦ (coded i).getD sid []).flatten))
      else none :=
  ClientCode.runCommands_eq hw hs hserves (fun sid hsid ↦ (havail sid hsid).1) htorec (fun i _ ↦ hcoded i)
    { eq := fun cid hcid ↦ (havail _ (hserves.loads cid hcid)).2
      full := fun cid hcid ↦ R.full_stripePkts hcoded (havail _ (hserves.loads cid hcid)).1
      exist := fun _ _ hnil ↦ absurd hnil (R.stripePkts_ne_nil hb _) }
    fun _ _ _ _ hi ↦ R.getD_stripePkts hcoded hi

end Runs

/-- **The encoding of a stripe and a repair**, for the number of packets all of them take. -/
theorem covers_iff_of (h : c.Correct) (hkn : c.k ≤ c.n) (hw : c.w ∣ s) (hs : 0 < s) (hb : 0 < b)
    {recover : (ℕ → List GF256) → Option (List (ℕ × List GF256))}
    (hrecover : recover = runCommands s c.w b R.decCmds) :
    R.Covers recover ↔ ∀ sid ∈ R.used, sid < c.k → b * ((R.data sid).idx + 1) ≤ (R.data sid).filesize := by
  have hcur : ∀ i, ∀ sid < c.k, ((R.cur i).getD sid []).length = s := by
    intro i sid hsid
    rw [R.getD_cur hsid]
    rcases Nat.lt_or_ge i (R.data sid).pkts.length with hi | hi
    · rw [List.getD_eq_getElem?_getD, List.getElem?_eq_getElem hi, Option.getD_some]
      exact (R.data sid).full _ (List.getElem_mem hi)
    · rw [List.getD_eq_getElem?_getD, List.getElem?_eq_none hi, Option.getD_none, List.length_replicate]
  choose coded _ hcoded using fun i ↦ h.encodeStripe hkn hw hs (hcur i)
  have hused : (∀ sid ∈ R.used, sid < c.k → b * ((R.data sid).idx + 1) ≤ (R.data sid).filesize) ↔
      (∀ cid ∈ loadCids R.encCmds, b ≤ (R.stripePkts coded (cid / c.w)).length) ∧
      (∀ cid ∈ loadCids R.decCmds, b ≤ (R.stripePkts coded (cid / c.w)).length) ∧
      ∀ sid ∈ R.lostidxs, b ≤ (R.stripePkts coded sid).length := by
    simp only [R.le_length_stripePkts_iff hb, used, List.mem_append, List.mem_map]
    constructor
    · exact fun hall ↦ ⟨fun cid hcid ↦ hall _ (.inl ⟨cid, .inl hcid, rfl⟩),
        fun cid hcid ↦ hall _ (.inl ⟨cid, .inr hcid, rfl⟩), fun sid hsid ↦ hall sid (.inr hsid)⟩
    · rintro ⟨henc, hdec, hlost⟩ sid (⟨cid, hcid | hcid, rfl⟩ | hsid)
      · exact henc cid hcid
      · exact hdec cid hcid
      · exact hlost sid hsid
  have hdata : ∀ sid < c.k, R.dataObjs sid = (R.stripePkts coded sid).flatten := fun sid hsid ↦ by
    rw [dataObjs, stripePkts, if_pos hsid, if_pos hsid]
  have henc : runCommands s c.w b R.encCmds R.dataObjs =
      if ∀ cid ∈ loadCids R.encCmds, b ≤ (R.stripePkts coded (cid / c.w)).length then
        some ((parities c).map fun sid ↦ (sid, ((List.range b).map fun i ↦ (coded i).getD sid []).flatten))
      else none :=
    R.runCommands_stripe hcoded hw hs hb R.encServes
      (fun sid hsid ↦ ⟨(List.mem_range.mp hsid).trans_le hkn, hdata sid (List.mem_range.mp hsid)⟩)
      fun sid hsid ↦ List.mem_range.mp (List.mem_filter.mp hsid).1
  have hstripe : ∀ sid < c.n, (if sid < c.k then R.dataObjs sid else
      ((((parities c).map fun sid ↦ (sid, ((List.range b).map fun i ↦ (coded i).getD sid []).flatten)).find?
        (·.1 = sid)).map Prod.snd).getD []) = (R.stripePkts coded sid).flatten := by
    intro sid hsid
    by_cases hlt : sid < c.k
    · rw [if_pos hlt, hdata sid hlt]
    · have hmem : sid ∈ parities c :=
        List.mem_filter.mpr ⟨List.mem_range.mpr hsid, decide_eq_true (Nat.le_of_not_lt hlt)⟩
      rw [if_neg hlt, find?_map_pair _ hmem, stripePkts, if_neg hlt]
      rfl
  have hrepair : ∀ objs : ℕ → List GF256, (∀ sid < c.n, objs sid = (R.stripePkts coded sid).flatten) →
      (recover (lose R.lostidxs objs) = some (R.lostidxs.map fun sid ↦ (sid, objs sid)) ↔
        (∀ cid ∈ loadCids R.decCmds, b ≤ (R.stripePkts coded (cid / c.w)).length) ∧
          ∀ sid ∈ R.lostidxs, b ≤ (R.stripePkts coded sid).length) := by
    intro objs hobjs
    have hdec : recover (lose R.lostidxs objs) =
        if ∀ cid ∈ loadCids R.decCmds, b ≤ (R.stripePkts coded (cid / c.w)).length then
          some (R.lostidxs.map fun sid ↦ (sid, ((List.range b).map fun i ↦ (coded i).getD sid []).flatten))
        else none := by
      rw [hrecover]
      refine R.runCommands_stripe hcoded hw hs hb R.decServes (fun sid hsid ↦ ?_) R.lostidxs_lt
      obtain ⟨hlt, hnot⟩ := R.avail_found sid hsid
      exact ⟨hlt, by rw [lose, if_neg hnot, hobjs sid hlt]⟩
    rw [hdec]
    by_cases hall : ∀ cid ∈ loadCids R.decCmds, b ≤ (R.stripePkts coded (cid / c.w)).length
    · rw [if_pos hall, Option.some_inj, List.map_inj_left]
      refine ⟨fun heq ↦ ⟨hall, fun sid hsid ↦ ?_⟩, fun hand sid hsid ↦ Prod.ext rfl ?_⟩
      · rw [← R.coded_eq_iff hcoded hs (R.lostidxs_lt sid hsid), ← hobjs sid (R.lostidxs_lt sid hsid)]
        exact congrArg Prod.snd (heq sid hsid)
      · dsimp only
        rw [hobjs sid (R.lostidxs_lt sid hsid), R.coded_eq_iff hcoded hs (R.lostidxs_lt sid hsid)]
        exact hand.2 sid hsid
    · rw [if_neg hall]
      exact iff_of_false (fun heq ↦ Option.some_ne_none _ heq.symm) fun hand ↦ hall hand.1
  rw [hused, Covers, ClientCode.offlineEnc, Nat.mul_div_cancel b hs, henc]
  by_cases hall : ∀ cid ∈ loadCids R.encCmds, b ≤ (R.stripePkts coded (cid / c.w)).length
  · rw [if_pos hall, Option.map_some]
    constructor
    · rintro ⟨objs, hobjs, hrun⟩
      obtain rfl := Option.some.inj hobjs
      exact ⟨hall, (hrepair _ hstripe).mp hrun⟩
    · exact fun hand ↦ ⟨_, rfl, (hrepair _ hstripe).mpr hand.2⟩
  · rw [if_neg hall]
    refine iff_of_false ?_ fun hand ↦ hall hand.1
    rintro ⟨objs, hobjs, -⟩
    exact Option.some_ne_none _ hobjs.symm

end OfflineRepair

/-- **When encodings and repairs cover whole objects.** An object of an online file comes back when the packets
fill all stripes, or it has no packet of the last stripe; an offline stripe is encoded and repaired when no object
that is read or lost is the short last one of its file. -/
theorem packets_cover_iff {c : ClientCode} {s b : ℕ} (h : c.Correct) (hk : 0 < c.k) (hkn : c.k ≤ c.n) (hw : c.w ∣ s)
    (hs : 0 < s) (hb : 0 < b) (R : OnlineRepair c s) (T : OfflineRepair c s b) :
    (R.Covers ↔ c.k ∣ R.pkts.length ∨ R.lostidx < c.k ∧ R.pkts.length % c.k ≤ R.lostidx) ∧
      (T.CoversDelay ↔ ∀ sid ∈ T.used, sid < c.k → b * ((T.data sid).idx + 1) ≤ (T.data sid).filesize) ∧
      ∀ lostidx, T.lostidxs = [lostidx] → (T.CoversOffline lostidx ↔
        ∀ sid ∈ T.used, sid < c.k → b * ((T.data sid).idx + 1) ≤ (T.data sid).filesize) := by
  refine ⟨R.covers_iff h hk hkn hw hs, T.covers_iff_of h hkn hw hs hb ?_, fun lostidx _ ↦
    T.covers_iff_of h hkn hw hs hb ?_⟩
  · funext objs
    rw [ClientCode.recoveryOfflineDelay, Nat.mul_div_cancel b hs]
  · funext objs
    -- the entry of a parity object has the base size
    have hsize : (if c.k ≤ lostidx then T.filesizeMB lostidx / s else b * s / s) = b := by
      rw [OfflineRepair.filesizeMB, Nat.mul_div_cancel b hs]
      split_ifs with hle hlt
      · omega
      · exact Nat.mul_div_cancel b hs
      · rfl
    rw [ClientCode.recoveryOffline, hsize]

/-! ### Two data objects and their sum -/

namespace ClientCode

/-- The graph that gives the first block back. -/
def oneParityDag : ECDAG := ({} : ECDAG).join 0 [1, 2] [1, 1]

theorem serves_encode : oneParity.Serves (oneParity.encode.commands (oneParity.order oneParity.encode) (fun _ ↦ 0)
    (fun _ ↦ 0) 3 1) (List.range 2) (parities oneParity) where
  loads := by decide +kernel
  persists := rfl
  computes data := by
    refine ⟨_, rfl, fun sid hsid j hj ↦ ?_⟩
    obtain rfl := List.mem_singleton.mp (show sid ∈ [2] from hsid)
    obtain rfl : j = 0 := Nat.lt_one_iff.mp hj
    rfl

theorem serves_decode : oneParity.Serves (oneParityDag.commands (oneParity.order oneParityDag) (fun _ ↦ 0)
    (fun _ ↦ 0) 3 1) [1, 2] [0] where
  loads := by decide +kernel
  persists := rfl
  computes data := by
    refine ⟨_, rfl, fun sid hsid j hj ↦ ?_⟩
    obtain rfl := List.mem_singleton.mp hsid
    obtain rfl : j = 0 := Nat.lt_one_iff.mp hj
    change some (dot [1, 1] [data 1, dot [1, 1] [data 0, data 1]]) = some (data 0)
    rw [dot_ones, dot_ones, add_left_comm, CharTwo.add_self_eq_zero, add_zero]

theorem survivors_found : ∀ sid ∈ [1, 2], sid < oneParity.n ∧ sid ∉ [0] := by decide

theorem first_lt : ∀ sid ∈ [0], sid < oneParity.n := by decide

/-- The repair of the first object of a file of the packets. -/
def onlineSample (pkts : List Packet) (full : ∀ pkt ∈ pkts, pkt.length = 1) : OnlineRepair oneParity 1 where
  pkts := pkts
  full := full
  lostidx := 0
  lostidx_lt := first_lt 0 List.mem_cons_self
  dag := oneParityDag
  cid2ip _ := 0
  objIp _ := 0
  avail := [1, 2]
  avail_found := survivors_found
  serves := serves_decode

theorem onePacket_idx_lt {b : ℕ} (hb : 0 < b) : 0 < objnum 1 b := by
  rw [objnum_of_le Nat.one_pos hb]
  exact Nat.one_pos

theorem onePacket_full : ∀ pkt ∈ ([[1]] : List Packet), pkt.length = 1 := by decide

theorem onePacket_length {b : ℕ} (hb : 0 < b) : ([[1]] : List Packet).length = objLength b 1 0 := by
  rw [objLength, objStart, objStart, Nat.zero_add, Nat.mul_one, Nat.mul_zero, Nat.min_eq_right hb]
  rfl

/-- The only object of a file of one packet. -/
def onePacket (b : ℕ) (hb : 0 < b) : DataObj 1 b where
  filesize := 1
  idx := 0
  idx_lt := onePacket_idx_lt hb
  pkts := [[1]]
  full := onePacket_full
  length_eq := onePacket_length hb

/-- A stripe of two objects of one packet, and the repair of the first of them. -/
def offlineSample (b : ℕ) (hb : 0 < b) : OfflineRepair oneParity 1 b where
  data _ := onePacket b hb
  encDag := oneParity.encode
  decDag := oneParityDag
  cid2ip _ := 0
  objIp _ := 0
  lostidxs := [0]
  lostidxs_lt := first_lt
  avail := [1, 2]
  avail_found := survivors_found
  encServes := serves_encode
  decServes := serves_decode

/-- Four packets fill two stripes, and objects of one packet are full when that is the base size. -/
theorem packets_cover_fourPackets : (onlineSample [[0], [1], [1], [0]] (by decide)).Covers ∧
    (offlineSample 1 Nat.one_pos).CoversDelay ∧ (offlineSample 1 Nat.one_pos).CoversOffline 0 := by
  have h := packets_cover_iff (c := oneParity) correct_oneParity Nat.two_pos (by decide) (by decide) Nat.one_pos
    Nat.one_pos (onlineSample [[0], [1], [1], [0]] (by decide)) (offlineSample 1 Nat.one_pos)
  have hfull : ∀ sid ∈ (offlineSample 1 Nat.one_pos).used, sid < oneParity.k →
      1 * (((offlineSample 1 Nat.one_pos).data sid).idx + 1) ≤ ((offlineSample 1 Nat.one_pos).data sid).filesize :=
    fun _ _ _ ↦ le_rfl
  exact ⟨h.1.mpr (.inl (by decide)), h.2.1.mpr hfull, (h.2.2 0 rfl).mpr hfull⟩

/-- Three packets leave one behind, and an object of one packet is too short for a base size of two. -/
theorem not_packets_cover_threePackets : ¬(onlineSample [[0], [1], [1]] (by decide)).Covers ∧
    ¬(offlineSample 2 Nat.two_pos).CoversDelay ∧ ¬(offlineSample 2 Nat.two_pos).CoversOffline 0 := by
  have hshort : ¬∀ sid ∈ (offlineSample 2 Nat.two_pos).used, sid < oneParity.k →
      2 * (((offlineSample 2 Nat.two_pos).data sid).idx + 1) ≤ ((offlineSample 2 Nat.two_pos).data sid).filesize := by
    intro hall
    have hle : 2 * (0 + 1) ≤ 1 := hall 0 (List.mem_append_right _ List.mem_cons_self) Nat.two_pos
    exact absurd hle (by decide)
  refine ⟨?_, ?_, ?_⟩
  · rw [OnlineRepair.covers_iff _ correct_oneParity Nat.two_pos (by decide) (by decide) Nat.one_pos]
    decide
  · rw [OfflineRepair.CoversDelay, OfflineRepair.covers_iff_of _ correct_oneParity (by decide) (by decide) Nat.one_pos
      Nat.two_pos]
    · exact hshort
    · funext objs
      rfl
  · rw [OfflineRepair.CoversOffline, OfflineRepair.covers_iff_of _ correct_oneParity (by decide) (by decide) Nat.one_pos
      Nat.two_pos]
    · exact hshort
    · funext objs
      rfl

end ClientCode

end UniDedup.Storage
