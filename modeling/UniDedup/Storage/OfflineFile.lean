import UniDedup.Storage.Coordinator
import UniDedup.Storage.Streams

/-!
# Files of an offline code

The coordinator cuts a file into objects of the base size, the agent that writes the file fills them with
packets, and the agent that reads it takes as many packets from every object as the average object has. The
packets come back exactly when all objects are equally long.

## The proof

All sizes are counted in packets: object `i` of a file of `f` packets has those from `objStart b f i` on, `objLength
b f i` many. Writing and reading then are loops with closed forms (`pending`, `cached`), and whether a read ends is
a question about numbers, which `all_le_objLength_iff` answers.
-/

namespace UniDedup.Storage

open Fold Slices

/-! ## Writing -/

/-- The numbers of packets of the objects, in `offlineWrite`. -/
def pktnums (pktSize filesizeMB basesizeMB objnum : ℕ) : List ℕ :=
  (List.range objnum).map fun i ↦
    (if i ≠ objnum - 1 then basesizeMB else filesizeMB - basesizeMB * (objnum - 1)) / pktSize

/-- What `offlineWrite` has done after some of its objects. -/
structure Loading where
  cache : Cache
  startid : ℕ
  objs : List (List GF256)

/-- The threads of one object of `offlineWrite`. -/
def loadObj (pktSize : ℕ) (s : Loading) (curnum : ℕ) : Option Loading := do
  let x ← loadWorker pktSize s.cache s.startid 1 curnum false
  let obj ← writeObj x.1 curnum
  return ⟨x.2, s.startid + curnum, s.objs ++ [obj]⟩

def offlineWrite (pktSize filesizeMB basesizeMB objnum : ℕ) (cache : Cache) : Option Loading :=
  (pktnums pktSize filesizeMB basesizeMB objnum).foldlM (loadObj pktSize) ⟨cache, 0, []⟩

/-! ## Reading -/

/-- `getFileMeta` of a file of an offline code: type, size and number of objects. -/
def getFileMeta (st : StripeStore) (filename : Name) : Option (ℕ × ℕ × ℕ) :=
  (st.ssEntryMap.lookup filename).map fun e ↦ (e.type, e.filesizeMB, e.objList.length)

/-- `readOfflineObj` of an object that exists. -/
def readOfflineObj (pktSize pktnum : ℕ) (obj : List GF256) (idx : ℕ) (cache : Cache) : Option Cache :=
  if exist obj then cacheWorker (readObj pktSize obj) (pktnum * idx) pktnum cache else none

def readOffline (pktSize filesizeMB objnum : ℕ) (objs : List (List GF256)) (cache : Cache) : Option Cache :=
  let objsizeMB := filesizeMB / objnum
  let pktnum := objsizeMB / pktSize
  (List.range objnum).foldlM (fun cache i ↦ readOfflineObj pktSize pktnum (objs.getD i []) i cache) cache

/-- Write packets as a file and read the file back: what the client stores. -/
def offlineRoundTrip (conf : Config) (clock : ℕ → ℕ) (st : StripeStore) (pool : OfflineECPool) (clientIp : ℕ)
    (filename : Name) (filesizeMB : ℕ) (picks : ℕ → ℕ) (pkts : List Packet) : Option (List GF256) := do
  let reg ← registerOfflineEC conf clock st pool clientIp filename filesizeMB picks
  let written ← offlineWrite conf.pktSize filesizeMB pool.basesize (objnum filesizeMB pool.basesize)
    (OECOutputStream.write pkts fun _ ↦ [])
  let filemeta ← getFileMeta reg.1 filename
  let cache ← readOffline conf.pktSize filemeta.2.1 filemeta.2.2 written.objs written.cache
  let queue ← OECInputStream.readWorker conf.pktSize filemeta.2.1 cache
  return OECInputStream.output2file queue.1

/-! ## Sizes in packets -/

section Sizes

variable {s b f : ℕ}

theorem objnum_mul (hs : 0 < s) : objnum (f * s) (b * s) = objnum f b := by
  rw [objnum, objnum, Nat.mul_div_mul_right _ _ hs, Nat.mul_mod_mul_right]
  congr 1
  exact if_congr (by simp [hs.ne']) rfl rfl

theorem objnum_mul_left (hb : 0 < b) (t : ℕ) : objnum (b * t) b = t := by
  rw [objnum, Nat.mul_div_cancel_left t hb, Nat.mul_mod_right, if_pos rfl, Nat.add_zero]

theorem objnum_of_le (hf : 0 < f) (h : f ≤ b) : objnum f b = 1 := by
  rcases h.lt_or_eq with h | rfl
  · rw [objnum, Nat.div_eq_of_lt h, Nat.mod_eq_of_lt h, if_neg hf.ne']
  · rw [objnum, Nat.div_self hf, Nat.mod_self, if_pos rfl]

/-- The last object begins before the end of the file, and no object lies behind it. -/
theorem objnum_bounds (hb : 0 < b) (hf : 0 < f) :
    b * (objnum f b - 1) < f ∧ f ≤ b * objnum f b ∧ 0 < objnum f b := by
  have hdiv := Nat.div_add_mod f b
  have hlt := Nat.mod_lt f hb
  rw [objnum]
  split_ifs with hmod
  · rw [Nat.add_zero]
    have hpos : 0 < f / b := by
      by_contra hzero
      rw [Nat.eq_zero_of_not_pos hzero] at hdiv
      omega
    have hsplit : b * (f / b) = b * (f / b - 1) + b := by
      rw [← Nat.mul_succ, Nat.succ_eq_add_one, Nat.sub_add_cancel hpos]
    exact ⟨by omega, by omega, hpos⟩
  · rw [Nat.add_sub_cancel, Nat.mul_add, Nat.mul_one]
    exact ⟨by omega, by omega, Nat.succ_pos _⟩

/-- Where the `i`-th object begins. -/
def objStart (b f i : ℕ) : ℕ := min (b * i) f

/-- The number of packets of the `i`-th object. -/
def objLength (b f i : ℕ) : ℕ := objStart b f (i + 1) - objStart b f i

theorem pktnums_mul (hs : 0 < s) (hb : 0 < b) (hf : 0 < f) :
    pktnums s (f * s) (b * s) (objnum f b) = (List.range (objnum f b)).map (objLength b f) := by
  obtain ⟨hlast, hend, hpos⟩ := objnum_bounds hb hf
  refine List.map_congr_left fun i hi ↦ ?_
  rw [List.mem_range] at hi
  rw [objLength, objStart, objStart]
  by_cases hilast : i = objnum f b - 1
  · rw [if_neg (not_not.mpr hilast), hilast, Nat.sub_add_cancel hpos, Nat.min_eq_right hend,
      Nat.min_eq_left hlast.le, Nat.mul_right_comm, ← Nat.sub_mul, Nat.mul_div_cancel _ hs]
  · have hle : b * (i + 1) ≤ b * (objnum f b - 1) := Nat.mul_le_mul_left _ (by omega)
    have hle' : b * i ≤ b * (i + 1) := Nat.mul_le_mul_left b (Nat.le_succ i)
    have hend' : b * (i + 1) ≤ f := hle.trans hlast.le
    rw [if_pos hilast, Nat.mul_div_cancel _ hs, Nat.min_eq_left hend', Nat.min_eq_left (hle'.trans hend'),
      Nat.mul_succ, Nat.add_sub_cancel_left]

/-- **When the average object is like every object.** -/
theorem all_le_objLength_iff (hb : 0 < b) (hf : 0 < f) :
    (∀ i < objnum f b, f / objnum f b ≤ objLength b f i) ∧ f ≤ f / objnum f b * objnum f b ↔
      f ≤ b ∨ b ∣ f := by
  obtain ⟨hlast, hend, hpos⟩ := objnum_bounds hb hf
  generalize hm : objnum f b = m at hlast hend hpos
  constructor
  · rintro ⟨hall, hcover⟩
    by_cases hone : m = 1
    · rw [hone, Nat.mul_one] at hend
      exact .inl hend
    · have hle := hall (m - 1) (by omega)
      rw [objLength, objStart, objStart, Nat.sub_add_cancel hpos, Nat.min_eq_right hend,
        Nat.min_eq_left hlast.le] at hle
      generalize f / m = q at hle hcover
      have hsplit : ∀ c, c * m = c * (m - 1) + c := fun c ↦ by
        rw [← Nat.mul_succ, Nat.succ_eq_add_one, Nat.sub_add_cancel hpos]
      -- the objects before the last are no longer than the average
      have hbq : b ≤ q := by
        refine Nat.le_of_mul_le_mul_right ?_ (show 0 < m - 1 by omega)
        have := hsplit q
        omega
      have := hsplit b
      exact .inr ⟨m, by omega⟩
  · rintro (hfb | ⟨t, rfl⟩)
    · obtain rfl : 1 = m := (objnum_of_le hf hfb).symm.trans hm
      rw [Nat.div_one, Nat.mul_one]
      refine ⟨fun i hi ↦ ?_, le_refl f⟩
      obtain rfl : i = 0 := by omega
      rw [objLength, objStart, objStart, Nat.zero_add, Nat.mul_one, Nat.mul_zero, Nat.min_eq_right hfb,
        Nat.zero_min, Nat.sub_zero]
    · obtain rfl : t = m := (objnum_mul_left hb t).symm.trans hm
      rw [Nat.mul_div_cancel b hpos]
      refine ⟨fun i hi ↦ ?_, le_refl _⟩
      rw [objLength, objStart, objStart, Nat.min_eq_left (Nat.mul_le_mul_left b hi),
        Nat.min_eq_left (Nat.mul_le_mul_left b (Nat.le_of_lt hi)), Nat.mul_succ, Nat.add_sub_cancel_left]

end Sizes

/-! ## What the threads do -/

section Packets

variable {s b f : ℕ} {P : ℕ → Packet}

def segment (P : ℕ → Packet) (start n : ℕ) : List Packet := (List.range n).map fun j ↦ P (start + j)

@[simp] theorem length_segment (start n : ℕ) : (segment P start n).length = n := by
  rw [segment, List.length_map, List.length_range]

theorem getD_segment {start n j : ℕ} (hj : j < n) : (segment P start n).getD j [] = P (start + j) := by
  simp [segment, hj]

theorem segment_append (start m n : ℕ) : segment P start m ++ segment P (start + m) n = segment P start (m + n) := by
  rw [segment, segment, segment, List.range_add, List.map_append, List.map_map]
  exact congrArg _ (List.map_congr_left fun j _ ↦ congrArg P (Nat.add_assoc _ _ _))

theorem flatMap_segment (m : ℕ) : ((List.range m).flatMap fun i ↦ segment P (objStart b f i) (objLength b f i)) =
    segment P 0 (objStart b f m) := by
  induction m with
  | zero => simp [segment, objStart]
  | succ m ih =>
    have hmono : objStart b f m ≤ objStart b f (m + 1) := min_le_min_right f (Nat.mul_le_mul_left b m.le_succ)
    have happ := segment_append (P := P) 0 (objStart b f m) (objLength b f m)
    rw [Nat.zero_add] at happ
    rw [List.range_succ, List.flatMap_append, ih, List.flatMap_singleton, happ, objLength,
      Nat.add_sub_cancel' hmono]

theorem cacheWorker_segment : cacheWorker (segment P 0 f) 0 f (fun _ ↦ []) = some fun key ↦
    if key < f then [P key] else [] := by
  rw [cacheWorker, length_segment, if_pos le_rfl, List.take_of_length_le (length_segment 0 f).le]
  refine congrArg some (funext fun key ↦ ?_)
  rw [Cache.pushAll_apply, length_segment, Nat.zero_add, Nat.sub_zero, List.nil_append]
  by_cases hkey : key < f
  · rw [if_pos ⟨Nat.zero_le key, hkey⟩, if_pos hkey, getD_segment hkey, Nat.zero_add]
  · rw [if_neg fun h ↦ hkey h.2, if_neg hkey]

/-- The lists while the packets below a number have been taken. -/
def pending (P : ℕ → Packet) (start f : ℕ) : Cache := fun key ↦ if start ≤ key ∧ key < f then [P key] else []

theorem write_eq_pending (pkts : List Packet) :
    OECOutputStream.write pkts (fun _ ↦ []) = pending (pkts.getD · []) 0 pkts.length := by
  funext key
  rw [OECOutputStream.write, Cache.pushAll_apply, pending, Nat.zero_add, Nat.sub_zero, List.nil_append]

theorem length_getD {pkts : List Packet} {n : ℕ} (hfull : ∀ pkt ∈ pkts, pkt.length = n) {i : ℕ}
    (hi : i < pkts.length) : (pkts.getD i []).length = n := by
  rw [List.getD_eq_getElem?_getD, List.getElem?_eq_getElem hi, Option.getD_some]
  exact hfull _ (List.getElem_mem hi)

theorem loadWorker_pending {start n : ℕ} (h : start + n ≤ f) :
    loadWorker s (pending P start f) start 1 n false = some (segment P start n, pending P (start + n) f) := by
  have hkeys : ((List.range n).map fun i ↦ start + i * 1) = List.range' start n := by
    simp [List.range'_eq_map_range]
  have hmem : ∀ key, key ∈ List.range' start n ↔ start ≤ key ∧ key < start + n := fun key ↦ by
    rw [List.mem_range'_1]
  have hlist : ∀ key ∈ List.range' start n, pending P start f key = [P key] := by
    intro key hkey
    rw [hmem] at hkey
    exact if_pos ⟨hkey.1, by omega⟩
  rw [loadWorker, hkeys, Cache.popAll_eq List.nodup_range', if_pos, Option.map_some]
  · refine congrArg some (Prod.ext ?_ (funext fun key ↦ ?_))
    · change (List.range' start n).map (fun key ↦ (pending P start f key).headD []) = _
      rw [segment, List.range'_eq_map_range, List.map_map]
      refine List.map_congr_left fun j hj ↦ ?_
      rw [Function.comp_apply, hlist, List.headD_cons]
      rw [hmem]
      rw [List.mem_range] at hj
      omega
    · dsimp only
      by_cases hkey : key ∈ List.range' start n
      · rw [if_pos hkey, hlist key hkey, pending, if_neg, List.tail_cons]
        rw [hmem] at hkey
        omega
      · rw [if_neg hkey, pending, pending]
        rw [hmem] at hkey
        exact if_congr (by omega) rfl rfl
  · intro key hkey
    rw [hlist key hkey]
    exact List.cons_ne_nil _ _

theorem loadObj_pending {start n : ℕ} {objs : List (List GF256)} (h : start + n ≤ f) :
    loadObj s ⟨pending P start f, start, objs⟩ n =
      some ⟨pending P (start + n) f, start + n, objs ++ [(segment P start n).flatten]⟩ := by
  rw [loadObj, loadWorker_pending h, Option.bind_eq_bind, Option.bind_some, writeObj,
    if_pos (length_segment start n).ge, List.take_of_length_le (length_segment start n).le]
  rfl

def fileObjs (P : ℕ → Packet) (b f m : ℕ) : List (List GF256) :=
  (List.range m).map fun i ↦ (segment P (objStart b f i) (objLength b f i)).flatten

/-- **Writing.** Every object gets its packets, and none is left over. -/
theorem offlineWrite_eq (hs : 0 < s) (hb : 0 < b) (hf : 0 < f) :
    offlineWrite s (f * s) (b * s) (objnum f b) (pending P 0 f) =
      some ⟨pending P f f, f, fileObjs P b f (objnum f b)⟩ := by
  have hend := (objnum_bounds hb hf).2.1
  rw [offlineWrite, pktnums_mul hs hb hf, List.foldlM_map]
  have hfold : ∀ n, (List.range n).foldlM (fun x i ↦ loadObj s x (objLength b f i)) ⟨pending P 0 f, 0, []⟩ =
      some ⟨pending P (objStart b f n) f, objStart b f n, fileObjs P b f n⟩ := by
    intro n
    induction n with
    | zero => simp [objStart, fileObjs]
    | succ n ih =>
      have hmono : objStart b f n ≤ objStart b f (n + 1) :=
        min_le_min_right f (Nat.mul_le_mul_left b n.le_succ)
      have hstart : objStart b f n + objLength b f n = objStart b f (n + 1) := Nat.add_sub_cancel' hmono
      rw [List.range_succ, List.foldlM_append, ih, Option.bind_eq_bind, Option.bind_some, List.foldlM_cons,
        loadObj_pending (hstart.trans_le (min_le_right _ _)), hstart, fileObjs, fileObjs, List.range_succ,
        List.map_append]
      rfl
  rw [hfold, objStart, Nat.min_eq_right hend]

/-- The lists after some objects have been cached, `q` packets of each. -/
def cached (P : ℕ → Packet) (b q n : ℕ) : Cache := fun key ↦
  if key < q * n then [P (b * (key / q) + key % q)] else []

theorem getD_fileObjs {m i : ℕ} (hi : i < m) :
    (fileObjs P b f m).getD i [] = (segment P (objStart b f i) (objLength b f i)).flatten := by
  simp [fileObjs, hi]

theorem readOfflineObj_cached (hs : 0 < s) (hb : 0 < b) {n q : ℕ} (hn : b * n < f)
    (hfull : ∀ i < f, (P i).length = s) :
    readOfflineObj s q (segment P (objStart b f n) (objLength b f n)).flatten n (cached P b q n) =
      if q ≤ objLength b f n then some (cached P b q (n + 1)) else none := by
  have hstart : objStart b f n = b * n := Nat.min_eq_left hn.le
  have hlen : 0 < objLength b f n := by
    rw [objLength, hstart, objStart]
    have : b * (n + 1) = b * n + b := Nat.mul_succ b n
    omega
  have hin : b * n + objLength b f n ≤ f := by
    rw [objLength, hstart, objStart]
    omega
  have hpkt : ∀ p ∈ segment P (b * n) (objLength b f n), p.length = s := by
    intro p hp
    obtain ⟨j, hj, rfl⟩ := List.mem_map.mp hp
    rw [List.mem_range] at hj
    exact hfull _ (by omega)
  have hexist : exist (segment P (b * n) (objLength b f n)).flatten = true := by
    rw [exist, Bool.not_eq_true', List.isEmpty_eq_false_iff]
    intro hnil
    have hmem : P (b * n) ∈ segment P (b * n) (objLength b f n) :=
      List.mem_map.mpr ⟨0, List.mem_range.mpr hlen, rfl⟩
    have := hpkt _ hmem
    rw [List.flatten_eq_nil_iff.mp hnil _ hmem, List.length_nil] at this
    omega
  rw [hstart, readOfflineObj, if_pos hexist, readObj, slices_flatten hs hpkt, cacheWorker, length_segment]
  split_ifs with hq
  · refine congrArg some (funext fun key ↦ ?_)
    have htake : ((segment P (b * n) (objLength b f n)).take q).length = q := by
      rw [List.length_take, length_segment, Nat.min_eq_left hq]
    have hsucc : q * (n + 1) = q * n + q := Nat.mul_succ q n
    rw [Cache.pushAll_apply, htake, cached, cached, hsucc]
    by_cases hkey : q * n ≤ key ∧ key < q * n + q
    · have hdiv : key / q = n := Nat.div_eq_of_lt_le (by rw [Nat.mul_comm]; exact hkey.1)
        (by rw [Nat.mul_comm, hsucc]; exact hkey.2)
      have hmod : key % q = key - q * n := by
        have := Nat.div_add_mod key q
        rw [hdiv] at this
        omega
      rw [if_pos hkey, if_neg (by omega), if_pos hkey.2, hdiv, hmod, List.nil_append]
      have hget : ((segment P (b * n) (objLength b f n)).take q).getD (key - q * n) [] =
          P (b * n + (key - q * n)) := by
        rw [List.getD_eq_getElem?_getD, List.getElem?_take_of_lt (by omega), ← List.getD_eq_getElem?_getD,
          getD_segment (by omega)]
      rw [hget]
    · rw [if_neg hkey]
      exact if_congr (by omega) rfl rfl
  · rfl

/-- **Reading.** A read ends when every object has as many packets as the average, and has then cached so many
of each. -/
theorem readOffline_eq (hs : 0 < s) (hb : 0 < b) (hf : 0 < f) (hfull : ∀ i < f, (P i).length = s) :
    readOffline s (f * s) (objnum f b) (fileObjs P b f (objnum f b)) (fun _ ↦ []) =
      if ∀ i < objnum f b, f / objnum f b ≤ objLength b f i then
        some (cached P b (f / objnum f b) (objnum f b))
      else none := by
  have hlast := (objnum_bounds hb hf).1
  have hq : f * s / objnum f b / s = f / objnum f b := by
    rw [Nat.div_div_eq_div_mul, Nat.mul_div_mul_right _ _ hs]
  rw [readOffline, hq]
  generalize objnum f b = m at hlast
  generalize f / m = q
  suffices hfold : ∀ n ≤ m, (List.range n).foldlM
      (fun cache i ↦ readOfflineObj s q ((fileObjs P b f m).getD i []) i cache) (fun _ ↦ []) =
      if ∀ i < n, q ≤ objLength b f i then some (cached P b q n) else none from hfold m le_rfl
  intro n hn
  induction n with
  | zero =>
    rw [if_pos fun i hi ↦ absurd hi (Nat.not_lt_zero i)]
    exact congrArg some (funext fun key ↦ (if_neg (by simp)).symm)
  | succ n ih =>
    have hbn : b * n < f := (Nat.mul_le_mul_left b (Nat.le_sub_one_of_lt hn)).trans_lt hlast
    rw [List.range_succ, List.foldlM_append, ih (Nat.le_of_succ_le hn), Option.bind_eq_bind]
    by_cases hall : ∀ i < n, q ≤ objLength b f i
    · rw [if_pos hall, Option.bind_some, List.foldlM_cons, getD_fileObjs hn, readOfflineObj_cached hs hb hbn hfull]
      by_cases hqn : q ≤ objLength b f n
      · rw [if_pos hqn, if_pos]
        · rfl
        · intro i hi
          rcases Nat.lt_succ_iff_lt_or_eq.mp hi with hi | rfl
          · exact hall i hi
          · exact hqn
      · rw [if_neg hqn, if_neg fun h ↦ hqn (h n n.lt_succ_self)]
        rfl
    · rw [if_neg hall, if_neg fun h ↦ hall fun i hi ↦ h i (hi.trans n.lt_succ_self)]
      rfl

/-- The client gets its packets where there is one under every number. -/
theorem readWorker_cached (hs : 0 < s) {q m : ℕ} :
    (OECInputStream.readWorker s (f * s) (cached P b q m)).map Prod.fst =
      if f ≤ q * m then some ((List.range f).map fun key ↦ P (b * (key / q) + key % q)) else none := by
  rw [OECInputStream.readWorker, Nat.mul_div_cancel f hs, Cache.popAll_eq List.nodup_range]
  by_cases hle : f ≤ q * m
  · have hlist : ∀ key ∈ List.range f, cached P b q m key = [P (b * (key / q) + key % q)] := by
      intro key hkey
      exact if_pos ((List.mem_range.mp hkey).trans_le hle)
    rw [if_pos hle, if_pos, Option.map_some]
    · refine congrArg some (List.map_congr_left fun key hkey ↦ ?_)
      rw [hlist key hkey, List.headD_cons]
    · intro key hkey
      rw [hlist key hkey]
      exact List.cons_ne_nil _ _
  · rw [if_neg hle, if_neg, Option.map_none]
    intro hall
    exact hall (q * m) (List.mem_range.mpr (Nat.lt_of_not_le hle)) (if_neg (Nat.lt_irrefl _))

end Packets

/-! ## The round trip -/

section RoundTrip

variable {conf : Config} {clock : ℕ → ℕ} {st : StripeStore} {pool : OfflineECPool} {clientIp : ℕ}
  {filename : Name} {picks : ℕ → ℕ}

theorem getFileMeta_registerOfflineEC {filesizeMB : ℕ} {r : StripeStore × Placing}
    (h : registerOfflineEC conf clock st pool clientIp filename filesizeMB picks = some r) :
    getFileMeta r.1 filename = some (1, filesizeMB, objnum filesizeMB pool.basesize) := by
  rw [registerOfflineEC] at h
  split_ifs at h with hguard
  obtain ⟨s, hs, h⟩ := Option.bind_eq_some_iff.mp h
  cases h
  have hlen : s.fileobjnames.length = objnum filesizeMB pool.basesize := by
    refine foldlM_range_invariant (I := fun i (s : Placing) ↦ s.fileobjnames.length = i)
      (fun i _ s s' hlen hstep ↦ ?_) rfl hs
    obtain ⟨stripeips, -, hstep⟩ := Option.bind_eq_some_iff.mp hstep
    obtain ⟨curIp, -, hstep⟩ := Option.bind_eq_some_iff.mp hstep
    cases hstep
    rw [List.length_append, List.length_singleton, hlen]
  have hfresh : filename ∉ st.ssEntryMap := fun hmem ↦ hguard (.inl hmem)
  have hentry := @StripeStore.lookup_insertEntry_self st
    ⟨filename, 1, filesizeMB, pool.ecpoolid, s.fileobjnames, s.fileobjlocs⟩ hfresh
  rw [getFileMeta, hentry, Option.map_some, hlen]

/-- **Round trip of a file of an offline code.** The packets of a file of `f` packets come back exactly when it
fits in one object of `b` packets or fills all its objects; otherwise the reader waits forever. -/
theorem offlineRoundTrip_iff {b f : ℕ} {pkts : List Packet} {r : StripeStore × Placing} (hs : 0 < conf.pktSize)
    (hb : 0 < b) (hf : 0 < f) (hbase : pool.basesize = b * conf.pktSize) (hlen : pkts.length = f)
    (hfull : ∀ p ∈ pkts, p.length = conf.pktSize)
    (hreg : registerOfflineEC conf clock st pool clientIp filename (f * conf.pktSize) picks = some r) :
    offlineRoundTrip conf clock st pool clientIp filename (f * conf.pktSize) picks pkts = some pkts.flatten ↔
      f ≤ b ∨ b ∣ f := by
  generalize hP : (fun i ↦ pkts.getD i []) = P
  have hpkts : pkts = segment P 0 f := by
    refine List.ext_getElem (by rw [hlen, length_segment]) fun i hi hi' ↦ ?_
    simp [segment, ← hP, hi]
  have hPfull : ∀ i < f, (P i).length = conf.pktSize := fun i hi ↦ hP ▸ length_getD hfull (hlen ▸ hi)
  have hwrite : OECOutputStream.write pkts (fun _ ↦ []) = pending P 0 f := by rw [write_eq_pending, hlen, hP]
  have hempty : pending P f f = fun _ ↦ [] := funext fun key ↦ if_neg (by omega)
  have hrun : offlineRoundTrip conf clock st pool clientIp filename (f * conf.pktSize) picks pkts =
      if (∀ i < objnum f b, f / objnum f b ≤ objLength b f i) ∧ f ≤ f / objnum f b * objnum f b then
        some (OECInputStream.output2file ((List.range f).map fun key ↦
          P (b * (key / (f / objnum f b)) + key % (f / objnum f b))))
      else none := by
    rw [offlineRoundTrip, hreg, Option.bind_eq_bind, Option.bind_some, hbase, objnum_mul hs, hwrite,
      offlineWrite_eq hs hb hf, Option.bind_eq_bind, Option.bind_some,
      getFileMeta_registerOfflineEC hreg, hbase, objnum_mul hs, Option.bind_eq_bind, Option.bind_some]
    dsimp only
    rw [hempty, readOffline_eq hs hb hf hPfull]
    by_cases hall : ∀ i < objnum f b, f / objnum f b ≤ objLength b f i
    · rw [if_pos hall, Option.bind_eq_bind, Option.bind_some]
      have hread := readWorker_cached (P := P) (b := b) (f := f) hs (q := f / objnum f b) (m := objnum f b)
      by_cases hcover : f ≤ f / objnum f b * objnum f b
      · rw [if_pos hcover] at hread
        obtain ⟨x, hx, hfst⟩ := Option.map_eq_some_iff.mp hread
        rw [hx, if_pos ⟨hall, hcover⟩, ← hfst]
        rfl
      · rw [if_neg hcover, Option.map_eq_none_iff] at hread
        rw [hread, if_neg fun h ↦ hcover h.2]
        rfl
    · rw [if_neg hall, if_neg fun h ↦ hall h.1]
      rfl
  rw [← all_le_objLength_iff hb hf, hrun]
  by_cases hcond : (∀ i < objnum f b, f / objnum f b ≤ objLength b f i) ∧ f ≤ f / objnum f b * objnum f b
  · rw [if_pos hcond]
    refine iff_of_true (congrArg some ?_) hcond
    have hall : (List.range f).map (fun key ↦ P (b * (key / (f / objnum f b)) + key % (f / objnum f b))) = pkts := by
      rw [hpkts]
      refine List.map_congr_left fun key hkey ↦ congrArg P ?_
      rw [List.mem_range] at hkey
      rw [Nat.zero_add]
      rcases (all_le_objLength_iff hb hf).mp hcond with hfb | ⟨t, rfl⟩
      · have hone : f / objnum f b = f := by rw [objnum_of_le hf hfb, Nat.div_one]
        rw [hone, Nat.div_eq_of_lt hkey, Nat.mod_eq_of_lt hkey, Nat.mul_zero, Nat.zero_add]
      · have hq : b * t / objnum (b * t) b = b := by
          rw [objnum_mul_left hb, Nat.mul_div_cancel b (Nat.pos_of_mul_pos_left hf)]
        rw [hq, Nat.div_add_mod]
    have hne : ∀ p ∈ pkts, (!p.isEmpty) = true := by
      intro p hp
      rw [Bool.not_eq_true', List.isEmpty_eq_false_iff]
      rintro rfl
      exact hs.ne (hfull [] hp)
    rw [hall, OECInputStream.output2file, List.takeWhile_eq_self_iff.mpr hne]
  · rw [if_neg hcond]
    exact iff_of_false (Option.some_ne_none _).symm hcond

end RoundTrip

/-- A file of four packets in two objects. -/
theorem offlineRoundTrip_twoObjects : ∃ (conf : Config) (pool : OfflineECPool),
    offlineRoundTrip conf id ⟨∅, ∅⟩ pool 1 ['f'] 4 id [[0], [1], [1], [0]] = some [0, 1, 1, 0] := by
  let policy : ECPolicy := ⟨3, 2, 1, [], Nat.succ_pos 1, Nat.lt_succ_self 2⟩
  let conf : Config := ⟨[(['a'], 1), (['a'], 2), (['b'], 3), (['b'], 4)], false, true, 1⟩
  let pool : OfflineECPool := .empty ['p'] policy 2
  obtain ⟨r, hr⟩ : ∃ r, registerOfflineEC conf id ⟨∅, ∅⟩ pool 1 ['f'] 4 id = some r :=
    Option.isSome_iff_exists.mp (by decide +kernel)
  exact ⟨conf, pool, (offlineRoundTrip_iff (b := 2) (f := 4) Nat.one_pos Nat.two_pos
    (Nat.succ_pos 3) rfl rfl (by decide) hr).mpr (.inr ⟨2, rfl⟩)⟩

/-- A file of three packets in objects of two: the reader takes one packet of each object, and the client waits
for the third. -/
theorem not_offlineRoundTrip_short : ∃ (conf : Config) (pool : OfflineECPool),
    conf.pktSize = 1 ∧ pool.basesize = 2 ∧ (registerOfflineEC conf id ⟨∅, ∅⟩ pool 1 ['f'] 3 id).isSome ∧
      offlineRoundTrip conf id ⟨∅, ∅⟩ pool 1 ['f'] 3 id [[0], [1], [1]] ≠ some [0, 1, 1] := by
  let policy : ECPolicy := ⟨3, 2, 1, [], Nat.succ_pos 1, Nat.lt_succ_self 2⟩
  let conf : Config := ⟨[(['a'], 1), (['a'], 2), (['b'], 3), (['b'], 4)], false, true, 1⟩
  exact ⟨conf, .empty ['p'] policy 2, rfl, rfl, by decide +kernel, by decide +kernel⟩

end UniDedup.Storage
