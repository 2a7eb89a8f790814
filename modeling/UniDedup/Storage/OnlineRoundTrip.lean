import UniDedup.Storage.OnlineFile

/-!
# The round trip of an online file

The writer makes one stripe more than there are full stripes when packets are left; the healthy read goes on
until every object is used up. The degraded read computes the full stripes only, so that it waits forever for
the packets of the last one. So does every read of a file of less than `k` packets: some of its objects are
empty, which is taken for lost.

## The proof

The caches of a writer and of a reader are functions of the key, and each thread takes a known part of them:
`remaining` is what is left behind the first load threads, and `after t` a stream with `t` packets taken. So the
loops over threads and over rounds are inductions with a closed form for the state, and the codec comes in at one
place only, through `Coded`.
-/

namespace UniDedup.Storage

open ECDAG Fold Slices

namespace ClientCode

variable {c : ClientCode} {s p : ℕ} {P : ℕ → Packet}

/-! ## The numbers of packets -/

section Numbers

variable (hk : 0 < c.k)

include hk

theorem lt_loadnum_iff {t i : ℕ} (hi : i < c.k) : t < c.loadnum p i ↔ t * c.k + i < p := by
  have hp := Nat.div_add_mod p c.k
  have hlt := Nat.mod_lt p hk
  rw [loadnum]
  generalize p / c.k = R at hp ⊢
  generalize p % c.k = L at hp hlt ⊢
  rw [Nat.mul_comm] at hp
  rcases Nat.lt_trichotomy t R with h | rfl | h
  · have hle : (t + 1) * c.k ≤ R * c.k := Nat.mul_le_mul_right _ h
    rw [Nat.succ_mul] at hle
    exact iff_of_true (by omega) (by omega)
  · split_ifs with hL <;> omega
  · have hle : (R + 1) * c.k ≤ t * c.k := Nat.mul_le_mul_right _ h
    rw [Nat.succ_mul] at hle
    refine iff_of_false ?_ (by omega)
    split_ifs <;> omega

omit hk in
theorem stripenum_eq (i : ℕ) : c.stripenum p =
    c.loadnum p i + if 0 < p % c.k ∧ p % c.k ≤ i then 1 else 0 := by
  rw [stripenum, loadnum]
  split_ifs <;> omega

omit hk in
theorem persistnum_of_lt {i : ℕ} (hi : i < c.k) : c.persistnum p i = c.loadnum p i := by
  rw [persistnum, if_neg fun h ↦ absurd h.2 (Nat.not_le.mpr hi), Nat.add_zero]

theorem persistnum_of_le {i : ℕ} (hi : c.k ≤ i) : c.persistnum p i = c.stripenum p := by
  have hlt := Nat.mod_lt p hk
  rw [persistnum, stripenum_eq i]
  congr 1
  exact if_congr (by omega) rfl rfl

theorem persistnum_le (i : ℕ) : c.persistnum p i ≤ c.stripenum p := by
  rcases Nat.lt_or_ge i c.k with hi | hi
  · rw [persistnum_of_lt hi, stripenum_eq i]
    exact Nat.le_add_right _ _
  · exact (persistnum_of_le hk hi).le

end Numbers

/-! ## Writing -/

/-- The packets of the file, and packets of zeros behind them. -/
def padded (s p : ℕ) (P : ℕ → Packet) (j : ℕ) : Packet := if j < p then P j else List.replicate s 0

def dataStripe (c : ClientCode) (s p : ℕ) (P : ℕ → Packet) (t : ℕ) : List Packet :=
  (List.range c.k).map fun i ↦ padded s p P (t * c.k + i)

theorem getD_dataStripe {t i : ℕ} (hi : i < c.k) :
    (c.dataStripe s p P t).getD i [] = padded s p P (t * c.k + i) := by
  simp [dataStripe, hi]

def column (c : ClientCode) (s p : ℕ) (P : ℕ → Packet) (i : ℕ) : List Packet :=
  (List.range (c.stripenum p)).map fun t ↦ padded s p P (t * c.k + i)

/-- The lists of the client after some load threads. -/
def remaining (c : ClientCode) (p : ℕ) (P : ℕ → Packet) (i : ℕ) : Cache := fun key ↦
  if key < p ∧ i ≤ key % c.k then [P key] else []

/-- **One load thread.** -/
theorem loadQueue_remaining (hk : 0 < c.k) {i : ℕ} (hi : i < c.k) (queues : List (List Packet)) :
    c.loadQueue s p (queues, c.remaining p P i) i = some (queues ++ [c.column s p P i], c.remaining p P (i + 1)) := by
  have hkeys : ((List.range (c.loadnum p i)).map fun j ↦ i + j * c.k).Nodup := by
    refine List.nodup_range.map fun j j' h ↦ ?_
    exact Nat.eq_of_mul_eq_mul_right hk (Nat.add_left_cancel h)
  have hmem : ∀ key, key ∈ (List.range (c.loadnum p i)).map (fun j ↦ i + j * c.k) ↔ key < p ∧ key % c.k = i := by
    intro key
    rw [List.mem_map]
    constructor
    · rintro ⟨j, hj, rfl⟩
      rw [List.mem_range, lt_loadnum_iff hk hi] at hj
      exact ⟨by omega, by rw [Nat.add_mul_mod_self_right, Nat.mod_eq_of_lt hi]⟩
    · rintro ⟨hp, rfl⟩
      refine ⟨key / c.k, ?_, by rw [Nat.mul_comm, Nat.mod_add_div]⟩
      rw [List.mem_range, lt_loadnum_iff hk hi, Nat.mul_comm, Nat.div_add_mod]
      exact hp
  have hlist : ∀ key ∈ (List.range (c.loadnum p i)).map (fun j ↦ i + j * c.k), c.remaining p P i key = [P key] := by
    intro key hkey
    rw [hmem] at hkey
    exact if_pos ⟨hkey.1, hkey.2.ge⟩
  rw [loadQueue, loadWorker, Cache.popAll_eq hkeys, if_pos, Option.map_some, Option.map_some]
  · refine congrArg some (Prod.ext (congrArg (queues ++ [·]) ?_) (funext fun key ↦ ?_))
    · have hheads : ((List.range (c.loadnum p i)).map fun j ↦ i + j * c.k).map
          (fun key ↦ (c.remaining p P i key).headD []) =
          (List.range (c.loadnum p i)).map fun t ↦ padded s p P (t * c.k + i) := by
        rw [List.map_map]
        refine List.map_congr_left fun j hj ↦ ?_
        rw [Function.comp_apply, hlist _ (List.mem_map_of_mem hj), List.headD_cons, padded, Nat.add_comm, if_pos]
        rwa [List.mem_range, lt_loadnum_iff hk hi] at hj
      dsimp only
      rw [hheads, column, stripenum_eq i]
      by_cases hzero : 0 < p % c.k ∧ p % c.k ≤ i
      · have hnot : ¬c.loadnum p i * c.k + i < p := fun h ↦ Nat.lt_irrefl _ ((lt_loadnum_iff hk hi).mpr h)
        rw [if_pos (decide_eq_true hzero), if_pos hzero, List.range_succ, List.map_append, List.map_singleton,
          padded, if_neg hnot]
      · rw [if_neg fun h ↦ hzero (of_decide_eq_true h), if_neg hzero, Nat.add_zero]
    · dsimp only
      by_cases hkey : key ∈ (List.range (c.loadnum p i)).map fun j ↦ i + j * c.k
      · rw [if_pos hkey, hlist key hkey, List.tail_cons, remaining, if_neg]
        rw [hmem] at hkey
        omega
      · rw [if_neg hkey, remaining, remaining]
        rw [hmem] at hkey
        exact if_congr (by omega) rfl rfl
  · intro key hkey
    dsimp only
    rw [hlist key hkey]
    exact List.cons_ne_nil _ _

def objPkts (c : ClientCode) (p : ℕ) (coded : ℕ → List Packet) (i : ℕ) : List Packet :=
  (List.range (c.persistnum p i)).map fun t ↦ (coded t).getD i []

/-- **Writing.** The objects hold the packets of the encoded stripes, and no packet of the client is left. -/
theorem onlineWrite_eq (h : c.Correct) (hk : 0 < c.k) (hkn : c.k ≤ c.n) (hw : c.w ∣ s) (hs : 0 < s)
    (hfull : ∀ j < p, (P j).length = s) :
    ∃ coded : ℕ → List Packet, (∀ t, Coded c s (c.dataStripe s p P t) (coded t)) ∧
      c.onlineWrite s (p * s) (pending P 0 p) =
        some ((List.range c.n).map fun i ↦ (c.objPkts p coded i).flatten, fun _ ↦ []) := by
  have hcur : ∀ t, ∀ i < c.k, ((c.dataStripe s p P t).getD i []).length = s := by
    intro t i hi
    rw [getD_dataStripe hi, padded]
    split_ifs with hlt
    · exact hfull _ hlt
    · exact List.length_replicate
  choose coded hcoded hrel using fun t ↦ h.encodeStripe hkn hw hs (hcur t)
  refine ⟨coded, hrel, ?_⟩
  have hstart : pending P 0 p = c.remaining p P 0 :=
    funext fun key ↦ if_congr (by simp [And.comm]) rfl rfl
  have hload : (List.range c.k).foldlM (c.loadQueue s p) ([], pending P 0 p) =
      some ((List.range c.k).map (c.column s p P), fun _ ↦ []) := by
    suffices hfold : ∀ m ≤ c.k, (List.range m).foldlM (c.loadQueue s p) ([], pending P 0 p) =
        some ((List.range m).map (c.column s p P), c.remaining p P m) by
      rw [hfold c.k le_rfl]
      refine congrArg some (Prod.ext rfl (funext fun key ↦ if_neg ?_))
      exact fun hand ↦ Nat.not_le.mpr (Nat.mod_lt key hk) hand.2
    intro m hm
    induction m with
    | zero => exact congrArg some (Prod.ext rfl hstart)
    | succ m ih =>
      rw [List.range_succ, List.foldlM_append, ih (Nat.le_of_succ_le hm), Option.bind_eq_bind, Option.bind_some,
        List.foldlM_cons, loadQueue_remaining hk hm, List.map_append]
      rfl
  have hstripes : takeStripes ((List.range c.k).map (c.column s p P)) (c.stripenum p) =
      some ((List.range (c.stripenum p)).map (c.dataStripe s p P)) := by
    refine mapM_eq_map fun t ht ↦ ?_
    rw [List.mapM_map]
    refine mapM_eq_map fun i _ ↦ ?_
    rw [Function.comp_apply, column, List.getElem?_map, List.getElem?_range (List.mem_range.mp ht), Option.map_some]
  have hencode : ((List.range (c.stripenum p)).map (c.dataStripe s p P)).mapM (c.encodeStripe s) =
      some ((List.range (c.stripenum p)).map coded) := by
    rw [List.mapM_map]
    exact mapM_eq_map fun t _ ↦ hcoded t
  have hobjs : (List.range c.n).mapM (fun i ↦ writeObj
      (((List.range (c.stripenum p)).map coded).map (·.getD i [])) (c.persistnum p i)) =
      some ((List.range c.n).map fun i ↦ (c.objPkts p coded i).flatten) := by
    refine mapM_eq_map fun i _ ↦ ?_
    have hle := persistnum_le (p := p) hk i
    rw [writeObj, if_pos (by simpa using hle), List.map_map, ← List.map_take, List.take_range,
      Nat.min_eq_left hle]
    rfl
  rw [onlineWrite, Nat.mul_div_cancel p hs, hload, Option.bind_eq_bind, Option.bind_some]
  dsimp only
  rw [hstripes, Option.bind_eq_bind, Option.bind_some, hencode, Option.bind_some, hobjs]
  rfl

end ClientCode

/-! ## Taking packets in turn -/

namespace FSObjInputStream

/-- A stream of which some packets have been taken. -/
def after (t : ℕ) (q : List Packet) : FSObjInputStream := ⟨q.flatten.length, (q.take t).flatten.length, q.drop t⟩

variable {q : List Packet} {Q : List (List Packet)}

theorem hasNext_after (hq : ∀ pkt ∈ q, pkt ≠ []) (t : ℕ) : (after t q).hasNext = decide (t < q.length) := by
  refine decide_eq_decide.mpr ?_
  rw [after]
  dsimp only
  by_cases ht : t < q.length
  · refine iff_of_true ?_ ht
    have hpos : 0 < q[t].length := List.length_pos_of_ne_nil (hq _ (List.getElem_mem ht))
    have hsplit := congrArg (fun l ↦ l.flatten.length) (List.take_append_drop t q)
    rw [List.drop_eq_getElem_cons ht] at hsplit
    simp only [List.flatten_append, List.flatten_cons, List.length_append] at hsplit
    omega
  · rw [List.take_of_length_le (Nat.le_of_not_lt ht)]
    exact iff_of_false (Nat.lt_irrefl _) ht

theorem takeOne_after (hq : ∀ pkt ∈ q, pkt ≠ []) (t : ℕ) (out : List Packet) (done : List FSObjInputStream) :
    takeOne (out, done) (after t q) = some (out ++ q[t]?.toList, done ++ [after (t + 1) q]) := by
  rw [takeOne, hasNext_after hq]
  by_cases ht : t < q.length
  · have hne : q[t].length ≠ 0 := fun h ↦ hq _ (List.getElem_mem ht) (List.eq_nil_of_length_eq_zero h)
    have hdeq : (after t q).dequeue = some (q[t], after (t + 1) q) := by
      rw [dequeue, after]
      dsimp only
      rw [List.drop_eq_getElem_cons ht]
      dsimp only
      rw [after, ← List.take_append_getElem ht, List.flatten_append, List.length_append]
      simp
    rw [if_pos (decide_eq_true ht), hdeq, Option.map_some, if_pos hne, List.getElem?_eq_getElem ht]
    rfl
  · have hle := Nat.le_of_not_lt ht
    have hsame : after (t + 1) q = after t q := by
      rw [after, after, List.take_of_length_le hle, List.take_of_length_le (hle.trans t.le_succ),
        List.drop_eq_nil_of_le hle, List.drop_eq_nil_of_le (hle.trans t.le_succ)]
    rw [if_neg fun h ↦ ht (of_decide_eq_true h), hsame, List.getElem?_eq_none hle, Option.toList_none,
      List.append_nil]

theorem foldlM_takeOne_after (hQ : ∀ q ∈ Q, ∀ pkt ∈ q, pkt ≠ []) (t : ℕ) (out : List Packet)
    (done : List FSObjInputStream) :
    (Q.map (after t)).foldlM takeOne (out, done) =
      some (out ++ Q.flatMap fun q ↦ q[t]?.toList, done ++ Q.map (after (t + 1))) := by
  induction Q generalizing out done with
  | nil => simp
  | cons q Q ih =>
    rw [List.map_cons, List.foldlM_cons, takeOne_after (hQ q List.mem_cons_self), Option.bind_eq_bind,
      Option.bind_some, ih fun q' hq' ↦ hQ q' (List.mem_cons_of_mem q hq')]
    simp

/-- **All rounds.** The packets are taken round by round until the longest object is used up. -/
theorem takeAll_after (hQ : ∀ q ∈ Q, ∀ pkt ∈ q, pkt ≠ []) {T : ℕ} (hT : ∀ q ∈ Q, q.length ≤ T)
    (hlong : ∃ q ∈ Q, q.length = T) (d fuel t : ℕ) (hd : t + d + 1 = T) (hfuel : d < fuel) (out : List Packet) :
    takeAll fuel (out, Q.map (after t)) =
      some (out ++ (List.range' t (d + 1)).flatMap fun t ↦ Q.flatMap fun q ↦ q[t]?.toList) := by
  induction d generalizing fuel t out with
  | zero =>
    obtain ⟨fuel, rfl⟩ : ∃ fuel', fuel = fuel' + 1 := ⟨fuel - 1, by omega⟩
    have hdone : (Q.map (after (t + 1))).any hasNext = false := by
      rw [List.any_eq_false]
      intro s hs
      obtain ⟨q, hq, rfl⟩ := List.mem_map.mp hs
      have := hT q hq
      rw [hasNext_after (hQ q hq), decide_eq_true_iff]
      omega
    rw [takeAll]
    dsimp only
    rw [foldlM_takeOne_after hQ, Option.bind_eq_bind, Option.bind_some, List.nil_append, if_neg]
    · simp
    · rw [hdone]
      exact Bool.false_ne_true
  | succ d ih =>
    obtain ⟨fuel, rfl⟩ : ∃ fuel', fuel = fuel' + 1 := ⟨fuel - 1, by omega⟩
    have hmore : (Q.map (after (t + 1))).any hasNext = true := by
      obtain ⟨q, hq, hlen⟩ := hlong
      rw [List.any_eq_true]
      refine ⟨_, List.mem_map_of_mem hq, ?_⟩
      rw [hasNext_after (hQ q hq), decide_eq_true_iff]
      omega
    have hrounds : List.range' t (d + 1 + 1) = t :: List.range' (t + 1) (d + 1) := List.range'_succ
    rw [takeAll]
    dsimp only
    rw [foldlM_takeOne_after hQ, Option.bind_eq_bind, Option.bind_some, List.nil_append, if_pos hmore,
      ih fuel (t + 1) (by omega) (by omega), hrounds, List.flatMap_cons, List.append_assoc]

end FSObjInputStream

/-! ## Reading -/

namespace ClientCode

variable {c : ClientCode} {s p : ℕ} {P : ℕ → Packet} {coded : ℕ → List Packet} {lost : List ℕ}

def found (c : ClientCode) (p : ℕ) (coded : ℕ → List Packet) (lost : List ℕ) (i : ℕ) : List GF256 :=
  if i ∈ lost then [] else ((List.range c.n).map fun i ↦ (c.objPkts p coded i).flatten).getD i []

theorem found_eq {i : ℕ} (hi : i < c.n) (hlost : i ∉ lost) :
    c.found p coded lost i = (c.objPkts p coded i).flatten := by
  rw [found, if_neg hlost]
  simp [hi]

section Coded

variable (hrel : ∀ t, Coded c s (c.dataStripe s p P t) (coded t))

include hrel

theorem length_of_mem_objPkts {i : ℕ} (hi : i < c.n) {pkt : Packet} (hpkt : pkt ∈ c.objPkts p coded i) :
    pkt.length = s := by
  obtain ⟨t, -, rfl⟩ := List.mem_map.mp hpkt
  exact (hrel t).full i hi

theorem ne_nil_of_mem_objPkts (hs : 0 < s) {i : ℕ} (hi : i < c.n) {pkt : Packet}
    (hpkt : pkt ∈ c.objPkts p coded i) : pkt ≠ [] := by
  rintro rfl
  exact hs.ne (length_of_mem_objPkts hrel hi hpkt)

theorem readObj_found (hs : 0 < s) {i : ℕ} (hi : i < c.n) (hlost : i ∉ lost) :
    readObj s (c.found p coded lost i) = c.objPkts p coded i := by
  rw [found_eq hi hlost]
  exact slices_flatten hs fun _ hpkt ↦ length_of_mem_objPkts hrel hi hpkt

theorem exist_found_iff (hs : 0 < s) {i : ℕ} (hi : i < c.n) :
    exist (c.found p coded lost i) = true ↔ i ∉ lost ∧ 0 < c.persistnum p i := by
  by_cases hlost : i ∈ lost
  · rw [found, if_pos hlost]
    exact iff_of_false Bool.false_ne_true fun h ↦ h.1 hlost
  · rw [found_eq hi hlost, exist, Bool.not_eq_true', List.isEmpty_eq_false_iff, ne_eq, List.flatten_eq_nil_iff]
    refine ⟨fun h ↦ ⟨hlost, Nat.pos_of_ne_zero fun hzero ↦ h fun pkt hpkt ↦ ?_⟩, fun h hall ↦ ?_⟩
    · rw [objPkts, hzero] at hpkt
      exact absurd hpkt List.not_mem_nil
    · have hmem : (coded 0).getD i [] ∈ c.objPkts p coded i :=
        List.mem_map.mpr ⟨0, List.mem_range.mpr h.2, rfl⟩
      exact ne_nil_of_mem_objPkts hrel hs hi hmem (hall _ hmem)

theorem flatMap_objPkts (hk : 0 < c.k) {t : ℕ} (ht : c.k * t < p) :
    (((List.range c.k).map (c.objPkts p coded)).flatMap fun q ↦ q[t]?.toList) =
      segment P (objStart c.k p t) (objLength c.k p t) := by
  have hmono : c.k * t ≤ c.k * (t + 1) := Nat.mul_le_mul_left _ t.le_succ
  have hone : ∀ i < c.k, (c.objPkts p coded i)[t]?.toList = if c.k * t + i < p then [P (c.k * t + i)] else [] := by
    intro i hi
    have hlt := lt_loadnum_iff (p := p) (t := t) hk hi
    rw [objPkts, List.getElem?_map, persistnum_of_lt hi]
    by_cases hin : t < c.loadnum p i
    · rw [List.getElem?_range hin, Option.map_some, (hrel t).data i hi, getD_dataStripe hi, padded,
        if_pos (hlt.mp hin), if_pos (by rw [Nat.mul_comm]; exact hlt.mp hin), Nat.mul_comm]
      rfl
    · rw [List.getElem?_eq_none (by simpa using hin), if_neg fun h ↦ hin (hlt.mpr (by rwa [Nat.mul_comm]))]
      rfl
  have hstart : objStart c.k p t = c.k * t := Nat.min_eq_left ht.le
  rw [List.flatMap_map, objLength, hstart, objStart]
  suffices h : ∀ m ≤ c.k, (List.range m).flatMap (fun i ↦ (c.objPkts p coded i)[t]?.toList) =
      segment P (c.k * t) (min (c.k * t + m) p - c.k * t) from h c.k le_rfl
  intro m hm
  induction m with
  | zero => simp [segment]
  | succ m ih =>
    rw [List.range_succ, List.flatMap_append, ih (Nat.le_of_succ_le hm), List.flatMap_singleton, hone m hm]
    split_ifs with hin
    · have happ := segment_append (P := P) (c.k * t) m 1
      rw [Nat.min_eq_left (by omega), Nat.min_eq_left (by omega), Nat.add_sub_cancel_left,
        Nat.add_sub_cancel_left, ← happ]
      rfl
    · rw [List.append_nil, Nat.min_eq_right (by omega), Nat.min_eq_right (by omega)]

end Coded

theorem stripenum_bounds (hk : 0 < c.k) (hp : 0 < p) :
    0 < c.stripenum p ∧ c.k * (c.stripenum p - 1) < p ∧ p ≤ c.k * c.stripenum p := by
  have heq : c.stripenum p = objnum p c.k := by
    rw [stripenum, objnum]
    congr 1
    split_ifs <;> omega
  obtain ⟨hlast, hend, hpos⟩ := objnum_bounds hk hp
  rw [heq]
  exact ⟨hpos, hlast, hend⟩

/-- **The healthy read.** It gives the packets back, whatever their number. -/
theorem takeAll_found (hrel : ∀ t, Coded c s (c.dataStripe s p P t) (coded t)) (hk : 0 < c.k) (hkn : c.k ≤ c.n)
    (hs : 0 < s) (hp : 0 < p) (hlost : ∀ i < c.k, i ∉ lost) :
    let streams := (List.range c.k).map fun i ↦
      (⟨(c.found p coded lost i).length, 0, readObj s (c.found p coded lost i)⟩ : FSObjInputStream)
    FSObjInputStream.takeAll ((streams.map (·.objbytes)).sum + 1) ([], streams) = some (segment P 0 p) := by
  obtain ⟨hpos, hlast, hend⟩ := stripenum_bounds hk hp
  have hstreams : ((List.range c.k).map fun i ↦
      (⟨(c.found p coded lost i).length, 0, readObj s (c.found p coded lost i)⟩ : FSObjInputStream)) =
      ((List.range c.k).map (c.objPkts p coded)).map (FSObjInputStream.after 0) := by
    rw [List.map_map]
    refine List.map_congr_left fun i hi ↦ ?_
    have hik := List.mem_range.mp hi
    have hin := hik.trans_le hkn
    rw [readObj_found hrel hs hin (hlost i hik), found_eq hin (hlost i hik)]
    rfl
  dsimp only
  rw [hstreams]
  generalize hQ : (List.range c.k).map (c.objPkts p coded) = Q
  have hmem : ∀ q ∈ Q, ∃ i < c.k, q = c.objPkts p coded i := by
    intro q hq
    rw [← hQ] at hq
    obtain ⟨i, hi, rfl⟩ := List.mem_map.mp hq
    exact ⟨i, List.mem_range.mp hi, rfl⟩
  have hlen : ∀ i, (c.objPkts p coded i).length = c.persistnum p i := fun i ↦ by
    rw [objPkts, List.length_map, List.length_range]
  have hne : ∀ q ∈ Q, ∀ pkt ∈ q, pkt ≠ [] := by
    intro q hq pkt hpkt
    obtain ⟨i, hi, rfl⟩ := hmem q hq
    exact ne_nil_of_mem_objPkts hrel hs (hi.trans_le hkn) hpkt
  have hT : ∀ q ∈ Q, q.length ≤ c.stripenum p := by
    intro q hq
    obtain ⟨i, -, rfl⟩ := hmem q hq
    exact (hlen i).trans_le (persistnum_le hk i)
  -- the first object has a packet of every stripe
  have hfirst : c.objPkts p coded 0 ∈ Q := hQ ▸ List.mem_map_of_mem (List.mem_range.mpr hk)
  have hlong : (c.objPkts p coded 0).length = c.stripenum p := by
    rw [hlen, persistnum_of_lt hk, stripenum_eq 0, if_neg (by omega), Nat.add_zero]
  have hbytes : c.stripenum p ≤ ((Q.map (FSObjInputStream.after 0)).map (·.objbytes)).sum := by
    have hle : (c.objPkts p coded 0).flatten.length ≤ ((Q.map (FSObjInputStream.after 0)).map (·.objbytes)).sum := by
      refine List.le_sum_of_mem ?_
      exact List.mem_map.mpr ⟨_, List.mem_map_of_mem hfirst, rfl⟩
    refine le_trans ?_ hle
    rw [← hlong]
    exact length_le_length_flatten fun pkt hpkt ↦ List.length_pos_of_ne_nil (hne _ hfirst pkt hpkt)
  rw [FSObjInputStream.takeAll_after hne hT ⟨_, hfirst, hlong⟩ (c.stripenum p - 1) _ 0 (by omega) (by omega),
    List.nil_append, Nat.sub_add_cancel hpos, ← List.range_eq_range']
  have hrounds : ∀ t ∈ List.range (c.stripenum p), (Q.flatMap fun q ↦ q[t]?.toList) =
      segment P (objStart c.k p t) (objLength c.k p t) := by
    intro t ht
    rw [List.mem_range] at ht
    rw [← hQ]
    exact flatMap_objPkts hrel hk ((Nat.mul_le_mul_left _ (Nat.le_sub_one_of_lt ht)).trans_lt hlast)
  rw [List.flatMap_congr hrounds, flatMap_segment, objStart, Nat.min_eq_right hend]

def corrupt (c : ClientCode) (p : ℕ) (coded : ℕ → List Packet) (lost : List ℕ) : List ℕ :=
  (List.range c.n).filter fun i ↦ !exist (c.found p coded lost i)

/-- **The degraded read.** When the packets fill all stripes, it gives them back. -/
theorem degraded_found (h : c.Correct) (hrel : ∀ t, Coded c s (c.dataStripe s p P t) (coded t)) (hk : 0 < c.k)
    (hw : c.w ∣ s) (hs : 0 < s) (hdvd : c.k ∣ p) (hp : 0 < p) (hfull : ∀ j < p, (P j).length = s)
    (hfew : (c.corrupt p coded lost).length ≤ c.n - c.k) (hneed : ∃ i ∈ c.corrupt p coded lost, i < c.k) :
    ∃ stripes, takeStripes ((c.onlineDegradedInst (c.corrupt p coded lost)).1.map fun sid ↦
        readObj s (c.found p coded lost sid)) (p / c.k) = some stripes ∧
      (stripes.mapM (c.decodeStripe s (c.onlineDegradedInst (c.corrupt p coded lost)).1
        (c.onlineDegradedInst (c.corrupt p coded lost)).2)).map List.flatten = some (segment P 0 p) := by
  obtain ⟨r, rfl⟩ := hdvd
  have hstripes : ∀ i, c.persistnum (c.k * r) i = r := by
    intro i
    rw [persistnum, loadnum, Nat.mul_mod_right, if_neg (by simp), if_neg (by simp), Nat.mul_div_cancel_left r hk,
      Nat.add_zero]
  have hmem : ∀ i ∈ c.corrupt (c.k * r) coded lost, i < c.n := fun i hi ↦
    List.mem_range.mp (List.mem_filter.mp hi).1
  have hnodup : (c.corrupt (c.k * r) coded lost).Nodup := List.nodup_range.filter _
  have hload := (h.decodes _ hmem hnodup hfew hneed).1
  have hdecode := fun t ↦ h.decodeStripe hw hs hmem hnodup hfew hneed (by simp [dataStripe])
    (fun i hi ↦ ?_) (hrel t)
  · generalize hinst : c.onlineDegradedInst (c.corrupt (c.k * r) coded lost) = inst at hload hdecode ⊢
    have hqueue : ∀ sid ∈ inst.1, readObj s (c.found (c.k * r) coded lost sid) = c.objPkts (c.k * r) coded sid := by
      intro sid hsid
      obtain ⟨hin, hnot⟩ := hload sid hsid
      have hexist : exist (c.found (c.k * r) coded lost sid) = true := by
        by_contra hne
        exact hnot (List.mem_filter.mpr ⟨List.mem_range.mpr hin, by simpa using hne⟩)
      exact readObj_found hrel hs hin ((exist_found_iff hrel hs hin).mp hexist).1
    refine ⟨(List.range r).map fun t ↦ inst.1.map fun sid ↦ (coded t).getD sid [], ?_, ?_⟩
    · rw [Nat.mul_div_cancel_left r hk]
      refine mapM_eq_map fun t ht ↦ ?_
      rw [List.mapM_map]
      refine mapM_eq_map fun sid hsid ↦ ?_
      rw [Function.comp_apply, hqueue sid hsid, objPkts, hstripes, List.getElem?_map,
        List.getElem?_range (List.mem_range.mp ht), Option.map_some]
    · have hall : (List.range r).mapM (c.decodeStripe s inst.1 inst.2 ∘ fun t ↦
          inst.1.map fun sid ↦ (coded t).getD sid []) =
          some ((List.range r).map (c.dataStripe s (c.k * r) P)) := mapM_eq_map fun t _ ↦ hdecode t
      rw [List.mapM_map, hall, Option.map_some, ← List.flatMap_def]
      have hdata : ∀ t ∈ List.range r, c.dataStripe s (c.k * r) P t =
          segment P (objStart c.k (c.k * r) t) (objLength c.k (c.k * r) t) := by
        intro t ht
        have hle : c.k * (t + 1) ≤ c.k * r := Nat.mul_le_mul_left _ (List.mem_range.mp ht)
        have hsucc : c.k * (t + 1) = c.k * t + c.k := Nat.mul_succ _ _
        rw [objLength, objStart, objStart, Nat.min_eq_left hle, Nat.min_eq_left (by omega), hsucc,
          Nat.add_sub_cancel_left]
        refine List.map_congr_left fun i hi ↦ ?_
        rw [List.mem_range] at hi
        rw [padded, if_pos (by rw [Nat.mul_comm]; omega), Nat.mul_comm]
      rw [List.flatMap_congr hdata, flatMap_segment, objStart, Nat.min_self]
  · rw [getD_dataStripe hi, padded]
    split_ifs with hlt
    · exact hfull _ hlt
    · exact List.length_replicate

theorem length_degraded {loadidx : List ℕ} {tasks : List ComputeTask} {stripenum : ℕ}
    {queues stripes decoded : List (List Packet)} (hstripes : takeStripes queues stripenum = some stripes)
    (hdecoded : stripes.mapM (c.decodeStripe s loadidx tasks) = some decoded) :
    (List.flatten decoded).length = stripenum * c.k := by
  have hlen : decoded.length = stripenum := by
    rw [length_of_mapM hdecoded, length_of_mapM hstripes, List.length_range]
  have hall : ∀ pkts ∈ decoded, pkts.length = c.k := by
    intro pkts hpkts
    obtain ⟨cur, -, hcur⟩ := of_mem_mapM hdecoded hpkts
    rw [length_of_mapM hcur, List.length_range]
  rw [List.length_flatten, List.map_congr_left hall, List.map_const', List.sum_replicate, smul_eq_mul, hlen]

/-- **Round trip of a file of an online code.** The packets come back under their numbers exactly when there are
at least `k` of them and no data object is lost, or they fill all stripes; otherwise the reader waits forever. -/
theorem onlineRoundTrip_iff (h : c.Correct) (hk : 0 < c.k) (hkn : c.k < c.n) (hw : c.w ∣ s) (hs : 0 < s)
    {pkts : List Packet} (hne : pkts ≠ []) (hfull : ∀ pkt ∈ pkts, pkt.length = s)
    (hlost : ((List.range c.n).filter (· ∈ lost)).length ≤ c.n - c.k) :
    c.onlineRoundTrip s (pkts.length * s) pkts lost = some (OECOutputStream.write pkts fun _ ↦ []) ↔
      (c.k ≤ pkts.length ∧ ∀ i < c.k, i ∉ lost) ∨ c.k ∣ pkts.length := by
  generalize hP : (fun i ↦ pkts.getD i []) = P
  generalize hplen : pkts.length = p
  have hp : 0 < p := hplen ▸ List.length_pos_of_ne_nil hne
  have hPfull : ∀ j < p, (P j).length = s := fun j hj ↦ hP ▸ length_getD hfull (hplen ▸ hj)
  have hpending : OECOutputStream.write pkts (fun _ ↦ []) = pending P 0 p := by rw [write_eq_pending, hplen, hP]
  have hwrite : OECOutputStream.write pkts (fun _ ↦ []) = fun key ↦ if key < p then [P key] else [] := by
    rw [hpending]
    exact funext fun key ↦ if_congr (by simp) rfl rfl
  obtain ⟨coded, hrel, honline⟩ := onlineWrite_eq h hk hkn.le hw hs hPfull
  have hrun : c.onlineRoundTrip s (p * s) pkts lost = c.readOnline s (p * s) (c.found p coded lost) fun _ ↦ [] := by
    rw [onlineRoundTrip, hpending, honline]
    rfl
  have hhealthy : (∀ i ∈ c.corrupt p coded lost, c.k ≤ i) ↔ c.k ≤ p ∧ ∀ i < c.k, i ∉ lost := by
    have hexist : (∀ i ∈ c.corrupt p coded lost, c.k ≤ i) ↔ ∀ i < c.k, i ∉ lost ∧ i < p := by
      refine ⟨fun hall i hi ↦ ?_, fun hall i hi ↦ ?_⟩
      · have hexist : exist (c.found p coded lost i) = true := by
          by_contra hnot
          have hmem : i ∈ c.corrupt p coded lost :=
            List.mem_filter.mpr ⟨List.mem_range.mpr (hi.trans hkn), by simpa using hnot⟩
          exact absurd (hall i hmem) (Nat.not_le.mpr hi)
        obtain ⟨hnot, hpos⟩ := (exist_found_iff hrel hs (hi.trans hkn)).mp hexist
        rw [persistnum_of_lt hi, lt_loadnum_iff hk hi, Nat.zero_mul, Nat.zero_add] at hpos
        exact ⟨hnot, hpos⟩
      · by_contra hlt
        have hik := Nat.lt_of_not_le hlt
        obtain ⟨hnot, hip⟩ := hall i hik
        have hpos : 0 < c.persistnum p i := by
          rw [persistnum_of_lt hik, lt_loadnum_iff hk hik, Nat.zero_mul, Nat.zero_add]
          exact hip
        have hexist : exist (c.found p coded lost i) = true :=
          (exist_found_iff hrel hs (hik.trans hkn)).mpr ⟨hnot, hpos⟩
        have hmem := (List.mem_filter.mp hi).2
        rw [hexist] at hmem
        exact absurd hmem (by decide)
    rw [hexist]
    refine ⟨fun hall ↦ ⟨?_, fun i hi ↦ (hall i hi).1⟩, fun hall i hi ↦ ⟨hall.2 i hi, hi.trans_le hall.1⟩⟩
    have hlast := (hall (c.k - 1) (Nat.sub_lt hk Nat.one_pos)).2
    omega
  rw [hrun, readOnline, Nat.mul_div_cancel p hs, hwrite]
  change (if ∀ i ∈ c.corrupt p coded lost, c.k ≤ i then _ else _) = _ ↔ _
  by_cases hneed : ∀ i ∈ c.corrupt p coded lost, c.k ≤ i
  · have htake := takeAll_found hrel hk hkn.le hs hp (hhealthy.mp hneed).2
    dsimp only at htake
    rw [if_pos hneed]
    dsimp only
    rw [htake, Option.bind_eq_bind, Option.bind_some, cacheWorker_segment]
    exact iff_of_true rfl (.inl (hhealthy.mp hneed))
  · rw [if_neg hneed]
    by_cases hdvd : c.k ∣ p
    · have hfew : (c.corrupt p coded lost).length ≤ c.n - c.k := by
        refine le_trans (List.Subperm.length_le (List.subperm_of_subset (List.nodup_range.filter _) fun i hi ↦ ?_))
          hlost
        obtain ⟨hin, hnot⟩ := List.mem_filter.mp hi
        refine List.mem_filter.mpr ⟨hin, decide_eq_true ?_⟩
        by_contra hnl
        -- every object has a packet of every stripe
        have hpos : 0 < c.persistnum p i := by
          have hdiv := Nat.div_pos (Nat.le_of_dvd hp hdvd) hk
          rw [persistnum, loadnum]
          omega
        rw [(exist_found_iff hrel hs (List.mem_range.mp hin)).mpr ⟨hnl, hpos⟩] at hnot
        exact absurd hnot (by decide)
      have hneed' : ∃ i ∈ c.corrupt p coded lost, i < c.k := by
        by_contra hnot
        exact hneed fun i hi ↦ Nat.le_of_not_lt fun hlt ↦ hnot ⟨i, hi, hlt⟩
      obtain ⟨stripes, hstripes, hdecoded⟩ := degraded_found h hrel hk hw hs hdvd hp hPfull hfew hneed'
      obtain ⟨decoded, hdec, hflat⟩ := Option.map_eq_some_iff.mp hdecoded
      refine iff_of_true ?_ (.inr hdvd)
      change (takeStripes ((c.onlineDegradedInst (c.corrupt p coded lost)).1.map fun sid ↦
        readObj s (c.found p coded lost sid)) (p / c.k)).bind (fun stripes ↦
          (stripes.mapM (c.decodeStripe s (c.onlineDegradedInst (c.corrupt p coded lost)).1
            (c.onlineDegradedInst (c.corrupt p coded lost)).2)).bind fun decoded ↦
              cacheWorker decoded.flatten 0 p fun _ ↦ []) = _
      rw [hstripes, Option.bind_some, hdec, Option.bind_some, hflat, cacheWorker_segment]
    · refine iff_of_false (fun hsome ↦ ?_) fun hor ↦ hor.elim (fun hand ↦ hneed (hhealthy.mpr hand)) hdvd
      obtain ⟨stripes, hstripes, hsome⟩ := Option.bind_eq_some_iff.mp hsome
      obtain ⟨decoded, hdecoded, hsome⟩ := Option.bind_eq_some_iff.mp hsome
      have hlen := length_degraded hstripes hdecoded
      have hlt : p / c.k * c.k < p :=
        (Nat.div_mul_le_self p c.k).lt_of_ne fun heq ↦ hdvd ⟨p / c.k, by rw [Nat.mul_comm, heq]⟩
      rw [cacheWorker, if_neg (by omega)] at hsome
      exact absurd hsome.symm (Option.some_ne_none _)

/-! ### Two data objects and their sum -/

/-- The code with two data blocks and their sum. -/
def oneParity : ClientCode where
  n := 3
  k := 2
  w := 1
  encode := ({} : ECDAG).join 2 [0, 1] [1, 1]
  decode availcidx toreccidx := toreccidx.foldl (fun dag lost ↦ dag.join lost availcidx [1, 1]) {}
  order dag := dag.nodes.keys

theorem dot_ones (a b : GF256) : dot [1, 1] [a, b] = a + b := by simp

theorem correct_oneParity : oneParity.Correct where
  systematic data := by
    refine ⟨_, rfl, fun id hid ↦ ?_⟩
    have hid : id < 2 * 1 := hid
    rcases (by omega : id = 0 ∨ id = 1) with rfl | rfl <;> rfl
  decodes corruptIdx hlt hnodup hfew hneed := by
    obtain ⟨i, hi, hik⟩ := hneed
    obtain rfl : corruptIdx = [i] := by
      have hone : corruptIdx.length ≤ 1 := hfew
      obtain ⟨j, rfl⟩ := List.length_eq_one_iff.mp (Nat.le_antisymm hone (List.length_pos_of_mem hi))
      rw [List.mem_singleton.mp hi]
    have hik : i < 2 := hik
    rcases (by omega : i = 0 ∨ i = 1) with rfl | rfl
    · have hinst : oneParity.onlineDegradedInst [0] = ([1, 2], [⟨[1, 2], AList.singleton 0 [1, 1]⟩]) := rfl
      rw [hinst]
      refine ⟨by decide, fun data s env hs henv ↦ ⟨_, rfl, fun id hid ↦ ?_⟩⟩
      cases hs
      have h₁ : data 1 = env 1 := Option.some.inj (henv 1 (by decide) (by decide))
      have h₂ : dot [1, 1] [data 0, data 1] = env 2 := Option.some.inj (henv 2 (by decide) (by decide))
      have hid : id < 2 * 1 := hid
      rcases (by omega : id = 0 ∨ id = 1) with rfl | rfl
      · change some (dot [1, 1] [env 1, env 2]) = some (data 0)
        rw [← h₁, ← h₂, dot_ones, dot_ones, add_left_comm, CharTwo.add_self_eq_zero, add_zero]
      · exact congrArg some h₁.symm
    · have hinst : oneParity.onlineDegradedInst [1] = ([0, 2], [⟨[0, 2], AList.singleton 1 [1, 1]⟩]) := rfl
      rw [hinst]
      refine ⟨by decide, fun data s env hs henv ↦ ⟨_, rfl, fun id hid ↦ ?_⟩⟩
      cases hs
      have h₀ : data 0 = env 0 := Option.some.inj (henv 0 (by decide) (by decide))
      have h₂ : dot [1, 1] [data 0, data 1] = env 2 := Option.some.inj (henv 2 (by decide) (by decide))
      have hid : id < 2 * 1 := hid
      rcases (by omega : id = 0 ∨ id = 1) with rfl | rfl
      · exact congrArg some h₀.symm
      · change some (dot [1, 1] [env 0, env 2]) = some (data 1)
        rw [← h₀, ← h₂, dot_ones, dot_ones, ← add_assoc, CharTwo.add_self_eq_zero, zero_add]

/-- Two packets are read without the first object. -/
theorem onlineRoundTrip_twoPackets : oneParity.onlineRoundTrip 1 2 [[0], [1]] [0] =
    some (OECOutputStream.write [[0], [1]] fun _ ↦ []) :=
  (onlineRoundTrip_iff (c := oneParity) (s := 1) correct_oneParity Nat.two_pos (by decide) (by decide) Nat.one_pos
    (by decide) (by decide) (by decide)).mpr (.inr (by decide))

/-- Three packets are not. -/
theorem not_onlineRoundTrip_threePackets : oneParity.Correct ∧
    oneParity.onlineRoundTrip 1 3 [[0], [1], [1]] [0] ≠ some (OECOutputStream.write [[0], [1], [1]] fun _ ↦ []) := by
  have hnone : (oneParity.onlineRoundTrip 1 3 [[0], [1], [1]] [0]).isNone = true := by decide +kernel
  refine ⟨correct_oneParity, fun hsome ↦ ?_⟩
  rw [hsome] at hnone
  exact absurd hnone Bool.false_ne_true

end ClientCode

end UniDedup.Storage
