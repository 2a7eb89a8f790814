import UniDedup.Lib.Capacity
import UniDedup.Storage.Wire

/-!
# Commands are received as they were sent

For each class the commands that can be built are listed with their arguments, and for each of them the bytes of its
message as a list of pieces. The function that builds the command writes these pieces, and the constructor of the
receiver takes the same pieces in the same order, whatever follows them, so that the fields that are sent have the same
values on both sides.

## The design

Sender and receiver are never compared with each other but with the pieces. `Carries` says that a program writes the
bytes and that the constructor takes them off the front of a message and ends with the fields it should have; it is
proved for one class after the other, by the rules of `Codec` for sequences and loops. Maps are sent in the order in
which they are run through, so a receiver gets the same map, not the same list.
-/

namespace UniDedup.Storage.Wire

open Codec

/-! ## Pieces -/

def intsBytes (xs : List (BitVec 32)) : Bytes := xs.flatMap intBytes

def pairsBytes (ps : List (BitVec 32 × BitVec 32)) : Bytes := ps.flatMap fun p ↦ intBytes p.1 ++ intBytes p.2

theorem text_string {pieces : List Bytes} {s : Bytes} (hfit : pieces.flatten.length ≤ maxCommandLen) (hnul : 0 ∉ s)
    (h : stringBytes s ∈ pieces) : CText s := by
  have hle := length_le_flatten h
  rw [length_stringBytes] at hle
  rw [maxCommandLen] at hfit
  exact ⟨hnul, by omega⟩

theorem count_size {α : Type} {g : α → Bytes} {pieces : List Bytes} {xs : List α}
    (hfit : pieces.flatten.length ≤ maxCommandLen) (hg : ∀ x, 0 < (g x).length) (h : xs.flatMap g ∈ pieces) :
    count (size xs) = xs.length := by
  have hle := (length_le_flatMap hg).trans (length_le_flatten h)
  rw [maxCommandLen] at hfit
  exact count_ofNat (by omega)

theorem size_map {α β : Type} (f : α → β) (l : List α) : size (l.map f) = size l := by
  rw [size, List.length_map]
  rfl

theorem length_intBytes_pos (v : BitVec 32) : 0 < (intBytes v).length := by
  rw [length_intBytes]
  decide

theorem length_intBytes_append_pos (v : BitVec 32) (bs : Bytes) : 0 < (intBytes v ++ bs).length := by
  rw [List.length_append]
  exact Nat.add_pos_left (length_intBytes_pos v) _

theorem length_pair_pos (p : BitVec 32 × BitVec 32) : 0 < (intBytes p.1 ++ intBytes p.2).length :=
  length_intBytes_append_pos _ _

theorem takes_ints (xs : List (BitVec 32)) : Takes (times readInt xs.length) (intsBytes xs) xs :=
  Takes.times fun x _ ↦ takes_int x

theorem fills_ints (xs : List (BitVec 32)) : Fills (xs.forM writeInt) (intsBytes xs) () :=
  Fills.forM fun x _ ↦ fills_int x

theorem writes_ints (xs : List (BitVec 32)) : Writes (xs.forM writeInt) (intsBytes xs) () := (fills_ints xs).writes

theorem takes_pair (p : BitVec 32 × BitVec 32) :
    Takes (do let a ← readInt; let b ← readInt; return (a, b)) (intBytes p.1 ++ intBytes p.2) p :=
  (takes_int p.1).bind (takes_int p.2).map

theorem takes_pairs (ps : List (BitVec 32 × BitVec 32)) :
    Takes (times (do let a ← readInt; let b ← readInt; return (a, b)) ps.length) (pairsBytes ps) ps :=
  Takes.times fun p _ ↦ takes_pair p

/-- Values that a function gives for the keys are those that a table gets. -/
theorem lookup_at {m : IntMap} {k : BitVec 32} (h : k ∈ m) : m.lookup k = some (m.at k) := by
  obtain ⟨v, hv⟩ := Option.isSome_iff_exists.mp (AList.lookup_isSome.mpr h)
  rw [IntMap.at, hv]
  rfl

/-- The table has the entries of the other one for the keys. -/
def Restricts {ν : Type} (p : BitVec 32 → Prop) (m m' : AList fun _ : BitVec 32 ↦ ν) : Prop :=
  ∀ k, (p k → m'.lookup k = m.lookup k) ∧ (¬ p k → m'.lookup k = none)

theorem restricts_insert {ν : Type} {p : BitVec 32 → Prop} {m sent : AList fun _ : BitVec 32 ↦ ν}
    {items : List (BitVec 32 × ν)} (hitems : ∀ q ∈ items, m.lookup q.1 = some q.2) (hkeys : ∀ k, k ∈ items.map Prod.fst ↔ p k)
    (hsent : ∀ k, sent.lookup k = m.lookup k) : Restricts p sent (items.foldl insertNew ∅) := by
  intro k
  rw [@lookup_foldl_insertNew _ _ _ (fun k ↦ m.lookup k) _ hitems k, hsent]
  constructor
  · intro hk
    rw [if_pos ((hkeys k).mpr hk)]
  · intro hk
    rw [if_neg fun hmem ↦ hk ((hkeys k).mp hmem)]

/-- The addresses are as many as the sub-packets, of which the message has the number. -/
theorem count_prevs {pieces : List Bytes} {prevnum : BitVec 32} {prevCids prevLocs : List (BitVec 32)}
    (hfit : pieces.flatten.length ≤ maxCommandLen) (hprevnum : prevnum = size prevCids)
    (hlocs : prevLocs.length = prevCids.length) (h : pairsBytes (prevCids.zip prevLocs) ∈ pieces) :
    count prevnum = prevCids.length := by
  have hlength : (prevCids.zip prevLocs).length = prevCids.length := by
    rw [List.length_zip, hlocs, Nat.min_self]
  have hcount := count_size hfit length_pair_pos h
  rwa [size, hlength, ← size, ← hprevnum] at hcount

namespace AGCommand

/-! ## AGCommand -/

section Prevs

variable {c : AGCommand}

theorem fills_prevs (hn : count c.nprevs = c.prevCids.length) (hlocs : c.prevLocs.length = c.prevCids.length) :
    Fills c.writePrevs (pairsBytes (c.prevCids.zip c.prevLocs)) () := by
  have hlength : (c.prevCids.zip c.prevLocs).length = count c.nprevs := by
    rw [List.length_zip, hlocs, Nat.min_self, hn]
  rw [writePrevs, ← hlength]
  refine Fills.forM_range fun i p hp ↦ ?_
  rw [List.getElem?_zip_eq_some] at hp
  exact (fills_elementAt hp.1).bind ((fills_int p.1).bind ((fills_elementAt hp.2).bind (fills_int p.2)))

theorem takes_prevs {cids locs : List (BitVec 32)} (hn : count c.nprevs = cids.length)
    (hlocs : locs.length = cids.length) :
    Takes c.readPrevs (pairsBytes (cids.zip locs))
      { c with prevCids := c.prevCids ++ cids, prevLocs := c.prevLocs ++ locs } := by
  have hlength : (cids.zip locs).length = count c.nprevs := by
    rw [List.length_zip, hlocs, Nat.min_self, hn]
  have hprevs := takes_pairs (cids.zip locs)
  rw [hlength] at hprevs
  have hmap := @Takes.map _ AGCommand _ _ _ (fun prevs ↦
    { c with prevCids := c.prevCids ++ prevs.map Prod.fst, prevLocs := c.prevLocs ++ prevs.map Prod.snd }) hprevs
  rwa [List.map_fst_zip hlocs.ge, List.map_snd_zip hlocs.le] at hmap

theorem fills_coef {coef : List (BitVec 32)} (h : coef.length = count c.nprevs) :
    Fills (c.writeCoef coef) (intsBytes coef) () := by
  rw [writeCoef, ← h]
  exact Fills.forM_range fun i x hx ↦ (fills_elementAt hx).bind (fills_int x)

end Prevs

/-- A command that is built, with the arguments. -/
inductive Built
  | type0 (filename ecid mode : Bytes) (filesizeMB : BitVec 32)
  | type1 (filename : Bytes)
  | type2 (sendIp : BitVec 32) (stripeName : Bytes) (w numslices : BitVec 32) (readObjName : Bytes)
    (cidlist : List (BitVec 32)) (ref : IntMap)
  | type3 (sendIp : BitVec 32) (stripeName : Bytes) (w num prevnum : BitVec 32)
    (prevCids prevLocs : List (BitVec 32)) (coefs : VectorMap) (ref : IntMap)
  | type5 (sendIp : BitVec 32) (stripename : Bytes) (w num prevnum : BitVec 32)
    (prevCids prevLocs : List (BitVec 32)) (writeobjname : Bytes)
  | type7 (sendIp : BitVec 32) (stripename : Bytes) (w num : BitVec 32) (readObjName : Bytes)
    (cidlist : List (BitVec 32)) (prevnum : BitVec 32) (prevCids prevLocs : List (BitVec 32)) (coefs : VectorMap) (ref : IntMap)
  | type10 (ecn eck ecw computen : BitVec 32)
  | type11 (objnum basesizeMB : BitVec 32)

namespace Built

/-- What the sender runs on a new command. -/
def build : Built → Program AGCommand
  | type0 filename ecid mode filesizeMB => buildType0 {} 0 filename ecid mode filesizeMB
  | type1 filename => buildType1 {} 1 filename
  | type2 sendIp stripeName w numslices readObjName cidlist ref =>
    buildType2 {} 2 sendIp stripeName w numslices readObjName cidlist ref
  | type3 sendIp stripeName w num prevnum prevCids prevLocs coefs ref =>
    buildType3 {} 3 sendIp stripeName w num prevnum prevCids prevLocs coefs ref
  | type5 sendIp stripename w num prevnum prevCids prevLocs writeobjname =>
    buildType5 {} 5 sendIp stripename w num prevnum prevCids prevLocs writeobjname
  | type7 sendIp stripename w num readObjName cidlist prevnum prevCids prevLocs coefs ref =>
    buildType7 {} 7 sendIp stripename w num readObjName cidlist prevnum prevCids prevLocs coefs ref
  | type10 ecn eck ecw computen => buildType10 {} 10 ecn eck ecw computen
  | type11 objnum basesizeMB => buildType11 {} 11 objnum basesizeMB

def pieces : Built → List Bytes
  | type0 filename ecid mode filesizeMB =>
    [intBytes 0, stringBytes filename, stringBytes ecid, stringBytes mode, intBytes filesizeMB]
  | type1 filename => [intBytes 1, stringBytes filename]
  | type2 _ stripeName w numslices readObjName cidlist ref =>
    [intBytes 2, stringBytes stripeName, intBytes w, intBytes numslices, stringBytes readObjName,
      intBytes (size cidlist), pairsBytes (cidlist.map fun id ↦ (id, ref.at id))]
  | type3 _ stripeName w num prevnum prevCids prevLocs coefs ref =>
    [intBytes 3, stringBytes stripeName, intBytes w, intBytes num, intBytes prevnum, pairsBytes (prevCids.zip prevLocs),
      intBytes (size (entriesOf coefs)),
      (entriesOf coefs).flatMap fun item ↦ intBytes item.1 ++ (intsBytes item.2 ++ intBytes (ref.at item.1))]
  | type5 _ stripename w num prevnum prevCids prevLocs writeobjname =>
    [intBytes 5, stringBytes stripename, intBytes w, intBytes num, intBytes prevnum, pairsBytes (prevCids.zip prevLocs),
      stringBytes writeobjname]
  | type7 _ stripename w num readObjName cidlist prevnum prevCids prevLocs coefs ref =>
    [intBytes 7, stringBytes stripename, intBytes w, intBytes num, stringBytes readObjName, intBytes (size cidlist),
      intsBytes cidlist, intBytes prevnum, pairsBytes (prevCids.zip prevLocs), intBytes (size (entriesOf coefs)),
      (entriesOf coefs).flatMap fun item ↦ intBytes item.1 ++ intsBytes item.2, intBytes (size (entriesOf ref)),
      pairsBytes (entriesOf ref)]
  | type10 ecn eck ecw computen => [intBytes 10, intBytes ecn, intBytes eck, intBytes ecw, intBytes computen]
  | type11 objnum basesizeMB => [intBytes 11, intBytes objnum, intBytes basesizeMB]

def bytes (cmd : Built) : Bytes := cmd.pieces.flatten

/-- The number of previous sub-packets is that of their addresses. -/
def Prevs (prevnum : BitVec 32) (prevCids prevLocs : List (BitVec 32)) : Prop :=
  prevnum = size prevCids ∧ prevLocs.length = prevCids.length

/-- Every vector of coefficients has an entry for each of the sub-packets. -/
def Rows (prevCids : List (BitVec 32)) (coefs : VectorMap) : Prop :=
  ∀ item ∈ entriesOf coefs, item.2.length = prevCids.length

/-- The strings have no NUL, the lists belong together, and the counts are there that are asked for. -/
def Sendable : Built → Prop
  | type0 filename ecid mode _ => 0 ∉ filename ∧ 0 ∉ ecid ∧ 0 ∉ mode
  | type1 filename => 0 ∉ filename
  | type2 _ stripeName _ _ readObjName cidlist ref => 0 ∉ stripeName ∧ 0 ∉ readObjName ∧ ∀ id ∈ cidlist, id ∈ ref
  | type3 _ stripeName _ _ prevnum prevCids prevLocs coefs ref =>
    0 ∉ stripeName ∧ Prevs prevnum prevCids prevLocs ∧ Rows prevCids coefs ∧ ∀ target ∈ coefs, target ∈ ref
  | type5 _ stripename _ _ prevnum prevCids prevLocs writeobjname =>
    0 ∉ stripename ∧ Prevs prevnum prevCids prevLocs ∧ 0 ∉ writeobjname
  | type7 _ stripename _ _ readObjName _ prevnum prevCids prevLocs coefs _ =>
    0 ∉ stripename ∧ 0 ∉ readObjName ∧ Prevs prevnum prevCids prevLocs ∧ Rows prevCids coefs
  | type10 .. => True
  | type11 .. => True

end Built

/-- The fields that are sent for the type of `c` have the same values in `d`. -/
def Received (c d : AGCommand) : Prop := d.type = c.type ∧
  match c.type.toNat with
  | 0 => d.filename = c.filename ∧ d.ecid = c.ecid ∧ d.mode = c.mode ∧ d.filesizeMB = c.filesizeMB
  | 1 => d.filename = c.filename
  | 2 => d.stripeName = c.stripeName ∧ d.ecw = c.ecw ∧ d.num = c.num ∧ d.readObjName = c.readObjName ∧
    d.readCidList = c.readCidList ∧ Restricts (· ∈ c.readCidList) c.cacheRefs d.cacheRefs
  | 3 => d.stripeName = c.stripeName ∧ d.ecw = c.ecw ∧ d.num = c.num ∧ d.nprevs = c.nprevs ∧ d.prevCids = c.prevCids ∧
    d.prevLocs = c.prevLocs ∧ (∀ k, d.coefs.lookup k = c.coefs.lookup k) ∧
    Restricts (· ∈ c.coefs) c.cacheRefs d.cacheRefs
  | 5 => d.stripeName = c.stripeName ∧ d.ecw = c.ecw ∧ d.num = c.num ∧ d.nprevs = c.nprevs ∧ d.prevCids = c.prevCids ∧
    d.prevLocs = c.prevLocs ∧ d.writeObjName = c.writeObjName
  | 7 => d.stripeName = c.stripeName ∧ d.ecw = c.ecw ∧ d.num = c.num ∧ d.readObjName = c.readObjName ∧
    d.readCidList = c.readCidList ∧ d.nprevs = c.nprevs ∧ d.prevCids = c.prevCids ∧ d.prevLocs = c.prevLocs ∧
    (∀ k, d.coefs.lookup k = c.coefs.lookup k) ∧ ∀ k, d.cacheRefs.lookup k = c.cacheRefs.lookup k
  | 10 => d.ecn = c.ecn ∧ d.eck = c.eck ∧ d.ecw = c.ecw ∧ d.computen = c.computen
  | 11 => d.objnum = c.objnum ∧ d.basesizeMB = c.basesizeMB
  | _ => True

/-- The message of the command is written and taken. -/
def Carried (cmd : Built) : Prop := Carries cmd.build ofReqStr cmd.bytes Received

theorem carried_type0 {filename ecid mode : Bytes} {filesizeMB : BitVec 32}
    (h : (Built.type0 filename ecid mode filesizeMB).Sendable)
    (hfit : (Built.type0 filename ecid mode filesizeMB).bytes.length ≤ maxCommandLen) :
    Carried (.type0 filename ecid mode filesizeMB) := by
  obtain ⟨hfilename, hecid, hmode⟩ := h
  have hf : CText filename := text_string hfit hfilename (by simp [Built.pieces])
  have he : CText ecid := text_string hfit hecid (by simp [Built.pieces])
  have hm : CText mode := text_string hfit hmode (by simp [Built.pieces])
  refine ⟨{ type := 0, filename, ecid, mode, filesizeMB },
    { type := 0, filename, ecid, mode, filesizeMB }, ?_, ?_, ?_⟩
  · exact (writes_int 0).bind ((writes_string hf).bind ((writes_string he).bind ((writes_string hm).bind
      ((writes_int filesizeMB).bind (writes_pure _)))))
  · refine (takes_int 0).bind ?_
    exact (takes_string hf).bind ((takes_string he).bind ((takes_string hm).bind
      ((takes_int filesizeMB).bind (takes_pure _))))
  · exact ⟨rfl, rfl, rfl, rfl, rfl⟩

theorem carried_type1 {filename : Bytes} (h : (Built.type1 filename).Sendable)
    (hfit : (Built.type1 filename).bytes.length ≤ maxCommandLen) : Carried (.type1 filename) := by
  have hf : CText filename := text_string hfit h (by simp [Built.pieces])
  refine ⟨{ type := 1, filename }, { type := 1, filename }, ?_, ?_, ?_⟩
  · exact (writes_int 1).bind ((writes_string hf).bind (writes_pure _))
  · refine (takes_int 1).bind ?_
    exact (takes_string hf).bind (takes_pure _)
  · exact ⟨rfl, rfl⟩

theorem fills_type2 (sendIp : BitVec 32) {stripeName : Bytes} (w numslices : BitVec 32) {readObjName : Bytes}
    (cidlist : List (BitVec 32)) (ref : IntMap) (hs : stripeName.length < 2 ^ 31) (ho : readObjName.length < 2 ^ 31) :
    Fills (Built.type2 sendIp stripeName w numslices readObjName cidlist ref).build
      (Built.type2 sendIp stripeName w numslices readObjName cidlist ref).bytes {
        type := 2, shouldSend := true, sendIp, stripeName, ecw := w, num := numslices, readObjName
        readCidList := cidlist
        cacheRefs := (entriesOf ref).foldl insertNew ∅ } := by
  have hloop : Fills (cidlist.forM fun id ↦ do writeInt id; writeInt (ref.at id))
      (pairsBytes (cidlist.map fun id ↦ (id, ref.at id))) () := by
    rw [pairsBytes, List.flatMap_map]
    exact Fills.forM fun id _ ↦ (fills_int id).bind (fills_int (ref.at id))
  exact (fills_int 2).bind ((fills_string hs).bind ((fills_int w).bind ((fills_int numslices).bind
    ((fills_string ho).bind ((fills_int (size cidlist)).bind (hloop.bind (fills_pure _)))))))

theorem carried_type2 {sendIp : BitVec 32} {stripeName : Bytes} {w numslices : BitVec 32} {readObjName : Bytes}
    {cidlist : List (BitVec 32)} {ref : IntMap}
    (h : (Built.type2 sendIp stripeName w numslices readObjName cidlist ref).Sendable)
    (hfit : (Built.type2 sendIp stripeName w numslices readObjName cidlist ref).bytes.length ≤ maxCommandLen) :
    Carried (.type2 sendIp stripeName w numslices readObjName cidlist ref) := by
  obtain ⟨hstripe, hobj, hcover⟩ := h
  have hs : CText stripeName := text_string hfit hstripe (by simp [Built.pieces])
  have ho : CText readObjName := text_string hfit hobj (by simp [Built.pieces])
  let items := cidlist.map fun id ↦ (id, ref.at id)
  have hcount : count (size cidlist) = items.length := by
    have hitems : count (size items) = items.length :=
      count_size hfit length_pair_pos (by simp [Built.pieces, pairsBytes, items])
    rwa [size_map] at hitems
  have hitems : ∀ p ∈ items, ref.lookup p.1 = some p.2 := by
    intro p hp
    obtain ⟨id, hid, rfl⟩ := List.mem_map.mp hp
    exact lookup_at (hcover id hid)
  have hfst : items.map Prod.fst = cidlist := by
    rw [List.map_map]
    exact List.map_id cidlist
  refine ⟨{
      type := 2, shouldSend := true, sendIp, stripeName, ecw := w, num := numslices, readObjName
      readCidList := cidlist
      cacheRefs := (entriesOf ref).foldl insertNew ∅ }, {
      type := 2, stripeName, ecw := w, num := numslices, readObjName, readCidList := items.map Prod.fst
      cacheRefs := items.foldl insertNew ∅ }, ?_, ?_, ?_⟩
  · exact (fills_type2 sendIp w numslices cidlist ref (Nat.lt_of_succ_lt hs.short)
      (Nat.lt_of_succ_lt ho.short)).writes
  · refine (takes_int 2).bind ?_
    refine (takes_string hs).bind ((takes_int w).bind ((takes_int numslices).bind ((takes_string ho).bind
      ((takes_int (size cidlist)).bind ?_))))
    rw [hcount]
    exact (takes_pairs items).bind (takes_pure _)
  · exact ⟨rfl, rfl, rfl, rfl, rfl, hfst,
      restricts_insert hitems (fun k ↦ by rw [hfst]) (lookup_foldl_entriesOf ref)⟩

theorem fills_type3 (sendIp : BitVec 32) {stripeName : Bytes} (w num : BitVec 32) {prevnum : BitVec 32}
    {prevCids prevLocs : List (BitVec 32)} {coefs : VectorMap} (ref : IntMap) (hs : stripeName.length < 2 ^ 31)
    (hn : count prevnum = prevCids.length) (hlocs : prevLocs.length = prevCids.length)
    (hrows : Built.Rows prevCids coefs) :
    Fills (Built.type3 sendIp stripeName w num prevnum prevCids prevLocs coefs ref).build
      (Built.type3 sendIp stripeName w num prevnum prevCids prevLocs coefs ref).bytes {
        type := 3, shouldSend := true, sendIp, stripeName, ecw := w, num, nprevs := prevnum, prevCids, prevLocs, coefs
        cacheRefs := (entriesOf ref).foldl insertNew ∅ } := by
  let c : AGCommand := {
    type := 3, shouldSend := true, sendIp, stripeName, ecw := w, num, nprevs := prevnum, prevCids, prevLocs, coefs
    cacheRefs := (entriesOf ref).foldl insertNew ∅ }
  have hprevs : Fills c.writePrevs (pairsBytes (prevCids.zip prevLocs)) () := fills_prevs hn hlocs
  have hloop : Fills ((entriesOf coefs).forM fun item ↦ do
      let r := ref.at item.1
      writeInt item.1
      c.writeCoef item.2
      writeInt r)
      ((entriesOf coefs).flatMap fun item ↦ intBytes item.1 ++ (intsBytes item.2 ++ intBytes (ref.at item.1))) () := by
    refine Fills.forM fun item hitem ↦ ?_
    have hrow : Fills (c.writeCoef item.2) (intsBytes item.2) () := fills_coef ((hrows item hitem).trans hn.symm)
    exact (fills_int item.1).bind (hrow.bind (fills_int (ref.at item.1)))
  exact (fills_int 3).bind ((fills_string hs).bind ((fills_int w).bind ((fills_int num).bind
    ((fills_int prevnum).bind (hprevs.bind ((fills_int (size (entriesOf coefs))).bind
      (hloop.bind (fills_pure _))))))))

theorem carried_type3 {sendIp : BitVec 32} {stripeName : Bytes} {w num prevnum : BitVec 32}
    {prevCids prevLocs : List (BitVec 32)} {coefs : VectorMap} {ref : IntMap}
    (h : (Built.type3 sendIp stripeName w num prevnum prevCids prevLocs coefs ref).Sendable)
    (hfit : (Built.type3 sendIp stripeName w num prevnum prevCids prevLocs coefs ref).bytes.length ≤ maxCommandLen) :
    Carried (.type3 sendIp stripeName w num prevnum prevCids prevLocs coefs ref) := by
  obtain ⟨hstripe, ⟨hprevnum, hlocs⟩, hrows, hcover⟩ := h
  have hs : CText stripeName := text_string hfit hstripe (by simp [Built.pieces])
  have hn : count prevnum = prevCids.length := count_prevs hfit hprevnum hlocs (by simp [Built.pieces])
  let bytesOf := fun item : BitVec 32 × List (BitVec 32) ↦
    intBytes item.1 ++ (intsBytes item.2 ++ intBytes (ref.at item.1))
  let items := (entriesOf coefs).map fun item ↦ (item.1, item.2, ref.at item.1)
  have hcount : count (size (entriesOf coefs)) = (entriesOf coefs).length :=
    @count_size _ bytesOf _ _ hfit (fun _ ↦ length_intBytes_append_pos _ _) (by simp [Built.pieces, bytesOf])
  have hlength : items.length = (entriesOf coefs).length := List.length_map _
  have hcoefs : (items.map fun item ↦ (item.1, item.2.1)) = entriesOf coefs := by
    rw [List.map_map]
    exact List.map_id (entriesOf coefs)
  have hrefs : ∀ p ∈ items.map fun item ↦ (item.1, item.2.2), ref.lookup p.1 = some p.2 := by
    intro p hp
    obtain ⟨item, hitem, rfl⟩ := List.mem_map.mp hp
    obtain ⟨e, he, rfl⟩ := List.mem_map.mp hitem
    exact lookup_at (hcover e.1 ((mem_fst_entriesOf coefs e.1).mp (List.mem_map_of_mem he)))
  have hkeys : (items.map fun item ↦ (item.1, item.2.2)).map Prod.fst = (entriesOf coefs).map Prod.fst := by
    rw [List.map_map, List.map_map]
    rfl
  refine ⟨{
      type := 3, shouldSend := true, sendIp, stripeName, ecw := w, num, nprevs := prevnum, prevCids, prevLocs, coefs
      cacheRefs := (entriesOf ref).foldl insertNew ∅ }, {
      type := 3, stripeName, ecw := w, num, nprevs := prevnum, prevCids, prevLocs
      coefs := (items.map fun item ↦ (item.1, item.2.1)).foldl insertNew ∅
      cacheRefs := (items.map fun item ↦ (item.1, item.2.2)).foldl insertNew ∅ }, ?_, ?_, ?_⟩
  · exact (fills_type3 sendIp w num ref (Nat.lt_of_succ_lt hs.short) hn hlocs hrows).writes
  · refine (takes_int 3).bind ?_
    refine (takes_string hs).bind ((takes_int w).bind ((takes_int num).bind ((takes_int prevnum).bind
      ((takes_prevs hn hlocs).bind ((takes_int (size (entriesOf coefs))).bind ?_)))))
    have hloop : Takes (times (do
        let target ← readInt
        let coef ← times readInt (count prevnum)
        let r ← readInt
        return (target, coef, r)) items.length) ((entriesOf coefs).flatMap bytesOf) items := by
      have hflat : (entriesOf coefs).flatMap bytesOf
          = items.flatMap fun item ↦ intBytes item.1 ++ (intsBytes item.2.1 ++ intBytes item.2.2) := by
        rw [List.flatMap_map]
      rw [hflat]
      refine Takes.times fun item hitem ↦ ?_
      obtain ⟨e, he, rfl⟩ := List.mem_map.mp hitem
      rw [hn, ← hrows e he]
      exact (takes_int e.1).bind ((takes_ints e.2).bind (takes_int (ref.at e.1)).map)
    rw [hcount, ← hlength]
    exact hloop.bind (takes_pure _)
  · refine ⟨rfl, rfl, rfl, rfl, rfl, rfl, rfl, fun k ↦ ?_, ?_⟩
    · rw [hcoefs]
      exact lookup_foldl_entriesOf coefs k
    · exact restricts_insert hrefs (fun k ↦ by rw [hkeys, mem_fst_entriesOf]) (lookup_foldl_entriesOf ref)

theorem fills_type5 (sendIp : BitVec 32) {stripename : Bytes} (w num : BitVec 32) {prevnum : BitVec 32}
    {prevCids prevLocs : List (BitVec 32)} {writeobjname : Bytes} (hs : stripename.length < 2 ^ 31)
    (hn : count prevnum = prevCids.length) (hlocs : prevLocs.length = prevCids.length)
    (ho : writeobjname.length < 2 ^ 31) :
    Fills (Built.type5 sendIp stripename w num prevnum prevCids prevLocs writeobjname).build
      (Built.type5 sendIp stripename w num prevnum prevCids prevLocs writeobjname).bytes {
        type := 5, shouldSend := true, sendIp, stripeName := stripename, ecw := w, num, nprevs := prevnum, prevCids
        prevLocs
        writeObjName := writeobjname } := by
  let c : AGCommand := {
    type := 5, shouldSend := true, sendIp, stripeName := stripename, ecw := w, num, nprevs := prevnum, prevCids
    prevLocs
    writeObjName := writeobjname }
  have hprevs : Fills c.writePrevs (pairsBytes (prevCids.zip prevLocs)) () := fills_prevs hn hlocs
  exact (fills_int 5).bind ((fills_string hs).bind ((fills_int w).bind ((fills_int num).bind
    ((fills_int prevnum).bind (hprevs.bind ((fills_string ho).bind (fills_pure _)))))))

theorem carried_type5 {sendIp : BitVec 32} {stripename : Bytes} {w num prevnum : BitVec 32}
    {prevCids prevLocs : List (BitVec 32)} {writeobjname : Bytes}
    (h : (Built.type5 sendIp stripename w num prevnum prevCids prevLocs writeobjname).Sendable)
    (hfit : (Built.type5 sendIp stripename w num prevnum prevCids prevLocs writeobjname).bytes.length ≤ maxCommandLen) :
    Carried (.type5 sendIp stripename w num prevnum prevCids prevLocs writeobjname) := by
  obtain ⟨hstripe, ⟨hprevnum, hlocs⟩, hobj⟩ := h
  have hs : CText stripename := text_string hfit hstripe (by simp [Built.pieces])
  have ho : CText writeobjname := text_string hfit hobj (by simp [Built.pieces])
  have hn : count prevnum = prevCids.length := count_prevs hfit hprevnum hlocs (by simp [Built.pieces])
  refine ⟨{
      type := 5, shouldSend := true, sendIp, stripeName := stripename, ecw := w, num, nprevs := prevnum, prevCids
      prevLocs
      writeObjName := writeobjname }, {
      type := 5, stripeName := stripename, ecw := w, num, nprevs := prevnum, prevCids, prevLocs
      writeObjName := writeobjname }, ?_, ?_, ?_⟩
  · exact (fills_type5 sendIp w num (Nat.lt_of_succ_lt hs.short) hn hlocs (Nat.lt_of_succ_lt ho.short)).writes
  · refine (takes_int 5).bind ?_
    exact (takes_string hs).bind ((takes_int w).bind ((takes_int num).bind ((takes_int prevnum).bind
      ((takes_prevs hn hlocs).bind ((takes_string ho).bind (takes_pure _))))))
  · exact ⟨rfl, rfl, rfl, rfl, rfl, rfl, rfl, rfl⟩

theorem carried_type7 {sendIp : BitVec 32} {stripename : Bytes} {w num : BitVec 32} {readObjName : Bytes}
    {cidlist : List (BitVec 32)} {prevnum : BitVec 32} {prevCids prevLocs : List (BitVec 32)}
    {coefs : VectorMap} {ref : IntMap}
    (h : (Built.type7 sendIp stripename w num readObjName cidlist prevnum prevCids prevLocs coefs ref).Sendable)
    (hfit : (Built.type7 sendIp stripename w num readObjName cidlist prevnum prevCids prevLocs coefs ref).bytes.length
      ≤ maxCommandLen) :
    Carried (.type7 sendIp stripename w num readObjName cidlist prevnum prevCids prevLocs coefs ref) := by
  obtain ⟨hstripe, hobj, ⟨hprevnum, hlocs⟩, hrows⟩ := h
  have hs : CText stripename := text_string hfit hstripe (by simp [Built.pieces])
  have ho : CText readObjName := text_string hfit hobj (by simp [Built.pieces])
  have hn : count prevnum = prevCids.length := count_prevs hfit hprevnum hlocs (by simp [Built.pieces])
  let bytesOf := fun item : BitVec 32 × List (BitVec 32) ↦ intBytes item.1 ++ intsBytes item.2
  have hcids : count (size cidlist) = cidlist.length :=
    count_size hfit length_intBytes_pos (by simp [Built.pieces, intsBytes])
  have hcoefs : count (size (entriesOf coefs)) = (entriesOf coefs).length :=
    @count_size _ bytesOf _ _ hfit (fun _ ↦ length_intBytes_append_pos _ _) (by simp [Built.pieces, bytesOf])
  have hrefs : count (size (entriesOf ref)) = (entriesOf ref).length :=
    count_size hfit length_pair_pos (by simp [Built.pieces, pairsBytes])
  let c : AGCommand := {
    type := 7, shouldSend := true, sendIp, stripeName := stripename, ecw := w, num, readObjName
    readCidList := cidlist
    nprevs := prevnum, prevCids, prevLocs, coefs, cacheRefs := ref }
  refine ⟨c, {
      type := 7, stripeName := stripename, ecw := w, num, readObjName, readCidList := cidlist, nprevs := prevnum
      prevCids, prevLocs
      coefs := (entriesOf coefs).foldl insertNew ∅, cacheRefs := (entriesOf ref).foldl insertNew ∅ }, ?_, ?_, ?_⟩
  · have hprevs : Writes c.writePrevs (pairsBytes (prevCids.zip prevLocs)) () := (fills_prevs hn hlocs).writes
    have hloop : Writes ((entriesOf coefs).forM fun item ↦ do
        writeInt item.1
        c.writeCoef item.2) ((entriesOf coefs).flatMap bytesOf) () := by
      refine Writes.forM fun item hitem ↦ ?_
      have hrow : Writes (c.writeCoef item.2) (intsBytes item.2) () :=
        (fills_coef ((hrows item hitem).trans hn.symm)).writes
      exact (writes_int item.1).bind hrow
    have hloop' : Writes ((entriesOf ref).forM fun item ↦ do
        writeInt item.1
        writeInt item.2) (pairsBytes (entriesOf ref)) () :=
      Writes.forM fun item _ ↦ (writes_int item.1).bind (writes_int item.2)
    exact (writes_int 7).bind ((writes_string hs).bind ((writes_int w).bind ((writes_int num).bind
      ((writes_string ho).bind ((writes_int (size cidlist)).bind ((writes_ints cidlist).bind ((writes_int prevnum).bind (hprevs.bind
      ((writes_int (size (entriesOf coefs))).bind (hloop.bind ((writes_int (size (entriesOf ref))).bind (hloop'.bind
      (writes_pure _)))))))))))))
  · have hloop : Takes (times (do
        let target ← readInt
        let coef ← times readInt (count prevnum)
        return (target, coef)) (entriesOf coefs).length) ((entriesOf coefs).flatMap bytesOf)
        (entriesOf coefs) := by
      refine Takes.times fun item hitem ↦ ?_
      rw [hn, ← hrows item hitem]
      exact (takes_int item.1).bind (takes_ints item.2).map
    refine (takes_int 7).bind ?_
    refine (takes_string hs).bind ((takes_int w).bind ((takes_int num).bind ((takes_string ho).bind
      ((takes_int (size cidlist)).bind ?_))))
    rw [hcids]
    refine (takes_ints cidlist).bind ((takes_int prevnum).bind ((takes_prevs hn hlocs).bind
      ((takes_int (size (entriesOf coefs))).bind ?_)))
    rw [hcoefs]
    refine hloop.bind ((takes_int (size (entriesOf ref))).bind ?_)
    rw [hrefs]
    exact (takes_pairs (entriesOf ref)).bind (takes_pure _)
  · exact ⟨rfl, rfl, rfl, rfl, rfl, rfl, rfl, rfl, rfl, lookup_foldl_entriesOf coefs, lookup_foldl_entriesOf ref⟩

theorem carried_type10 (ecn eck ecw computen : BitVec 32) : Carried (.type10 ecn eck ecw computen) := by
  refine ⟨{ type := 10, ecn, eck, ecw, computen }, { type := 10, ecn, eck, ecw, computen }, ?_, ?_, ?_⟩
  · exact (writes_int 10).bind ((writes_int ecn).bind ((writes_int eck).bind ((writes_int ecw).bind
      ((writes_int computen).bind (writes_pure _)))))
  · refine (takes_int 10).bind ?_
    exact (takes_int ecn).bind ((takes_int eck).bind ((takes_int ecw).bind
      ((takes_int computen).bind (takes_pure _))))
  · exact ⟨rfl, rfl, rfl, rfl, rfl⟩

theorem carried_type11 (objnum basesizeMB : BitVec 32) : Carried (.type11 objnum basesizeMB) := by
  refine ⟨{ type := 11, objnum, basesizeMB }, { type := 11, objnum, basesizeMB }, ?_, ?_, ?_⟩
  · exact (writes_int 11).bind ((writes_int objnum).bind ((writes_int basesizeMB).bind (writes_pure _)))
  · refine (takes_int 11).bind ?_
    exact (takes_int objnum).bind ((takes_int basesizeMB).bind (takes_pure _))
  · exact ⟨rfl, rfl, rfl⟩

theorem carried (cmd : Built) (h : cmd.Sendable) (hfit : cmd.bytes.length ≤ maxCommandLen) : Carried cmd := by
  cases cmd with
  | type0 => exact carried_type0 h hfit
  | type1 => exact carried_type1 h hfit
  | type2 => exact carried_type2 h hfit
  | type3 => exact carried_type3 h hfit
  | type5 => exact carried_type5 h hfit
  | type7 => exact carried_type7 h hfit
  | type10 ecn eck ecw computen => exact carried_type10 ecn eck ecw computen
  | type11 objnum basesizeMB => exact carried_type11 objnum basesizeMB

end AGCommand

namespace CoorCommand

/-! ## CoorCommand -/

/-- A command that is built, with the arguments. -/
inductive Built
  | type0 (ip : BitVec 32) (filename ecid : Bytes) (mode filesizeMB : BitVec 32)
  | type2 (ip : BitVec 32) (filename : Bytes)
  | type3 (ip : BitVec 32) (filename : Bytes)
  | type4 (ip : BitVec 32) (poolname stripename : Bytes)
  | type5 (ip : BitVec 32) (objname : Bytes)
  | type7 (op : BitVec 32) (ectype : Bytes)
  | type8 (ip : BitVec 32) (objname : Bytes)
  | type9 (ip : BitVec 32) (filename : Bytes) (corruptIdx : List (BitVec 32))
  | type12 (ip : BitVec 32) (benchname : Bytes)

namespace Built

/-- What the sender runs on a new command. -/
def build : Built → Program CoorCommand
  | type0 ip filename ecid mode filesizeMB => buildType0 {} 0 ip filename ecid mode filesizeMB
  | type2 ip filename => buildType2 {} 2 ip filename
  | type3 ip filename => buildType3 {} 3 ip filename
  | type4 ip poolname stripename => buildType4 {} 4 ip poolname stripename
  | type5 ip objname => buildType5 {} 5 ip objname
  | type7 op ectype => buildType7 {} 7 op ectype
  | type8 ip objname => buildType8 {} 8 ip objname
  | type9 ip filename corruptIdx => buildType9 {} 9 ip filename corruptIdx
  | type12 ip benchname => buildType12 {} 12 ip benchname

def pieces : Built → List Bytes
  | type0 ip filename ecid mode filesizeMB =>
    [intBytes 0, intBytes ip, stringBytes filename, stringBytes ecid, intBytes mode, intBytes filesizeMB]
  | type2 ip filename => [intBytes 2, intBytes ip, stringBytes filename]
  | type3 ip filename => [intBytes 3, intBytes ip, stringBytes filename]
  | type4 ip poolname stripename => [intBytes 4, intBytes ip, stringBytes poolname, stringBytes stripename]
  | type5 ip objname => [intBytes 5, intBytes ip, stringBytes objname]
  | type7 op ectype => [intBytes 7, intBytes op, stringBytes ectype]
  | type8 ip objname => [intBytes 8, intBytes ip, stringBytes objname]
  | type9 ip filename corruptIdx =>
    [intBytes 9, intBytes ip, stringBytes filename, intBytes (size corruptIdx), intsBytes corruptIdx]
  | type12 ip benchname => [intBytes 12, intBytes ip, stringBytes benchname]

def bytes (cmd : Built) : Bytes := cmd.pieces.flatten

def Sendable : Built → Prop
  | type0 _ filename ecid _ _ => 0 ∉ filename ∧ 0 ∉ ecid
  | type2 _ filename => 0 ∉ filename
  | type3 _ filename => 0 ∉ filename
  | type4 _ poolname stripename => 0 ∉ poolname ∧ 0 ∉ stripename
  | type5 _ objname => 0 ∉ objname
  | type7 _ ectype => 0 ∉ ectype
  | type8 _ objname => 0 ∉ objname
  | type9 _ filename _ => 0 ∉ filename
  | type12 _ benchname => 0 ∉ benchname

end Built

/-- The fields that are sent for the type of `c` have the same values in `d`. -/
def Received (c d : CoorCommand) : Prop := d.type = c.type ∧
  match c.type.toNat with
  | 0 => d.clientIp = c.clientIp ∧ d.filename = c.filename ∧ d.ecid = c.ecid ∧ d.mode = c.mode ∧
    d.filesizeMB = c.filesizeMB
  | 2 | 3 | 5 | 8 => d.clientIp = c.clientIp ∧ d.filename = c.filename
  | 4 => d.clientIp = c.clientIp ∧ d.ecpoolid = c.ecpoolid ∧ d.stripename = c.stripename
  | 7 => d.op = c.op ∧ d.ectype = c.ectype
  | 9 => d.clientIp = c.clientIp ∧ d.filename = c.filename ∧ d.corruptIdx = c.corruptIdx
  | 12 => d.clientIp = c.clientIp ∧ d.benchname = c.benchname
  | _ => True

/-- The message of the command is written and taken. -/
def Carried (cmd : Built) : Prop := Carries cmd.build ofReqStr cmd.bytes Received

theorem carried_type0 {ip : BitVec 32} {filename ecid : Bytes} {mode filesizeMB : BitVec 32}
    (h : (Built.type0 ip filename ecid mode filesizeMB).Sendable)
    (hfit : (Built.type0 ip filename ecid mode filesizeMB).bytes.length ≤ maxCommandLen) :
    Carried (.type0 ip filename ecid mode filesizeMB) := by
  obtain ⟨hfilename, hecid⟩ := h
  have hf : CText filename := text_string hfit hfilename (by simp [Built.pieces])
  have he : CText ecid := text_string hfit hecid (by simp [Built.pieces])
  refine ⟨{ type := 0, clientIp := ip, filename, ecid, mode, filesizeMB },
    { type := 0, clientIp := ip, filename, ecid, mode, filesizeMB }, ?_, ?_, ?_⟩
  · exact (writes_int 0).bind ((writes_int ip).bind ((writes_string hf).bind ((writes_string he).bind
      ((writes_int mode).bind ((writes_int filesizeMB).bind (writes_pure _))))))
  · refine (takes_int 0).bind ?_
    exact (takes_int ip).bind ((takes_string hf).bind ((takes_string he).bind ((takes_int mode).bind
      ((takes_int filesizeMB).bind (takes_pure _)))))
  · exact ⟨rfl, rfl, rfl, rfl, rfl, rfl⟩

theorem writes_buildNamed (type ip : BitVec 32) {filename : Bytes} (hf : CText filename) :
    Writes (buildNamed {} type ip filename) [intBytes type, intBytes ip, stringBytes filename].flatten
      { type, clientIp := ip, filename } :=
  (writes_int type).bind ((writes_int ip).bind ((writes_string hf).bind (writes_pure _)))

theorem takes_resolveNamed (type ip : BitVec 32) {filename : Bytes} (hf : CText filename) :
    Takes (resolveNamed { type }) [intBytes ip, stringBytes filename].flatten { type, clientIp := ip, filename } :=
  (takes_int ip).bind ((takes_string hf).bind (takes_pure _))

theorem carried_type2 {ip : BitVec 32} {filename : Bytes} (h : (Built.type2 ip filename).Sendable)
    (hfit : (Built.type2 ip filename).bytes.length ≤ maxCommandLen) : Carried (.type2 ip filename) := by
  have hf : CText filename := text_string hfit h (by simp [Built.pieces])
  exact ⟨_, _, writes_buildNamed 2 ip hf, (takes_int 2).bind (takes_resolveNamed 2 ip hf), rfl, rfl, rfl⟩

theorem carried_type3 {ip : BitVec 32} {filename : Bytes} (h : (Built.type3 ip filename).Sendable)
    (hfit : (Built.type3 ip filename).bytes.length ≤ maxCommandLen) : Carried (.type3 ip filename) := by
  have hf : CText filename := text_string hfit h (by simp [Built.pieces])
  exact ⟨_, _, writes_buildNamed 3 ip hf, (takes_int 3).bind (takes_resolveNamed 3 ip hf), rfl, rfl, rfl⟩

theorem carried_type4 {ip : BitVec 32} {poolname stripename : Bytes}
    (h : (Built.type4 ip poolname stripename).Sendable)
    (hfit : (Built.type4 ip poolname stripename).bytes.length ≤ maxCommandLen) :
    Carried (.type4 ip poolname stripename) := by
  obtain ⟨hpool, hstripe⟩ := h
  have hp : CText poolname := text_string hfit hpool (by simp [Built.pieces])
  have hs : CText stripename := text_string hfit hstripe (by simp [Built.pieces])
  refine ⟨{ type := 4, clientIp := ip, ecpoolid := poolname, stripename },
    { type := 4, clientIp := ip, ecpoolid := poolname, stripename }, ?_, ?_, ?_⟩
  · exact (writes_int 4).bind ((writes_int ip).bind ((writes_string hp).bind ((writes_string hs).bind
      (writes_pure _))))
  · refine (takes_int 4).bind ?_
    exact (takes_int ip).bind ((takes_string hp).bind ((takes_string hs).bind (takes_pure _)))
  · exact ⟨rfl, rfl, rfl, rfl⟩

theorem carried_type5 {ip : BitVec 32} {objname : Bytes} (h : (Built.type5 ip objname).Sendable)
    (hfit : (Built.type5 ip objname).bytes.length ≤ maxCommandLen) : Carried (.type5 ip objname) := by
  have ho : CText objname := text_string hfit h (by simp [Built.pieces])
  exact ⟨_, _, writes_buildNamed 5 ip ho, (takes_int 5).bind (takes_resolveNamed 5 ip ho), rfl, rfl, rfl⟩

theorem carried_type7 {op : BitVec 32} {ectype : Bytes} (h : (Built.type7 op ectype).Sendable)
    (hfit : (Built.type7 op ectype).bytes.length ≤ maxCommandLen) : Carried (.type7 op ectype) := by
  have he : CText ectype := text_string hfit h (by simp [Built.pieces])
  refine ⟨{ type := 7, op, ectype }, { type := 7, op, ectype }, ?_, ?_, ?_⟩
  · exact (writes_int 7).bind ((writes_int op).bind ((writes_string he).bind (writes_pure _)))
  · refine (takes_int 7).bind ?_
    exact (takes_int op).bind ((takes_string he).bind (takes_pure _))
  · exact ⟨rfl, rfl, rfl⟩

theorem carried_type8 {ip : BitVec 32} {objname : Bytes} (h : (Built.type8 ip objname).Sendable)
    (hfit : (Built.type8 ip objname).bytes.length ≤ maxCommandLen) : Carried (.type8 ip objname) := by
  have ho : CText objname := text_string hfit h (by simp [Built.pieces])
  exact ⟨_, _, writes_buildNamed 8 ip ho, (takes_int 8).bind (takes_resolveNamed 8 ip ho), rfl, rfl, rfl⟩

theorem carried_type9 {ip : BitVec 32} {filename : Bytes} {corruptIdx : List (BitVec 32)}
    (h : (Built.type9 ip filename corruptIdx).Sendable)
    (hfit : (Built.type9 ip filename corruptIdx).bytes.length ≤ maxCommandLen) :
    Carried (.type9 ip filename corruptIdx) := by
  have hf : CText filename := text_string hfit h (by simp [Built.pieces])
  have hcount : count (size corruptIdx) = corruptIdx.length :=
    count_size hfit length_intBytes_pos (by simp [Built.pieces, intsBytes])
  refine ⟨{ type := 9, clientIp := ip, filename, corruptIdx },
    { type := 9, clientIp := ip, filename, corruptIdx }, ?_, ?_, ?_⟩
  · exact (writes_int 9).bind ((writes_int ip).bind ((writes_string hf).bind ((writes_int (size corruptIdx)).bind
      ((writes_ints corruptIdx).bind (writes_pure _)))))
  · refine (takes_int 9).bind ?_
    refine (takes_int ip).bind ((takes_string hf).bind ((takes_int (size corruptIdx)).bind ?_))
    rw [hcount]
    exact (takes_ints corruptIdx).bind (takes_pure _)
  · exact ⟨rfl, rfl, rfl, rfl⟩

theorem carried_type12 {ip : BitVec 32} {benchname : Bytes} (h : (Built.type12 ip benchname).Sendable)
    (hfit : (Built.type12 ip benchname).bytes.length ≤ maxCommandLen) : Carried (.type12 ip benchname) := by
  have hb : CText benchname := text_string hfit h (by simp [Built.pieces])
  refine ⟨{ type := 12, clientIp := ip, benchname }, { type := 12, clientIp := ip, benchname }, ?_, ?_, ?_⟩
  · exact (writes_int 12).bind ((writes_int ip).bind ((writes_string hb).bind (writes_pure _)))
  · refine (takes_int 12).bind ?_
    exact (takes_int ip).bind ((takes_string hb).bind (takes_pure _))
  · exact ⟨rfl, rfl, rfl⟩

theorem carried (cmd : Built) (h : cmd.Sendable) (hfit : cmd.bytes.length ≤ maxCommandLen) : Carried cmd := by
  cases cmd with
  | type0 => exact carried_type0 h hfit
  | type2 => exact carried_type2 h hfit
  | type3 => exact carried_type3 h hfit
  | type4 => exact carried_type4 h hfit
  | type5 => exact carried_type5 h hfit
  | type7 => exact carried_type7 h hfit
  | type8 => exact carried_type8 h hfit
  | type9 => exact carried_type9 h hfit
  | type12 => exact carried_type12 h hfit

end CoorCommand

namespace ECTask

/-! ## ECTask -/

/-- The children and the coefficients of a task that is built. -/
structure Built where
  children : List (BitVec 32)
  coefMap : VectorMap

namespace Built

def build (task : Built) : Program ECTask :=
  ((({} : ECTask).setType 2).setChildren task.children |>.setCoefmap task.coefMap).buildType2

/-- The bytes of a target and its coefficients. -/
def rowBytes (item : BitVec 32 × List (BitVec 32)) : Bytes :=
  intBytes item.1 ++ (intBytes (size item.2) ++ intsBytes item.2)

def pieces (task : Built) : List Bytes :=
  [intBytes 2, intBytes (size task.children), intsBytes task.children, intBytes (size (entriesOf task.coefMap)),
    (entriesOf task.coefMap).flatMap rowBytes]

def bytes (task : Built) : Bytes := task.pieces.flatten

end Built

/-- The fields that are sent have the same values. -/
def Received (t u : ECTask) : Prop :=
  u.type = t.type ∧ u.children = t.children ∧ ∀ k, u.coefMap.lookup k = t.coefMap.lookup k

theorem fills_build (task : Built) :
    Fills task.build task.bytes { type := 2, children := task.children, coefMap := task.coefMap } := by
  obtain ⟨children, coefMap⟩ := task
  have hloop : Fills ((entriesOf coefMap).forM fun item ↦ do
      writeInt item.1
      writeInt (size item.2)
      item.2.forM writeInt) ((entriesOf coefMap).flatMap Built.rowBytes) () :=
    Fills.forM fun item _ ↦ (fills_int item.1).bind ((fills_int (size item.2)).bind (fills_ints item.2))
  exact (fills_int 2).bind ((fills_int (size children)).bind ((fills_ints children).bind
    ((fills_int (size (entriesOf coefMap))).bind (hloop.bind (fills_pure _)))))

theorem carried (task : Built) (hfit : task.bytes.length ≤ maxCommandLen) :
    Carries task.build ofReqStr task.bytes Received := by
  obtain ⟨children, coefMap⟩ := task
  have hchildren : count (size children) = children.length :=
    count_size hfit length_intBytes_pos (by simp [Built.pieces, intsBytes])
  have hcoefs : count (size (entriesOf coefMap)) = (entriesOf coefMap).length :=
    @count_size _ Built.rowBytes _ _ hfit (fun _ ↦ length_intBytes_append_pos _ _) (by simp [Built.pieces])
  -- a row is a part of the last piece
  have hrow : ∀ item ∈ entriesOf coefMap, count (size item.2) = item.2.length := by
    intro item hitem
    have hpiece : (Built.rowBytes item).length ≤ ((entriesOf coefMap).map Built.rowBytes).flatten.length :=
      length_le_flatten (List.mem_map_of_mem hitem)
    have hmessage : ((entriesOf coefMap).flatMap Built.rowBytes).length ≤
        (Built.bytes ⟨children, coefMap⟩).length :=
      length_le_flatten (by simp [Built.pieces])
    have hints : item.2.length ≤ (intsBytes item.2).length := length_le_flatMap length_intBytes_pos
    rw [← List.flatMap_def, Built.rowBytes, List.length_append, List.length_append] at hpiece
    rw [maxCommandLen] at hfit
    exact count_ofNat (by omega)
  refine ⟨{ type := 2, children, coefMap },
    { type := 2, children, coefMap := (entriesOf coefMap).foldl insertNew ∅ }, ?_, ?_, ?_⟩
  · exact (fills_build ⟨children, coefMap⟩).writes
  · have hloop : Takes (times (do
        let target ← readInt
        let coefnum ← readInt
        let coef ← times readInt (count coefnum)
        return (target, coef)) (entriesOf coefMap).length) ((entriesOf coefMap).flatMap Built.rowBytes)
        (entriesOf coefMap) := by
      refine Takes.times fun item hitem ↦ ?_
      refine (takes_int item.1).bind ((takes_int (size item.2)).bind ?_)
      rw [hrow item hitem]
      exact (takes_ints item.2).map
    refine (takes_int 2).bind ((takes_int (size children)).bind ?_)
    rw [hchildren]
    refine (takes_ints children).bind ((takes_int (size (entriesOf coefMap))).bind ?_)
    rw [hcoefs]
    exact hloop.bind (takes_pure _)
  · exact ⟨rfl, rfl, lookup_foldl_entriesOf coefMap⟩

end ECTask

/-! ## The round trip -/

/-- **A command that fits into the buffer of the sender is received as it was sent**: its message is written as the
class lays it out, and the constructor of the receiver takes the type and every field that is sent from the bytes,
whatever follows them. -/
theorem wire_round_trip (rest : Bytes) :
    (∀ cmd : AGCommand.Built, cmd.Sendable → cmd.bytes.length ≤ maxCommandLen →
      ∃ c d, encode maxCommandLen cmd.build = .ok (c, cmd.bytes) ∧
        decode AGCommand.ofReqStr (cmd.bytes ++ rest) = .ok d ∧ AGCommand.Received c d) ∧
    (∀ cmd : CoorCommand.Built, cmd.Sendable → cmd.bytes.length ≤ maxCommandLen →
      ∃ c d, encode maxCommandLen cmd.build = .ok (c, cmd.bytes) ∧
        decode CoorCommand.ofReqStr (cmd.bytes ++ rest) = .ok d ∧ CoorCommand.Received c d) ∧
    (∀ task : ECTask.Built, task.bytes.length ≤ maxCommandLen →
      ∃ t u, encode maxCommandLen task.build = .ok (t, task.bytes) ∧
        decode ECTask.ofReqStr (task.bytes ++ rest) = .ok u ∧ ECTask.Received t u) := by
  refine ⟨fun cmd h hfit ↦ ?_, fun cmd h hfit ↦ ?_, fun task hfit ↦ ?_⟩
  · exact (AGCommand.carried cmd h hfit).round_trip hfit rest
  · exact (CoorCommand.carried cmd h hfit).round_trip hfit rest
  · exact (ECTask.carried task hfit).round_trip hfit rest

/-- A command to compute one sub-packet from two others, a report of two lost blocks and the task of a client. -/
theorem wire_round_trip_example :
    (∃ c d, encode maxCommandLen
        (AGCommand.Built.type3 1 [115] 1 4 2 [0, 1] [7, 8] (AList.insert 5 [1, 2] ∅) (AList.insert 5 1 ∅)).build =
          .ok (c,
          (AGCommand.Built.type3 1 [115] 1 4 2 [0, 1] [7, 8] (AList.insert 5 [1, 2] ∅) (AList.insert 5 1 ∅)).bytes) ∧
      decode AGCommand.ofReqStr
        ((AGCommand.Built.type3 1 [115] 1 4 2 [0, 1] [7, 8] (AList.insert 5 [1, 2] ∅) (AList.insert 5 1 ∅)).bytes ++ []) =
          .ok d ∧
      AGCommand.Received c d) ∧
    (∃ c d, encode maxCommandLen (CoorCommand.Built.type9 7 [102] [0, 3]).build =
        .ok (c, (CoorCommand.Built.type9 7 [102] [0, 3]).bytes) ∧
      decode CoorCommand.ofReqStr ((CoorCommand.Built.type9 7 [102] [0, 3]).bytes ++ []) = .ok d ∧
      CoorCommand.Received c d) ∧
    (∃ t u, encode maxCommandLen (ECTask.Built.mk [0, 1] (AList.insert 5 [1, 2] ∅)).build =
        .ok (t, (ECTask.Built.mk [0, 1] (AList.insert 5 [1, 2] ∅)).bytes) ∧
      decode ECTask.ofReqStr ((ECTask.Built.mk [0, 1] (AList.insert 5 [1, 2] ∅)).bytes ++ []) = .ok u ∧
      ECTask.Received t u) := by
  have hrows : AGCommand.Built.Rows [0, 1] (AList.insert 5 [1, 2] ∅) := by
    rw [AGCommand.Built.Rows]
    decide
  refine ⟨(wire_round_trip []).1 _ ⟨by decide, ⟨by decide, by decide⟩, hrows, ?_⟩ (by decide),
    (wire_round_trip []).2.1 _ (show (0 : UInt8) ∉ [102] by decide) (by decide),
    (wire_round_trip []).2.2 _ (by decide)⟩
  intro target h
  exact (AList.mem_insert _).mpr (.inl (((AList.mem_insert _).mp h).resolve_right (AList.notMem_empty _)))

end UniDedup.Storage.Wire
