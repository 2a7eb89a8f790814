import Mathlib.Algebra.Order.BigOperators.Group.List
import UniDedup.Storage.AGCommand
import UniDedup.Storage.Sorting
import UniDedup.Storage.WireRoundTrip

/-!
# The sizes of commands and tasks

The commands that `parseForOEC` and `persist` make of a graph, and the tasks of `parseForClient`, are written to buffers
of `MAX_COMMAND_LEN` bytes. What such a message needs is a number of its names and of the numbers in its lists, and so
of the graph: of the children and the targets of a node that is computed, and of the leaves in a block.
-/

namespace UniDedup.Storage

open Codec Wire

/-! ## On the wire -/

def wireTable {ν ν' : Type} (f : ν → ν') (m : AList fun _ : ℕ ↦ ν) : AList fun _ : BitVec 32 ↦ ν' :=
  (m.entries.map fun e ↦ (BitVec.ofNat 32 e.1, f e.2)).foldl insertNew ∅

/-- A number of a graph as an `int`. -/
def wireInt (id : ℕ) : BitVec 32 := .ofNat 32 id

def wireCoefs (M : CoefMap) : VectorMap := wireTable (List.map fun c ↦ c.bits.setWidth 32) M

def wireRefs (refs : RefMap) : IntMap := wireTable (fun ref ↦ BitVec.ofInt 32 ref) refs

/-- What the commands for a stripe have in common: `stripename`, `w`, `num` and the names in `objlist`. -/
structure StripeNames where
  stripename : Bytes
  w : ℕ
  num : ℕ
  objname : ℕ → Bytes

/-- The function of the class that builds the command, with its arguments. -/
def AGCommand.toWire (s : StripeNames) : AGCommand → Wire.AGCommand.Built
  | readDisk sendIp readObj cidlist refs =>
    .type2 (wireInt sendIp) s.stripename (wireInt s.w) (wireInt s.num) (s.objname readObj) (cidlist.map wireInt)
      (wireRefs refs)
  | fetchCompute sendIp prevs coefs refs =>
    .type3 (wireInt sendIp) s.stripename (wireInt s.w) (wireInt s.num) (wireInt prevs.length)
      (prevs.map fun p ↦ wireInt p.1) (prevs.map fun p ↦ wireInt p.2) (wireCoefs coefs) (wireRefs refs)
  | persist sendIp prevs writeObj =>
    .type5 (wireInt sendIp) s.stripename (wireInt s.w) (wireInt s.num) (wireInt s.w)
      (prevs.map fun p ↦ wireInt p.1) (prevs.map fun p ↦ wireInt p.2) (s.objname writeObj)

def ECDAG.ComputeTask.toWire (task : ECDAG.ComputeTask) : Wire.ECTask.Built :=
  ⟨task.children.map wireInt, wireCoefs task.coefMap⟩

/-- The message fits into its buffer: the program that writes it does not leave the buffer. -/
def Fits {α : Type} (capacity : ℕ) (write : Program α) : Prop := ∃ r, encode capacity write = .ok r

instance {α : Type} (capacity : ℕ) (write : Program α) : Decidable (Fits capacity write) :=
  match h : encode capacity write with
  | .ok r => isTrue ⟨r, h⟩
  | .error _ => isFalse fun ⟨_, hr⟩ ↦ nomatch h.symm.trans hr

/-! ## Tables -/

/-- Entries with distinct keys are all inserted, each in front of the others. -/
theorem entriesOf_foldl_insertNew {ν : Type} {items : List (BitVec 32 × ν)} (h : (items.map Prod.fst).Nodup) :
    entriesOf (items.foldl insertNew ∅) = items.reverse := by
  induction items using List.reverseRecOn with
  | nil => rfl
  | append_singleton items p ih =>
    rw [List.map_append, List.map_singleton, List.nodup_append] at h
    obtain ⟨hnodup, -, hne⟩ := h
    have hitems := ih hnodup
    have hnot : p.1 ∉ items.foldl insertNew ∅ := by
      intro hmem
      rw [← mem_fst_entriesOf, hitems, List.map_reverse, List.mem_reverse] at hmem
      exact hne p.1 hmem p.1 (List.mem_singleton_self _) rfl
    rw [List.foldl_append, List.foldl_cons, List.foldl_nil, insertNew, if_neg hnot, entriesOf,
      AList.entries_insert_of_notMem hnot, List.map_cons, ← entriesOf, hitems, List.reverse_append]
    rfl

theorem nodup_wireInt {ids : List ℕ} (h : ids.Nodup) (hlt : ∀ id ∈ ids, id < 2 ^ 31) : (ids.map wireInt).Nodup := by
  refine List.Nodup.map_on (fun i hi j hj hij ↦ ?_) h
  have hi := hlt i hi
  have hj := hlt j hj
  have hnat := congrArg BitVec.toNat hij
  rw [wireInt, wireInt, BitVec.toNat_ofNat, BitVec.toNat_ofNat] at hnat
  omega

theorem entriesOf_wireTable {ν ν' : Type} (f : ν → ν') {m : AList fun _ : ℕ ↦ ν} (h : ∀ id ∈ m, id < 2 ^ 31) :
    entriesOf (wireTable f m) = (m.entries.map fun e ↦ (wireInt e.1, f e.2)).reverse := by
  refine entriesOf_foldl_insertNew ?_
  rw [List.map_map]
  have hnodup := nodup_wireInt m.keys_nodup h
  rw [AList.keys, List.keys, List.map_map] at hnodup
  exact hnodup

theorem length_wireCoefs {M : CoefMap} (h : ∀ id ∈ M, id < 2 ^ 31) :
    (entriesOf (wireCoefs M)).length = M.keys.length := by
  rw [wireCoefs, entriesOf_wireTable _ h, List.length_reverse, List.length_map, AList.keys, List.keys, List.length_map]

theorem exists_of_mem_wireCoefs {M : CoefMap} (h : ∀ id ∈ M, id < 2 ^ 31) {item : BitVec 32 × List (BitVec 32)}
    (hitem : item ∈ entriesOf (wireCoefs M)) : ∃ t co, M.lookup t = some co ∧ item.2.length = co.length := by
  rw [wireCoefs, entriesOf_wireTable _ h, List.mem_reverse] at hitem
  obtain ⟨⟨t, co⟩, hmem, rfl⟩ := List.mem_map.mp hitem
  exact ⟨t, co, AList.mem_lookup_iff.mpr hmem, List.length_map _⟩

/-! ## Lengths -/

theorem length_flatMap_of_eq {α : Type} {g : α → Bytes} {xs : List α} {l : ℕ} (h : ∀ x ∈ xs, (g x).length = l) :
    (xs.flatMap g).length = xs.length * l := by
  rw [List.length_flatMap, List.map_congr_left h, List.map_const', List.sum_replicate, smul_eq_mul]

theorem length_intsBytes (xs : List (BitVec 32)) : (intsBytes xs).length = 4 * xs.length := by
  rw [intsBytes, length_flatMap_of_eq fun x _ ↦ length_intBytes x, Nat.mul_comm]

theorem length_pairsBytes (ps : List (BitVec 32 × BitVec 32)) : (pairsBytes ps).length = 8 * ps.length := by
  rw [pairsBytes, length_flatMap_of_eq fun p _ ↦ ?_, Nat.mul_comm]
  rw [List.length_append, length_intBytes, length_intBytes]

/-- The bytes of a task with `c` children and `t` targets. -/
def taskLength (c t : ℕ) : ℕ := 12 + 4 * c + t * (8 + 4 * c)

/-- The bytes of a command that names a block and has `m` numbers with a count or an address each. -/
def StripeNames.blockLength (s : StripeNames) (sid m : ℕ) : ℕ :=
  24 + s.stripename.length + (s.objname sid).length + 8 * m

/-- The bytes of a command that computes `t` targets from `c` children. -/
def StripeNames.computeLength (s : StripeNames) (c t : ℕ) : ℕ :=
  24 + s.stripename.length + 8 * c + t * (8 + 4 * c)

namespace AGCommand

def messageLength (s : StripeNames) : AGCommand → ℕ
  | readDisk _ readObj cidlist _ => s.blockLength readObj cidlist.length
  | fetchCompute _ prevs coefs _ => s.computeLength prevs.length coefs.keys.length
  | persist _ prevs writeObj => s.blockLength writeObj prevs.length

/-- The lengths are `int`s, the numbers of the targets too, and every row has a coefficient for each sub-packet that is
fetched. -/
def Writable (s : StripeNames) : AGCommand → Prop
  | readDisk .. => True
  | fetchCompute _ prevs coefs _ => prevs.length < 2 ^ 31 ∧ (∀ t ∈ coefs, t < 2 ^ 31) ∧
    ∀ t co, coefs.lookup t = some co → co.length = prevs.length
  | persist _ prevs _ => s.w < 2 ^ 31 ∧ prevs.length = s.w

end AGCommand

/-- The names are so short that their lengths are `int`s. -/
structure StripeNames.Short (s : StripeNames) : Prop where
  stripename : s.stripename.length < 2 ^ 31
  objname : ∀ sid, (s.objname sid).length < 2 ^ 31

theorem count_wireInt {i : ℕ} (h : i < 2 ^ 31) : count (wireInt i) = i := count_ofNat h

/-- **A command of `parseForOEC` or `persist` is written** exactly when its length is at most `MAX_COMMAND_LEN`. -/
theorem AGCommand.fits_iff {s : StripeNames} (hs : s.Short) {cmd : AGCommand} (h : cmd.Writable s) :
    Fits Wire.maxCommandLen (cmd.toWire s).build ↔ cmd.messageLength s ≤ Wire.maxCommandLen := by
  cases cmd with
  | readDisk sendIp readObj cidlist refs =>
    refine ((Wire.AGCommand.fills_type2 _ _ _ _ _ hs.stripename (hs.objname readObj)).encode_iff).trans ?_
    rw [messageLength, StripeNames.blockLength]
    simp only [Wire.AGCommand.Built.bytes, Wire.AGCommand.Built.pieces, List.flatten_cons, List.flatten_nil,
      List.length_append, length_intBytes, length_stringBytes, length_pairsBytes, List.length_map, List.length_nil]
    omega
  | fetchCompute sendIp prevs coefs refs =>
    obtain ⟨hprevs, htargets, hrows⟩ := h
    have hcount : count (wireInt prevs.length) = (prevs.map fun p ↦ wireInt p.1).length := by
      rw [count_wireInt hprevs, List.length_map]
    have hlocs : (prevs.map fun p ↦ wireInt p.2).length = (prevs.map fun p ↦ wireInt p.1).length := by
      rw [List.length_map, List.length_map]
    have hlength : ∀ item ∈ entriesOf (wireCoefs coefs), item.2.length = prevs.length := by
      intro item hitem
      obtain ⟨t, co, hco, hlen⟩ := exists_of_mem_wireCoefs htargets hitem
      rw [hlen, hrows t co hco]
    have hwire : Wire.AGCommand.Built.Rows (prevs.map fun p ↦ wireInt p.1) (wireCoefs coefs) := by
      intro item hitem
      rw [List.length_map, hlength item hitem]
    refine ((Wire.AGCommand.fills_type3 _ _ _ _ hs.stripename hcount hlocs hwire).encode_iff).trans ?_
    have hflat : ((entriesOf (wireCoefs coefs)).flatMap fun item ↦
        intBytes item.1 ++ (intsBytes item.2 ++ intBytes ((wireRefs refs).at item.1))).length =
          coefs.keys.length * (8 + 4 * prevs.length) := by
      rw [length_flatMap_of_eq fun item hitem ↦ ?_, length_wireCoefs htargets]
      rw [List.length_append, List.length_append, length_intBytes, length_intBytes, length_intsBytes,
        hlength item hitem]
      omega
    rw [messageLength, StripeNames.computeLength]
    simp only [Wire.AGCommand.Built.bytes, Wire.AGCommand.Built.pieces, List.flatten_cons, List.flatten_nil,
      List.length_append, length_intBytes, length_stringBytes, length_pairsBytes, List.length_map, List.length_nil,
      List.length_zip, hflat]
    omega
  | persist sendIp prevs writeObj =>
    obtain ⟨hw, hprevs⟩ := h
    have hcount : count (wireInt s.w) = (prevs.map fun p ↦ wireInt p.1).length := by
      rw [count_wireInt hw, List.length_map, hprevs]
    have hlocs : (prevs.map fun p ↦ wireInt p.2).length = (prevs.map fun p ↦ wireInt p.1).length := by
      rw [List.length_map, List.length_map]
    refine ((Wire.AGCommand.fills_type5 _ _ _ hs.stripename hcount hlocs (hs.objname writeObj)).encode_iff).trans ?_
    rw [messageLength, StripeNames.blockLength]
    simp only [Wire.AGCommand.Built.bytes, Wire.AGCommand.Built.pieces, List.flatten_cons, List.flatten_nil,
      List.length_append, length_intBytes, length_stringBytes, length_pairsBytes, List.length_map, List.length_nil,
      List.length_zip]
    omega

/-- **A task is written** exactly when its length is at most `MAX_COMMAND_LEN`. -/
theorem ECDAG.ComputeTask.fits_iff {task : ECDAG.ComputeTask} (htargets : ∀ t ∈ task.coefMap, t < 2 ^ 31)
    (hrows : ∀ t co, task.coefMap.lookup t = some co → co.length = task.children.length) :
    Fits Wire.maxCommandLen task.toWire.build ↔
      taskLength task.children.length task.coefMap.keys.length ≤ Wire.maxCommandLen := by
  refine (Wire.ECTask.fills_build task.toWire).encode_iff.trans ?_
  have hflat : ((entriesOf (wireCoefs task.coefMap)).flatMap Wire.ECTask.Built.rowBytes).length =
      task.coefMap.keys.length * (8 + 4 * task.children.length) := by
    rw [length_flatMap_of_eq fun item hitem ↦ ?_, length_wireCoefs htargets]
    obtain ⟨t, co, hco, hlen⟩ := exists_of_mem_wireCoefs htargets hitem
    rw [Wire.ECTask.Built.rowBytes, List.length_append, List.length_append, length_intBytes, length_intBytes,
      length_intsBytes, hlen, hrows t co hco]
    omega
  rw [taskLength, toWire]
  simp only [Wire.ECTask.Built.bytes, Wire.ECTask.Built.pieces, List.flatten_cons, List.flatten_nil,
    List.length_append, length_intBytes, length_intsBytes, List.length_map, List.length_nil, hflat]
  omega

end UniDedup.Storage
