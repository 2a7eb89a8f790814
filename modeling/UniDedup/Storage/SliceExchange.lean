import Mathlib.Data.Prod.Lex
import UniDedup.Lib.Exchange
import UniDedup.Storage.Fetches
import UniDedup.Storage.PacketSlices

/-!
# Slices that are exchanged

The agents run the commands of an operation at the same time. The steps of `PacketSlices` come apart here: a command is a
process whose turns are the packets, a thread of `fetchCompute` or `persist` takes one slice after the other from the list
of its key, and a thread that caches pushes one slice after the other.

In whatever order the threads take their turns, every slice that is fetched has the bytes that the graph gives it, no
thread waits forever, and in the end all lists are empty. Two operations on a stripe share the keys of their sub-packets.
Each fetches what it should if and only if the graphs agree on what both of them fetch.
-/

namespace UniDedup.Storage

open ECDAG AGCommand Exchange
open PacketSlices (SliceKey UnderFile FSObjInputStream.readObj sliceOf refTimes computeSize)

/-! ## Commands as processes -/

/-- The key of a packet of a sub-packet at an address. -/
def keyAt (i : ℕ) (x : ℕ × ℕ) : SliceKey := ⟨x.2, x.1, i⟩

/-- What a row gives for a packet: the slice that `Computation::Multi` computes. -/
def rowSlice (pktSize w : ℕ) (prevs : List (ℕ × ℕ)) (co : List GF256) (data : List Packet) : Packet :=
  (List.range (computeSize pktSize w prevs)).map fun pos ↦ dot co (data.map fun buf ↦ buf.getD pos 0)

namespace AGCommand

/-- A command as process `c`, in its turn for packet `i`. A load caches the slices of its queue one by one, as far as
there are any; with one sub-packet, `selectCacheWorker` knows the first number of its list only. -/
def job (pktSize w : ℕ) (files : ℕ → UnderFile) (c i : ℕ) : AGCommand → Job SliceKey Packet
  | readDisk ip obj cidlist refs =>
    let cidlist := cidlist.insertionSort (· ≤ ·)
    let idxlist := if w = 1 then cidlist.take 1 else cidlist
    let queue := FSObjInputStream.readObj pktSize (files obj) w cidlist (pktSize / w)
    { process := c
      turn := i
      serial := true
      needs := []
      gives := (idxlist.zip (Slices.piece idxlist.length i queue)).map fun x ↦
        ⟨keyAt i (x.1, ip), refTimes refs x.1, fun _ ↦ x.2⟩ }
  | fetchCompute ip prevs coefs refs =>
    { process := c
      turn := i
      serial := false
      needs := prevs.map (keyAt i)
      gives := coefs.entries.map fun row ↦
        ⟨keyAt i (row.1, ip), refTimes refs row.1, rowSlice pktSize w prevs row.2⟩ }
  | persist _ prevs _ =>
    { process := c
      turn := i
      serial := false
      needs := prevs.map (keyAt i)
      gives := [] }

section Job

variable {pktSize w num c i ip obj : ℕ} {files : ℕ → UnderFile} {cids : List ℕ} {refs : RefMap} {cmd : AGCommand}

@[simp] theorem process_job (cmd : AGCommand) : (cmd.job pktSize w files c i).process = c := by
  cases cmd <;> rfl

@[simp] theorem turn_job (cmd : AGCommand) : (cmd.job pktSize w files c i).turn = i := by
  cases cmd <;> rfl

@[simp] theorem needs_job (cmd : AGCommand) : (cmd.job pktSize w files c i).needs = cmd.fetches.map (keyAt i) := by
  cases cmd <;> rfl

theorem isLoad_of_serial (h : (cmd.job pktSize w files c i).serial = true) : cmd.isLoad := by
  cases cmd with
  | readDisk => rfl
  | fetchCompute => exact absurd h Bool.false_ne_true
  | persist => exact absurd h Bool.false_ne_true

theorem readObj_sorted {f : UnderFile} (hw : 1 ≤ w) (hwp : w ≤ pktSize) (hf : f.Whole pktSize num)
    (hsorted : cids.Pairwise (· ≤ ·)) (hcids : ∀ cid ∈ cids, cid / w = obj) (hone : w = 1 → cids.length = 1) :
    FSObjInputStream.readObj pktSize f w cids (pktSize / w) =
      (List.range num).flatMap fun i ↦ cids.map (sliceOf pktSize w f i) := by
  obtain rfl | hw' := Nat.eq_or_lt_of_le hw
  · obtain ⟨cid, rfl⟩ := List.length_eq_one_iff.mp (hone rfl)
    rw [FSObjInputStream.readObj, if_pos rfl, PacketSlices.readPackets_eq (by omega) hf cid,
      ← List.flatMap_pure_eq_map]
    rfl
  · have hoffsets : (cids.map (· % w)).insertionSort (· ≤ ·) = cids.map (· % w) := by
      refine List.Pairwise.insertionSort_eq (List.pairwise_map.mpr (hsorted.imp_of_mem fun {a b} ha hb hab ↦ ?_))
      have hda := Nat.div_add_mod a w
      have hdb := Nat.div_add_mod b w
      rw [hcids a ha] at hda
      rw [hcids b hb] at hdb
      omega
    rw [PacketSlices.readObj_eq hw' hwp hf, hoffsets]
    refine List.flatMap_congr fun i _ ↦ ?_
    rw [List.map_map]
    refine List.map_congr_left fun cid _ ↦ ?_
    rw [Function.comp_apply, sliceOf, sliceOf, Nat.mod_mod]

theorem gives_readDisk (hw : 1 ≤ w) (hwp : w ≤ pktSize) (hf : (files obj).Whole pktSize num) (hi : i < num)
    (hnodup : cids.Nodup) (hcids : ∀ cid ∈ cids, cid / w = obj) :
    ((readDisk ip obj cids refs).job pktSize w files c i).gives = (cids.insertionSort (· ≤ ·)).map fun cid ↦
      ⟨keyAt i (cid, ip), refTimes refs cid, fun _ ↦ sliceOf pktSize w (files obj) i cid⟩ := by
  have hperm := List.perm_insertionSort (· ≤ ·) cids
  have hcids' : ∀ cid ∈ cids.insertionSort (· ≤ ·), cid / w = obj := fun cid hcid ↦ hcids cid (hperm.mem_iff.mp hcid)
  have hnodup' := hperm.nodup_iff.mpr hnodup
  have hsorted := List.pairwise_insertionSort (· ≤ ·) cids
  show (List.zip _ _).map _ = _
  generalize cids.insertionSort (· ≤ ·) = l at hcids' hnodup' hsorted
  by_cases hnil : l = []
  · rw [hnil]
    split_ifs <;> rfl
  -- With one sub-packet there is one number.
  have hone : w = 1 → l.length = 1 := by
    rintro rfl
    refine le_antisymm ?_ (List.length_pos_of_ne_nil hnil)
    have hsub : l ⊆ [obj] := fun cid hcid ↦ by rw [List.mem_singleton, ← hcids' cid hcid, Nat.div_one]
    exact (hnodup'.subperm hsub).length_le
  have hidx : (if w = 1 then l.take 1 else l) = l := by
    split_ifs with hw1
    · rw [← hone hw1, List.take_length]
    · rfl
  rw [hidx, readObj_sorted hw hwp hf hsorted hcids' hone,
    Slices.piece_flatMap_range (fun t _ ↦ List.length_map _) hi, ← List.map_prod_left_eq_zip, List.map_map]
  rfl

end Job

/-- What a command caches, in the order of its places. -/
def places : AGCommand → List (ℕ × ℕ)
  | readDisk ip _ cids _ => (cids.insertionSort (· ≤ ·)).map fun cid ↦ (cid, ip)
  | fetchCompute ip _ coefs _ => coefs.keys.map fun cid ↦ (cid, ip)
  | persist .. => []

/-- What a command is in a graph: the load of leaves of a block, the computation of the rows of a node over its children,
which are no bind nodes, or something that caches nothing. -/
def OfShape (S : ℕ → Option Shape) (w : ℕ) : AGCommand → Prop
  | readDisk _ obj cids _ => cids.Nodup ∧ ∀ cid ∈ cids, IsLeaf S cid ∧ cid / w = obj
  | fetchCompute _ prevs coefs _ => ∃ id, S id = some (prevs.map Prod.fst, coefs) ∧
      Part S id (prevs.map Prod.fst, coefs) ∧ prevs ≠ [] ∧ ∀ prev ∈ prevs, Plain S prev.1
  | persist .. => True

end AGCommand

namespace ECDAG

variable {dag : ECDAG} {targets order : List ℕ} {n w : ℕ} {cid2ip objIp : ℕ → ℕ}

def computed : AGCommand → List (List ℕ × CoefMap)
  | .fetchCompute _ prevs coefs _ => [(prevs.map Prod.fst, coefs)]
  | _ => []

/-- **The commands of a graph** do what its nodes are. -/
theorem Accounted.ofShape (h : Accounted dag targets) (hacyclic : Acyclic dag.shape) (horder : order.Perm dag.nodes.keys)
    (hplaced : Placed dag n w cid2ip) {cmd : AGCommand} (hcmd : cmd ∈ dag.commands order cid2ip objIp n w) :
    cmd.OfShape dag.shape w := by
  obtain ⟨hnodup, hmem, -⟩ := h.toposort hacyclic horder
  have hshape := shape_countHeaders dag
  have hnode : ∀ id ∈ dag.countHeaders.toposort order, ∃ cs M, dag.shape id = some (cs, M) ∧ ∃ refs : RefMap,
      (cs = [] ∧ dag.countHeaders.commandOf w cid2ip id = some (.readDisk (cid2ip id) (id / w) [id] refs) ∨
        dag.countHeaders.commandOf w cid2ip id = none ∨
        cs ≠ [] ∧ (∀ c ∈ cs, Plain dag.shape c) ∧ dag.countHeaders.commandOf w cid2ip id =
          some (.fetchCompute (cid2ip id) (cs.map fun c ↦ (c, cid2ip (home dag.shape c))) M refs)) := by
    intro id hid
    obtain ⟨⟨cs, M⟩, hS⟩ := mem_nodes_iff.mp ((hmem id).mp hid)
    obtain ⟨refs, -, hcase⟩ := h.prepared.commandOf_cases hS w cid2ip
    rw [hshape] at hS hcase
    refine ⟨cs, M, hS, refs, ?_⟩
    rcases hcase with ⟨rfl, -, hcmd⟩ | ⟨-, -, hcmd⟩ | hcmd
    · exact .inl ⟨rfl, hcmd⟩
    · exact .inr (.inl hcmd)
    · exact .inr (.inr hcmd)
  cases cmd with
  | readDisk ip obj cids refs =>
    have hloads := h.perm_commands hacyclic horder objIp hplaced additive_loads
    rw [flatMap_persistCmds fun _ _ _ ↦ rfl, List.append_nil] at hloads
    refine ⟨?_, fun cid hcid ↦ ⟨?_, (ofBlock_commands hcmd rfl).2 cid hcid⟩⟩
    · have hdone := (h.prepared.nodup_done w cid2ip hnodup fun id hid ↦ (hmem id).mp hid).sublist
        (sublist_doneBy _ fun cmd ↦ List.sublist_append_left cmd.loads cmd.targets)
      exact (List.nodup_flatMap.mp (hloads.nodup_iff.mpr hdone)).1 _ hcmd
    · obtain ⟨id, hid, hdone⟩ := List.mem_flatMap.mp (hloads.mem_iff.mp (List.mem_flatMap.mpr ⟨_, hcmd, hcid⟩))
      obtain ⟨cs, M, hS, refs, hcase⟩ := hnode id hid
      rw [doneBy] at hdone
      rcases hcase with ⟨rfl, hcmd⟩ | hcmd | ⟨-, -, hcmd⟩
      · rw [hcmd] at hdone
        obtain rfl : cid = id := by simpa [loads] using hdone
        exact ⟨M, hS⟩
      · rw [hcmd] at hdone
        exact absurd hdone List.not_mem_nil
      · rw [hcmd] at hdone
        exact absurd hdone List.not_mem_nil
  | fetchCompute ip prevs coefs refs =>
    have hcomputed := h.perm_commands hacyclic horder objIp hplaced (additive_of_load (f := computed) fun _ _ _ _ ↦ rfl)
    rw [flatMap_persistCmds fun _ _ _ ↦ rfl, List.append_nil] at hcomputed
    obtain ⟨id, hid, hdone⟩ := List.mem_flatMap.mp
      (hcomputed.mem_iff.mp (List.mem_flatMap.mpr ⟨_, hcmd, List.mem_singleton_self _⟩))
    obtain ⟨cs, M, hS, refs', hcase⟩ := hnode id hid
    rw [doneBy] at hdone
    rcases hcase with ⟨rfl, hcmd⟩ | hcmd | ⟨hne, hplain, hcmd⟩
    · rw [hcmd] at hdone
      exact absurd hdone List.not_mem_nil
    · rw [hcmd] at hdone
      exact absurd hdone List.not_mem_nil
    · rw [hcmd, Option.toList_some, List.flatMap_singleton, computed, List.mem_singleton, Prod.mk.injEq, map_fst] at hdone
      obtain ⟨rfl, rfl⟩ := hdone
      refine ⟨id, hS, h.part id _ hS, fun hnil ↦ hne (by rw [hnil, List.map_nil]), fun prev hprev ↦ ?_⟩
      exact hplain _ (List.mem_map_of_mem hprev)
  | persist => trivial

theorem Part.evaluates {S : ℕ → Option Shape} {env : ℕ → GF256} {id t : ℕ} {cs : List ℕ} {M : CoefMap} {co vs : List GF256}
    (hS : S id = some (cs, M)) (hpart : Part S id (cs, M)) (hne : cs ≠ []) (hplain : ∀ c ∈ cs, Plain S c)
    (hrow : M.lookup t = some co) (hvs : List.Forall₂ (Evaluates S env) cs vs) : Evaluates S env t (dot co vs) := by
  have hown : t = id → Evaluates S env t (dot co vs) := by
    rintro rfl
    refine evaluates_row hS hne ?_ hvs
    rw [rowOf, bindOf_eq_none hplain, Option.getD_none, hrow]
    rfl
  have hmem : t ∈ M := AList.lookup_isSome.mp (by rw [hrow]; rfl)
  cases hpart with
  | leaf => exact absurd rfl hne
  | own => exact hown (List.mem_singleton.mp (AList.mem_keys.mp hmem))
  | bound => exact hown (List.mem_singleton.mp (AList.mem_keys.mp hmem))
  | bind _ hkeys _ _ htarget =>
    rcases htarget t hmem with heq | hT
    · exact hown heq
    · exact evaluates_bound hT hS hkeys hrow hvs

end ECDAG

/-! ## Operations -/

/-- An operation on a stripe: an acyclic graph that is counted, as it is placed, with its commands. -/
structure StripeOp (n w : ℕ) where
  dag : ECDAG
  targets : List ℕ
  order : List ℕ
  cid2ip : ℕ → ℕ
  objIp : ℕ → ℕ
  accounted : Accounted dag targets
  acyclic : Acyclic dag.shape
  perm : order.Perm dag.nodes.keys
  placed : Placed dag n w cid2ip
  w_pos : 0 < w

namespace StripeOp

variable {n w : ℕ} (o : StripeOp n w) (pktSize num : ℕ) (files : ℕ → UnderFile)

def cmds : List AGCommand := o.dag.commands o.order o.cid2ip o.objIp n w

/-- The turns of the commands for `num` packets; the first command is process `first`. -/
def jobs (first : ℕ) : List (Job SliceKey Packet) :=
  (List.range num).flatMap fun i ↦ (o.cmds.zipIdx first).map fun x ↦ x.1.job pktSize w files x.2 i

/-- The slice has the bytes that the graph gives its sub-packet. -/
def Right (key : SliceKey) (slice : Packet) : Prop :=
  ∀ pos < pktSize / w, Evaluates o.dag.shape (fun id ↦ (sliceOf pktSize w (files (id / w)) key.pkt id).getD pos 0)
    key.cid (slice.getD pos 0)

def Fetches (key : SliceKey) : Prop := key.pkt < num ∧ (key.cid, key.ip) ∈ o.cmds.flatMap fetches

/-- The operation of a graph that proper calls make. -/
def ofCalls {calls : List DagCall} {dag : ECDAG} (hproper : Proper calls dag) (hrun : ECDAG.ofCalls calls = some dag)
    (hacyclic : Acyclic dag.shape) {cid2ip : ℕ → ℕ} (hplaced : Placed dag n w cid2ip) (hw : 0 < w) (objIp : ℕ → ℕ) :
    StripeOp n w where
  dag := dag
  targets := joinTargets calls
  order := dag.nodes.keys
  cid2ip := cid2ip
  objIp := objIp
  accounted := hproper.accounted hrun
  acyclic := hacyclic
  perm := .refl _
  placed := hplaced
  w_pos := hw

variable {o pktSize num files} {first : ℕ} {key : SliceKey} {job : Job SliceKey Packet} {cmd : AGCommand} {i c p q : ℕ}

theorem mem_jobs : job ∈ o.jobs pktSize num files first ↔
    ∃ i < num, ∃ x ∈ o.cmds.zipIdx first, x.1.job pktSize w files x.2 i = job := by
  rw [jobs, List.mem_flatMap]
  simp only [List.mem_range, List.mem_map]

theorem served (o : StripeOp n w) : Served o.cmds :=
  (o.accounted.served o.acyclic o.perm o.placed o.w_pos o.objIp).2.2.2

theorem ofShape (hcmd : cmd ∈ o.cmds) : cmd.OfShape o.dag.shape w :=
  o.accounted.ofShape o.acyclic o.perm o.placed hcmd

theorem fetches_header (o : StripeOp n w) {p : ℕ} (hp : p ∈ o.dag.headers) (hpkt : i < num) :
    o.Fetches num (keyAt i (p, o.cid2ip (home o.dag.shape p))) := by
  refine ⟨hpkt, ?_⟩
  rw [cmds, commands, List.flatMap_append,
    o.accounted.fetches_persistCmds o.acyclic o.perm o.placed o.w_pos]
  exact List.mem_append_right _ (List.mem_map_of_mem ((List.perm_insertionSort _ _).mem_iff.mpr hp))

theorem gives_perm (hwp : w ≤ pktSize) (hfiles : ∀ obj, (files obj).Whole pktSize num) (hcmd : cmd ∈ o.cmds) (hi : i < num)
    (c : ℕ) : ((cmd.job pktSize w files c i).gives.map fun g ↦ (g.key, g.times)).Perm
      (cmd.entries.map fun e ↦ (keyAt i (e.1, e.2.1), e.2.2.toNat)) := by
  cases cmd with
  | readDisk ip obj cids refs =>
    obtain ⟨hnodup, hcids⟩ := ofShape hcmd
    rw [gives_readDisk o.w_pos hwp (hfiles obj) hi hnodup fun cid hcid ↦ (hcids cid hcid).2, List.map_map, entries,
      List.map_map]
    exact (List.perm_insertionSort _ cids).map _
  | fetchCompute ip prevs coefs refs =>
    refine List.Perm.of_eq ?_
    show (coefs.entries.map _).map _ = ((coefs.entries.map Sigma.fst).map _).map _
    rw [List.map_map, List.map_map, List.map_map]
    rfl
  | persist => exact .refl _

theorem sum_single {β : Type*} [DecidableEq β] {l : List β} (hnodup : l.Nodup) {e : β} (he : e ∈ l) {f : β → ℕ}
    (h : ∀ x ∈ l, x ≠ e → f x = 0) : (l.map f).sum = f e := by
  rw [List.sum_map_eq_nsmul_single e f fun x hne hx ↦ h x hx hne, List.count_eq_one_of_mem hnodup he, one_smul]

theorem sum_range_single {f : ℕ → ℕ} {p : ℕ} (h : ∀ i ≠ p, f i = 0) (num : ℕ) :
    ((List.range num).map f).sum = if p < num then f p else 0 := by
  split_ifs with hp
  · exact sum_single List.nodup_range (List.mem_range.mpr hp) fun i _ ↦ h i
  · refine List.sum_eq_zero fun m hm ↦ ?_
    obtain ⟨i, hi, rfl⟩ := List.mem_map.mp hm
    exact h i fun hip ↦ hp (hip ▸ List.mem_range.mp hi)

theorem count_needs (first : ℕ) (key : SliceKey) : ((o.jobs pktSize num files first).flatMap Job.needs).count key =
    if key.pkt < num then (o.cmds.flatMap fetches).count (key.cid, key.ip) else 0 := by
  have hneeds : (o.jobs pktSize num files first).flatMap Job.needs =
      (List.range num).flatMap fun i ↦ (o.cmds.flatMap fetches).map (keyAt i) := by
    rw [jobs, List.flatMap_assoc]
    refine List.flatMap_congr fun i _ ↦ ?_
    rw [List.flatMap_map, List.map_flatMap]
    simp only [needs_job]
    conv_rhs => rw [← List.zipIdx_map_fst first o.cmds, List.flatMap_map]
  have hother : ∀ i ≠ key.pkt, ((o.cmds.flatMap fetches).map (keyAt i)).count key = 0 := by
    refine fun i hi ↦ List.count_eq_zero.mpr fun hmem ↦ hi ?_
    obtain ⟨x, -, rfl⟩ := List.mem_map.mp hmem
    rfl
  have hinj : Function.Injective (keyAt key.pkt) := fun x y hxy ↦ by
    obtain ⟨h2, h1, -⟩ := SliceKey.mk.injEq .. ▸ hxy
    exact Prod.ext h1 h2
  rw [hneeds, List.count_flatMap]
  refine (sum_range_single (f := List.count key ∘ fun i ↦ (o.cmds.flatMap fetches).map (keyAt i)) hother num).trans ?_
  congr 1
  exact List.count_map_of_injective _ _ hinj (key.cid, key.ip)

theorem supply_gives (hwp : w ≤ pktSize) (hfiles : ∀ obj, (files obj).Whole pktSize num) (first : ℕ) (key : SliceKey) :
    supply ((o.jobs pktSize num files first).flatMap Job.gives) key = if key.pkt < num then
      ((o.cmds.flatMap entries).map fun e ↦ if (e.1, e.2.1) = (key.cid, key.ip) then e.2.2.toNat else 0).sum else 0 := by
  let weight (y : SliceKey × ℕ) : ℕ := if y.1 = key then y.2 else 0
  have hsupply : supply ((o.jobs pktSize num files first).flatMap Job.gives) key = ((List.range num).map fun i ↦
      (((o.cmds.flatMap entries).map fun e ↦ (keyAt i (e.1, e.2.1), e.2.2.toNat)).map weight).sum).sum := by
    have hturn : ∀ i < num, (((o.cmds.zipIdx first).flatMap fun x ↦ (x.1.job pktSize w files x.2 i).gives).map fun g ↦
        (g.key, g.times)).Perm ((o.cmds.flatMap entries).map fun e ↦ (keyAt i (e.1, e.2.1), e.2.2.toNat)) := by
      intro i hi
      conv_rhs => rw [← List.zipIdx_map_fst first o.cmds, List.flatMap_map, List.map_flatMap]
      rw [List.map_flatMap]
      exact List.Perm.flatMap_left _ fun x hx ↦ gives_perm hwp hfiles (List.fst_mem_of_mem_zipIdx hx) hi x.2
    rw [jobs, supply, List.flatMap_assoc, List.map_flatMap, List.flatMap_def, List.sum_flatten, List.map_map]
    refine congrArg List.sum (List.map_congr_left fun i hi ↦ ?_)
    rw [Function.comp_apply, List.flatMap_map, ← ((hturn i (List.mem_range.mp hi)).map weight).sum_eq, List.map_map]
    rfl
  have hother : ∀ i ≠ key.pkt,
      (((o.cmds.flatMap entries).map fun e ↦ (keyAt i (e.1, e.2.1), e.2.2.toNat)).map weight).sum = 0 := by
    refine fun i hi ↦ List.sum_eq_zero fun n hn ↦ ?_
    obtain ⟨y, hy, rfl⟩ := List.mem_map.mp hn
    obtain ⟨e, -, rfl⟩ := List.mem_map.mp hy
    exact if_neg fun hkey ↦ hi (congrArg SliceKey.pkt hkey)
  rw [hsupply, sum_range_single hother]
  congr 1
  rw [List.map_map]
  refine congrArg List.sum (List.map_congr_left fun e _ ↦ if_congr ?_ rfl rfl)
  obtain ⟨ip, cid, pkt⟩ := key
  simp [keyAt, and_comm]

/-- What is cached under an address is fetched from there, as often as it is counted. -/
theorem count_of_entry (o : StripeOp n w) {e : ℕ × ℕ × ℤ} (he : e ∈ o.cmds.flatMap entries) :
    e.2.2.toNat = (o.cmds.flatMap fetches).count (e.1, e.2.1) := by
  have hinj := List.inj_on_of_nodup_map o.served.once
  have hfrom : ∀ x ∈ o.cmds.flatMap fetches, x.1 = e.1 → x.2 = e.2.1 := by
    intro x hx hxe
    obtain ⟨r, hr⟩ := o.served.fetched x hx
    exact congrArg (fun e : ℕ × ℕ × ℤ ↦ e.2.1) (hinj hr he hxe)
  rw [o.served.counted e he, Int.toNat_natCast]
  generalize o.cmds.flatMap fetches = l at hfrom
  induction l with
  | nil => rfl
  | cons x l ih =>
    rw [List.map_cons, List.count_cons, List.count_cons, ih fun y hy ↦ hfrom y (List.mem_cons_of_mem x hy)]
    congr 1
    refine if_congr ?_ rfl rfl
    rw [beq_iff_eq, beq_iff_eq, Prod.ext_iff]
    exact ⟨fun h ↦ ⟨h, hfrom x List.mem_cons_self h⟩, fun h ↦ h.1⟩

/-- **Slices are cached as often as they are fetched.** -/
theorem balanced (hwp : w ≤ pktSize) (hfiles : ∀ obj, (files obj).Whole pktSize num) (first : ℕ) :
    Balanced (o.jobs pktSize num files first) := by
  intro key
  rw [supply_gives hwp hfiles, count_needs]
  congr 1
  by_cases hentry : ∃ e ∈ o.cmds.flatMap entries, (e.1, e.2.1) = (key.cid, key.ip)
  · obtain ⟨e, he, heq⟩ := hentry
    have hinj := List.inj_on_of_nodup_map o.served.once
    rw [sum_single o.served.once.of_map he, if_pos heq, count_of_entry o he, heq]
    intro e' he' hne
    refine if_neg fun heq' ↦ hne (hinj he' he ?_)
    exact congrArg (fun x : ℕ × ℕ ↦ x.1) (heq'.trans heq.symm)
  · push Not at hentry
    rw [List.sum_eq_zero, List.count_eq_zero.mpr]
    · intro hmem
      obtain ⟨r, hr⟩ := o.served.fetched _ hmem
      exact hentry _ hr rfl
    · intro m hm
      obtain ⟨e, he, rfl⟩ := List.mem_map.mp hm
      exact if_neg (hentry e he)

/-- **The commands compute right slices from right slices.** -/
theorem sound (hwp : w ≤ pktSize) (hfiles : ∀ obj, (files obj).Whole pktSize num) (first : ℕ)
    (D : Steps SliceKey Packet) : Sound (o.jobs pktSize num files first) D (o.Right pktSize files) := by
  intro job hjob vs hvs g q hg _ _
  obtain ⟨i, hi, ⟨cmd, c⟩, hx, rfl⟩ := mem_jobs.mp hjob
  have hcmd := ofShape (List.fst_mem_of_mem_zipIdx hx)
  have hg := List.mem_of_getElem? hg
  cases cmd with
  | readDisk ip obj cids refs =>
    obtain ⟨hnodup, hcids⟩ := hcmd
    rw [gives_readDisk o.w_pos hwp (hfiles obj) hi hnodup fun cid hcid ↦ (hcids cid hcid).2] at hg
    obtain ⟨cid, hcid, rfl⟩ := List.mem_map.mp hg
    obtain ⟨⟨M, hM⟩, hobj⟩ := hcids cid ((List.perm_insertionSort _ _).mem_iff.mp hcid)
    intro pos hpos
    have hval : Evaluates o.dag.shape (fun id ↦ (sliceOf pktSize w (files (id / w)) i id).getD pos 0) cid
      ((sliceOf pktSize w (files (cid / w)) i cid).getD pos 0) := evaluates_leaf hM
    rwa [hobj] at hval
  | fetchCompute ip prevs coefs refs =>
    obtain ⟨id, hS, hpart, hne, hplain⟩ := hcmd
    obtain ⟨row, hrow, rfl⟩ := List.mem_map.mp hg
    intro pos hpos
    have hlookup : coefs.lookup row.1 = some row.2 := AList.mem_lookup_iff.mpr hrow
    have hsize : pos < computeSize pktSize w prevs := hpos.trans_le (Nat.le_add_right _ _)
    have hbyte : (rowSlice pktSize w prevs row.2 vs).getD pos 0 = dot row.2 (vs.map fun buf ↦ buf.getD pos 0) := by
      rw [rowSlice, List.getD_eq_getElem?_getD, List.getElem?_map, List.getElem?_range hsize]
      rfl
    dsimp only
    rw [hbyte]
    refine Part.evaluates hS hpart (fun hnil ↦ hne (List.map_eq_nil_iff.mp hnil)) (fun c hc ↦ ?_) hlookup ?_
    · obtain ⟨prev, hprev, rfl⟩ := List.mem_map.mp hc
      exact hplain prev hprev
    · rw [needs_job, List.forall₂_map_left_iff] at hvs
      rw [List.forall₂_map_left_iff, List.forall₂_map_right_iff]
      exact hvs.imp fun prev v hv ↦ hv pos hpos
  | persist => exact absurd hg List.not_mem_nil

/-! ### The order of the steps -/

theorem exists_rank (o : StripeOp n w) : ∃ rank : ℕ → ℕ, (∀ id, IsLeaf o.dag.shape id → rank id = 0) ∧
    ∀ id sh, o.dag.shape id = some sh → ∀ c ∈ sh.1, rank c < rank id := by
  obtain ⟨rank, hrank⟩ := o.acyclic
  refine ⟨fun id ↦ if o.dag.childs id = [] then 0 else rank id + 1, fun id ⟨M, hM⟩ ↦ if_pos (childs_of_shape hM),
    fun id sh hsh c hc ↦ ?_⟩
  have hchilds : o.dag.childs id ≠ [] := by
    rw [childs_of_shape hsh]
    exact List.ne_nil_of_mem hc
  have hlt := hrank id sh hsh c hc
  dsimp only
  rw [if_neg hchilds]
  split_ifs <;> omega

variable {rank : ℕ → ℕ}

theorem key_of_need {k : SliceKey} (hk : (cmd.job pktSize w files c i).needs[p]? = some k) :
    ∃ x, cmd.fetches[p]? = some x ∧ k = keyAt i x := by
  rw [needs_job, List.getElem?_map] at hk
  obtain ⟨x, hx, rfl⟩ := Option.map_eq_some_iff.mp hk
  exact ⟨x, hx, rfl⟩

theorem key_of_give (hwp : w ≤ pktSize) (hfiles : ∀ obj, (files obj).Whole pktSize num) (hcmd : cmd ∈ o.cmds) (hi : i < num)
    {g : Give SliceKey Packet} (hg : (cmd.job pktSize w files c i).gives[q]? = some g) :
    ∃ x, cmd.places[q]? = some x ∧ g.key = keyAt i x := by
  cases cmd with
  | readDisk ip obj cids refs =>
    obtain ⟨hnodup, hcids⟩ := ofShape hcmd
    rw [gives_readDisk o.w_pos hwp (hfiles obj) hi hnodup fun cid hcid ↦ (hcids cid hcid).2, List.getElem?_map] at hg
    obtain ⟨cid, hcid, rfl⟩ := Option.map_eq_some_iff.mp hg
    exact ⟨(cid, ip), by rw [places, List.getElem?_map, hcid]; rfl, rfl⟩
  | fetchCompute ip prevs coefs refs =>
    obtain ⟨row, hrow, rfl⟩ := Option.map_eq_some_iff.mp ((List.getElem?_map ..).symm.trans hg)
    refine ⟨(row.1, ip), ?_, rfl⟩
    rw [places, AList.keys, List.keys, List.getElem?_map, List.getElem?_map, hrow]
    rfl
  | persist => exact absurd hg.symm (Option.some_ne_none g)

/-- What a load caches is lowest, and any other command fetches what is lower than what it caches. -/
theorem rank_of_places (hleaf : ∀ id, IsLeaf o.dag.shape id → rank id = 0)
    (hrank : ∀ id sh, o.dag.shape id = some sh → ∀ c ∈ sh.1, rank c < rank id) (hcmd : cmd ∈ o.cmds) {y : ℕ × ℕ}
    (hy : y ∈ cmd.places) : (cmd.isLoad → rank y.1 = 0) ∧ ∀ x ∈ cmd.fetches, rank x.1 < rank y.1 := by
  cases cmd with
  | readDisk ip obj cids refs =>
    obtain ⟨cid, hcid, rfl⟩ := List.mem_map.mp hy
    exact ⟨fun _ ↦ hleaf cid ((ofShape hcmd).2 cid ((List.perm_insertionSort _ _).mem_iff.mp hcid)).1,
      fun x hx ↦ absurd hx List.not_mem_nil⟩
  | fetchCompute ip prevs coefs refs =>
    refine ⟨fun hload ↦ absurd hload Bool.false_ne_true, fun x hx ↦ ?_⟩
    obtain ⟨t, ht, rfl⟩ := List.mem_map.mp hy
    obtain ⟨id, hS, hpart, -, -⟩ := ofShape hcmd
    have hx := hrank id _ hS x.1 (List.mem_map_of_mem hx)
    generalize prevs.map Prod.fst = cs at hpart
    have hid : rank id ≤ rank t := by
      cases hpart with
      | leaf => exact absurd ht List.not_mem_nil
      | own => rw [List.mem_singleton.mp ht]
      | bound => rw [List.mem_singleton.mp ht]
      | bind _ _ _ _ htarget =>
        rcases htarget t (AList.mem_keys.mpr ht) with rfl | hT
        · exact le_rfl
        · exact (hrank t _ hT id (List.mem_singleton_self id)).le
    exact hx.trans_le hid
  | persist => exact absurd hy List.not_mem_nil

/-- The ranks of the steps: first by sub-packet, then by packet, then by place. -/
def fetchRank (rank : ℕ → ℕ) (_ : Job SliceKey Packet) (k : SliceKey) : ℕ ×ₗ ℕ ×ₗ ℕ :=
  toLex (2 * rank k.cid + 1, toLex (k.pkt, 0))

def pushRank (rank : ℕ → ℕ) (_ : Job SliceKey Packet) (g : Give SliceKey Packet) (q : ℕ) : ℕ ×ₗ ℕ ×ₗ ℕ :=
  toLex (2 * rank g.key.cid, toLex (g.key.pkt, q))

theorem pushRank_lt_fetchRank (job' job : Job SliceKey Packet) (g : Give SliceKey Packet) (q : ℕ) :
    pushRank rank job' g q < fetchRank rank job g.key := Prod.Lex.toLex_lt_toLex.mpr (.inl (Nat.lt_succ_self _))

theorem exists_of_process {job' : Job SliceKey Packet} (hjob' : job' ∈ o.jobs pktSize num files first)
    (hjob : job ∈ o.jobs pktSize num files first) (hprocess : job'.process = job.process) :
    ∃ cmd ∈ o.cmds, ∃ i' < num, ∃ i < num, ∃ c, job' = cmd.job pktSize w files c i' ∧ job = cmd.job pktSize w files c i := by
  obtain ⟨i', hi', ⟨cmd', c'⟩, hx', rfl⟩ := mem_jobs.mp hjob'
  obtain ⟨i, hi, ⟨cmd, c⟩, hx, rfl⟩ := mem_jobs.mp hjob
  rw [process_job, process_job] at hprocess
  dsimp only at hprocess
  subst hprocess
  have hcmd' := (List.mk_mem_zipIdx_iff_le_and_getElem?_sub.mp hx').2
  have hcmd := (List.mk_mem_zipIdx_iff_le_and_getElem?_sub.mp hx).2
  obtain rfl := Option.some.inj (hcmd'.symm.trans hcmd)
  exact ⟨cmd', List.fst_mem_of_mem_zipIdx hx, i', hi', i, hi, c', rfl, rfl⟩

/-- A thread fetches the slices of a sub-packet in the order of the packets. -/
theorem fetchRank_lt (rank : ℕ → ℕ) {job' : Job SliceKey Packet} (hjob' : job' ∈ o.jobs pktSize num files first)
    (hjob : job ∈ o.jobs pktSize num files first) (hprocess : job'.process = job.process) (hturn : job'.turn < job.turn)
    {k' k : SliceKey} (hk' : job'.needs[p]? = some k') (hk : job.needs[p]? = some k) :
    k'.cid = k.cid ∧ k'.pkt < k.pkt ∧ fetchRank rank job' k' < fetchRank rank job k := by
  obtain ⟨cmd, -, i', -, i, -, c, rfl, rfl⟩ := exists_of_process hjob' hjob hprocess
  rw [turn_job, turn_job] at hturn
  obtain ⟨x', hx', rfl⟩ := key_of_need hk'
  obtain ⟨x, hx, rfl⟩ := key_of_need hk
  obtain rfl := Option.some.inj (hx'.symm.trans hx)
  refine ⟨rfl, hturn, Prod.Lex.toLex_lt_toLex.mpr (.inr ⟨rfl, ?_⟩)⟩
  exact Prod.Lex.toLex_lt_toLex.mpr (.inl hturn)

section Places

variable (hwp : w ≤ pktSize) (hfiles : ∀ obj, (files obj).Whole pktSize num)
  (hleaf : ∀ id, IsLeaf o.dag.shape id → rank id = 0)
  (hrank : ∀ id sh, o.dag.shape id = some sh → ∀ c ∈ sh.1, rank c < rank id)
include hwp hfiles hleaf hrank

theorem pushRank_lt {job' : Job SliceKey Packet} (hjob' : job' ∈ o.jobs pktSize num files first)
    (hjob : job ∈ o.jobs pktSize num files first) (hprocess : job'.process = job.process) (hturn : job'.turn < job.turn)
    {q' : ℕ} {g' g : Give SliceKey Packet} (hg' : job'.gives[q']? = some g') (hg : job.gives[q]? = some g)
    (hplace : job.serial = true ∨ q' = q) : rank g'.key.cid = rank g.key.cid ∧ g'.key.pkt < g.key.pkt ∧
      pushRank rank job' g' q' < pushRank rank job g q := by
  obtain ⟨cmd, hcmd, i', hi', i, hi, c, rfl, rfl⟩ := exists_of_process hjob' hjob hprocess
  rw [turn_job, turn_job] at hturn
  obtain ⟨x', hx', hkey'⟩ := key_of_give hwp hfiles hcmd hi' hg'
  obtain ⟨x, hx, hkey⟩ := key_of_give hwp hfiles hcmd hi hg
  have hcid : rank g'.key.cid = rank g.key.cid := by
    rw [hkey', hkey]
    rcases hplace with hserial | rfl
    · have hload := isLoad_of_serial hserial
      show rank x'.1 = rank x.1
      rw [(rank_of_places hleaf hrank hcmd (List.mem_of_getElem? hx')).1 hload,
        (rank_of_places hleaf hrank hcmd (List.mem_of_getElem? hx)).1 hload]
    · rw [Option.some.inj (hx'.symm.trans hx)]
      rfl
  have hpkt : g'.key.pkt < g.key.pkt := by
    rw [hkey', hkey]
    exact hturn
  refine ⟨hcid, hpkt, Prod.Lex.toLex_lt_toLex.mpr (.inr ⟨by rw [hcid], ?_⟩)⟩
  exact Prod.Lex.toLex_lt_toLex.mpr (.inl hpkt)

/-- A load caches the slices of a packet in the order of their places. -/
theorem pushRank_lt_of_serial (hjob : job ∈ o.jobs pktSize num files first) (hserial : job.serial = true) {q' : ℕ}
    (hplace : q' < q) {g' g : Give SliceKey Packet} (hg' : job.gives[q']? = some g') (hg : job.gives[q]? = some g) :
    rank g'.key.cid = rank g.key.cid ∧ g'.key.pkt = g.key.pkt ∧ pushRank rank job g' q' < pushRank rank job g q := by
  obtain ⟨i, hi, ⟨cmd, c⟩, hx, rfl⟩ := mem_jobs.mp hjob
  have hcmd := List.fst_mem_of_mem_zipIdx hx
  obtain ⟨x', hx', hkey'⟩ := key_of_give hwp hfiles hcmd hi hg'
  obtain ⟨x, hx, hkey⟩ := key_of_give hwp hfiles hcmd hi hg
  have hload := isLoad_of_serial hserial
  have hcid : rank g'.key.cid = rank g.key.cid := by
    rw [hkey', hkey]
    show rank x'.1 = rank x.1
    rw [(rank_of_places hleaf hrank hcmd (List.mem_of_getElem? hx')).1 hload,
      (rank_of_places hleaf hrank hcmd (List.mem_of_getElem? hx)).1 hload]
  have hpkt : g'.key.pkt = g.key.pkt := by rw [hkey', hkey]; rfl
  refine ⟨hcid, hpkt, Prod.Lex.toLex_lt_toLex.mpr (.inr ⟨by rw [hcid], ?_⟩)⟩
  exact Prod.Lex.toLex_lt_toLex.mpr (.inr ⟨hpkt, hplace⟩)

theorem fetchRank_lt_pushRank (hjob : job ∈ o.jobs pktSize num files first) {k : SliceKey}
    {g : Give SliceKey Packet} (hk : job.needs[p]? = some k) (hg : job.gives[q]? = some g) :
    rank k.cid < rank g.key.cid ∧ k.pkt = g.key.pkt ∧ fetchRank rank job k < pushRank rank job g q := by
  obtain ⟨i, hi, ⟨cmd, c⟩, hx, rfl⟩ := mem_jobs.mp hjob
  have hcmd := List.fst_mem_of_mem_zipIdx hx
  obtain ⟨x, hx, rfl⟩ := key_of_need hk
  obtain ⟨y, hy, hkey⟩ := key_of_give hwp hfiles hcmd hi hg
  have hlt := (rank_of_places hleaf hrank hcmd (List.mem_of_getElem? hy)).2 x (List.mem_of_getElem? hx)
  have hcid : rank (keyAt i x).cid < rank g.key.cid := by
    rw [hkey]
    exact hlt
  refine ⟨hcid, by rw [hkey]; rfl, Prod.Lex.toLex_lt_toLex.mpr (.inl ?_)⟩
  show 2 * rank (keyAt i x).cid + 1 < 2 * rank g.key.cid
  omega

end Places

/-! ### An operation by itself -/

theorem fetches_of_need (hjob : job ∈ o.jobs pktSize num files first) {k : SliceKey} (hk : k ∈ job.needs) :
    o.Fetches num k := by
  obtain ⟨i, hi, ⟨cmd, c⟩, hx, rfl⟩ := mem_jobs.mp hjob
  rw [needs_job] at hk
  obtain ⟨x, hx', rfl⟩ := List.mem_map.mp hk
  exact ⟨hi, List.mem_flatMap.mpr ⟨cmd, List.fst_mem_of_mem_zipIdx hx, hx'⟩⟩

section Single

variable (hwp : w ≤ pktSize) (hfiles : ∀ obj, (files obj).Whole pktSize num)
include hwp hfiles

theorem fetches_of_give (hjob : job ∈ o.jobs pktSize num files first) {g : Give SliceKey Packet} (hg : g ∈ job.gives)
    (htimes : 0 < g.times) : o.Fetches num g.key := by
  obtain ⟨i, hi, ⟨cmd, c⟩, hx, rfl⟩ := mem_jobs.mp hjob
  have hcmd := List.fst_mem_of_mem_zipIdx hx
  obtain ⟨e, he, heq⟩ := List.mem_map.mp
    ((gives_perm hwp hfiles hcmd hi c).mem_iff.mp (List.mem_map_of_mem (f := fun g ↦ (g.key, g.times)) hg))
  obtain ⟨hkey, hcount⟩ := Prod.mk.inj heq
  rw [count_of_entry o (List.mem_flatMap.mpr ⟨cmd, hcmd, he⟩)] at hcount
  rw [← hcount] at htimes
  rw [← hkey]
  exact ⟨hi, List.count_pos_iff.mp htimes⟩

theorem ranked (o : StripeOp n w) : ∃ rank : ℕ → ℕ,
    Ranked (o.jobs pktSize num files first) .all (fetchRank rank) (pushRank rank) := by
  obtain ⟨rank, hleaf, hrank⟩ := o.exists_rank
  refine ⟨rank, ⟨fun job' hjob' job hjob p k' k hk' hk _ hprocess hturn ↦ ⟨trivial, ?_⟩,
    fun job' hjob' job hjob q' q g' g hg' hg _ hprocess hturn hplace ↦ ⟨trivial, ?_⟩,
    fun job hjob q' q g' g hg' hg _ hserial hplace ↦ ⟨trivial, ?_⟩, fun job hjob p k q g hk hg _ ↦ ⟨trivial, ?_⟩,
    fun job' _ job _ p q g _ _ _ _ ↦ pushRank_lt_fetchRank job' job g q, fun k ↦ ?_⟩⟩
  · exact (fetchRank_lt rank hjob' hjob hprocess hturn hk' hk).2.2
  · exact (pushRank_lt hwp hfiles hleaf hrank hjob' hjob hprocess hturn hg' hg hplace).2.2
  · exact (pushRank_lt_of_serial hwp hfiles hleaf hrank hjob hserial hplace hg' hg).2.2
  · exact (fetchRank_lt_pushRank hwp hfiles hleaf hrank hjob hk hg).2.2
  · rw [Steps.needs_eq_count fun _ _ _ _ ↦ trivial, Steps.gives_eq_supply fun _ _ _ _ _ _ ↦ trivial,
      balanced hwp hfiles]

/-- **An operation by itself.** Whatever the order of the steps is, every slice that is fetched has the bytes that the
graph gives its sub-packet, and when all is fetched and pushed, no list has a slice left. -/
theorem exchange_right (o : StripeOp n w) {s : Exchange.State SliceKey Packet}
    (hs : (system (o.jobs pktSize num files 0)).Reachable s) :
    (∀ x ∈ needSlots (o.jobs pktSize num files 0), ∀ slice, s.got x.2 = some slice → o.Right pktSize files x.1 slice) ∧
      (Finished (o.jobs pktSize num files 0) s → ∀ key, s.list key = []) :=
  ⟨(clean_of_reach (sound hwp hfiles 0 .all) (Within.all _) hs).got, fun hdone ↦
    list_eq_nil (balanced hwp hfiles 0) hs hdone⟩

end Single

/-! ### Two operations -/

theorem process_of_mem (hjob : job ∈ o.jobs pktSize num files first) :
    first ≤ job.process ∧ job.process < first + o.cmds.length := by
  obtain ⟨i, hi, ⟨cmd, c⟩, hx, rfl⟩ := mem_jobs.mp hjob
  rw [process_job]
  obtain ⟨hle, hget⟩ := List.mk_mem_zipIdx_iff_le_and_getElem?_sub.mp hx
  have hlt := (List.getElem?_eq_some_iff.mp hget).1
  dsimp only
  omega

theorem nodup_turns (first : ℕ) :
    ((o.jobs pktSize num files first).map fun job ↦ (job.process, job.turn)).Nodup := by
  rw [jobs, List.map_flatMap]
  simp only [List.map_map]
  have hturns : ∀ i, (o.cmds.zipIdx first).map ((fun job : Job SliceKey Packet ↦ (job.process, job.turn)) ∘
      fun x ↦ x.1.job pktSize w files x.2 i) = ((o.cmds.zipIdx first).map Prod.snd).map fun c ↦ (c, i) := fun i ↦ by
    rw [List.map_map]
    exact List.map_congr_left fun x _ ↦ by simp
  simp only [hturns]
  rw [List.zipIdx_map_snd, List.nodup_flatMap]
  refine ⟨fun i _ ↦ List.Nodup.map (fun c c' h ↦ congrArg Prod.fst h) List.nodup_range',
    List.nodup_range.imp fun {i i'} hne x hx hx' ↦ hne ?_⟩
  obtain ⟨c, -, rfl⟩ := List.mem_map.mp hx
  obtain ⟨c', -, heq⟩ := List.mem_map.mp hx'
  exact (congrArg Prod.snd heq).symm

def jobs₂ (A B : StripeOp n w) (pktSize num : ℕ) (files : ℕ → UnderFile) : List (Job SliceKey Packet) :=
  A.jobs pktSize num files 0 ++ B.jobs pktSize num files A.cmds.length

/-- Both operations fetch what their graphs say, whatever the order of the steps is. -/
def BothRight (A B : StripeOp n w) (pktSize num : ℕ) (files : ℕ → UnderFile) : Prop :=
  ∀ s, (system (jobs₂ A B pktSize num files)).Reach (Turn (jobs₂ A B pktSize num files)) s →
    ∀ job j p k slice, (jobs₂ A B pktSize num files)[j]? = some job → job.needs[p]? = some k →
      s.got (j, p) = some slice → (job.process < A.cmds.length → A.Right pktSize files k slice) ∧
        (A.cmds.length ≤ job.process → B.Right pktSize files k slice)

/-- The graphs give the same bytes to what both operations fetch. -/
def Agree (A B : StripeOp n w) (pktSize num : ℕ) (files : ℕ → UnderFile) : Prop :=
  ∀ key, A.Fetches num key → B.Fetches num key → ∀ pos < pktSize / w, ∀ b,
    Evaluates A.dag.shape (fun id ↦ (sliceOf pktSize w (files (id / w)) key.pkt id).getD pos 0) key.cid b ↔
      Evaluates B.dag.shape (fun id ↦ (sliceOf pktSize w (files (id / w)) key.pkt id).getD pos 0) key.cid b

/-- Everything that the second operation caches of the packets up to that of a key, as far as the key is not needed, and
what a thread of the first one fetches of them under the number of the key. -/
def stolenSteps (rank : ℕ → ℕ) (first a p₀ : ℕ) (key : SliceKey) : Steps SliceKey Packet where
  fetch job k p := first ≤ job.process ∧ k.pkt ≤ key.pkt ∧ rank k.cid < rank key.cid ∨
    job.process = a ∧ k.pkt ≤ key.pkt ∧ p = p₀
  push job g _ := first ≤ job.process ∧ g.key.pkt ≤ key.pkt ∧ rank g.key.cid ≤ rank key.cid

theorem needs_thread_le {A : StripeOp n w} (rank : ℕ → ℕ) (a p₀ : ℕ) (key k : SliceKey) :
    (stolenSteps rank A.cmds.length a p₀ key).needs (A.jobs pktSize num files 0) k ≤ 1 := by
  have hfetch : ∀ job ∈ A.jobs pktSize num files 0, ∀ x ∈ job.needs.zipIdx, x.1 = k →
      (stolenSteps rank A.cmds.length a p₀ key).fetch job x.1 x.2 → (job.process, job.turn) = (a, k.pkt) ∧ x.2 = p₀ := by
    rintro job hjob x hx rfl (⟨hle, -⟩ | ⟨hprocess, -, hp⟩)
    · have := (process_of_mem hjob).2
      omega
    · obtain ⟨i, hi, ⟨cmd, c⟩, -, rfl⟩ := mem_jobs.mp hjob
      obtain ⟨y, -, hy⟩ := key_of_need (List.mem_zipIdx_iff_getElem?.mp hx)
      exact ⟨by rw [hprocess, turn_job, hy]; rfl, hp⟩
  refine sum_le_one (a := (a, k.pkt)) (nodup_turns 0) (fun job hjob ↦ ?_) fun job hjob hpos ↦ ?_
  · refine sum_le_one (f := Prod.snd) (a := p₀) ?_ (fun x _ ↦ ?_) fun x hx hpos ↦ ?_
    · rw [List.zipIdx_map_snd]
      exact List.nodup_range'
    · split_ifs
      · exact le_rfl
      · exact Nat.zero_le 1
    · by_cases hx' : x.1 = k ∧ (stolenSteps rank A.cmds.length a p₀ key).fetch job x.1 x.2
      · exact (hfetch job hjob x hx hx'.1 hx'.2).2
      · rw [if_neg hx'] at hpos
        exact absurd hpos (Nat.lt_irrefl 0)
  · by_contra hne
    refine hpos.ne' (List.sum_eq_zero fun m hm ↦ ?_)
    obtain ⟨x, hx, rfl⟩ := List.mem_map.mp hm
    exact if_neg fun hx' ↦ hne (hfetch job hjob x hx hx'.1 hx'.2).1

theorem mem_jobs₂ {A B : StripeOp n w} (hjob : job ∈ jobs₂ A B pktSize num files) :
    (job.process < A.cmds.length → job ∈ A.jobs pktSize num files 0) ∧
      (A.cmds.length ≤ job.process → job ∈ B.jobs pktSize num files A.cmds.length) := by
  rcases List.mem_append.mp hjob with hjob | hjob
  · exact ⟨fun _ ↦ hjob, fun hle ↦ absurd hle (by have := (process_of_mem hjob).2; omega)⟩
  · exact ⟨fun hlt ↦ absurd hlt (by have := (process_of_mem hjob).1; omega), fun _ ↦ hjob⟩

section Both

variable {A B : StripeOp n w} (hwp : w ≤ pktSize) (hfiles : ∀ obj, (files obj).Whole pktSize num)
include hwp hfiles

theorem bothRight_of_agree (h : Agree A B pktSize num files) : BothRight A B pktSize num files := by
  intro s hs job j p k slice hjob hk hgot
  let Good (key : SliceKey) (slice : Packet) : Prop :=
    (A.Fetches num key → A.Right pktSize files key slice) ∧ (B.Fetches num key → B.Right pktSize files key slice)
  have hsound : Sound (jobs₂ A B pktSize num files) .all Good := by
    intro job hjob vs hvs g q hg hD htimes
    have hmem := List.mem_of_getElem? hg
    rcases List.mem_append.mp hjob with hjob | hjob
    · have hright := sound hwp hfiles 0 .all job hjob vs (List.forall₂_iff_get.mpr ⟨hvs.length_eq, fun i hi hi' ↦
        (hvs.get hi hi').1 (fetches_of_need hjob (List.get_mem ..))⟩) g q hg hD htimes
      have hfetch := fetches_of_give hwp hfiles hjob hmem htimes
      exact ⟨fun _ ↦ hright, fun hfetch' pos hpos ↦ (h _ hfetch hfetch' pos hpos _).mp (hright pos hpos)⟩
    · have hright := sound hwp hfiles _ .all job hjob vs (List.forall₂_iff_get.mpr ⟨hvs.length_eq, fun i hi hi' ↦
        (hvs.get hi hi').2 (fetches_of_need hjob (List.get_mem ..))⟩) g q hg hD htimes
      have hfetch := fetches_of_give hwp hfiles hjob hmem htimes
      exact ⟨fun hfetch' pos hpos ↦ (h _ hfetch' hfetch pos hpos _).mpr (hright pos hpos), fun _ ↦ hright⟩
  have hgood := (clean_of_reach hsound (Within.all _) hs).got (k, (j, p)) (mem_needSlots.mpr ⟨job, hjob, hk⟩) slice hgot
  have hmem := List.mem_of_getElem? hk
  rcases List.mem_append.mp (List.mem_of_getElem? hjob) with hjob | hjob
  · have hprocess := (process_of_mem hjob).2
    exact ⟨fun _ ↦ hgood.1 (fetches_of_need hjob hmem), fun hle ↦ absurd hle (by omega)⟩
  · have hprocess := (process_of_mem hjob).1
    exact ⟨fun hlt ↦ absurd hlt (by omega), fun _ ↦ hgood.2 (fetches_of_need hjob hmem)⟩

theorem ranked_stolen {rank : ℕ → ℕ} (hleaf : ∀ id, IsLeaf B.dag.shape id → rank id = 0)
    (hrank : ∀ id sh, B.dag.shape id = some sh → ∀ c ∈ sh.1, rank c < rank id) {key : SliceKey} (hB : B.Fetches num key)
    {a p₀ : ℕ} {cmd : AGCommand} (hcmd : A.cmds[a]? = some cmd) (hp₀ : cmd.fetches[p₀]? = some (key.cid, key.ip)) :
    Ranked (jobs₂ A B pktSize num files) (stolenSteps rank A.cmds.length a p₀ key) (fetchRank rank) (pushRank rank) := by
  have ha : a < A.cmds.length := (List.getElem?_eq_some_iff.mp hcmd).1
  refine ⟨fun job' hjob' job hjob p k' k hk' hk hD hprocess hturn ↦ ?_,
    fun job' hjob' job hjob q' q g' g hg' hg hD hprocess hturn hplace ↦ ?_,
    fun job hjob q' q g' g hg' hg hD hserial hplace ↦ ?_, fun job hjob p k q g hk hg hD ↦ ?_,
    fun job' _ job _ p q g _ _ _ _ ↦ pushRank_lt_fetchRank job' job g q, fun k ↦ ?_⟩
  · rcases hD with ⟨hle, hpkt, hlt⟩ | ⟨hp, hpkt, rfl⟩
    · obtain ⟨hcid, hpkt', hrank'⟩ := fetchRank_lt rank ((mem_jobs₂ hjob').2 (hprocess ▸ hle))
        ((mem_jobs₂ hjob).2 hle) hprocess hturn hk' hk
      exact ⟨.inl ⟨hprocess ▸ hle, hpkt'.le.trans hpkt, hcid ▸ hlt⟩, hrank'⟩
    · obtain ⟨-, hpkt', hrank'⟩ := fetchRank_lt rank ((mem_jobs₂ hjob').1 (by omega))
        ((mem_jobs₂ hjob).1 (by omega)) hprocess hturn hk' hk
      exact ⟨.inr ⟨hprocess.trans hp, hpkt'.le.trans hpkt, rfl⟩, hrank'⟩
  · obtain ⟨hle, hpkt, hlt⟩ := hD
    obtain ⟨hcid, hpkt', hrank'⟩ := pushRank_lt hwp hfiles hleaf hrank ((mem_jobs₂ hjob').2 (hprocess ▸ hle))
      ((mem_jobs₂ hjob).2 hle) hprocess hturn hg' hg hplace
    exact ⟨⟨hprocess ▸ hle, hpkt'.le.trans hpkt, hcid ▸ hlt⟩, hrank'⟩
  · obtain ⟨hle, hpkt, hlt⟩ := hD
    obtain ⟨hcid, hpkt', hrank'⟩ := pushRank_lt_of_serial hwp hfiles hleaf hrank ((mem_jobs₂ hjob).2 hle) hserial hplace
      hg' hg
    exact ⟨⟨hle, hpkt' ▸ hpkt, hcid ▸ hlt⟩, hrank'⟩
  · obtain ⟨hle, hpkt, hlt⟩ := hD
    obtain ⟨hcid, hpkt', hrank'⟩ := fetchRank_lt_pushRank hwp hfiles hleaf hrank ((mem_jobs₂ hjob).2 hle) hk hg
    exact ⟨.inl ⟨hle, hpkt' ▸ hpkt, hcid.trans_le hlt⟩, hrank'⟩
  -- The second operation pushes what it fetches, and for the thread of the first one there is a slice it does not fetch.
  have hpush : k.pkt ≤ key.pkt → rank k.cid ≤ rank key.cid →
      (stolenSteps rank A.cmds.length a p₀ key).gives (B.jobs pktSize num files A.cmds.length) k =
        ((B.jobs pktSize num files A.cmds.length).flatMap Job.needs).count k := by
    intro hpkt hle
    rw [Steps.gives_eq_supply, balanced hwp hfiles]
    rintro job hjob g q - rfl
    exact ⟨(process_of_mem hjob).1, hpkt, hle⟩
  have hthread : ∀ job ∈ A.jobs pktSize num files 0, ∀ p, job.needs[p]? = some k →
      (stolenSteps rank A.cmds.length a p₀ key).fetch job k p → k.pkt ≤ key.pkt ∧ k.cid = key.cid ∧ k.ip = key.ip := by
    rintro job hjob p hk (⟨hle, -⟩ | ⟨hprocess, hpkt, rfl⟩)
    · have := (process_of_mem hjob).2
      omega
    · obtain ⟨i, hi, ⟨cmd', c⟩, hx, rfl⟩ := mem_jobs.mp hjob
      rw [process_job] at hprocess
      dsimp only at hprocess
      subst hprocess
      have hcmd' := (List.mk_mem_zipIdx_iff_getElem?).mp hx
      obtain rfl := Option.some.inj (hcmd'.symm.trans hcmd)
      obtain ⟨y, hy, rfl⟩ := key_of_need hk
      obtain rfl := Option.some.inj (hy.symm.trans hp₀)
      exact ⟨hpkt, rfl, rfl⟩
  rw [jobs₂, Steps.needs_append, Steps.gives_append]
  by_cases hlow : k.pkt ≤ key.pkt ∧ rank k.cid < rank key.cid
  · rw [Steps.needs_eq_zero fun job hjob p hk hD ↦ ?_, Steps.needs_eq_count fun job hjob p _ ↦ ?_,
      hpush hlow.1 hlow.2.le, Nat.zero_add]
    · exact Nat.le_add_left _ _
    · exact .inl ⟨(process_of_mem hjob).1, hlow⟩
    · exact absurd hlow.2 (by rw [(hthread job hjob p hk hD).2.1]; exact Nat.lt_irrefl _)
  · have hzero : (stolenSteps rank A.cmds.length a p₀ key).needs (B.jobs pktSize num files A.cmds.length) k = 0 := by
      refine Steps.needs_eq_zero ?_
      rintro job hjob p hk (⟨-, hlow'⟩ | ⟨hprocess, -⟩)
      · exact hlow hlow'
      · have := (process_of_mem hjob).1
        omega
    rw [hzero, Nat.add_zero]
    by_cases hkey : k.pkt ≤ key.pkt ∧ k.cid = key.cid ∧ k.ip = key.ip
    · obtain ⟨hpkt, hcid, hip⟩ := hkey
      refine (needs_thread_le rank a p₀ key k).trans (le_trans ?_ (Nat.le_add_left _ _))
      rw [hpush hpkt (hcid ▸ le_rfl), count_needs, if_pos (hpkt.trans_lt hB.1), hcid, hip]
      exact List.count_pos_iff.mpr hB.2
    · rw [Steps.needs_eq_zero fun job hjob p hk hD ↦ hkey (hthread job hjob p hk hD)]
      exact Nat.zero_le _

/-- A thread of the first operation can fetch a slice that the second one has cached. -/
theorem agree_of_bothRight (h : BothRight A B pktSize num files) : Agree A B pktSize num files := by
  intro key ⟨hi, hA⟩ hB pos hpos b
  obtain ⟨cmd, hcmd, hfetch⟩ := List.mem_flatMap.mp hA
  obtain ⟨a, ha⟩ := List.mem_iff_getElem?.mp hcmd
  obtain ⟨p₀, hp₀⟩ := List.mem_iff_getElem?.mp hfetch
  have hmem : cmd.job pktSize w files a key.pkt ∈ A.jobs pktSize num files 0 :=
    mem_jobs.mpr ⟨key.pkt, hi, (cmd, a), List.mk_mem_zipIdx_iff_getElem?.mpr ha, rfl⟩
  obtain ⟨j, hj⟩ := List.mem_iff_getElem?.mp
    (List.mem_append_left (B.jobs pktSize num files A.cmds.length) hmem)
  have hk : (cmd.job pktSize w files a key.pkt).needs[p₀]? = some key := by
    rw [needs_job, List.getElem?_map, hp₀]
    rfl
  obtain ⟨rank, hleaf, hrank⟩ := B.exists_rank
  let D := stolenSteps rank A.cmds.length a p₀ key
  let jobs := jobs₂ A B pktSize num files
  let allow (s : Exchange.State SliceKey Packet) (l : Label) : Prop := D.Has jobs l ∧ Turn jobs s l
  have hwithin : Exchange.Within jobs D allow := fun _ _ _ ha _ ↦ ha.1
  have hranked : Ranked jobs D (fetchRank rank) (pushRank rank) := ranked_stolen hwp hfiles hleaf hrank hB ha hp₀
  have hsound : Sound jobs D (B.Right pktSize files) := fun job hjob vs hvs g q hg hD htimes ↦
    sound hwp hfiles _ D job ((mem_jobs₂ hjob).2 hD.1) vs hvs g q hg hD htimes
  obtain ⟨s, hs, hend⟩ := exists_terminal (.init rfl : (system jobs).Reach allow start)
  have hdone : Done jobs s (.fetch j p₀) := done_of_terminal hranked hwithin hs (fun l hD hturn ↦ hend l ⟨hD, hturn⟩)
    ⟨_, key, hj, hk, .inr ⟨process_job cmd, le_rfl, rfl⟩⟩
  have hslot : (key, (j, p₀)) ∈ needSlots jobs := mem_needSlots.mpr ⟨_, hj, hk⟩
  obtain ⟨slice, hslice⟩ := Option.isSome_iff_exists.mp (hdone key hslot)
  -- What it has fetched is what the second graph says, and so it is what the first one says.
  have hrightB := (clean_of_reach hsound hwithin hs).got _ hslot slice hslice
  have hrightA := (h s (hs.mono fun _ _ ha ↦ ha.2) _ j p₀ key slice hj hk hslice).1
    (by rw [process_job]; exact (List.getElem?_eq_some_iff.mp ha).1)
  constructor
  · intro hb
    rw [hb.unique (hrightA pos hpos)]
    exact hrightB pos hpos
  · intro hb
    rw [hb.unique (hrightB pos hpos)]
    exact hrightA pos hpos

/-- **Two operations on a stripe.** Each fetches what its graph says, whatever the order of the steps is, if and only if
the graphs agree on what both of them fetch. -/
theorem bothRight_iff_agree : BothRight A B pktSize num files ↔ Agree A B pktSize num files :=
  ⟨agree_of_bothRight hwp hfiles, bothRight_of_agree hwp hfiles⟩

end Both

/-! ### Two sums -/

theorem proper_pairSum (co : List GF256) : Proper [.join ⟨2, [0, 1], co⟩] (({} : ECDAG).join 2 [0, 1] co) :=
  ⟨List.nodup_singleton 2, by simp [DagCall.Fits, Drawn, bindStart]⟩

theorem acyclic_pairSum (co : List GF256) : Acyclic (({} : ECDAG).join 2 [0, 1] co).shape := by
  refine acyclic_of_rank fun id _ c hc ↦ (?_ : c < id)
  rw [childs_join_eq] at hc
  split_ifs at hc with hid
  · rw [hid]
    rcases List.mem_pair.mp hc with rfl | rfl
    · decide
    · decide
  · exact absurd hc List.not_mem_nil

/-- Block 2 as a sum of blocks 0 and 1, all at one agent. -/
def pairSum (co : List GF256) : StripeOp 9 1 :=
  ofCalls (proper_pairSum co) rfl (acyclic_pairSum co) (placed_one _ 9 fun _ ↦ 0) Nat.one_pos fun _ ↦ 0

def oneByte (b : GF256) (_ : ℕ) : UnderFile := .ofBytes [b]

theorem whole_oneByte (b : GF256) (obj : ℕ) : (oneByte b obj).Whole 1 1 := ⟨rfl, by decide⟩

/-- The turns of a sum of two blocks of one byte. -/
def pairJobs : List (Job SliceKey Packet) := (pairSum [1, 1]).jobs 1 1 (oneByte 1) 0

theorem exchange_right_pairSum : ∃ s, (system pairJobs).Reachable s ∧ Finished pairJobs s ∧
    (∀ x ∈ needSlots pairJobs, ∀ slice, s.got x.2 = some slice → (pairSum [1, 1]).Right 1 (oneByte 1) x.1 slice) ∧
      ∀ key, s.list key = [] := by
  have hranked : ∃ rank : ℕ → ℕ, Ranked pairJobs .all (fetchRank rank) (pushRank rank) :=
    ranked (Nat.le_refl 1) (whole_oneByte 1) (pairSum [1, 1])
  obtain ⟨rank, hranked⟩ := hranked
  obtain ⟨s, hs, hend⟩ := exists_terminal (.init rfl : (system pairJobs).Reach (Turn pairJobs) start)
  have hdone := finished_of_terminal hranked hs hend
  obtain ⟨hright, hempty⟩ := exchange_right (Nat.le_refl 1) (whole_oneByte 1) (pairSum [1, 1]) hs.reachable
  exact ⟨s, hs.reachable, hdone, hright, hempty hdone⟩

/-- **Two sums with different coefficients.** Each operation by itself fetches what it should, but not both at the same
time: an agent can persist what the other operation has computed. -/
theorem not_bothRight_pairSum : ¬BothRight (pairSum [1, 1]) (pairSum [1, 0]) 1 1 (oneByte 1) := by
  intro h
  have hagree := agree_of_bothRight (Nat.le_refl 1) (whole_oneByte 1) h ⟨0, 2, 0⟩
  have hfetch : ∀ co, (pairSum co).Fetches 1 ⟨0, 2, 0⟩ := fun co ↦
    fetches_header (pairSum co) (List.mem_singleton_self 2) Nat.one_pos
  have hval : ∀ c₀ c₁ : GF256, Evaluates (({} : ECDAG).join 2 [0, 1] [c₀, c₁]).shape
      (fun id ↦ (sliceOf 1 1 (oneByte 1 (id / 1)) 0 id).getD 0 0) 2 (dot [c₀, c₁] [1, 1]) := by
    intro c₀ c₁
    refine evaluates_join_root (fun id sh hsh ↦ absurd hsh.symm (Option.some_ne_none sh)) (by decide) (by decide) ?_
    exact .cons (.inl ⟨rfl, by decide⟩) (.cons (.inl ⟨rfl, by decide⟩) .nil)
  have hsum := (hagree (hfetch _) (hfetch _) 0 Nat.one_pos (dot [1, 1] [1, 1])).mp (hval 1 1)
  exact absurd (hsum.unique (hval 1 0)) (by decide)

theorem bothRight_iff_agree_pairSum : BothRight (pairSum [1, 1]) (pairSum [1, 0]) 1 1 (oneByte 1) ↔
    Agree (pairSum [1, 1]) (pairSum [1, 0]) 1 1 (oneByte 1) := bothRight_iff_agree (Nat.le_refl 1) (whole_oneByte 1)

end StripeOp

end UniDedup.Storage
