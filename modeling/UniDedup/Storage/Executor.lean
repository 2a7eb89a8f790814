import UniDedup.Storage.Tasks

/-!
# The executors in the client

An executor keeps a buffer for every sub-packet it knows of and runs the compute tasks one by one: it looks
up the children, which it asserts to be there, and writes the sum for every target into the buffer of the
target, a new one when there is none.

The encoder of an online write reads from the `k` packets of the data and writes into a second set of
packets; a degraded read and an offline one keep all in one map; the reader of a code that is not
systematic reads from the packets it loads and writes into others. The work on one byte of every buffer is
modelled: it does not depend on the other bytes.
-/

namespace UniDedup.Storage

open ECDAG

/-- A buffer: part of a packet that is read, part of a packet that is written, or a buffer of its own. -/
inductive Buffer
  | cur (ecidx : ℕ)
  | target (ecidx : ℕ)
  | new (id : ℕ)
deriving DecidableEq, Inhabited

abbrev BufMap := AList fun _ : ℕ ↦ Buffer

/-- The maps of an executor, and a byte of every buffer. A degraded read has one map, `bufMap`, for both. -/
structure Buffers where
  srcbufMap : BufMap
  tarbufMap : BufMap
  byte : Buffer → GF256

/-- `insert` of a pair into an `unordered_map`, which keeps the pair that is there. -/
def insertPair (m : BufMap) (id : ℕ) (b : Buffer) : BufMap := if id ∈ m then m else m.insert id b

namespace Buffers

/-- The buffer of a target. A new one is filled with zeros, and when `shared` is set it can be read later. -/
def prepareCode (shared : Bool) (s : Buffers) (target : ℕ) : Buffers :=
  if target ∈ s.tarbufMap then s else
  { srcbufMap := if shared then insertPair s.srcbufMap target (.new target) else s.srcbufMap
    tarbufMap := s.tarbufMap.insert target (.new target)
    byte := Function.update s.byte (.new target) 0 }

/-- Write the sum of the data with the coefficients of a row. -/
def writeRow (s : Buffers) (data : List Buffer) (byte : Buffer → GF256)
    (row : Sigma fun _ : ℕ ↦ List GF256) : Buffer → GF256 :=
  match s.tarbufMap.lookup row.1 with
  | none => byte
  | some code => Function.update byte code (dot row.2 (data.map s.byte))

/-- `Computation::Multi`: every code buffer becomes the sum of the data with the coefficients of its row. -/
def multi (s : Buffers) (data : List Buffer) (rows : List (Sigma fun _ : ℕ ↦ List GF256)) : Buffers :=
  { s with byte := rows.foldl (writeRow s data) s.byte }

/-- One compute task; `none` where the assertion fails that a child has a buffer, or where coefficients
are read past their end. -/
def compute (shared : Bool) (s : Buffers) (t : ComputeTask) : Option Buffers :=
  let col := t.children.length
  let row := t.coefMap.keys.length
  if col * row < 1 then some s else do
  let data ← t.children.mapM fun child ↦ s.srcbufMap.lookup child
  if t.coefMap.entries.any (·.2.length < col) then none else
  some (multi (t.coefMap.keys.foldl (prepareCode shared) s) data t.coefMap.entries)

def written (s : Buffers) (id : ℕ) : Option GF256 := (s.tarbufMap.lookup id).map s.byte

end Buffers

def runTasks (shared : Bool) (tasks : List ComputeTask) (s : Buffers) : Option Buffers :=
  tasks.foldlM (Buffers.compute shared) s

/-- The buffers of the sub-packets with the given numbers, in packets. -/
def packetBufs (packet : ℕ → Buffer) (ids : List ℕ) (m : BufMap) : BufMap :=
  ids.foldl (fun m id ↦ insertPair m id (packet id)) m

/-! ## The four executors -/

/-- `computeWorker` of an online write. The data packets are copied into the first packets to write. -/
def onlineEncode (ecn eck ecw : ℕ) (data : ℕ → GF256) (tasks : List ComputeTask) : Option Buffers :=
  runTasks true tasks
    { srcbufMap := packetBufs .cur (List.range (eck * ecw)) ∅
      tarbufMap := packetBufs .target (List.range (ecn * ecw)) ∅
      byte := fun
        | .cur id => data id
        | .target id => if id < eck * ecw then data id else 0
        | .new _ => 0 }

/-- The numbers of the sub-packets of some blocks. -/
def blockSubPackets (ecw : ℕ) (sids : List ℕ) : List ℕ :=
  sids.flatMap fun sid ↦ (List.range ecw).map fun j ↦ sid * ecw + j

/-- The one map of a degraded read: the sub-packets that are loaded, and the ones that are lost. -/
def degradedBufs (loaded lost : List ℕ) (env : ℕ → GF256) : Buffers :=
  let bufMap := packetBufs .target lost (packetBufs .cur loaded ∅)
  { srcbufMap := bufMap
    tarbufMap := bufMap
    byte := fun
      | .cur id => env id
      | .target _ => 0
      | .new _ => 0 }

/-- `computeWorker` of a degraded read, which loads the blocks `idlist` whole; `none` also where it leaves
`curStripe`, which has `ecn` packets. -/
def degradedRead (ecn eck ecw : ℕ) (idlist : List ℕ) (env : ℕ → GF256) (tasks : List ComputeTask) :
    Option Buffers :=
  if ecn < eck ∨ ∃ sid ∈ idlist, ecn ≤ sid then none else
  let lost := (List.range eck).filter (· ∉ idlist)
  runTasks true tasks (degradedBufs (blockSubPackets ecw idlist) (blockSubPackets ecw lost) env)

/-- `computeWorkerDegradedOffline`, which loads the sub-packets `cids`. -/
def degradedOffline (ecw lostidx : ℕ) (cids : List ℕ) (env : ℕ → GF256) (tasks : List ComputeTask) :
    Option Buffers :=
  runTasks true tasks (degradedBufs cids (blockSubPackets ecw [lostidx]) env)

/-- `computeWorkerNonSys`, which reads the first `eck` blocks. -/
def nonSysRead (eck ecw : ℕ) (stored : ℕ → GF256) (tasks : List ComputeTask) : Option Buffers :=
  runTasks false tasks
    { srcbufMap := packetBufs .cur (List.range (eck * ecw)) ∅
      tarbufMap := packetBufs .target (List.range (eck * ecw)) ∅
      byte := fun
        | .cur id => stored id
        | .target _ => 0
        | .new _ => 0 }

/-! ## Maps of buffers -/

def Buffer.owner : Buffer → ℕ
  | .cur id => id
  | .target id => id
  | .new id => id

theorem lookup_insertPair (m : BufMap) (id : ℕ) (b : Buffer) (j : ℕ) :
    (insertPair m id b).lookup j = if j = id then some ((m.lookup id).getD b) else m.lookup j := by
  rw [insertPair]
  by_cases hmem : id ∈ m
  · obtain ⟨b', hb'⟩ := Option.isSome_iff_exists.mp (AList.lookup_isSome.mpr hmem)
    rw [if_pos hmem]
    split
    · next h => rw [h, hb', Option.getD_some]
    · rfl
  · rw [if_neg hmem, AList.lookup_eq_none.mpr hmem, Option.getD_none]
    split
    · next h => rw [h, AList.lookup_insert]
    · next h => rw [AList.lookup_insert_ne h]

theorem lookup_packetBufs (packet : ℕ → Buffer) (ids : List ℕ) (m : BufMap) (j : ℕ) :
    (packetBufs packet ids m).lookup j =
      if j ∈ ids then some ((m.lookup j).getD (packet j)) else m.lookup j := by
  rw [packetBufs]
  induction ids generalizing m with
  | nil => simp
  | cons id ids ih =>
    rw [List.foldl_cons, ih, lookup_insertPair]
    by_cases hj : j = id
    · subst hj
      by_cases hmem : j ∈ ids <;> simp [hmem]
    · by_cases hmem : j ∈ ids <;> simp [hj, hmem]

/-- The buffers of a map are the ones its executor starts with. -/
def Packets (m : BufMap) : Prop := ∀ id b, m.lookup id = some b → b = .cur id ∨ b = .target id

theorem Packets.owner {m : BufMap} (h : Packets m) {id : ℕ} {b : Buffer} (hb : m.lookup id = some b) :
    b.owner = id := by
  rcases h id b hb with rfl | rfl <;> rfl

theorem packets_empty : Packets ∅ := fun _ b h ↦ absurd h.symm (Option.some_ne_none b)

theorem Packets.packetBufs {m : BufMap} (h : Packets m) {packet : ℕ → Buffer}
    (hpacket : ∀ id, packet id = .cur id ∨ packet id = .target id) (ids : List ℕ) :
    Packets (packetBufs packet ids m) := by
  intro id b hb
  rw [lookup_packetBufs] at hb
  split at hb
  · cases hm : m.lookup id with
    | none =>
      rw [hm, Option.getD_none] at hb
      rw [← Option.some.inj hb]
      exact hpacket id
    | some b' =>
      rw [hm, Option.getD_some] at hb
      rw [← Option.some.inj hb]
      exact h id b' hm
  · exact h id b hb

/-! ## The invariant of a run -/

/-- What a run of tasks keeps, when the new buffers can be read later. The maps were `S₀` and `T₀` at its
start, and the sub-packets in `done` have their values in the buffers that are written. -/
structure Running (dag : ECDAG) (env : ℕ → GF256) (S₀ T₀ : BufMap) (done : ℕ → Prop) (s : Buffers) :
    Prop where
  tar : ∀ id, s.tarbufMap.lookup id = T₀.lookup id ∨
    T₀.lookup id = none ∧ s.tarbufMap.lookup id = some (.new id)
  src : ∀ id, s.srcbufMap.lookup id =
    if id ∈ S₀ then S₀.lookup id else if id ∈ T₀ then none else s.tarbufMap.lookup id
  leaf : ∀ id, IsLeaf dag.shape id → ∀ b, S₀.lookup id = some b → s.byte b = env id
  value : ∀ id, done id → ∃ b, s.tarbufMap.lookup id = some b ∧ Evaluates dag.shape env id (s.byte b)

section Run

variable {dag : ECDAG} {env : ℕ → GF256} {S₀ T₀ : BufMap} {done : ℕ → Prop} {s : Buffers} {t : ℕ}

theorem Running.owner (h : Running dag env S₀ T₀ done s) (hT : Packets T₀) {id : ℕ} {b : Buffer}
    (hb : s.tarbufMap.lookup id = some b) : b.owner = id := by
  rcases h.tar id with heq | ⟨-, heq⟩
  · exact hT.owner (heq ▸ hb)
  · rw [heq] at hb
    rw [← Option.some.inj hb]
    rfl

/-- Preparing the buffer of a target touches no buffer of another sub-packet. -/
theorem byte_prepareCode {b : Buffer} (hb : b ≠ .new t) : (s.prepareCode true t).byte b = s.byte b := by
  rw [Buffers.prepareCode]
  split
  · rfl
  · exact Function.update_of_ne hb _ _

theorem Running.prepareCode (h : Running dag env S₀ T₀ done s) (hS : Packets S₀) (hT : Packets T₀) :
    Running dag env S₀ T₀ done (s.prepareCode true t) ∧
      ∀ id, id ∈ (s.prepareCode true t).tarbufMap ↔ id = t ∨ id ∈ s.tarbufMap := by
  by_cases hmem : t ∈ s.tarbufMap
  · rw [Buffers.prepareCode, if_pos hmem]
    refine ⟨h, fun id ↦ ⟨.inr, ?_⟩⟩
    rintro (rfl | hid)
    · exact hmem
    · exact hid
  have hnone := AList.lookup_eq_none.mpr hmem
  have hT₀ : T₀.lookup t = none := by
    rcases h.tar t with heq | ⟨heq, -⟩
    · rw [← heq, hnone]
    · exact heq
  have hbyte : ∀ b, b ≠ .new t → (s.prepareCode true t).byte b = s.byte b := fun b ↦ byte_prepareCode
  rw [Buffers.prepareCode, if_neg hmem] at hbyte ⊢
  refine ⟨⟨fun id ↦ ?_, fun id ↦ ?_, fun id hleaf b hb ↦ ?_, fun id hid ↦ ?_⟩, fun id ↦ AList.mem_insert _⟩
  · by_cases hid : id = t
    · subst hid
      exact .inr ⟨hT₀, AList.lookup_insert _⟩
    · dsimp only
      rw [AList.lookup_insert_ne hid]
      exact h.tar id
  · simp only [if_true, lookup_insertPair]
    by_cases hid : id = t
    · subst hid
      have hnotT : id ∉ T₀ := AList.lookup_eq_none.mp hT₀
      have hsrc := h.src id
      rw [if_neg hnotT, hnone] at hsrc
      rw [if_pos rfl, if_neg hnotT, AList.lookup_insert, hsrc]
      split
      · next hmemS =>
        obtain ⟨b', hb'⟩ := Option.isSome_iff_exists.mp (AList.lookup_isSome.mpr hmemS)
        rw [hb', Option.getD_some]
      · rfl
    · rw [if_neg hid, AList.lookup_insert_ne hid]
      exact h.src id
  · rw [hbyte b]
    · exact h.leaf id hleaf b hb
    · rintro rfl
      rcases hS id _ hb with hb | hb <;> exact Buffer.noConfusion hb
  · obtain ⟨b, hb, hval⟩ := h.value id hid
    have hne : id ≠ t := by
      rintro rfl
      exact hmem (AList.lookup_isSome.mp (Option.isSome_iff_exists.mpr ⟨b, hb⟩))
    refine ⟨b, ?_, ?_⟩
    · dsimp only
      rw [AList.lookup_insert_ne hne]
      exact hb
    · rw [hbyte b]
      · exact hval
      · rintro rfl
        exact hne (h.owner hT hb).symm

theorem Running.foldl_prepareCode (h : Running dag env S₀ T₀ done s) (hS : Packets S₀) (hT : Packets T₀)
    (ts : List ℕ) :
    Running dag env S₀ T₀ done (ts.foldl (Buffers.prepareCode true) s) ∧
      (∀ t ∈ ts, t ∈ (ts.foldl (Buffers.prepareCode true) s).tarbufMap) ∧
      ∀ b, b.owner ∉ ts → (ts.foldl (Buffers.prepareCode true) s).byte b = s.byte b := by
  induction ts generalizing s with
  | nil => exact ⟨h, fun t ht ↦ absurd ht List.not_mem_nil, fun b _ ↦ rfl⟩
  | cons t ts ih =>
    obtain ⟨h', hmem⟩ := h.prepareCode (t := t) hS hT
    obtain ⟨hrun, hts, hbyte⟩ := ih h'
    rw [List.foldl_cons]
    refine ⟨hrun, fun t' ht' ↦ ?_, fun b hb ↦ ?_⟩
    · rcases List.mem_cons.mp ht' with rfl | ht'
      · -- a buffer that is there stays there
        have hkeep : ∀ (ts : List ℕ) (s : Buffers), t' ∈ s.tarbufMap →
            t' ∈ (ts.foldl (Buffers.prepareCode true) s).tarbufMap := by
          intro ts
          induction ts with
          | nil => exact fun s hs ↦ hs
          | cons u us ihu =>
            intro s hs
            refine ihu _ ?_
            rw [Buffers.prepareCode]
            split
            · exact hs
            · exact (AList.mem_insert _).mpr (.inr hs)
        exact hkeep ts _ ((hmem t').mpr (.inl rfl))
      · exact hts t' ht'
    · rw [hbyte b fun hmem ↦ hb (List.mem_cons_of_mem t hmem)]
      refine byte_prepareCode ?_
      rintro rfl
      exact hb List.mem_cons_self

theorem foldl_writeRow_of_ne (s : Buffers) (data : List Buffer)
    (rows : List (Sigma fun _ : ℕ ↦ List GF256)) (byte : Buffer → GF256) {b : Buffer}
    (hb : ∀ row ∈ rows, s.tarbufMap.lookup row.1 ≠ some b) :
    rows.foldl (s.writeRow data) byte b = byte b := by
  induction rows generalizing byte with
  | nil => rfl
  | cons row rows ih =>
    rw [List.foldl_cons, ih _ fun row' hrow' ↦ hb row' (List.mem_cons_of_mem row hrow'), Buffers.writeRow]
    cases hcode : s.tarbufMap.lookup row.1 with
    | none => rfl
    | some code =>
      have hne : b ≠ code := by
        rintro rfl
        exact hb row List.mem_cons_self hcode
      exact Function.update_of_ne hne _ _

theorem foldl_writeRow_of_mem {s : Buffers} (data : List Buffer)
    {rows : List (Sigma fun _ : ℕ ↦ List GF256)} (byte : Buffer → GF256)
    (howner : ∀ id b, s.tarbufMap.lookup id = some b → b.owner = id) (hnodup : (rows.map Sigma.fst).Nodup)
    {row : Sigma fun _ : ℕ ↦ List GF256} (hrow : row ∈ rows) {b : Buffer}
    (hb : s.tarbufMap.lookup row.1 = some b) :
    rows.foldl (s.writeRow data) byte b = dot row.2 (data.map s.byte) := by
  induction rows generalizing byte with
  | nil => exact absurd hrow List.not_mem_nil
  | cons row' rows ih =>
    obtain ⟨hnot, hnodup⟩ := List.nodup_cons.mp hnodup
    rcases List.mem_cons.mp hrow with rfl | hrow
    · rw [List.foldl_cons, foldl_writeRow_of_ne, Buffers.writeRow, hb]
      · exact Function.update_self _ _ _
      · intro row' hrow' hb'
        refine hnot (List.mem_map.mpr ⟨row', hrow', ?_⟩)
        rw [← howner _ _ hb', ← howner _ _ hb]
    · exact ih _ hnodup hrow

/-- **One task.** A node that is not bound, whose children can be read with their values, gives all its
targets their values. -/
theorem Running.compute (h : Running dag env S₀ T₀ done s) (hS : Packets S₀) (hT : Packets T₀)
    {id : ℕ} {cs : List ℕ} {M : CoefMap} (hshape : dag.shape id = some (cs, M))
    (hrole : Role dag.shape id (cs, M)) (hne : cs ≠ []) (hplain : ∀ c ∈ cs, Plain dag.shape c)
    (hfresh : ∀ t ∈ M, t ∉ cs ∧ ¬IsLeaf dag.shape t)
    (hread : ∀ c ∈ cs, ∃ b, s.srcbufMap.lookup c = some b ∧ b.owner = c ∧
      Evaluates dag.shape env c (s.byte b)) :
    ∃ s', Buffers.compute true s ⟨cs, M⟩ = some s' ∧
      Running dag env S₀ T₀ (fun t ↦ done t ∨ t ∈ M) s' := by
  choose! buf hbuf howner hval using hread
  have hdata : cs.mapM (fun c ↦ s.srcbufMap.lookup c) = some (cs.map buf) := by
    clear hne hplain hfresh hval hshape hrole
    induction cs with
    | nil => rfl
    | cons c cs ih =>
      rw [List.mapM_cons, hbuf c List.mem_cons_self, ih (fun c hc ↦ hbuf c (List.mem_cons_of_mem _ hc))
        fun c hc ↦ howner c (List.mem_cons_of_mem _ hc)]
      rfl
  obtain ⟨hprep, hmem, hbyte⟩ := h.foldl_prepareCode hS hT M.keys
  have hlength : M.entries.any (·.2.length < cs.length) = false := by
    rw [List.any_eq_false]
    intro row hrow
    have hlookup : M.lookup row.1 = some row.2 := AList.mem_lookup_iff.mpr hrow
    simp [hrole.length_eq hplain hlookup]
  by_cases hrow : cs.length * M.keys.length < 1
  · -- there is no target
    have hlen : 0 < cs.length := List.length_pos_of_ne_nil hne
    have hkeys : M.keys = [] := by
      have : M.keys.length = 0 := by
        by_contra hpos
        have := Nat.mul_pos hlen (Nat.pos_of_ne_zero hpos)
        omega
      exact List.eq_nil_of_length_eq_zero this
    refine ⟨s, ?_, ⟨h.tar, h.src, h.leaf, fun t ht ↦ h.value t (ht.resolve_right fun ht ↦ ?_)⟩⟩
    · simp only [Buffers.compute, if_pos hrow]
    · rw [AList.mem_keys, hkeys] at ht
      exact List.not_mem_nil ht
  · generalize hs₁ : M.keys.foldl (Buffers.prepareCode true) s = s₁ at hprep hmem hbyte
    refine ⟨s₁.multi (cs.map buf) M.entries, ?_, ?_⟩
    · simp only [Buffers.compute, if_neg hrow, hdata, Option.bind_eq_bind, Option.bind_some, hlength, hs₁]
      rfl
    have hnodup : (M.entries.map Sigma.fst).Nodup := M.nodupKeys
    have hvs : List.Forall₂ (Evaluates dag.shape env) cs ((cs.map buf).map s₁.byte) := by
      rw [List.map_map, List.forall₂_map_right_iff, List.forall₂_same]
      intro c hc
      have hnot : (buf c).owner ∉ M.keys := by
        rw [howner c hc]
        exact fun hmem ↦ (hfresh c (AList.mem_keys.mpr hmem)).1 hc
      show Evaluates dag.shape env c (s₁.byte (buf c))
      rw [hbyte _ hnot]
      exact hval c hc
    have hwritten : ∀ t co b, M.lookup t = some co → s₁.tarbufMap.lookup t = some b →
        Evaluates dag.shape env t ((s₁.multi (cs.map buf) M.entries).byte b) := by
      intro t co b hco hb
      have hrow := foldl_writeRow_of_mem (cs.map buf) s₁.byte (fun _ _ ↦ hprep.owner hT) hnodup
        (AList.mem_lookup_iff.mp hco) hb
      show Evaluates dag.shape env t (M.entries.foldl _ s₁.byte b)
      rw [hrow]
      exact hrole.evaluates hshape hne hplain hco hvs
    have hkeep : ∀ b, b.owner ∉ M.keys → (s₁.multi (cs.map buf) M.entries).byte b = s₁.byte b := by
      intro b hb
      refine foldl_writeRow_of_ne _ _ _ _ fun row hrow hcode ↦ hb ?_
      rw [hprep.owner hT hcode]
      exact List.mem_map_of_mem hrow
    refine ⟨hprep.tar, hprep.src, fun t hleaf b hb ↦ ?_, fun t ht ↦ ?_⟩
    · rw [hkeep, hprep.leaf t hleaf b hb]
      rw [hS.owner hb]
      exact fun hmem ↦ (hfresh t (AList.mem_keys.mpr hmem)).2 hleaf
    · by_cases htM : t ∈ M
      · obtain ⟨co, hco⟩ := Option.isSome_iff_exists.mp (AList.lookup_isSome.mpr htM)
        obtain ⟨b, hb⟩ := Option.isSome_iff_exists.mp
          (AList.lookup_isSome.mpr (hmem t (AList.mem_keys.mp htM)))
        exact ⟨b, hb, hwritten t co b hco hb⟩
      · obtain ⟨b, hb, hval⟩ := hprep.value t (ht.resolve_right htM)
        refine ⟨b, hb, ?_⟩
        rw [hkeep]
        · exact hval
        · rw [hprep.owner hT hb]
          exact fun hmem ↦ htM (AList.mem_keys.mpr hmem)

/-! ## Whole runs -/

/-- The child can be read: a leaf is in a packet that is read, and what is computed is read from the buffer
it is written to. -/
def Readable (dag : ECDAG) (S₀ T₀ : BufMap) (c : ℕ) : Prop :=
  (IsLeaf dag.shape c → c ∈ S₀) ∧ (¬IsLeaf dag.shape c → S₀.lookup c = T₀.lookup c)

theorem Running.read {l₁ l₂ : List ℕ} (h : Running dag env S₀ T₀ (ComputedBy dag l₁) s)
    (hwf : WellFormed dag) (hS : Packets S₀) (hT : Packets T₀)
    (hfirst : Toposort.ChildrenFirst dag.childs (l₁ ++ l₂)) {c : ℕ} (hc : c ∈ l₁) (hnode : c ∈ dag.nodes)
    (hplain : Plain dag.shape c) (hread : Readable dag S₀ T₀ c) :
    ∃ b, s.srcbufMap.lookup c = some b ∧ b.owner = c ∧ Evaluates dag.shape env c (s.byte b) := by
  obtain ⟨⟨cs, M⟩, hsh⟩ : ∃ sh, dag.shape c = some sh :=
    Option.ne_none_iff_exists'.mp fun hnone ↦ shape_eq_none.mp hnone hnode
  by_cases hne : cs = []
  · -- a leaf has not been overwritten
    rw [hne] at hsh
    have hleaf : IsLeaf dag.shape c := ⟨M, hsh⟩
    have hmem := hread.1 hleaf
    obtain ⟨b, hb⟩ := Option.isSome_iff_exists.mp (AList.lookup_isSome.mpr hmem)
    refine ⟨b, by rw [h.src, if_pos hmem, hb], hS.owner hb, ?_⟩
    rw [h.leaf c hleaf b hb]
    exact evaluates_leaf hsh
  · obtain ⟨b, hb, hval⟩ := h.value c (hwf.computedBy hfirst hc hsh hne hplain)
    refine ⟨b, ?_, h.owner hT hb, hval⟩
    have hnot : ¬IsLeaf dag.shape c := by
      rintro ⟨M', hM'⟩
      rw [hsh] at hM'
      exact hne (congrArg Prod.fst (Option.some.inj hM'))
    have hsame := hread.2 hnot
    rw [h.src]
    by_cases hmemS : c ∈ S₀
    · rw [if_pos hmemS, hsame]
      rcases h.tar c with heq | ⟨hnone, -⟩
      · rw [← heq, hb]
      · rw [hnone] at hsame
        exact absurd hmemS (AList.lookup_eq_none.mp hsame)
    · have hnone : T₀.lookup c = none := by rw [← hsame, AList.lookup_eq_none.mpr hmemS]
      rw [if_neg hmemS, if_neg (AList.lookup_eq_none.mp hnone), hb]

/-- A run over the nodes that are left, when nothing is skipped and all children can be read. -/
theorem Running.tasks (hwf : WellFormed dag) (hS : Packets S₀) (hT : Packets T₀)
    (hskip : ∀ id, ¬dag.Skipped id)
    (hread : ∀ id cs M, Computes dag id cs M → ∀ c ∈ cs, Readable dag S₀ T₀ c) (l₁ l₂ : List ℕ)
    (hfirst : Toposort.ChildrenFirst dag.childs (l₁ ++ l₂)) (hnodes : ∀ id ∈ l₁ ++ l₂, id ∈ dag.nodes)
    (h : Running dag env S₀ T₀ (ComputedBy dag l₁) s) :
    ∃ s', runTasks true (l₂.filterMap dag.parseForClient) s = some s' ∧
      Running dag env S₀ T₀ (ComputedBy dag (l₁ ++ l₂)) s' := by
  induction l₂ generalizing l₁ s with
  | nil =>
    rw [List.append_nil]
    exact ⟨s, rfl, h⟩
  | cons id l₂ ih =>
    have happend : l₁ ++ id :: l₂ = (l₁ ++ [id]) ++ l₂ := List.append_cons ..
    obtain ⟨⟨cs, M⟩, hsh⟩ : ∃ sh, dag.shape id = some sh :=
      Option.ne_none_iff_exists'.mp fun hnone ↦ shape_eq_none.mp hnone (hnodes id (by simp))
    have hrole := hwf.role id _ hsh
    by_cases hcomp : Computes dag id cs M
    · -- the node has a task
      have ⟨_, hne, hplain⟩ := hcomp
      obtain ⟨s₁, hs₁, hrun⟩ := h.compute hS hT hsh hrole hne hplain (fun t ht ↦ hwf.target hcomp ht)
        fun c hc ↦ by
          have hcl : c ∈ l₁ := hfirst l₁ id l₂ rfl c (by rwa [childs_of_shape hsh])
          exact h.read hwf hS hT hfirst hcl (hwf.closed id _ hsh c hc) (hplain c hc)
            (hread id cs M hcomp c hc)
      have hdone : Running dag env S₀ T₀ (ComputedBy dag (l₁ ++ [id])) s₁ := by
        refine { hrun with value := fun t ht ↦ hrun.value t ?_ }
        obtain ⟨j, hj, cs', M', hcomp', ht⟩ := ht
        rcases List.mem_append.mp hj with hj | hj
        · exact .inl ⟨j, hj, cs', M', hcomp', ht⟩
        · rw [List.mem_singleton.mp hj] at hcomp'
          have heq : M' = M := congrArg Prod.snd (Option.some.inj (hcomp'.1.symm.trans hsh))
          exact .inr (heq ▸ ht)
      rw [happend] at hfirst hnodes ⊢
      obtain ⟨s', hs', hrun'⟩ := ih (l₁ ++ [id]) hfirst hnodes hdone
      refine ⟨s', ?_, hrun'⟩
      rw [List.filterMap_cons, hcomp.parseForClient (hskip id), runTasks, List.foldlM_cons, hs₁]
      exact hs'
    · -- the node has none
      have hnone : dag.parseForClient id = none := by
        by_cases hne : cs = []
        · exact parseForClient_leaf (hne ▸ hsh)
        · obtain ⟨b, cs', M', rfl, hb, hkeys, -⟩ := (hrole.computes_or_bound hsh hne).resolve_left hcomp
          exact parseForClient_bound hsh hb hkeys
      have hdone : Running dag env S₀ T₀ (ComputedBy dag (l₁ ++ [id])) s := by
        refine { h with value := fun t ht ↦ h.value t ?_ }
        obtain ⟨j, hj, cs', M', hcomp', ht⟩ := ht
        rcases List.mem_append.mp hj with hj | hj
        · exact ⟨j, hj, cs', M', hcomp', ht⟩
        · rw [List.mem_singleton.mp hj] at hcomp'
          obtain ⟨rfl, rfl⟩ := Prod.mk.inj (Option.some.inj (hcomp'.1.symm.trans hsh))
          exact absurd hcomp' hcomp
      rw [happend] at hfirst hnodes ⊢
      rw [List.filterMap_cons, hnone]
      exact ih (l₁ ++ [id]) hfirst hnodes hdone

/-- Every header has its value in its buffer. -/
def HeadersDone (dag : ECDAG) (env : ℕ → GF256) (s : Buffers) : Prop :=
  ∀ h ∈ dag.headers, ∃ v, s.written h = some v ∧ Evaluates dag.shape env h v

/-- **A run over a whole graph.** -/
theorem runTasks_computeTasks (hwf : WellFormed dag) {order : List ℕ} (horder : order.Perm dag.nodes.keys)
    (hskip : ∀ id, ¬dag.Skipped id) {s₀ : Buffers} (hS : Packets s₀.srcbufMap) (hT : Packets s₀.tarbufMap)
    (hleaf : ∀ id, IsLeaf dag.shape id → ∀ b, s₀.srcbufMap.lookup id = some b → s₀.byte b = env id)
    (hread : ∀ id cs M, Computes dag id cs M → ∀ c ∈ cs, Readable dag s₀.srcbufMap s₀.tarbufMap c) :
    ∃ s', runTasks true (dag.computeTasks order) s₀ = some s' ∧ HeadersDone dag env s' := by
  obtain ⟨hperm, -, hfirst⟩ := hwf.toposort horder
  have hnodes : ∀ id, id ∈ dag.toposort order ↔ id ∈ dag.nodes := fun id ↦
    (hperm.trans horder).mem_iff
  have hstart : Running dag env s₀.srcbufMap s₀.tarbufMap (ComputedBy dag []) s₀ := by
    refine ⟨fun id ↦ .inl rfl, fun id ↦ ?_, hleaf, fun t ⟨id, hid, _⟩ ↦ absurd hid List.not_mem_nil⟩
    split
    · rfl
    · next hmem =>
      rw [AList.lookup_eq_none.mpr hmem]
      split
      · rfl
      · next hmemT => rw [AList.lookup_eq_none.mpr hmemT]
  obtain ⟨s', hs', hrun⟩ := hstart.tasks hwf hS hT hskip hread [] (dag.toposort order) hfirst
    fun id hid ↦ (hnodes id).mp hid
  refine ⟨s', hs', fun h hh ↦ ?_⟩
  obtain ⟨hplain, ⟨cs, M⟩, hsh, hne⟩ := hwf.header h hh
  have hmem : h ∈ dag.nodes := by
    by_contra hnot
    rw [shape_eq_none.mpr hnot] at hsh
    exact Option.some_ne_none _ hsh.symm
  have hlist : h ∈ dag.toposort order := (hnodes h).mpr hmem
  have hfirst' : Toposort.ChildrenFirst dag.childs (dag.toposort order ++ []) := by
    rwa [List.append_nil]
  obtain ⟨b, hb, hval⟩ := hrun.value h (hwf.computedBy hfirst' hlist hsh hne hplain)
  exact ⟨s'.byte b, by rw [Buffers.written, hb]; rfl, hval⟩

/-! The assertion fails on a child that is in no packet that is read, when it is a leaf or a sub-packet of
the packets that are written. -/

def Within (dag : ECDAG) (S₀ T₀ : BufMap) (s : Buffers) : Prop :=
  (∀ id, id ∈ T₀ → id ∈ s.tarbufMap) ∧
    ∀ id, id ∈ s.srcbufMap → id ∈ S₀ ∨ id ∉ T₀ ∧ ¬IsLeaf dag.shape id

theorem Within.prepareCode (h : Within dag S₀ T₀ s) (ht : ¬IsLeaf dag.shape t) :
    Within dag S₀ T₀ (s.prepareCode true t) := by
  rw [Buffers.prepareCode]
  split
  · exact h
  next hmem =>
  refine ⟨fun id hid ↦ (AList.mem_insert _).mpr (.inr (h.1 id hid)), fun id hid ↦ ?_⟩
  simp only [if_true, insertPair] at hid
  split at hid
  · exact h.2 id hid
  · rcases (AList.mem_insert _).mp hid with rfl | hid
    · exact .inr ⟨fun hT ↦ hmem (h.1 id hT), ht⟩
    · exact h.2 id hid

theorem Within.compute {task : ComputeTask} {s' : Buffers} (h : Within dag S₀ T₀ s)
    (hleaf : ∀ t ∈ task.coefMap, ¬IsLeaf dag.shape t) (hpos : 0 < task.children.length)
    (hrow : 0 < task.coefMap.keys.length) (hrun : s.compute true task = some s') :
    Within dag S₀ T₀ s' ∧ ∀ c ∈ task.children, c ∈ S₀ ∨ c ∉ T₀ ∧ ¬IsLeaf dag.shape c := by
  have hcol : ¬task.children.length * task.coefMap.keys.length < 1 :=
    Nat.not_lt.mpr (Nat.mul_pos hpos hrow)
  simp only [Buffers.compute, if_neg hcol, Option.bind_eq_bind, Option.bind_eq_some_iff] at hrun
  obtain ⟨data, hdata, hrun⟩ := hrun
  have hread : ∀ c ∈ task.children, c ∈ s.srcbufMap := by
    have hbufs := mapM_eq_some_iff.mp hdata
    intro c hc
    obtain ⟨i, hi, rfl⟩ := List.mem_iff_getElem.mp hc
    have hb := hbufs.get hi (hbufs.length_eq ▸ hi)
    exact AList.lookup_isSome.mp (Option.isSome_iff_exists.mpr ⟨_, hb⟩)
  have hfold : ∀ (ts : List ℕ) (s : Buffers), (∀ t ∈ ts, ¬IsLeaf dag.shape t) → Within dag S₀ T₀ s →
      Within dag S₀ T₀ (ts.foldl (Buffers.prepareCode true) s) := by
    intro ts
    induction ts with
    | nil => exact fun s _ h ↦ h
    | cons t ts ih =>
      intro s hts h
      exact ih _ (fun t ht ↦ hts t (List.mem_cons_of_mem _ ht)) (h.prepareCode (hts t List.mem_cons_self))
  split at hrun
  · exact absurd hrun.symm (Option.some_ne_none _)
  · rw [← Option.some.inj hrun]
    exact ⟨hfold _ s (fun t ht ↦ hleaf t (AList.mem_keys.mpr ht)) h, fun c hc ↦ h.2 c (hread c hc)⟩

theorem Within.tasks (hwf : WellFormed dag) (hskip : ∀ id, ¬dag.Skipped id) (l : List ℕ) {s' : Buffers}
    (h : Within dag S₀ T₀ s) (hrun : runTasks true (l.filterMap dag.parseForClient) s = some s') {id : ℕ}
    {cs : List ℕ} {M : CoefMap} (hid : id ∈ l) (hcomp : Computes dag id cs M) {c : ℕ} (hc : c ∈ cs) :
    c ∈ S₀ ∨ c ∉ T₀ ∧ ¬IsLeaf dag.shape c := by
  induction l generalizing s with
  | nil => exact absurd hid List.not_mem_nil
  | cons j l ih =>
    cases htask : dag.parseForClient j with
    | none =>
      rw [List.filterMap_cons_none htask] at hrun
      rcases List.mem_cons.mp hid with rfl | hid
      · rw [hcomp.parseForClient (hskip _)] at htask
        exact absurd htask (Option.some_ne_none _)
      · exact ih h hrun hid
    | some task =>
      rw [List.filterMap_cons_some htask, runTasks, List.foldlM_cons, Option.bind_eq_bind] at hrun
      obtain ⟨s₁, hs₁, hrun⟩ := Option.bind_eq_some_iff.mp hrun
      obtain ⟨hcomp', hrow⟩ := hwf.computes htask
      obtain ⟨h₁, hread⟩ := h.compute (fun t ht ↦ (hwf.target hcomp' ht).2)
        (List.length_pos_of_ne_nil hcomp'.2.1) hrow hs₁
      rcases List.mem_cons.mp hid with rfl | hid
      · have hcs : cs = task.children := congrArg Prod.fst (Option.some.inj (hcomp.1.symm.trans hcomp'.1))
        exact hread c (hcs ▸ hc)
      · exact ih h₁ hrun hid

/-- **When a run over a whole graph returns**, every child of a computed node was in a packet that is read,
or was computed and is not in a packet that is written. -/
theorem readable_of_runTasks (hwf : WellFormed dag) {order : List ℕ} (horder : order.Perm dag.nodes.keys)
    (hskip : ∀ id, ¬dag.Skipped id) {s' : Buffers}
    (hrun : runTasks true (dag.computeTasks order) s = some s') {id : ℕ} {cs : List ℕ} {M : CoefMap}
    (hcomp : Computes dag id cs M) {c : ℕ} (hc : c ∈ cs) :
    c ∈ s.srcbufMap ∨ c ∉ s.tarbufMap ∧ ¬IsLeaf dag.shape c := by
  obtain ⟨hperm, -, -⟩ := hwf.toposort horder
  have hmem : id ∈ dag.nodes := by
    by_contra hnot
    rw [Computes, shape_eq_none.mpr hnot] at hcomp
    exact Option.some_ne_none _ hcomp.1.symm
  have hwithin : Within dag s.srcbufMap s.tarbufMap s := ⟨fun _ h ↦ h, fun _ h ↦ .inl h⟩
  exact hwithin.tasks hwf hskip _ hrun ((hperm.trans horder).mem_iff.mpr hmem) hcomp hc

end Run

/-! ## The executors -/

section Executors

variable {dag : ECDAG} {order : List ℕ} {ecn eck ecw : ℕ}

theorem mem_blockSubPackets (hw : 0 < ecw) (sids : List ℕ) (id : ℕ) :
    id ∈ blockSubPackets ecw sids ↔ id / ecw ∈ sids := by
  simp only [blockSubPackets, List.mem_flatMap, List.mem_map, List.mem_range]
  constructor
  · rintro ⟨sid, hsid, j, hj, rfl⟩
    rw [mul_comm, Nat.mul_add_div hw, Nat.div_eq_of_lt hj, add_zero]
    exact hsid
  · intro hid
    refine ⟨id / ecw, hid, id % ecw, Nat.mod_lt _ hw, ?_⟩
    rw [mul_comm, Nat.div_add_mod]

/-- What an online write needs of the graph: it reads leaves of the data only, and of the nodes it computes
only the ones that are not in the stripe. -/
def EncodeReadable (dag : ECDAG) (ecn eck ecw : ℕ) : Prop :=
  ∀ id cs M, Computes dag id cs M → ∀ c ∈ cs,
    (IsLeaf dag.shape c → c < eck * ecw) ∧ (¬IsLeaf dag.shape c → ecn * ecw ≤ c)

/-- What a degraded read needs: the leaves that are read are loaded. -/
def LeavesLoaded (dag : ECDAG) (loaded : ℕ → Prop) : Prop :=
  ∀ id cs M, Computes dag id cs M → ∀ c ∈ cs, IsLeaf dag.shape c → loaded c

theorem lookup_onlineEncode (packet : ℕ → Buffer) (m id : ℕ) :
    (packetBufs packet (List.range m) ∅).lookup id = if id < m then some (packet id) else none := by
  rw [lookup_packetBufs]
  simp

/-- **The encoder of an online write** runs through on every data, and leaves in the buffer of every header
its value, exactly when it can read what it needs. -/
theorem onlineEncode_iff (hwf : WellFormed dag) (horder : order.Perm dag.nodes.keys)
    (hskip : ∀ id, ¬dag.Skipped id) (hkn : eck ≤ ecn)
    (hdata : ∀ id < eck * ecw, dag.shape id = none ∨ IsLeaf dag.shape id) :
    (∀ data, ∃ s, onlineEncode ecn eck ecw data (dag.computeTasks order) = some s ∧
      HeadersDone dag data s) ↔ EncodeReadable dag ecn eck ecw := by
  have hmono := Nat.mul_le_mul_right ecw hkn
  constructor
  · intro hrun id cs M hcomp c hc
    obtain ⟨s, hs, -⟩ := hrun 0
    have hread := readable_of_runTasks hwf horder hskip hs hcomp hc
    dsimp only at hread
    rw [← AList.lookup_isSome, ← AList.lookup_eq_none, lookup_onlineEncode, lookup_onlineEncode] at hread
    have hsrc : (if c < eck * ecw then some (Buffer.cur c) else none).isSome → c < eck * ecw := by
      intro h
      by_contra hlt
      rw [if_neg hlt] at h
      exact Bool.noConfusion h
    refine ⟨fun hleaf ↦ ?_, fun hleaf ↦ ?_⟩
    · rcases hread with h | ⟨-, h⟩
      · exact hsrc h
      · exact absurd hleaf h
    · rcases hread with h | ⟨h, -⟩
      · -- a data sub-packet is not computed
        rcases hdata c (hsrc h) with hnone | hleaf'
        · exact absurd (hwf.closed id _ hcomp.1 c hc) (shape_eq_none.mp hnone)
        · exact absurd hleaf' hleaf
      · by_contra hlt
        rw [if_pos (by omega)] at h
        exact Option.some_ne_none _ h
  · intro hread data
    refine runTasks_computeTasks hwf horder hskip (packets_empty.packetBufs (fun _ ↦ .inl rfl) _)
      (packets_empty.packetBufs (fun _ ↦ .inr rfl) _) (fun id _ b hb ↦ ?_) fun id cs M hcomp c hc ↦ ?_
    · dsimp only at hb
      rw [lookup_onlineEncode] at hb
      split at hb
      · rw [← Option.some.inj hb]
      · exact absurd hb.symm (Option.some_ne_none b)
    · obtain ⟨hleaf, hcomputed⟩ := hread id cs M hcomp c hc
      refine ⟨fun h ↦ ?_, fun h ↦ ?_⟩
      · rw [← AList.lookup_isSome, lookup_onlineEncode, if_pos (hleaf h)]
        rfl
      · have hle := hcomputed h
        dsimp only
        rw [lookup_onlineEncode, lookup_onlineEncode, if_neg (by omega), if_neg (by omega)]

theorem lookup_degradedBufs (loaded lost : List ℕ) (env : ℕ → GF256) (c : ℕ) :
    (degradedBufs loaded lost env).srcbufMap.lookup c =
      if c ∈ loaded then some (.cur c) else if c ∈ lost then some (.target c) else none := by
  rw [degradedBufs, lookup_packetBufs, lookup_packetBufs]
  by_cases hloaded : c ∈ loaded <;> by_cases hlost : c ∈ lost <;> simp [hloaded, hlost]

/-- **The degraded reads**, which keep one map and fill it with what is loaded and with what is lost. -/
theorem degraded_iff (hwf : WellFormed dag) (horder : order.Perm dag.nodes.keys)
    (hskip : ∀ id, ¬dag.Skipped id) (loaded lost : List ℕ)
    (hlost : ∀ c, IsLeaf dag.shape c → c ∈ lost → c ∈ loaded) :
    (∀ env, ∃ s, runTasks true (dag.computeTasks order) (degradedBufs loaded lost env) = some s ∧
      HeadersDone dag env s) ↔ LeavesLoaded dag (· ∈ loaded) := by
  constructor
  · intro hrun id cs M hcomp c hc hleaf
    obtain ⟨s, hs, -⟩ := hrun 0
    have hread := readable_of_runTasks hwf horder hskip hs hcomp hc
    have hmem := hread.resolve_right fun h ↦ h.2 hleaf
    rw [← AList.lookup_isSome, lookup_degradedBufs] at hmem
    by_contra hnot
    rw [if_neg hnot, if_neg fun h ↦ hnot (hlost c hleaf h)] at hmem
    exact Bool.noConfusion hmem
  · intro hloaded env
    have hpackets : Packets (packetBufs .target lost (packetBufs .cur loaded ∅)) :=
      (packets_empty.packetBufs (fun _ ↦ .inl rfl) _).packetBufs (fun _ ↦ .inr rfl) _
    refine runTasks_computeTasks hwf horder hskip hpackets hpackets (fun id hleaf b hb ↦ ?_)
      fun id cs M hcomp c hc ↦ ⟨fun h ↦ ?_, fun h ↦ rfl⟩
    · rw [lookup_degradedBufs] at hb
      split at hb
      · rw [← Option.some.inj hb]
        rfl
      · next hnot =>
        rw [if_neg fun h ↦ hnot (hlost id hleaf h)] at hb
        exact absurd hb.symm (Option.some_ne_none b)
    · rw [← AList.lookup_isSome, lookup_degradedBufs, if_pos (hloaded id cs M hcomp c hc h)]
      rfl

/-- The blocks that are loaded and the blocks of the data have their places in `curStripe`. -/
def InStripe (ecn eck : ℕ) (idlist : List ℕ) : Prop := eck ≤ ecn ∧ ∀ sid ∈ idlist, sid < ecn

theorem degradedRead_iff (hwf : WellFormed dag) (horder : order.Perm dag.nodes.keys)
    (hskip : ∀ id, ¬dag.Skipped id) (hw : 0 < ecw) {idlist : List ℕ}
    (hlost : ∀ c, IsLeaf dag.shape c → c / ecw < eck → c / ecw ∈ idlist) :
    (∀ env, ∃ s, degradedRead ecn eck ecw idlist env (dag.computeTasks order) = some s ∧
      HeadersDone dag env s) ↔ InStripe ecn eck idlist ∧ LeavesLoaded dag (· / ecw ∈ idlist) := by
  by_cases hstripe : InStripe ecn eck idlist
  swap
  · refine iff_of_false (fun hrun ↦ ?_) fun h ↦ hstripe h.1
    obtain ⟨s, hs, -⟩ := hrun 0
    rw [degradedRead, if_pos] at hs
    · exact Option.some_ne_none s hs.symm
    · by_contra hnot
      push Not at hnot
      exact hstripe hnot
  have hinside : ¬(ecn < eck ∨ ∃ sid ∈ idlist, ecn ≤ sid) := by
    push Not
    exact hstripe
  rw [and_iff_right hstripe]
  simp only [degradedRead, if_neg hinside]
  have hmem := mem_blockSubPackets hw idlist
  have hiff := degraded_iff hwf horder hskip (blockSubPackets ecw idlist)
    (blockSubPackets ecw ((List.range eck).filter (· ∉ idlist))) fun c hleaf hc ↦ by
      rw [mem_blockSubPackets hw, List.mem_filter, List.mem_range] at hc
      exact (hmem c).mpr (hlost c hleaf hc.1)
  simp only [hmem] at hiff
  exact hiff

theorem degradedOffline_iff (hwf : WellFormed dag) (horder : order.Perm dag.nodes.keys)
    (hskip : ∀ id, ¬dag.Skipped id) (hw : 0 < ecw) {lostidx : ℕ} {cids : List ℕ}
    (hlost : ∀ c, IsLeaf dag.shape c → c / ecw ≠ lostidx) :
    (∀ env, ∃ s, degradedOffline ecw lostidx cids env (dag.computeTasks order) = some s ∧
      HeadersDone dag env s) ↔ LeavesLoaded dag (· ∈ cids) :=
  degraded_iff hwf horder hskip _ _ fun c hleaf hc ↦
    absurd (List.mem_singleton.mp ((mem_blockSubPackets hw [lostidx] c).mp hc)) (hlost c hleaf)

end Executors

end UniDedup.Storage
