import UniDedup.Client.Chunking
import UniDedup.Client.Routing
import UniDedup.Node.ChunkPhase

/-!
# A node finds the chunks of the client again

The client cuts a file into chunks, puts runs of them into groups and routes each group by fingerprints
of its chunks: the delegate, or the features of its sample units. The node that gets the group knows its
bytes only and cuts them again. The routing makes sense because both programs then have the same chunks,
although the client saw what comes after the group and the node does not.

This holds for the algorithms whose chunking function is a cutter. A group is a run of consecutive pieces
of the file, and `Cutter.chunks_run` says that such a run falls into the same pieces.
-/

namespace UniDedup.Chunking

/-! ## The start of the phase -/

section Start

variable {aeInit : ℕ → ℕ} {conf : Config} {ph : Phase}

theorem startChunkPhase_agree {ph' : Phase} (hnode : Node.startChunkPhase aeInit conf = some ph')
    (hclient : Client.startChunkPhase aeInit conf = some ph) : ph' = ph := by
  have hguard : ∀ {p : Prop} [Decidable p] {x y : Phase},
      (do guard p; return x : Option Phase) = some y → x = y := by
    intro p _ x y h
    by_cases hp : p
    · simpa [guard, hp] using h
    · simp [guard, hp] at h
  obtain ⟨alg, s⟩ := conf
  cases alg with
  | rabin | normalizedRabin | tttd =>
    obtain ⟨avg, havg, hx⟩ := Option.bind_eq_some_iff.mp hnode
    obtain ⟨avg', havg', hy⟩ := Option.bind_eq_some_iff.mp hclient
    obtain rfl := Option.some.inj (havg.symm.trans havg')
    exact (hguard hx).symm.trans (Option.some.inj hy)
  | fixed | ae => exact (hguard hnode).symm.trans (Option.some.inj hclient)
  | file => exact (Option.some.inj hnode).symm.trans (Option.some.inj hclient)

/-- The phases that cut: both Rabin algorithms, and fixed sizes other than zero. -/
theorem exists_cutter (hmin : 0 < conf.sizes.min) (hmax : conf.sizes.min ≤ conf.sizes.max)
    (halg : conf.algorithm = .rabin ∨ conf.algorithm = .normalizedRabin ∨
      conf.algorithm = .fixed ∧ 0 < conf.sizes.avg)
    (hstart : Client.startChunkPhase aeInit conf = some ph) : ∃ C, ph.Cuts C := by
  obtain ⟨alg, s⟩ := conf
  rcases halg with rfl | rfl | ⟨rfl, havg⟩
  · obtain ⟨avg, -, hph⟩ := Option.bind_eq_some_iff.mp hstart
    rw [← Option.some.inj hph]
    exact ⟨contentCutter _ (s := { s with avg := avg }) hmin hmax, rfl, rfl⟩
  · obtain ⟨avg, -, hph⟩ := Option.bind_eq_some_iff.mp hstart
    rw [← Option.some.inj hph]
    exact ⟨contentCutter _ (s := { s with avg := avg }) hmin hmax, rfl, rfl⟩
  · rw [← Option.some.inj hstart]
    exact ⟨fixedCutter havg, rfl, rfl⟩

/-- With fixed chunks of size zero the client takes every file for an empty one. -/
theorem chunkThread_of_maxSize_eq_zero (hph : ph.maxSize = 0) (blocks : List Bytes) :
    Client.chunkThread ph blocks = some [] := by
  have hrefill : ∀ q : List Bytes, Client.refill 0 (.new (defaultBlockSize + 0)) true q =
      some (.new (defaultBlockSize + 0), true, q) := by
    intro q
    cases q <;> exact if_neg (Nat.not_lt_zero _)
  rw [Client.chunkThread, Client.chunkLoop, hph, hrefill]
  rfl

end Start

/-! ## The fingerprints a group is routed by -/

section Routed

variable {c : Client.Chunk} {cs : List Client.Chunk}

private theorem foldl_mem {f : Fingerprint → Client.Chunk → Fingerprint}
    (hf : ∀ m c, f m c = m ∨ f m c = c.fp) (m : Fingerprint) (cs : List Client.Chunk) :
    cs.foldl f m = m ∨ cs.foldl f m ∈ cs.map Client.Chunk.fp := by
  induction cs generalizing m with
  | nil => exact .inl rfl
  | cons c cs ih =>
    rw [List.foldl_cons, List.map_cons, List.mem_cons]
    rcases ih (f m c) with h | h
    · rw [h]
      exact (hf m c).imp_right .inl
    · exact .inr (.inr h)

/-- The smaller of a fingerprint and the initial `0xff…ff` is the fingerprint. -/
private theorem min_fill (fp : Fingerprint) :
    (if Fingerprint.cmp fp (Fingerprint.fill 255) = .lt then fp else Fingerprint.fill 255) = fp := by
  split_ifs with hlt
  · rfl
  · exact (Fingerprint.eq_fill_of_cmp_ne_lt hlt).symm

theorem delegateOfFull_mem (hne : cs ≠ []) : Client.delegateOfFull cs ∈ cs.map Client.Chunk.fp := by
  obtain ⟨c, cs, rfl⟩ := List.exists_cons_of_ne_nil hne
  rw [Client.delegateOfFull, List.foldl_cons, min_fill, List.map_cons, List.mem_cons]
  refine foldl_mem (fun m c ↦ ?_) c.fp cs
  split_ifs
  exacts [.inr rfl, .inl rfl]

theorem delegateOfLast_mem (hne : cs ≠ []) : Client.delegateOfLast cs ∈ cs.map Client.Chunk.fp := by
  obtain ⟨c, cs, rfl⟩ := List.exists_cons_of_ne_nil hne
  have hfirst : (if Fingerprint.cmp c.fp (Fingerprint.fill 255) ≠ .eq then c.fp
      else Fingerprint.fill 255) = c.fp := by
    split_ifs with heq
    · rfl
    · exact (Fingerprint.eq_of_cmp_eq (not_not.mp heq)).symm
  rw [Client.delegateOfLast, List.foldl_cons, hfirst, List.map_cons, List.mem_cons]
  refine foldl_mem (fun m c ↦ ?_) c.fp cs
  split_ifs
  exacts [.inr rfl, .inl rfl]

theorem groupDelegate_mem (hne : cs ≠ []) : Client.groupDelegate cs ∈ cs.map Client.Chunk.fp := by
  rw [Client.groupDelegate]
  split_ifs
  · exact delegateOfFull_mem hne
  · exact delegateOfLast_mem hne

/-- The invariant of the loop that collects the sample units: the units so far, and the open one when it
has chunks, have a fingerprint of a chunk as their feature. -/
private def Sampled (fps : List Fingerprint) (st : ℕ × Client.SampleUnit × List Client.SampleUnit) : Prop :=
  (st.1 % Client.Routing.defaultSampleUnitSize ≠ 0 → st.2.1.feature ∈ fps) ∧
    ∀ u ∈ st.2.2, u.feature ∈ fps

private theorem Sampled.step {fps : List Fingerprint} {st : ℕ × Client.SampleUnit × List Client.SampleUnit}
    (h : Sampled fps st) (groupCnt : ℕ) (last : Bool) :
    Sampled (fps ++ [c.fp]) (Client.Routing.sampleStep groupCnt last st c) := by
  obtain ⟨i, su, units⟩ := st
  obtain ⟨hopen, hunits⟩ := h
  have hunits' : ∀ u ∈ units, u.feature ∈ fps ++ [c.fp] := fun u hu ↦
    List.mem_append_left _ (hunits u hu)
  have hc : c.fp ∈ fps ++ [c.fp] := List.mem_append_right _ (List.mem_singleton_self _)
  -- a unit that has just been opened gets the fingerprint of its first chunk
  have hfeature : ∀ su' : Client.SampleUnit,
      su' = (if i % Client.Routing.defaultSampleUnitSize = 0 then ⟨Fingerprint.fill 255, 0⟩ else su) →
      (if Fingerprint.cmp c.fp su'.feature = .lt then c.fp else su'.feature) ∈ fps ++ [c.fp] := by
    rintro su' rfl
    by_cases hi : i % Client.Routing.defaultSampleUnitSize = 0
    · rw [if_pos hi, min_fill]
      exact hc
    · rw [if_neg hi]
      split_ifs
      · exact hc
      · exact List.mem_append_left _ (hopen hi)
  rw [Client.Routing.sampleStep]
  by_cases hclose : (i + 1) % Client.Routing.defaultSampleUnitSize = 0 ∨ last ∧ i + 1 = groupCnt
  · rw [if_pos hclose]
    refine ⟨fun _ ↦ hfeature _ rfl, fun u hu ↦ ?_⟩
    rcases List.mem_append.mp hu with hu | hu
    · exact hunits' u hu
    · rw [List.mem_singleton.mp hu]
      exact hfeature _ rfl
  · rw [if_neg hclose]
    exact ⟨fun _ ↦ hfeature _ rfl, hunits'⟩

/-- The features of the sample units of a group are fingerprints of its chunks. -/
theorem feature_mem {u : Client.SampleUnit} (hu : u ∈ Client.Routing.sampleUnitList cs) :
    u.feature ∈ cs.map Client.Chunk.fp := by
  have hloop : ∀ (ds : List Client.Chunk) (groupCnt : ℕ) (last : Bool),
      Sampled (ds.map Client.Chunk.fp)
        (ds.foldl (Client.Routing.sampleStep groupCnt last) (0, ⟨Fingerprint.fill 255, 0⟩, [])) := by
    intro ds groupCnt last
    induction ds using List.reverseRecOn with
    | nil => exact ⟨fun h ↦ absurd rfl h, fun u hu ↦ absurd hu List.not_mem_nil⟩
    | append_singleton ds d ih =>
      rw [List.foldl_append, List.map_append]
      exact ih.step groupCnt last
  exact (hloop cs _ _).2 u hu

end Routed

/-! ## Groups are cut again -/

/-- `sha1_thread` of the client. -/
def hashPhase (sha1 : Bytes → Fingerprint) (chunks : List Bytes) : List Client.Chunk :=
  chunks.map fun data ↦ ⟨sha1 data, data⟩

theorem map_data_hashPhase (sha1 : Bytes → Fingerprint) (chunks : List Bytes) :
    (hashPhase sha1 chunks).map Client.Chunk.data = chunks := by
  rw [hashPhase, List.map_map]
  exact List.map_id chunks

theorem chunksData_eq_flatten (cs : List Client.Chunk) :
    Client.chunksData cs = (cs.map Client.Chunk.data).flatten := by
  rw [Client.chunksData, List.flatMap_def]

/-- **A node finds the chunks of a group again.** For every file, every cut of it into blocks and every
routing: the chunk thread of the client ends; and for the group of index `i`, however its bytes come to
the node in blocks, the chunk thread of the node hands over exactly the chunks that the client put into
the group, and the fingerprints the client took from the group are fingerprints of these. -/
theorem rechunked {sha1 : Bytes → Fingerprint} {aeInit : ℕ → ℕ} {conf : Config} {ph : Phase}
    (halg : conf.algorithm = .rabin ∨ conf.algorithm = .normalizedRabin ∨ conf.algorithm = .fixed)
    (hmin : 0 < conf.sizes.min) (hmax : conf.sizes.min ≤ conf.sizes.max)
    (hstart : Client.startChunkPhase aeInit conf = some ph) (filename : Name) (route : Client.Routing)
    {blocks : List Bytes} (hblocks : Client.Blocks blocks) :
    (∀ ph', Node.startChunkPhase aeInit conf = some ph' → ph' = ph) ∧
    ∃ chunks, Client.chunkThread ph blocks = some chunks ∧
      (0 < conf.sizes.avg → chunks.flatten = blocks.flatten) ∧
      ∀ i g, (Client.split2Groups filename route (hashPhase sha1 chunks))[i]? = some g →
        let run := Client.groupRun (hashPhase sha1 chunks) i
        g.data = Client.chunksData run ∧
        (∀ (name : Bytes) (nodeBlocks : List Bytes),
          (∀ block ∈ nodeBlocks, block.length ≤ defaultBlockSize) → nodeBlocks.flatten = g.data →
          ∃ out, Node.chunkThread ph (Node.readFile name nodeBlocks) = some out ∧
            out = Node.Chunk.new .fileStart name ::
              run.map (fun c ↦ Node.Chunk.new .normal c.data) ++ [Node.Chunk.new .fileEnd []] ∧
            Node.hashPhase sha1 out = Node.File.stream sha1 ⟨name, run.map Client.Chunk.data⟩) ∧
        g.delegate ∈ (run.map Client.Chunk.data).map sha1 ∧
        ∀ u ∈ Client.Routing.sampleUnitList run, u.feature ∈ (run.map Client.Chunk.data).map sha1 := by
  refine ⟨fun ph' hnode ↦ startChunkPhase_agree hnode hstart, ?_⟩
  by_cases havg : conf.algorithm = .fixed ∧ conf.sizes.avg = 0
  · -- no chunks, so no groups
    have hph : ph.maxSize = 0 := by
      obtain ⟨alg, s⟩ := conf
      obtain ⟨rfl, hzero⟩ := havg
      rw [← Option.some.inj hstart]
      exact hzero
    refine ⟨[], chunkThread_of_maxSize_eq_zero hph blocks, fun hpos ↦ absurd havg.2 hpos.ne', ?_⟩
    intro i g hg
    have hnil : Client.split2Groups filename route (hashPhase sha1 []) = [] := rfl
    rw [hnil] at hg
    exact absurd hg.symm (Option.some_ne_none g)
  have halg' : conf.algorithm = .rabin ∨ conf.algorithm = .normalizedRabin ∨
      conf.algorithm = .fixed ∧ 0 < conf.sizes.avg := by
    refine halg.imp_right (Or.imp_right fun h ↦ ⟨h, Nat.pos_of_ne_zero fun hzero ↦ havg ⟨h, hzero⟩⟩)
  obtain ⟨C, hC⟩ := exists_cutter hmin hmax halg' hstart
  refine ⟨_, Client.chunkThread_eq hC hblocks, fun _ ↦ C.flatten_chunks _, fun i g hg ↦ ?_⟩
  rw [Client.split2Groups_eq, List.getElem?_map] at hg
  obtain ⟨i', hi', rfl⟩ := Option.map_eq_some_iff.mp hg
  obtain ⟨hi, rfl⟩ := List.getElem?_eq_some_iff.mp hi'
  rw [List.getElem_range] at hg ⊢
  rw [List.length_range] at hi
  obtain ⟨hne, as, bs, hsplit⟩ := Client.groupRun_split hi
  intro run
  have hfps : run.map Client.Chunk.fp = (run.map Client.Chunk.data).map sha1 := by
    rw [List.map_map]
    refine List.map_congr_left fun c hc ↦ ?_
    have hc : c ∈ hashPhase sha1 (C.chunks blocks.flatten) := by
      rw [hsplit]
      exact List.mem_append_right _ (List.mem_append_left _ hc)
    obtain ⟨data, -, rfl⟩ := List.mem_map.mp hc
    rfl
  -- the group is a run of consecutive pieces of the file
  have hpieces : C.chunks blocks.flatten = as.map Client.Chunk.data ++
      (run.map Client.Chunk.data ++ bs.map Client.Chunk.data) := by
    rw [← map_data_hashPhase sha1 (C.chunks blocks.flatten), hsplit, List.map_append, List.map_append]
  refine ⟨rfl, fun name nodeBlocks hnode hbytes ↦ ?_, ?_, fun u hu ↦ ?_⟩
  · have hchunks : C.chunks nodeBlocks.flatten = run.map Client.Chunk.data := by
      rw [hbytes, show (Client.groupOf filename route _ i).data = Client.chunksData run from rfl,
        chunksData_eq_flatten, C.chunks_run hpieces]
    have hthread := Node.chunkThread_readFile hC name hnode
    rw [hchunks] at hthread
    refine ⟨_, hthread, ?_, Node.hashPhase_file sha1 name _⟩
    rw [List.map_map]
    rfl
  · rw [← hfps]
    exact groupDelegate_mem hne
  · rw [← hfps]
    exact feature_mem hu

theorem roundAvg_two_pow (n : ℕ) : roundAvg (2 ^ n) = some (2 ^ n) := by
  rw [roundAvg, if_neg (Nat.two_pow_pos n).ne', Nat.size_pow, Nat.add_sub_cancel, Nat.one_shiftLeft]

/-- A file of six bytes with Rabin chunking, a minimum of two and an average of 128 bytes. The byte 120 is
the break mark, so the file falls into `[1, 0, 120]`, `[2, 120]` and the rest; the node gets the bytes of
the group in other blocks and cuts them at the same places. -/
theorem rechunked_sample :
    let ph : Phase := ⟨rabinChunkData ⟨2, 2 ^ 7, 256⟩, 256⟩
    let sha1 : Bytes → Fingerprint := fun data ↦ Fingerprint.fill (data.headD 0)
    let chunks : List Bytes := [[1, 0, 120], [2, 120], [3]]
    Client.chunkThread ph [[1, 0], [120, 2, 120, 3]] = some chunks ∧
      Node.chunkThread ph (Node.readFile [97] [[1], [0, 120, 2], [120, 3]]) =
        some (Node.Chunk.new .fileStart [97] ::
          chunks.map (Node.Chunk.new .normal) ++ [Node.Chunk.new .fileEnd []]) ∧
      (Client.groupOf ['a'] (fun _ _ _ ↦ 0) (hashPhase sha1 chunks) 0).delegate ∈ chunks.map sha1 := by
  intro ph sha1 chunks
  have hstart : Client.startChunkPhase id ⟨.rabin, ⟨2, 2 ^ 7, 256⟩⟩ = some ph := by
    rw [Client.startChunkPhase]
    exact Option.bind_eq_some_iff.mpr ⟨2 ^ 7, roundAvg_two_pow 7, rfl⟩
  have hblocks : Client.Blocks [[1, 0], [120, 2, 120, 3]] := by
    intro block hblock
    rcases List.mem_cons.mp hblock with rfl | hblock
    · exact ⟨List.cons_ne_nil _ _, by decide⟩
    · rw [List.mem_singleton.mp hblock]
      exact ⟨List.cons_ne_nil _ _, by decide⟩
  have hclient : Client.chunkThread ph [[1, 0], [120, 2, 120, 3]] = some chunks := by
    let C : Cutter UInt8 := contentCutter (s := ⟨2, 2 ^ 7, 256⟩)
      (fun _ fp ↦ fp &&& (BitVec.ofNat 64 (2 ^ 7) - 1) = breakmarkValue) (by decide) (by decide)
    have hfirst : C.chunks [1, 0, 120, 2, 120, 3] = [1, 0, 120] :: C.chunks [2, 120, 3] :=
      C.chunks_append [2, 120, 3] (List.cons_ne_nil 1 [0, 120])
        (show rabinChunkData ⟨2, 2 ^ 7, 256⟩ [1, 0, 120, 2, 120, 3] = 3 by decide +kernel)
    have hsecond : C.chunks [2, 120, 3] = [2, 120] :: C.chunks [3] :=
      C.chunks_append [3] (List.cons_ne_nil 2 [120])
        (show rabinChunkData ⟨2, 2 ^ 7, 256⟩ [2, 120, 3] = 2 by decide +kernel)
    have hlast : C.chunks [3] = [3] :: C.chunks [] :=
      C.chunks_append [] (List.cons_ne_nil 3 [])
        (show rabinChunkData ⟨2, 2 ^ 7, 256⟩ [3] = 1 by decide +kernel)
    rw [Client.chunkThread_eq (C := C) ⟨rfl, rfl⟩ hblocks]
    refine congrArg some (hfirst.trans ?_)
    rw [hsecond, hlast, C.chunks_nil]
  obtain ⟨-, chunks', hthread, -, hgroups⟩ := @rechunked sha1 _ _ _ (.inl rfl) (by decide) (by decide)
    hstart ['a'] (fun _ _ _ ↦ 0) _ hblocks
  obtain rfl : chunks = chunks' := Option.some.inj (hclient.symm.trans hthread)
  obtain ⟨-, hnode, hdelegate, -⟩ := hgroups 0 _ rfl
  obtain ⟨out, hout, rfl, -⟩ := hnode [97] [[1], [0, 120, 2], [120, 3]] (by decide) rfl
  exact ⟨hclient, hout, hdelegate⟩

end UniDedup.Chunking
