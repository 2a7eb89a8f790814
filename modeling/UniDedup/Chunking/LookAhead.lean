import UniDedup.Chunking.Rechunk

/-!
# Chunk boundaries depend on content only

`chunk_thread` calls the chunking function on what happens to be in its buffer: at least the largest chunk,
or all that is left. For an algorithm that is decided by as many bytes as the largest chunk has, the calls
cut the file as one call after the other on the whole rest of it would. All algorithms but asymmetric extremum
chunking are of this kind. `tttd_chunk_data` is no cutter, as it may go back to a break it has passed; but the
loop still ends at the largest chunk size.

Whatever the algorithm, nothing is lost and nothing is made up.
-/

namespace UniDedup.Chunking

/-! ## Two thresholds, two divisors -/

section Tttd

variable {backMask rabinMask : BitVec 64} {p x y : Bytes} {count i m lo : ℕ} {w : Window} {s : Sizes}

/-- A break of the loop is where it started or later, and the backup break is one of those. -/
theorem scanTttd_bounds (hi : lo ≤ i) (hm : m = 0 ∨ lo ≤ m ∧ m ≤ i) :
    lo ≤ scanTttd backMask rabinMask p count i m w ∧ scanTttd backMask rabinMask p count i m w ≤ i + count := by
  induction count generalizing i m w with
  | zero =>
    rw [scanTttd]
    split_ifs <;> omega
  | succ count ih =>
    rw [scanTttd]
    split_ifs
    · omega
    · have hloop := ih (i := i + 1) (m := i) (w := w.slide (byteAt p (i - 1))) (by omega) (.inr ⟨hi, i.le_succ⟩)
      omega
    · have hloop := ih (i := i + 1) (m := m) (w := w.slide (byteAt p (i - 1))) (by omega) (by omega)
      omega

theorem scanTttd_append (hi : 0 < i) (hx : i + count ≤ x.length + 1) :
    scanTttd backMask rabinMask (x ++ y) count i m w = scanTttd backMask rabinMask x count i m w := by
  induction count generalizing i m w with
  | zero => rfl
  | succ count ih =>
    have hbyte : byteAt (x ++ y) (i - 1) = byteAt x (i - 1) := byteAt_append y (by omega)
    rw [scanTttd, scanTttd]
    simp only [hbyte]
    split_ifs
    · rfl
    · exact ih i.succ_pos (by omega)
    · exact ih i.succ_pos (by omega)

theorem le_tttdChunkData (hp : s.min < p.length) : s.min ≤ tttdChunkData s p := by
  rw [tttdChunkData, if_neg (not_le.mpr hp)]
  exact (scanTttd_bounds le_rfl (.inl rfl)).1

theorem tttdChunkData_le (p : Bytes) :
    tttdChunkData s p ≤ p.length ∧ (s.min ≤ s.max → tttdChunkData s p ≤ s.max) := by
  rw [tttdChunkData]
  by_cases hp : p.length ≤ s.min
  · rw [if_pos hp]
    exact ⟨le_rfl, hp.trans⟩
  · rw [if_neg hp]
    dsimp only
    generalize hlast : (if p.length > s.max then s.max else p.length) = last
    have hscan : scanTttd (.ofNat 64 (s.avg / 2) - 1) (.ofNat 64 s.avg - 1) p (last - s.min) s.min 0 .init ≤
        s.min + (last - s.min) := (scanTttd_bounds (le_refl s.min) (.inl rfl)).2
    split_ifs at hlast <;> omega

theorem tttdChunkData_pos (hmin : 0 < s.min) (hp : p ≠ []) : 0 < tttdChunkData s p := by
  by_cases hle : p.length ≤ s.min
  · rw [tttdChunkData, if_pos hle]
    exact List.length_pos_iff.mpr hp
  · exact hmin.trans_le (le_tttdChunkData (not_le.mp hle))

theorem tttdChunkData_append (hmin : 0 < s.min) (hmax : s.min ≤ s.max) (hx : s.max ≤ x.length) :
    tttdChunkData s x = tttdChunkData s (x ++ y) := by
  have hlength : (x ++ y).length = x.length + y.length := List.length_append
  by_cases hle : x.length ≤ s.min
  · -- minimum and maximum are the length of the buffer
    have hxy := (tttdChunkData_le (s := s) (x ++ y)).2 hmax
    rw [tttdChunkData, if_pos hle]
    by_cases hy : y = []
    · rw [hy, List.append_nil, tttdChunkData, if_pos hle]
    · have hpos := List.length_pos_iff.mpr hy
      have hlow := le_tttdChunkData (s := s) (p := x ++ y) (by omega)
      omega
  · have hlast : (if (x ++ y).length > s.max then s.max else (x ++ y).length) =
        if x.length > s.max then s.max else x.length := by
      split_ifs <;> omega
    have hle' : ¬(x ++ y).length ≤ s.min := by omega
    rw [tttdChunkData, tttdChunkData, if_neg hle, if_neg hle']
    dsimp only
    rw [hlast]
    refine (scanTttd_append hmin ?_).symm
    split_ifs <;> omega

end Tttd

/-! ## Asymmetric extremum -/

section Extremum

variable {window maxSize count curr max : ℕ} {p : Bytes}

theorem aeScan_bounds (hcurr : 1 ≤ curr) (hp : curr + count ≤ p.length) :
    1 ≤ aeScan window maxSize p count curr max ∧ aeScan window maxSize p count curr max ≤ p.length := by
  induction count generalizing curr max with
  | zero =>
    rw [aeScan]
    omega
  | succ count ih =>
    rw [aeScan]
    split_ifs
    · exact ih (Nat.le_add_left ..) (by omega)
    · omega
    · exact ih (Nat.le_add_left ..) (by omega)

theorem aeChunkData_bounds (hp : p ≠ []) :
    1 ≤ aeChunkData window maxSize p ∧ aeChunkData window maxSize p ≤ p.length := by
  have hpos := List.length_pos_iff.mpr hp
  rw [aeChunkData]
  split_ifs
  · exact ⟨hpos, le_rfl⟩
  · exact aeScan_bounds le_rfl (by omega)

end Extremum

/-! ## The algorithms -/

/-- A measure that is decided by `maxSize` bytes and cuts chunks of at most that size. -/
structure Phase.LooksAhead (ph : Phase) : Prop extends ph.Takes where
  le_max : ∀ x, ph.chunking x ≤ ph.maxSize
  append : ∀ x y, ph.maxSize ≤ x.length → ph.chunking x = ph.chunking (x ++ y)

theorem Phase.Cuts.looksAhead {ph : Phase} {C : Cutter UInt8} (hC : ph.Cuts C) : ph.LooksAhead where
  toTakes := hC.takes
  le_max x := hC.1 ▸ hC.2 ▸ C.le_max x
  append x y hx := by
    rw [hC.1]
    exact C.size_of_lookAhead y (hC.2 ▸ hx)

theorem tttd_looksAhead {s : Sizes} (hmin : 0 < s.min) (hmax : s.min ≤ s.max) :
    Phase.LooksAhead ⟨tttdChunkData s, s.max⟩ where
  pos _ hx := tttdChunkData_pos hmin hx
  le_length x := (tttdChunkData_le x).1
  max_pos := hmin.trans_le hmax
  le_max x := (tttdChunkData_le x).2 hmax
  append _ _ hx := tttdChunkData_append hmin hmax hx

section Phases

variable {aeInit : ℕ → ℕ} {conf : Config} {ph : Phase}

/-- All algorithms but one look ahead no further than the largest chunk. -/
theorem looksAhead_of_start (hmin : 0 < conf.sizes.min) (hmax : conf.sizes.min ≤ ph.maxSize)
    (halg : conf.algorithm ≠ .ae) (hstart : Client.startChunkPhase aeInit conf = some ph) : ph.LooksAhead := by
  obtain ⟨alg, s⟩ := conf
  cases alg with
  | rabin =>
    obtain ⟨avg, -, hph⟩ := Option.bind_eq_some_iff.mp hstart
    obtain rfl := Option.some.inj hph
    exact Phase.Cuts.looksAhead (C := contentCutter _ (s := { s with avg := avg }) hmin hmax) ⟨rfl, rfl⟩
  | normalizedRabin =>
    obtain ⟨avg, -, hph⟩ := Option.bind_eq_some_iff.mp hstart
    obtain rfl := Option.some.inj hph
    exact Phase.Cuts.looksAhead (C := contentCutter _ (s := { s with avg := avg }) hmin hmax) ⟨rfl, rfl⟩
  | tttd =>
    obtain ⟨avg, -, hph⟩ := Option.bind_eq_some_iff.mp hstart
    obtain rfl := Option.some.inj hph
    exact tttd_looksAhead (s := { s with avg := avg }) hmin hmax
  | fixed =>
    obtain rfl := Option.some.inj hstart
    exact Phase.Cuts.looksAhead (C := fixedCutter (s := s) (hmin.trans_le hmax)) ⟨rfl, rfl⟩
  | file =>
    obtain rfl := Option.some.inj hstart
    have havg : 0 < 4194304 - 32768 := by decide
    exact Phase.Cuts.looksAhead (C := fixedCutter (s := { s with avg := 4194304 - 32768 }) havg) ⟨rfl, rfl⟩
  | ae => exact absurd rfl halg

/-- Every algorithm takes a part of the buffer, and something as long as there is something. -/
theorem takes_of_start (hmin : conf.algorithm.ContentDefined → 0 < conf.sizes.min) (hmax : 0 < ph.maxSize)
    (hstart : Client.startChunkPhase aeInit conf = some ph) : ph.Takes := by
  obtain ⟨alg, s⟩ := conf
  cases alg with
  | rabin =>
    obtain ⟨avg, -, hph⟩ := Option.bind_eq_some_iff.mp hstart
    obtain rfl := Option.some.inj hph
    exact ⟨fun _ ↦ contentChunkData_pos _ (s := { s with avg := avg }) (hmin (.inl rfl)),
      contentChunkData_le_length _, hmax⟩
  | normalizedRabin =>
    obtain ⟨avg, -, hph⟩ := Option.bind_eq_some_iff.mp hstart
    obtain rfl := Option.some.inj hph
    exact ⟨fun _ ↦ contentChunkData_pos _ (s := { s with avg := avg }) (hmin (.inr (.inl rfl))),
      contentChunkData_le_length _, hmax⟩
  | tttd =>
    obtain ⟨avg, -, hph⟩ := Option.bind_eq_some_iff.mp hstart
    obtain rfl := Option.some.inj hph
    exact ⟨fun _ ↦ tttdChunkData_pos (s := { s with avg := avg }) (hmin (.inr (.inr rfl))),
      fun x ↦ (tttdChunkData_le x).1, hmax⟩
  | fixed =>
    obtain rfl := Option.some.inj hstart
    exact Phase.Cuts.takes (C := fixedCutter (s := s) hmax) ⟨rfl, rfl⟩
  | file =>
    obtain rfl := Option.some.inj hstart
    exact Phase.Cuts.takes (C := fixedCutter (s := { s with avg := 4194304 - 32768 }) hmax) ⟨rfl, rfl⟩
  | ae =>
    obtain rfl := Option.some.inj hstart
    refine ⟨fun x hx ↦ (aeChunkData_bounds hx).1, fun x ↦ ?_, hmax⟩
    by_cases hx : x = []
    · rw [hx]
      exact le_rfl
    · exact (aeChunkData_bounds hx).2

/-- The content-defined algorithms leave no chunk below the minimum but the rest of a file. -/
theorem min_le_chunking (halg : conf.algorithm = .rabin ∨ conf.algorithm = .normalizedRabin ∨ conf.algorithm = .tttd)
    (hmax : conf.sizes.min ≤ ph.maxSize) (hstart : Client.startChunkPhase aeInit conf = some ph) {x : Bytes}
    (hx : ph.maxSize ≤ x.length ∨ ph.chunking x < x.length) : conf.sizes.min ≤ ph.chunking x := by
  have hshort : (x.length ≤ conf.sizes.min → ph.chunking x = x.length) ∧
      (conf.sizes.min < x.length → conf.sizes.min ≤ ph.chunking x) := by
    obtain ⟨alg, s⟩ := conf
    rcases halg with rfl | rfl | rfl <;> obtain ⟨avg, -, hph⟩ := Option.bind_eq_some_iff.mp hstart <;>
      obtain rfl := Option.some.inj hph
    · exact ⟨fun h ↦ if_pos h, le_contentChunkData _ (s := { s with avg := avg })⟩
    · exact ⟨fun h ↦ if_pos h, le_contentChunkData _ (s := { s with avg := avg })⟩
    · exact ⟨fun h ↦ if_pos h, le_tttdChunkData (s := { s with avg := avg })⟩
  by_cases hle : x.length ≤ conf.sizes.min
  · have hsize := hshort.1 hle
    omega
  · exact hshort.2 (not_le.mp hle)

end Phases

/-! ## The chunks of a file -/

/-- The chunks of a file when every call of the chunking function gets all that is left of it. -/
def Phase.cut (ph : Phase) (content : Bytes) : List Bytes := pieces ph.chunking content.length content

namespace Phase.LooksAhead

variable {ph : Phase} {content : Bytes} {chunks : List Bytes}

theorem cut_spec (h : ph.LooksAhead) (content : Bytes) : Cut ph.chunking ph.maxSize content (ph.cut content) :=
  cut_pieces h.pos le_rfl

theorem eq_cut (h : ph.LooksAhead) (hcut : Cut ph.chunking ph.maxSize content chunks) : chunks = ph.cut content :=
  hcut.unique h.le_length h.append (h.cut_spec content)

theorem length_take (h : ph.LooksAhead) (x : Bytes) : (x.take (ph.chunking x)).length = ph.chunking x := by
  rw [List.length_take, Nat.min_eq_left (h.le_length x)]

/-- The client cuts a file as a whole, whatever blocks it was read in. -/
theorem client_chunkThread (h : ph.LooksAhead) {blocks : List Bytes} (hblocks : Client.Blocks blocks) :
    Client.chunkThread ph blocks = some (ph.cut blocks.flatten) := by
  obtain ⟨chunks, hthread, hcut⟩ := Client.chunkThread_cut h.toTakes hblocks
  rw [hthread, h.eq_cut hcut]

theorem node_chunkThread (h : ph.LooksAhead) {files : List (Bytes × List Bytes)}
    (hfiles : ∀ f ∈ files, ∀ block ∈ f.2, block.length ≤ defaultBlockSize) :
    Node.chunkThread ph (files.flatMap fun f ↦ Node.readFile f.1 f.2) =
      some (files.flatMap fun f ↦ Node.chunkedFile f.1 (ph.cut f.2.flatten)) := by
  obtain ⟨chunks, hall, hthread⟩ := Node.chunkThread_cut h.toTakes h.le_max hfiles
  have hout : (List.zipWith (fun f cs ↦ Node.chunkedFile f.1 cs) files chunks).flatten =
      files.flatMap fun f ↦ Node.chunkedFile f.1 (ph.cut f.2.flatten) := by
    clear hthread hfiles
    induction hall with
    | nil => rfl
    | cons hcut _ ih => rw [List.zipWith_cons_cons, List.flatten_cons, List.flatMap_cons, ih, h.eq_cut hcut]
  rw [hthread, hout]

end Phase.LooksAhead

/-- **Chunk boundaries depend on content only.** For every algorithm but asymmetric extremum chunking there is one
list of chunks for every byte string. The client hands over this list in whatever blocks the bytes are read, and
so does a node for every file between its markers; neither overruns its buffer. The chunks make up the bytes,
none is above the maximum, and with content-defined chunking none but the last is below the minimum. -/
theorem chunks_by_content {aeInit : ℕ → ℕ} {conf : Config} {ph : Phase} (halg : conf.algorithm ≠ .ae)
    (hmin : 0 < conf.sizes.min) (hmax : conf.sizes.min ≤ ph.maxSize)
    (hstart : Client.startChunkPhase aeInit conf = some ph) :
    (∀ ph', Node.startChunkPhase aeInit conf = some ph' → ph' = ph) ∧
      (∀ blocks, Client.Blocks blocks → Client.chunkThread ph blocks = some (ph.cut blocks.flatten)) ∧
      (∀ files : List (Bytes × List Bytes), (∀ f ∈ files, Client.Blocks f.2) →
        Node.chunkThread ph (files.flatMap fun f ↦ Node.readFile f.1 f.2) =
          some (files.flatMap fun f ↦ Node.chunkedFile f.1 (ph.cut f.2.flatten))) ∧
      ∀ content, (ph.cut content).flatten = content ∧ (∀ c ∈ ph.cut content, c.length ≤ ph.maxSize) ∧
        (conf.algorithm = .rabin ∨ conf.algorithm = .normalizedRabin ∨ conf.algorithm = .tttd →
          ∀ c ∈ (ph.cut content).dropLast, conf.sizes.min ≤ c.length) := by
  have h := looksAhead_of_start hmin hmax halg hstart
  refine ⟨fun ph' hnode ↦ startChunkPhase_agree hnode hstart, fun blocks hblocks ↦ h.client_chunkThread hblocks,
    fun files hfiles ↦ h.node_chunkThread fun f hf block hblock ↦ (hfiles f hf block hblock).2, fun content ↦ ?_⟩
  have hcut := h.cut_spec content
  refine ⟨hcut.flatten_eq, hcut.of_mem fun x _ ↦ ?_, fun hcdc ↦ hcut.of_mem_dropLast fun x _ hx ↦ ?_⟩
  · rw [h.length_take]
    exact h.le_max x
  · rw [h.length_take]
    exact min_le_chunking hcdc hmax hstart hx

/-- Two ways of reading three bytes, with TTTD chunking from one to two bytes. -/
theorem chunks_by_content_sample :
    Client.chunkThread ⟨tttdChunkData ⟨1, 2 ^ 0, 2⟩, 2⟩ [[1], [2, 3]] =
      Client.chunkThread ⟨tttdChunkData ⟨1, 2 ^ 0, 2⟩, 2⟩ [[1, 2], [3]] := by
  have hstart : Client.startChunkPhase id ⟨.tttd, ⟨1, 2 ^ 0, 2⟩⟩ = some ⟨tttdChunkData ⟨1, 2 ^ 0, 2⟩, 2⟩ := by
    rw [Client.startChunkPhase]
    exact Option.bind_eq_some_iff.mpr ⟨2 ^ 0, roundAvg_two_pow 0, rfl⟩
  have h := (chunks_by_content (by decide) (by decide) (by decide) hstart).2.1
  have hblocks : ∀ a b : Bytes, a ≠ [] → b ≠ [] → a.length ≤ 2 → b.length ≤ 2 → Client.Blocks [a, b] := by
    intro a b ha hb hla hlb block hblock
    rcases List.mem_cons.mp hblock with rfl | hblock
    · exact ⟨ha, hla.trans (by decide)⟩
    · rw [List.mem_singleton.mp hblock]
      exact ⟨hb, hlb.trans (by decide)⟩
  rw [h _ (hblocks [1] [2, 3] (by decide) (by decide) (by decide) (by decide)),
    h _ (hblocks [1, 2] [3] (by decide) (by decide) (by decide) (by decide))]
  rfl

end UniDedup.Chunking
