import UniDedup.Node.RecipeWriting

/-!
# Reading a version

Reading follows the bytes in the order they were written: every reading function takes the encoding of a
value off the front of the stream and returns the value. The markers of segments are records of the
recipe file like the pointers; their ids are negative, so that reading pointers passes over them and over
nothing else. The counters of what has been read are `int` variables, which limits the files and the
pointers of a version that can be read back.

## The reader's side

A reader is described by what lies ahead of it: `Ahead ps r` says that the pointers `ps` are still to come, whatever
has been read, so a batch of any size is one step and the loop an induction on what is left. `Opened` is what the
header of a file gives. Both are met by the files of `RecipeWriting`, and the round trip is the two modules put
together.
-/

namespace UniDedup.Node

open Outcome Stdio

theorem addInt_eq_ok {w : ℕ} {x y z : ℤ} : addInt w x y = .ok z ↔
    (-2 ^ (w - 1) ≤ x + y ∧ x + y < 2 ^ (w - 1)) ∧ z = x + y := by
  unfold addInt
  rw [bind_eq_ok]
  constructor
  · rintro ⟨_, hc, hz⟩
    cases hz
    exact ⟨check_eq_ok.mp hc, rfl⟩
  · rintro ⟨hc, rfl⟩
    exact ⟨⟨⟩, check_eq_ok.mpr hc, rfl⟩

/-! ## Values -/

/-- The function takes the bytes `bs` off a stream and returns `a`. -/
def Takes {α : Type} (read : Handle → Except StoreFault (α × Handle)) (bs : Bytes) (a : α) : Prop :=
  ∀ fp r, fp.rest = bs ++ r → ∃ fp', read fp = .ok (a, fp') ∧ fp'.rest = r

theorem takes_readBytes {bs : Bytes} {n : ℕ} (hn : bs.length = n) :
    Takes (readBytes · n) bs bs := by
  intro fp r h
  obtain ⟨hread, hrest⟩ := Handle.read_eq h hn
  refine ⟨_, ?_, hrest⟩
  dsimp only
  rw [readBytes, hread]
  rfl

theorem takes_readInt {w : ℕ} {x : ℤ} (hlo : -256 ^ w ≤ x * 2) (hhi : x * 2 < 256 ^ w) :
    Takes (readInt · w) (Word.le w x) x := by
  intro fp r h
  obtain ⟨fp', hread, hrest⟩ := takes_readBytes (Word.length_le w x) fp r h
  refine ⟨fp', ?_, hrest⟩
  dsimp only at hread ⊢
  rw [readInt, hread]
  exact congrArg (fun y ↦ Except.ok (y, fp')) (Word.signed_le hlo hhi)

theorem takes_readString {s : Bytes} (hlen : s.length + 1 < 2 ^ 31) :
    Takes readString (Word.le 4 s.length ++ s) (cString s) := by
  intro fp r h
  rw [List.append_assoc] at h
  obtain ⟨fp₁, hread₁, hrest₁⟩ := takes_readInt (by omega) (by omega) fp _ h
  obtain ⟨fp₂, hread₂, hrest₂⟩ := takes_readBytes rfl fp₁ r hrest₁
  refine ⟨fp₂, ?_, hrest₂⟩
  dsimp only at hread₁ hread₂
  rw [readString]
  refine bind_eq_ok.mpr ⟨_, hread₁, ?_⟩
  refine bind_eq_ok.mpr ⟨⟨⟩, check_eq_ok.mpr (by omega), ?_⟩
  exact bind_eq_ok.mpr ⟨_, hread₂, rfl⟩

theorem length_lt_of_readString {s r : Bytes} {fp : Handle} {p : Bytes × Handle}
    (h : fp.rest = Word.le 4 s.length ++ r) (hlen : s.length < 2 ^ 31) (hread : readString fp = .ok p) :
    s.length + 1 < 2 ^ 31 := by
  obtain ⟨fp', hint, -⟩ := takes_readInt (by omega) (by omega) fp _ h
  rw [readString] at hread
  obtain ⟨q, hq, hread⟩ := bind_eq_ok.mp hread
  obtain rfl : ((s.length : ℤ), fp') = q := Except.ok.inj (hint.symm.trans hq)
  obtain ⟨_, hcheck, -⟩ := bind_eq_ok.mp hread
  have := (check_eq_ok.mp hcheck).2
  omega

/-- The integers of a record fit into their fields. -/
structure Pointer.Typed (cp : Pointer) : Prop where
  id : -2 ^ 63 ≤ cp.id ∧ cp.id < 2 ^ 63
  size : -2 ^ 31 ≤ cp.size ∧ cp.size < 2 ^ 31

theorem takes_readPointer {cp : Pointer} (h : cp.Typed) : Takes readPointer cp.encode cp := by
  intro fp r hrest
  have hid := h.id
  have hsize := h.size
  rw [Pointer.encode, List.append_assoc, List.append_assoc] at hrest
  obtain ⟨fp₁, hread₁, hrest₁⟩ := takes_readBytes cp.fp.2 fp _ hrest
  obtain ⟨fp₂, hread₂, hrest₂⟩ := takes_readInt (by omega) (by omega) fp₁ _ hrest₁
  obtain ⟨fp₃, hread₃, hrest₃⟩ := takes_readInt (by omega) (by omega) fp₂ _ hrest₂
  refine ⟨fp₃, ?_, hrest₃⟩
  dsimp only at hread₁ hread₂ hread₃
  rw [readPointer]
  refine bind_eq_ok.mpr ⟨_, hread₁, ?_⟩
  refine bind_eq_ok.mpr ⟨cp.fp, getOr_eq_ok.mpr (dif_pos cp.fp.2), ?_⟩
  refine bind_eq_ok.mpr ⟨_, hread₂, ?_⟩
  exact bind_eq_ok.mpr ⟨_, hread₃, rfl⟩

/-! ## The pointers -/

theorem Pointer.isFlag_iff {cp : Pointer} :
    cp.isFlag = true ↔ cp.id = segmentStartId ∨ cp.id = segmentEndId := by
  simp [isFlag]

/-- The records of a recipe that are no segment boundaries. -/
def pointersOf (cps : List Pointer) : List Pointer := cps.filter fun cp ↦ !cp.isFlag

def pointerBytes (cps : List Pointer) : Bytes := cps.flatMap Pointer.encode

theorem length_pointerBytes (cps : List Pointer) :
    (pointerBytes cps).length = recordSize * cps.length := by
  induction cps with
  | nil => rfl
  | cons cp cps ih =>
    rw [pointerBytes, List.flatMap_cons, List.length_append, Pointer.length_encode, ← pointerBytes, ih,
      List.length_cons, Nat.mul_succ, Nat.add_comm]

/-- **Reading pointers passes over the segment boundaries** and stops behind the last pointer. -/
theorem readPointers_eq {cps : List Pointer} (htyped : ∀ cp ∈ cps, cp.Typed) {left num : ℕ}
    (hleft : cps.length ≤ left) (hnum : num ≤ (pointersOf cps).length) {fp : Handle}
    (hfp : fp.rest = pointerBytes cps) :
    ∃ fp' cps', readPointers left num fp = .ok ((pointersOf cps).take num, fp') ∧
      fp'.rest = pointerBytes cps' ∧ pointersOf cps' = (pointersOf cps).drop num ∧
      ∀ cp ∈ cps', cp ∈ cps := by
  induction cps generalizing left num fp with
  | nil =>
    obtain rfl : num = 0 := Nat.le_zero.mp hnum
    exact ⟨fp, [], by rw [readPointers]; rfl, hfp, rfl, fun _ h ↦ h⟩
  | cons cp cps ih =>
    cases num with
    | zero => exact ⟨fp, cp :: cps, by rw [readPointers]; rfl, hfp, rfl, fun _ h ↦ h⟩
    | succ num =>
      obtain ⟨left, rfl⟩ := Nat.exists_eq_succ_of_ne_zero
        (Nat.ne_of_gt (Nat.lt_of_lt_of_le (Nat.succ_pos cps.length) hleft))
      rw [List.length_cons, Nat.succ_le_succ_iff] at hleft
      have htail : ∀ cp' ∈ cps, cp'.Typed := fun cp' h ↦ htyped cp' (List.mem_cons_of_mem _ h)
      obtain ⟨fp₁, hread, hrest⟩ := takes_readPointer (htyped cp List.mem_cons_self) fp _ hfp
      cases hflag : cp.isFlag with
      | true =>
        have hps : pointersOf (cp :: cps) = pointersOf cps := List.filter_cons_of_neg (by simp [hflag])
        rw [hps] at hnum ⊢
        obtain ⟨fp', cps', hrec, hrest', hdrop, hsub⟩ := ih htail hleft hnum hrest
        refine ⟨fp', cps', ?_, hrest', hdrop, fun cp' h ↦ List.mem_cons_of_mem _ (hsub cp' h)⟩
        rw [readPointers]
        refine bind_eq_ok.mpr ⟨_, hread, ?_⟩
        dsimp only
        rw [if_pos hflag]
        exact hrec
      | false =>
        have hps : pointersOf (cp :: cps) = cp :: pointersOf cps :=
          List.filter_cons_of_pos (by simp [hflag])
        rw [hps, List.length_cons, Nat.succ_le_succ_iff] at hnum
        obtain ⟨fp', cps', hrec, hrest', hdrop, hsub⟩ := ih htail hleft hnum hrest
        refine ⟨fp', cps', ?_, hrest', ?_, fun cp' h ↦ List.mem_cons_of_mem _ (hsub cp' h)⟩
        · rw [readPointers]
          refine bind_eq_ok.mpr ⟨_, hread, ?_⟩
          dsimp only
          rw [if_neg (by simp [hflag]), hps]
          exact bind_eq_ok.mpr ⟨_, hrec, rfl⟩
        · rw [hps, hdrop]
          rfl

namespace RecipeReader

/-- The reader has the pointers `ps` before it. -/
structure Ahead (ps : List Pointer) (r : RecipeReader) : Prop where
  records : ∃ cps, r.bv.recipeFp.rest = pointerBytes cps ∧ pointersOf cps = ps ∧ ∀ cp ∈ cps, cp.Typed
  count : r.readChunkNum + ps.length = r.bv.numberOfChunks
  start : 0 ≤ r.readChunkNum

variable {r r' : RecipeReader} {ps : List Pointer} {n : ℤ}

theorem Ahead.readNextNChunkPointers (h : r.Ahead ps) (hsmall : r.bv.numberOfChunks < 2 ^ 31)
    (hne : ps ≠ []) (hn : 1 ≤ n) :
    ∃ r', r.readNextNChunkPointers n = .ok (ps.take n.toNat, r') ∧ r'.Ahead (ps.drop n.toNat) ∧
      r'.bv.numberOfChunks = r.bv.numberOfChunks := by
  obtain ⟨cps, hrest, hps, htyped⟩ := h.records
  have hcount := h.count
  have hstart := h.start
  have hpos : 0 < ps.length := List.length_pos_iff.mpr hne
  have hleft : r.bv.recipeFp.rest.length / recordSize = cps.length := by
    rw [hrest, length_pointerBytes]
    exact Nat.mul_div_cancel_left _ (by decide)
  have hnum : (if r.bv.numberOfChunks - r.readChunkNum > n then n
      else r.bv.numberOfChunks - r.readChunkNum) = (min n.toNat ps.length : ℕ) := by
    split_ifs <;> omega
  obtain ⟨fp', cps', hread, hrest', hdrop, hsub⟩ := readPointers_eq htyped hleft.ge
    (show min n.toNat ps.length ≤ (pointersOf cps).length by rw [hps]; exact Nat.min_le_right _ _) hrest
  have hmin := Nat.min_le_right n.toNat ps.length
  have htake : ps.take (min n.toNat ps.length) = ps.take n.toNat := List.take_eq_take_iff.mpr (by omega)
  have hdrop' : ps.drop (min n.toNat ps.length) = ps.drop n.toNat := by
    rcases Nat.le_total n.toNat ps.length with hle | hle
    · rw [Nat.min_eq_left hle]
    · rw [Nat.min_eq_right hle, List.drop_length, List.drop_eq_nil_of_le hle]
  rw [hps, htake] at hread
  rw [hps, hdrop'] at hdrop
  refine ⟨⟨{ r.bv with recipeFp := fp' }, r.readFileNum,
    r.readChunkNum + (min n.toNat ps.length : ℕ)⟩, ?_, ⟨⟨cps', hrest', hdrop, fun cp hcp ↦
      htyped cp (hsub cp hcp)⟩, ?_, by dsimp only; omega⟩, rfl⟩
  · unfold RecipeReader.readNextNChunkPointers
    rw [if_neg (by omega)]
    dsimp only
    rw [hnum, Int.toNat_natCast]
    refine bind_eq_ok.mpr ⟨_, hread, ?_⟩
    refine bind_eq_ok.mpr ⟨_, addInt_eq_ok.mpr ⟨by omega, rfl⟩, ?_⟩
    exact bind_eq_ok.mpr ⟨⟨⟩, check_eq_ok.mpr (by omega), rfl⟩
  · dsimp only
    rw [List.length_drop]
    omega

/-- **Batches of any size give all pointers.** -/
theorem Ahead.readsAll (h : r.Ahead ps) (hsmall : r.bv.numberOfChunks < 2 ^ 31) (hn : 1 ≤ n) :
    ReadsAll n r ps := by
  induction hlen : ps.length using Nat.strong_induction_on generalizing r ps with
  | _ m ih =>
    by_cases hne : ps = []
    · subst hne
      have hend : r.readNextNChunkPointers n = .ok ([], r) := by
        have hcount := h.count
        rw [RecipeReader.readNextNChunkPointers, if_pos (by simpa using hcount)]
      exact .done hend
    · obtain ⟨r', hread, h', hnum⟩ := h.readNextNChunkPointers hsmall hne hn
      have hpos : 0 < ps.length := List.length_pos_iff.mpr hne
      have hrest := ih (ps.drop n.toNat).length (by rw [List.length_drop]; omega) h'
        (hnum ▸ hsmall) rfl
      have hbatch : ps.take n.toNat ≠ [] := by
        intro hnil
        have := congrArg List.length hnil
        rw [List.length_take, List.length_nil] at this
        omega
      have hall := ReadsAll.batch hbatch hread hrest
      rwa [List.take_append_drop] at hall

theorem readPointers_ne_nil {left num : ℕ} {fp fp' : Handle} :
    readPointers left (num + 1) fp ≠ .ok ([], fp') := by
  induction left generalizing fp with
  | zero => simp [readPointers]
  | succ left ih =>
    intro h
    rw [readPointers] at h
    obtain ⟨⟨cp, fp₁⟩, -, h⟩ := bind_eq_ok.mp h
    dsimp only at h
    split_ifs at h
    · exact ih h
    · obtain ⟨q, -, h⟩ := bind_eq_ok.mp h
      cases h

theorem readNextNChunkPointers_cases {cps : List Pointer}
    (h : r.readNextNChunkPointers n = .ok (cps, r')) :
    r.readChunkNum = r.bv.numberOfChunks ∧ cps = [] ∨
      (cps = [] → r.bv.numberOfChunks - r.readChunkNum ≤ 0 ∨ n ≤ 0) ∧ r'.readChunkNum < 2 ^ 31 ∧
      r'.bv.numberOfChunks = r.bv.numberOfChunks := by
  unfold readNextNChunkPointers at h
  by_cases hend : r.readChunkNum = r.bv.numberOfChunks
  · rw [if_pos hend] at h
    cases h
    exact .inl ⟨hend, rfl⟩
  · rw [if_neg hend] at h
    dsimp only at h
    obtain ⟨⟨cps₁, fp⟩, hread, h⟩ := bind_eq_ok.mp h
    obtain ⟨count, hcount, h⟩ := bind_eq_ok.mp h
    obtain ⟨_, -, h⟩ := bind_eq_ok.mp h
    obtain ⟨⟨-, hlt⟩, rfl⟩ := addInt_eq_ok.mp hcount
    cases h
    refine .inr ⟨?_, hlt, rfl⟩
    rintro rfl
    by_contra hpos
    obtain ⟨num, hnum⟩ : ∃ num : ℕ, (if r.bv.numberOfChunks - r.readChunkNum > n then n
        else r.bv.numberOfChunks - r.readChunkNum).toNat = num + 1 := by
      refine Nat.exists_eq_succ_of_ne_zero ?_
      split_ifs <;> omega
    rw [hnum] at hread
    exact readPointers_ne_nil hread

/-- Reading can only end where the counter has come to the number of pointers. -/
theorem lt_of_readsAll (h : ReadsAll n r ps) (hn : 1 ≤ n) (hr : r.readChunkNum < 2 ^ 31) :
    r.bv.numberOfChunks < 2 ^ 31 := by
  induction h with
  | done h =>
    rcases readNextNChunkPointers_cases h with ⟨heq, -⟩ | ⟨hempty, -⟩
    · omega
    · have := hempty rfl
      omega
  | batch hne h _ ih =>
    rcases readNextNChunkPointers_cases h with ⟨-, hnil⟩ | ⟨-, hlt, hnum⟩
    · exact absurd hnil hne
    · rw [← hnum]
      exact ih hlt

end RecipeReader

/-! ## The file list -/

/-- The fields of a file entry fit, and its name is a C string. -/
structure FileMeta.Typed (m : FileMeta) : Prop where
  name : 0 ∉ m.filename
  length : m.filename.length + 1 < 2 ^ 31
  chunknum : -2 ^ 63 ≤ m.chunknum ∧ m.chunknum < 2 ^ 63
  filesize : -2 ^ 63 ≤ m.filesize ∧ m.filesize < 2 ^ 63

namespace RecipeReader

variable {r r' : RecipeReader} {ms : List FileMeta}

theorem readNextFileRecipeMeta_eq {m : FileMeta} (hm : m.Typed) {rest : Bytes}
    (hrest : r.bv.metadataFp.rest = m.encode ++ rest) (hnum : r.readFileNum < r.bv.numberOfFiles)
    (hpos : 0 ≤ r.readFileNum) (hsmall : r.bv.numberOfFiles < 2 ^ 31) :
    ∃ fp, r.readNextFileRecipeMeta = .ok (m, { r with
      bv := { r.bv with metadataFp := fp }, readFileNum := r.readFileNum + 1 }) ∧ fp.rest = rest := by
  have hchunknum := hm.chunknum
  have hfilesize := hm.filesize
  rw [FileMeta.encode, List.append_assoc, List.append_assoc] at hrest
  obtain ⟨fp₁, hread₁, hrest₁⟩ := takes_readString hm.length _ _ hrest
  obtain ⟨fp₂, hread₂, hrest₂⟩ := takes_readInt (by omega) (by omega) fp₁ _ hrest₁
  obtain ⟨fp₃, hread₃, hrest₃⟩ := takes_readInt (by omega) (by omega) fp₂ _ hrest₂
  rw [cString_eq hm.name] at hread₁
  refine ⟨fp₃, ?_, hrest₃⟩
  unfold readNextFileRecipeMeta
  refine bind_eq_ok.mpr ⟨⟨⟩, check_eq_ok.mpr hnum.le, ?_⟩
  refine bind_eq_ok.mpr ⟨_, hread₁, ?_⟩
  refine bind_eq_ok.mpr ⟨_, hread₂, ?_⟩
  refine bind_eq_ok.mpr ⟨_, hread₃, ?_⟩
  exact bind_eq_ok.mpr ⟨_, addInt_eq_ok.mpr ⟨by omega, rfl⟩, rfl⟩

/-- **The file list is read back.** -/
theorem readFileRecipeMetas_eq (hms : ∀ m ∈ ms, m.Typed)
    (hrest : r.bv.metadataFp.rest = ms.flatMap FileMeta.encode) (hpos : 0 ≤ r.readFileNum)
    (hnum : r.readFileNum + ms.length = r.bv.numberOfFiles) (hsmall : r.bv.numberOfFiles < 2 ^ 31) :
    ∃ r', r.readFileRecipeMetas ms.length = .ok (ms, r') ∧ r'.bv.recipeFp = r.bv.recipeFp ∧
      r'.bv.numberOfChunks = r.bv.numberOfChunks ∧ r'.readChunkNum = r.readChunkNum := by
  induction ms generalizing r with
  | nil => exact ⟨r, rfl, rfl, rfl, rfl⟩
  | cons m ms ih =>
    rw [List.length_cons] at hnum
    obtain ⟨fp, hread, hfp⟩ := readNextFileRecipeMeta_eq (hms m List.mem_cons_self) hrest (by omega) hpos
      hsmall
    obtain ⟨r', hrec, hframe⟩ := ih (r := { r with
      bv := { r.bv with metadataFp := fp }, readFileNum := r.readFileNum + 1 })
      (fun m' hm' ↦ hms m' (List.mem_cons_of_mem _ hm')) hfp (by dsimp only; omega)
      (by dsimp only; omega) hsmall
    refine ⟨r', ?_, hframe⟩
    rw [List.length_cons, readFileRecipeMetas]
    refine bind_eq_ok.mpr ⟨_, hread, ?_⟩
    exact bind_eq_ok.mpr ⟨_, hrec, rfl⟩

theorem readFileNum_of_readFileRecipeMetas {n : ℕ} (h : r.readFileRecipeMetas n = .ok (ms, r')) :
    r'.readFileNum = r.readFileNum + n ∧ (n = 0 ∨ r'.readFileNum < 2 ^ 31) ∧
      r'.bv.numberOfChunks = r.bv.numberOfChunks ∧ r'.readChunkNum = r.readChunkNum := by
  induction n generalizing r ms with
  | zero =>
    cases h
    simp
  | succ n ih =>
    rw [readFileRecipeMetas] at h
    obtain ⟨⟨m, r₁⟩, hread, h⟩ := bind_eq_ok.mp h
    obtain ⟨⟨ms₁, r₂⟩, hrec, h⟩ := bind_eq_ok.mp h
    cases h
    unfold readNextFileRecipeMeta at hread
    obtain ⟨_, -, hread⟩ := bind_eq_ok.mp hread
    obtain ⟨_, -, hread⟩ := bind_eq_ok.mp hread
    obtain ⟨_, -, hread⟩ := bind_eq_ok.mp hread
    obtain ⟨_, -, hread⟩ := bind_eq_ok.mp hread
    obtain ⟨_, hcount, hread⟩ := bind_eq_ok.mp hread
    obtain ⟨⟨-, hlt⟩, rfl⟩ := addInt_eq_ok.mp hcount
    cases hread
    obtain ⟨hnum, hor, hframe⟩ := ih hrec
    dsimp only at hnum
    refine ⟨?_, .inr ?_, hframe⟩
    · rw [hnum, Nat.cast_succ]
      omega
    · rcases hor with rfl | hor
      · rw [hnum]
        simpa using hlt
      · exact hor

end RecipeReader

/-! ## The round trip -/

theorem trimPath_eq_ok {path p : Bytes} (h : trimPath path = .ok p) : p.length < 2 ^ 31 := by
  obtain ⟨_, hlen, h⟩ := bind_eq_ok.mp h
  obtain ⟨_, -, h⟩ := bind_eq_ok.mp h
  cases h
  exact lt_of_le_of_lt (List.rdropWhile_prefix _ _).length_le (check_eq_ok.mp hlen)

/-- What is known of a version that was opened. -/
structure Opened (b : BackupVersion) (v : OpenVersion) : Prop where
  bvNum : v.bvNum = b.bvNum
  deleted : v.deleted = if b.deleted then 1 else 0
  numberOfFiles : v.numberOfFiles = b.files.length
  numberOfChunks : v.numberOfChunks = b.numberOfChunks
  metadata : v.metadataFp.rest = metaBytes b.files
  recipe : v.recipeFp.rest = recipeBytes b.recipe

/-- **`open_backup_version` reads the header back**, if the length of the path allows it. -/
theorem post_open {b : BackupVersion} {path : Bytes} (hnum : b.bvNum < 2 ^ 31)
    (hfiles : b.files.length < 2 ^ 63) (hchunks : b.numberOfChunks < 2 ^ 63)
    (hpath : path.length < 2 ^ 31) :
    Post ((b.encode path).open b.bvNum) (fun v ↦ Opened b v ∧ path.length + 1 < 2 ^ 31)
      fun _ ↦ ¬path.length + 1 < 2 ^ 31 := by
  have hstart : (Handle.openRead (b.encode path).metadata).rest = Word.le 4 b.bvNum ++
      (Word.le 4 (if b.deleted then 1 else 0) ++ (Word.le 8 b.files.length ++
        (Word.le 8 b.numberOfChunks ++ (Word.le 4 path.length ++ (path ++ metaBytes b.files))))) := by
    simp [Handle.openRead, Handle.rest, BackupVersion.encode]
  have hdel : -256 ^ 4 ≤ (if b.deleted then 1 else 0 : ℤ) * 2 ∧
      (if b.deleted then 1 else 0 : ℤ) * 2 < 256 ^ 4 := by
    split_ifs <;> decide
  obtain ⟨fp₁, hread₁, hrest₁⟩ := takes_readInt (by omega) (by omega) _ _ hstart
  obtain ⟨fp₂, hread₂, hrest₂⟩ := takes_readInt hdel.1 hdel.2 _ _ hrest₁
  obtain ⟨fp₃, hread₃, hrest₃⟩ := takes_readInt (by omega) (by omega) _ _ hrest₂
  obtain ⟨fp₄, hread₄, hrest₄⟩ := takes_readInt (by omega) (by omega) _ _ hrest₃
  dsimp only at hread₁ hread₂ hread₃ hread₄
  unfold VersionFiles.open
  refine post_bind_of_eq hread₁ ?_
  refine (post_check fun h ↦ absurd rfl h).bind fun _ _ ↦ ?_
  refine post_bind_of_eq hread₂ ?_
  refine post_bind_of_eq hread₃ ?_
  refine post_bind_of_eq hread₄ ?_
  by_cases hshort : path.length + 1 < 2 ^ 31
  · rw [← List.append_assoc] at hrest₄
    obtain ⟨fp₅, hread₅, hrest₅⟩ := takes_readString hshort _ _ hrest₄
    refine post_bind_of_eq hread₅ ?_
    exact ⟨⟨rfl, rfl, rfl, rfl, hrest₅, rfl⟩, hshort⟩
  · refine Post.bind (P := fun _ ↦ False) (post_of_forall (fun p hp ↦ ?_) fun _ _ ↦ hshort)
      fun _ h ↦ h.elim
    exact hshort (length_lt_of_readString hrest₄ hpath hp)

/-- A file as the filter thread records it: its name is a C string, and its chunks have a container and
a size of the types of the source. -/
structure RecordedFile where
  name : Bytes
  chunks : List Chunk
  name_ok : 0 ∉ name
  chunks_ok : ∀ c ∈ chunks, c.kind = .normal ∧ (0 ≤ c.id ∧ c.id < 2 ^ 63) ∧ c.size < 2 ^ 31

namespace RecordedFile

/-- The chunks of the file between its two markers. -/
def stream (f : RecordedFile) : List Chunk :=
  Chunk.new .fileStart f.name :: (f.chunks ++ [Chunk.new .fileEnd []])

def entry (f : RecordedFile) : FileRecipeMeta :=
  ⟨f.name, f.chunks.length, (f.chunks.map Chunk.size).sum⟩

def pointers (f : RecordedFile) : List Pointer := f.chunks.map fun c ↦ ⟨c.fp, c.id, c.size⟩

theorem fileMetas_chunks {cs todo : List Chunk} (h : ∀ c ∈ cs, c.kind = .normal) (r : FileRecipeMeta) :
    fileMetas (some r) (cs ++ Chunk.new .fileEnd [] :: todo) =
      ⟨r.filename, r.chunknum + cs.length, r.filesize + (cs.map Chunk.size).sum⟩ :: fileMetas none todo := by
  induction cs generalizing r with
  | nil => simp [fileMetas, Chunk.new]
  | cons c cs ih =>
    have hne : c.kind ≠ .fileEnd := by simp [h c List.mem_cons_self]
    rw [List.cons_append, fileMetas, if_pos hne, ih fun d hd ↦ h d (List.mem_cons_of_mem _ hd)]
    simp only [List.length_cons, List.map_cons, List.sum_cons, Nat.add_assoc, Nat.add_comm 1]

theorem fileMetas_stream (files : List RecordedFile) :
    fileMetas none (files.flatMap stream) = files.map entry := by
  induction files with
  | nil => rfl
  | cons f files ih =>
    have hnormal : ∀ c ∈ f.chunks, c.kind = .normal := fun c hc ↦ (f.chunks_ok c hc).1
    rw [List.flatMap_cons, stream, List.cons_append, fileMetas, List.append_assoc, List.singleton_append,
      fileMetas_chunks hnormal, ih, List.map_cons, entry]
    simp [Chunk.new]

theorem dataChunks_stream (f : RecordedFile) : dataChunks f.stream = f.chunks := by
  have hall : f.chunks.filter (fun c ↦ !c.isFileMarker) = f.chunks := by
    rw [List.filter_eq_self]
    intro c hc
    simp [Chunk.isFileMarker, (f.chunks_ok c hc).1]
  simp [dataChunks, stream, Chunk.new, Chunk.isFileMarker] at hall ⊢
  exact hall

theorem recordable_stream {f : RecordedFile} {c : Chunk} (hc : c ∈ f.stream) : c.Recordable := by
  rw [stream, List.mem_cons, List.mem_append, List.mem_singleton] at hc
  rcases hc with rfl | hc | rfl
  · exact ⟨fun _ ↦ f.name_ok, fun h ↦ by simp [Chunk.new, Chunk.isFileMarker] at h,
      fun h ↦ by simp [Chunk.new, Chunk.isFileMarker] at h⟩
  · obtain ⟨hk, hid, hsize⟩ := f.chunks_ok c hc
    exact ⟨fun h ↦ by simp [hk] at h, fun _ ↦ hid, fun _ ↦ hsize⟩
  · exact ⟨fun h ↦ by simp [Chunk.new] at h, fun h ↦ by simp [Chunk.new, Chunk.isFileMarker] at h,
      fun h ↦ by simp [Chunk.new, Chunk.isFileMarker] at h⟩

theorem bracketed_stream_append (f : RecordedFile) {ks : List Kind} (h : Bracketed false ks) :
    Bracketed false (f.stream.map Chunk.kind ++ ks) := by
  have hchunks : ∀ cs : List Chunk, (∀ c ∈ cs, c.kind = .normal) →
      Bracketed true (cs.map Chunk.kind ++ .fileEnd :: ks) := by
    intro cs hcs
    induction cs with
    | nil => exact .inl ⟨rfl, h⟩
    | cons c cs ih =>
      exact .inr ⟨hcs c List.mem_cons_self, ih fun d hd ↦ hcs d (List.mem_cons_of_mem _ hd)⟩
  have := hchunks f.chunks fun c hc ↦ (f.chunks_ok c hc).1
  simp only [stream, List.map_cons, List.map_append, List.cons_append, List.append_assoc,
    List.nil_append, List.map_nil]
  exact ⟨rfl, this⟩

/-- The entry of a file of fewer than `2 ^ 31` chunks fits into its fields. -/
theorem typed_entry {f : RecordedFile} (hname : f.name.length + 20 ≤ metabufsize)
    (hchunks : f.chunks.length < 2 ^ 31) : f.entry.stored.Typed := by
  have hsum : ∀ cs : List Chunk, (∀ c ∈ cs, c.size < 2 ^ 31) →
      (cs.map Chunk.size).sum ≤ 2 ^ 31 * cs.length := by
    intro cs hcs
    induction cs with
    | nil => exact Nat.le_refl _
    | cons c cs ih =>
      have hc := hcs c List.mem_cons_self
      have := ih fun d hd ↦ hcs d (List.mem_cons_of_mem _ hd)
      rw [List.map_cons, List.sum_cons, List.length_cons]
      omega
  have hsize := hsum f.chunks fun c hc ↦ (f.chunks_ok c hc).2.2
  unfold metabufsize at hname
  refine ⟨f.name_ok, ?_, ?_, ?_⟩ <;> simp only [FileRecipeMeta.stored, entry] <;> omega

theorem bracketed_streams (files : List RecordedFile) :
    Bracketed false ((files.flatMap stream).map Chunk.kind) := by
  induction files with
  | nil => rfl
  | cons f files ih =>
    rw [List.flatMap_cons, List.map_append]
    exact f.bracketed_stream_append ih

theorem dataChunks_streams (files : List RecordedFile) :
    dataChunks (files.flatMap stream) = files.flatMap chunks := by
  induction files with
  | nil => rfl
  | cons f files ih => rw [List.flatMap_cons, dataChunks_append, ih, dataChunks_stream, List.flatMap_cons]

end RecordedFile

/-- Writing the segments of a backup and reading the version in batches of `n` pointers gives back the
files and their pointers. -/
def RoundTrip (number : ℕ) (path : Bytes) (segs : List (List Chunk)) (files : List RecordedFile) (n : ℤ) :
    Prop :=
  ∃ vf v r, writeVersion number path segs = .ok vf ∧ vf.open number = .ok v ∧
    (RecipeReader.mk v 0 0).readFileRecipeMetas v.numberOfFiles.toNat =
      .ok (files.map fun f ↦ f.entry.stored, r) ∧
    RecipeReader.ReadsAll n r (files.flatMap RecordedFile.pointers)

section

variable {number : ℕ} {path : Bytes} {segs : List (List Chunk)} {files : List RecordedFile} {n : ℤ}

/-- The records of a segment, as they are stored, without the boundaries. -/
theorem pointersOf_segmentRecords {cs : List Chunk} (h : ∀ c ∈ dataChunks cs, 0 ≤ c.id) :
    pointersOf ((segmentRecords cs).map ChunkPointer.stored) =
      (dataChunks cs).map fun c ↦ ⟨c.fp, c.id, c.size⟩ := by
  have hflag : ∀ cp : ChunkPointer, (!cp.stored.isFlag) =
      decide (cp.id ≠ segmentStartId ∧ cp.id ≠ segmentEndId) := by
    intro cp
    rw [Bool.eq_iff_iff, Bool.not_eq_true', ← Bool.not_eq_true, Pointer.isFlag_iff, not_or,
      decide_eq_true_eq]
    rfl
  rw [pointersOf, List.filter_map]
  have hfilter : (segmentRecords cs).filter ((fun cp ↦ !cp.isFlag) ∘ ChunkPointer.stored) =
      (dataChunks cs).map Chunk.pointer := by
    rw [← filter_segmentRecords h]
    exact List.filter_congr fun cp _ ↦ hflag cp
  rw [hfilter, List.map_map]
  rfl

theorem pointersOf_segments {segs : List (List Chunk)} (h : ∀ c ∈ dataChunks segs.flatten, 0 ≤ c.id) :
    pointersOf ((segs.flatMap segmentRecords).map ChunkPointer.stored) =
      (dataChunks segs.flatten).map fun c ↦ ⟨c.fp, c.id, c.size⟩ := by
  induction segs with
  | nil => rfl
  | cons cs segs ih =>
    rw [List.flatten_cons, dataChunks_append] at h ⊢
    rw [List.flatMap_cons, List.map_append, pointersOf, List.filter_append, ← pointersOf, ← pointersOf,
      pointersOf_segmentRecords fun c hc ↦ h c (List.mem_append_left _ hc),
      ih fun c hc ↦ h c (List.mem_append_right _ hc), List.map_append]

theorem typed_segments (hc : ∀ c ∈ segs.flatten, c.Recordable)
    (hsmall : ∀ cs ∈ segs, recordSize * (chunkNum cs + 2) < 2 ^ 31) :
    ∀ cp ∈ (segs.flatMap segmentRecords).map ChunkPointer.stored, cp.Typed := by
  intro cp hcp
  obtain ⟨cp₀, hcp₀, rfl⟩ := List.mem_map.mp hcp
  obtain ⟨cs, hcs, hcp₀⟩ := List.mem_flatMap.mp hcp₀
  have hsize := hsmall cs hcs
  unfold recordSize at hsize
  rw [segmentRecords, List.mem_cons, List.mem_append, List.mem_singleton] at hcp₀
  rcases hcp₀ with rfl | hcp₀ | rfl
  · refine ⟨show -2 ^ 63 ≤ (-4 : ℤ) ∧ (-4 : ℤ) < 2 ^ 63 by decide, ?_⟩
    simp only [ChunkPointer.stored, ChunkPointer.flag]
    omega
  · obtain ⟨c, hmem, rfl⟩ := List.mem_map.mp hcp₀
    obtain ⟨hmem, hm⟩ := mem_dataChunks.mp hmem
    have hrec := hc c (List.mem_flatten_of_mem hcs hmem)
    have hid := hrec.id hm
    have hlt := hrec.size hm
    exact ⟨by simp only [ChunkPointer.stored, Chunk.pointer]; omega,
      by simp only [ChunkPointer.stored, Chunk.pointer]; omega⟩
  · exact ⟨by decide, by decide⟩

end

section

variable {number : ℕ} {path : Bytes} {segs : List (List Chunk)} {files : List RecordedFile} {n : ℤ}

theorem recordable_of_segments (hsegs : segs.flatten = files.flatMap RecordedFile.stream) :
    ∀ c ∈ segs.flatten, c.Recordable := by
  rw [hsegs]
  intro c hc
  obtain ⟨f, -, hc⟩ := List.mem_flatMap.mp hc
  exact RecordedFile.recordable_stream hc

theorem post_writeFiles (hsegs : segs.flatten = files.flatMap RecordedFile.stream) :
    Post (writeVersion number path segs) (fun vf ↦ ∃ p b, trimPath path = .ok p ∧ vf = b.encode p ∧
      IsVersion number (files.map RecordedFile.entry) segs b ∧
      (∀ r ∈ b.files, r.filename.length + 20 ≤ metabufsize) ∧
      (b.files.length < 2 ^ 63 ∧ b.numberOfChunks < 2 ^ 63) ∧
      ∀ cs ∈ segs, recordSize * (chunkNum cs + 2) < 2 ^ 31)
      fun _ ↦ ¬Fits path (files.map RecordedFile.entry) segs := by
  rw [← RecordedFile.fileMetas_stream, ← hsegs]
  refine post_writeVersion ?_ (recordable_of_segments hsegs)
  rw [hsegs]
  exact RecordedFile.bracketed_streams files

theorem ahead_of_opened {metas : List FileRecipeMeta} {b : BackupVersion} {v : OpenVersion}
    {r : RecipeReader} (hsegs : segs.flatten = files.flatMap RecordedFile.stream)
    (hb : IsVersion number metas segs b) (hv : Opened b v)
    (hsmall : ∀ cs ∈ segs, recordSize * (chunkNum cs + 2) < 2 ^ 31) (hrecipe : r.bv.recipeFp = v.recipeFp)
    (hnumber : r.bv.numberOfChunks = v.numberOfChunks) (hzero : r.readChunkNum = 0) :
    r.Ahead (files.flatMap RecordedFile.pointers) := by
  have hrecordable := recordable_of_segments hsegs
  have hpointers : (dataChunks segs.flatten).map (fun c ↦ (⟨c.fp, c.id, c.size⟩ : Pointer)) =
      files.flatMap RecordedFile.pointers := by
    rw [hsegs, RecordedFile.dataChunks_streams, List.map_flatMap]
    rfl
  refine ⟨⟨(segs.flatMap segmentRecords).map ChunkPointer.stored, ?_, ?_,
    typed_segments hrecordable hsmall⟩, ?_, hzero.ge⟩
  · rw [hrecipe, hv.recipe, hb.recipe, recipeBytes, pointerBytes, List.flatMap_map]
  · rw [← hpointers]
    refine pointersOf_segments fun c hc ↦ ?_
    obtain ⟨hmem, hm⟩ := mem_dataChunks.mp hc
    exact ((hrecordable c hmem).id hm).1
  · rw [hzero, hnumber, hv.numberOfChunks, hb.numberOfChunks, chunkNum_eq, ← hpointers, List.length_map,
      Int.zero_add]

theorem fits_of_roundTrip (hsegs : segs.flatten = files.flatMap RecordedFile.stream)
    (hnum : number < 2 ^ 31) (hn : 1 ≤ n) (h : RoundTrip number path segs files n) :
    Fits path (files.map RecordedFile.entry) segs := by
  obtain ⟨vf, v, r, hwrite, hopen, hmetas, hall⟩ := h
  obtain ⟨p, b, hp, rfl, hb, hnames, ⟨hfiles, hchunks⟩, hsmall⟩ :=
    Post.ok (post_writeFiles hsegs) hwrite
  have hpost := post_open (hb.bvNum ▸ hnum) hfiles hchunks (trimPath_eq_ok hp)
  rw [hb.bvNum] at hpost
  obtain ⟨hv, hlen⟩ := Post.ok hpost hopen
  have hcount : v.numberOfFiles.toNat = files.length := by
    rw [hv.numberOfFiles, Int.toNat_natCast, hb.files, List.length_map]
  obtain ⟨hread, hor, hnumber, hstart⟩ := RecipeReader.readFileNum_of_readFileRecipeMetas hmetas
  dsimp only at hread hstart
  have hlt := RecipeReader.lt_of_readsAll hall hn (by rw [hstart]; decide)
  rw [hnumber, hv.numberOfChunks, hb.numberOfChunks] at hlt
  rw [hcount] at hread hor
  refine ⟨⟨p, hp, hlen⟩, ?_, ?_, by omega, hsmall⟩
  · rw [← hb.files]
    exact hnames
  · rw [List.length_map]
    omega

theorem roundTrip_of_fits (hsegs : segs.flatten = files.flatMap RecordedFile.stream)
    (hnum : number < 2 ^ 31) (hn : 1 ≤ n) (h : Fits path (files.map RecordedFile.entry) segs) :
    RoundTrip number path segs files n := by
  have hwrite : Post (writeVersion number path segs) _ _ := post_writeFiles hsegs
  cases hvf : writeVersion number path segs with
  | error e =>
    rw [hvf] at hwrite
    exact absurd h hwrite
  | ok vf =>
    rw [hvf] at hwrite
    obtain ⟨p, b, hp, rfl, hb, hnames, ⟨hfiles, hchunks⟩, hsmall⟩ := hwrite
    obtain ⟨p', hp', hlen⟩ := h.path
    obtain rfl : p = p' := Except.ok.inj (hp.symm.trans hp')
    have hopen := post_open (hb.bvNum ▸ hnum) hfiles hchunks (trimPath_eq_ok hp)
    rw [hb.bvNum] at hopen
    cases hv : (b.encode p).open number with
    | error e =>
      rw [hv] at hopen
      exact absurd hlen hopen
    | ok v =>
      rw [hv] at hopen
      obtain ⟨hv', -⟩ := hopen
      have htotal : chunkNum segs.flatten = (files.flatMap RecordedFile.chunks).length := by
        rw [chunkNum_eq, hsegs, RecordedFile.dataChunks_streams]
      have hlt := h.chunks
      have htyped : ∀ m ∈ files.map fun f ↦ f.entry.stored, m.Typed := by
        intro m hm
        obtain ⟨f, hf, rfl⟩ := List.mem_map.mp hm
        refine RecordedFile.typed_entry (h.names f.entry (List.mem_map_of_mem hf)) ?_
        have hsub : f.chunks.length ≤ (files.flatMap RecordedFile.chunks).length :=
          (List.sublist_flatten_of_mem (List.mem_map_of_mem hf)).length_le
        omega
      have hmetaRest : v.metadataFp.rest = (files.map fun f ↦ f.entry.stored).flatMap FileMeta.encode := by
        rw [hv'.metadata, hb.files, metaBytes, List.flatMap_map, List.flatMap_map]
      have hcount : v.numberOfFiles = (files.map fun f ↦ f.entry.stored).length := by
        rw [hv'.numberOfFiles, hb.files, List.length_map, List.length_map]
      have hfew := h.files
      rw [List.length_map] at hfew
      obtain ⟨r, hmetas, hrecipe, hnumber, hzero⟩ := RecipeReader.readFileRecipeMetas_eq
        (r := ⟨v, 0, 0⟩) htyped hmetaRest (Int.le_refl 0) (by rw [hcount, Int.zero_add])
        (by rw [hcount, List.length_map]; omega)
      have hahead := ahead_of_opened hsegs hb hv' hsmall hrecipe hnumber hzero
      refine ⟨_, v, r, hvf, hv, ?_, hahead.readsAll ?_ hn⟩
      · rw [hcount, Int.toNat_natCast]
        exact hmetas
      · rw [hnumber, hv'.numberOfChunks, hb.numberOfChunks]
        omega

/-- **A version is read back as it was written exactly if the backup stays within the limits of the
program.** -/
theorem roundTrip_iff_fits (hsegs : segs.flatten = files.flatMap RecordedFile.stream)
    (hnum : number < 2 ^ 31) (hn : 1 ≤ n) :
    RoundTrip number path segs files n ↔ Fits path (files.map RecordedFile.entry) segs :=
  ⟨fits_of_roundTrip hsegs hnum hn, roundTrip_of_fits hsegs hnum hn⟩

end

/-- A chunk of three bytes in container 5. -/
def recordedChunk : Chunk := { Chunk.new .normal [1, 2, 3] with id := 5 }

def recordedFile (n : ℕ) : RecordedFile where
  name := [0x61]
  chunks := List.replicate n recordedChunk
  name_ok := by decide
  chunks_ok c hc := by
    rw [List.eq_of_mem_replicate hc]
    decide

/-- The file in a segment for its start, `k` segments of `m` chunks and a segment for its end. -/
def recordedSegments (k m : ℕ) : List (List Chunk) :=
  [Chunk.new .fileStart [0x61]] :: (List.replicate k (List.replicate m recordedChunk) ++
    [[Chunk.new .fileEnd []]])

theorem flatten_recordedSegments (k m : ℕ) :
    (recordedSegments k m).flatten = [recordedFile (k * m)].flatMap RecordedFile.stream := by
  simp [recordedSegments, recordedFile, RecordedFile.stream, List.flatten_replicate_replicate]

theorem roundTrip_iff_fits_sample :
    RoundTrip 0 [slash] (recordedSegments 2 3) [recordedFile (2 * 3)] 4 := by
  refine (roundTrip_iff_fits (flatten_recordedSegments 2 3) (by decide) (by decide)).mpr
    ⟨⟨[slash], rfl, by decide⟩, ?_, by decide, by decide, by decide⟩
  intro r hr
  rw [List.map_singleton, List.mem_singleton] at hr
  rw [hr]
  decide

/-- With `2 ^ 31` chunks the counter of the pointers read overflows. -/
theorem not_roundTrip_large :
    (recordedSegments (2 ^ 11) (2 ^ 20)).flatten =
      [recordedFile (2 ^ 11 * 2 ^ 20)].flatMap RecordedFile.stream ∧
    ¬RoundTrip 0 [slash] (recordedSegments (2 ^ 11) (2 ^ 20)) [recordedFile (2 ^ 11 * 2 ^ 20)] 1 := by
  refine ⟨flatten_recordedSegments _ _, fun h ↦ ?_⟩
  have hlt := (fits_of_roundTrip (flatten_recordedSegments _ _) (by decide) (by decide) h).chunks
  rw [flatten_recordedSegments, chunkNum_eq, RecordedFile.dataChunks_streams, List.flatMap_singleton,
    recordedFile, List.length_replicate] at hlt
  exact absurd hlt (by decide)

end UniDedup.Node
