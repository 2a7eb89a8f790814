import UniDedup.Lib.Fold
import UniDedup.Node.OptimalWindow
import UniDedup.Node.Restore
import UniDedup.Node.Safety

/-!
# The restore threads agree

Whatever the size of the cache, and of the window of the optimal cache, the three restore threads push what
the restore without a cache pushes, and none of their assertions fails. A cached container that has the
fingerprint of a pointer has the same data under it as the container of the pointer. What the
assembly area has issued, followed by what is to be restored of the chunks in it, is what is to be restored
of the chunks pushed so far.
-/

namespace UniDedup.Node

/-- The safety of deduplication for some chunk pointers: each of them refers to a chunk, and a fingerprint has
the same data in all containers. -/
structure SafePointers (pool : List Container) (cps : List ChunkPointer) : Prop where
  refers : ∀ cp ∈ cps, ∃ d, Refers pool d cp
  content : ∀ con ∈ pool, ∀ con' ∈ pool, ∀ fp d d', con.getChunk fp = some d →
    con'.getChunk fp = some d' → d = d'

/-! ## Fetching the data of a pointer -/

def pointerData (st : ContainerStore) (cp : ChunkPointer) : Bytes := (fetchPointer st cp).getD []

def restored (st : ContainerStore) (stream : List (RestoreChunk ChunkPointer)) : List (RestoreChunk Bytes) :=
  stream.map (RestoreChunk.map (pointerData st))

/-- The pointer can be fetched, with the size it says. -/
def IsFetched (st : ContainerStore) (cp : ChunkPointer) : Prop :=
  ∃ con, st.retrieve cp.id = some con ∧ con.getChunk cp.fp = some (pointerData st cp) ∧
    cp.size = (pointerData st cp).length

section Pointers

variable {st : ContainerStore} {cp : ChunkPointer} {cps : List ChunkPointer}
  {stream : List (RestoreChunk ChunkPointer)}

theorem SafePointers.tail (h : SafePointers st.pool (cp :: cps)) : SafePointers st.pool cps :=
  ⟨fun cp' hcp' ↦ h.refers cp' (List.mem_cons_of_mem cp hcp'), h.content⟩

theorem Refers.isFetched {d : Bytes} (h : Refers st.pool d cp) : IsFetched st cp := by
  obtain ⟨-, con, hcon, hid, huniq, -, e, he, hlen, hget⟩ := h
  have hretrieve : st.retrieve cp.id = some con := by
    obtain ⟨con', hcon'⟩ : ∃ con', st.retrieve cp.id = some con' := by
      rw [← Option.isSome_iff_exists, ContainerStore.retrieve, List.find?_isSome]
      exact ⟨con, hcon, decide_eq_true hid⟩
    obtain ⟨hmem, hid'⟩ := ContainerStore.mem_of_retrieve hcon'
    rw [hcon', huniq con' hmem (Int.ofNat_inj.mp (hid'.trans hid.symm))]
  have hdata : pointerData st cp = d := by
    rw [pointerData, fetchPointer, hretrieve, Option.bind_eq_bind, Option.bind_some, hget, Option.getD_some]
  refine ⟨con, hretrieve, hdata ▸ hget, ?_⟩
  rw [hdata, ← hlen]
  exact Container.entry_len he hget

theorem IsFetched.fetchPointer (h : IsFetched st cp) : fetchPointer st cp = some (pointerData st cp) := by
  obtain ⟨con, hretrieve, hget, -⟩ := h
  exact Option.bind_eq_some_iff.mpr ⟨con, hretrieve, hget⟩

theorem SafePointers.getChunk (h : SafePointers st.pool cps) (hcp : IsFetched st cp) {con : Container}
    (hcon : con ∈ st.pool) (hfp : con.contains cp.fp = true) :
    con.getChunk cp.fp = some (pointerData st cp) := by
  obtain ⟨con', hretrieve, hget', -⟩ := hcp
  obtain ⟨d, hget⟩ := Container.mem_fps_iff.mp (Container.contains_iff.mp hfp)
  rw [hget, h.content con hcon con' (ContainerStore.mem_of_retrieve hretrieve).1 cp.fp _ _ hget hget']

/-- **The loop of a restore thread**: what is kept while each chunk gets its data holds along the stream. -/
theorem restoreLoop_eq {σ : Type} {fetch : σ → ChunkPointer → Option (Bytes × σ)}
    {I : σ → List ChunkPointer → Prop}
    (hfetch : ∀ s cp cps, I s (cp :: cps) → ∃ s', fetch s cp = some (pointerData st cp, s') ∧ I s' cps)
    {s : σ} (h : I s (streamPointers stream)) : restoreLoop fetch s stream = some (restored st stream) := by
  induction stream generalizing s with
  | nil => rfl
  | cons c stream ih =>
    cases c with
    | fileStart filename =>
      rw [restoreLoop, ih h]
      rfl
    | fileEnd =>
      rw [restoreLoop, ih h]
      rfl
    | chunk cp =>
      obtain ⟨s', hs', h'⟩ := hfetch s cp (streamPointers stream) h
      refine Option.bind_eq_some_iff.mpr ⟨_, hs', ?_⟩
      dsimp only
      rw [ih h']
      rfl

/-- **Without a cache.** -/
theorem naiveRestore_eq (h : SafePointers st.pool (streamPointers stream)) :
    naiveRestore st stream = some (restored st stream) := by
  refine restoreLoop_eq (fun _ cp cps h ↦ ?_) (I := fun _ cps ↦ SafePointers st.pool cps) h
  obtain ⟨d, hd⟩ := h.refers cp List.mem_cons_self
  refine ⟨(), ?_, h.tail⟩
  rw [hd.isFetched.fetchPointer, Option.map_some]

/-! ## The cache of containers -/

theorem lruFetch_spec (h : SafePointers st.pool (cp :: cps)) {cache : Lru.Cache Container}
    (hcache : ∀ con ∈ cache.elems, con ∈ st.pool) :
    ∃ cache', lruFetch st cache cp = some (pointerData st cp, cache') ∧ ∀ con ∈ cache'.elems, con ∈ st.pool := by
  obtain ⟨d, hd⟩ := h.refers cp List.mem_cons_self
  have hcp := hd.isFetched
  have hcache' := Lru.Cache.forall_lookup (p := (·.contains cp.fp)) hcache
  unfold lruFetch
  cases hlookup : cache.lookup (·.contains cp.fp) with
  | mk con cache' =>
    rw [hlookup] at hcache'
    cases con with
    | some con =>
      obtain ⟨hmem, hfp⟩ := Lru.Cache.mem_of_lookup (congrArg Prod.fst hlookup)
      exact ⟨cache', Option.bind_eq_some_iff.mpr ⟨(con, cache'), rfl,
        Option.bind_eq_some_iff.mpr ⟨_, h.getChunk hcp (hcache con hmem) hfp, rfl⟩⟩, hcache'⟩
    | none =>
      obtain ⟨con, hretrieve, hget, -⟩ := hcp
      refine ⟨cache'.insert con, Option.bind_eq_some_iff.mpr ⟨(con, cache'.insert con), ?_,
        Option.bind_eq_some_iff.mpr ⟨_, hget, rfl⟩⟩, ?_⟩
      · dsimp only
        rw [hretrieve, Option.map_some]
      · exact Lru.Cache.forall_insert hcache' (ContainerStore.mem_of_retrieve hretrieve).1

/-- **The LRU cache**, of any size. -/
theorem lruRestoreThread_eq (size : ℕ) (h : SafePointers st.pool (streamPointers stream)) :
    lruRestoreThread st size stream = some (restored st stream) := by
  refine restoreLoop_eq (fun cache cp cps h ↦ ?_)
    (I := fun cache cps ↦ SafePointers st.pool cps ∧ ∀ con ∈ cache.elems, con ∈ st.pool)
    ⟨h, fun con hcon ↦ absurd hcon List.not_mem_nil⟩
  obtain ⟨cache', hfetch, hcache'⟩ := lruFetch_spec h.1 h.2
  exact ⟨cache', hfetch, h.1.tail, hcache'⟩

/-! ## The optimal cache -/

theorem Refers.ne_temporaryId {d : Bytes} (h : Refers st.pool d cp) : cp.id ≠ temporaryId := by
  have hnonneg := h.nonneg
  unfold temporaryId
  omega

theorem optimalFetch_spec {w : ℕ} (hw : 0 < w) (search : OptimalCache → ℤ → ℕ)
    (h : SafePointers st.pool (cp :: cps)) {cache : OptimalCache} {buffered : List ℤ}
    (hsound : cache.IsSound buffered (cp :: cps))
    (hlast : cache.lastId = temporaryId ∨ cache.lastId ∈ cache.lru.elems) :
    ∃ cache' buffered', optimalFetch st w search cache cp = some (pointerData st cp, cache') ∧
      cache'.IsSound buffered' cps ∧ cache'.lastId ∈ cache'.lru.elems := by
  obtain ⟨d, hd⟩ := h.refers cp List.mem_cons_self
  have hcp := hd.isFetched
  obtain ⟨con, hretrieve, hget, -⟩ := hd.isFetched
  obtain ⟨hit, cache₁, cache₂, buffered', hhits, hcache₂, hsound₂, hlast₂, hmem⟩ :=
    OptimalCache.access_spec search hw hsound hlast hd.ne_temporaryId
  let holds (id : ℤ) (fp : Fingerprint) : Bool := (st.retrieve id).any (·.contains fp)
  have hholds : holds cp.id cp.fp = true := by
    have hfp : con.contains cp.fp = true := Container.contains_iff.mpr (Container.mem_fps_iff.mpr ⟨_, hget⟩)
    dsimp only [holds]
    rw [hretrieve, Option.any_some, hfp]
  -- The container of the pointer is cached, so that one with the fingerprint is found.
  obtain ⟨id, hid⟩ : ∃ id, (cache₂.lru.lookup (holds · cp.fp)).1 = some id := by
    rw [← Option.ne_none_iff_exists', ne_eq, Lru.Cache.lookup_eq_none]
    exact fun hnone ↦ Bool.false_ne_true ((hnone cp.id hmem).symm.trans hholds)
  obtain ⟨con', hretrieve', hfp'⟩ : ∃ con', st.retrieve id = some con' ∧ con'.contains cp.fp = true :=
    (Option.any_eq_true _ _).mp (Lru.Cache.mem_of_lookup hid).2
  have hget' := h.getChunk hcp (ContainerStore.mem_of_retrieve hretrieve').1 hfp'
  have hinsert : (if hit then some cache₁ else (do
      let _ ← st.retrieve cp.id
      (cache₁.insert search cp.id).map Prod.snd)) = some cache₂ := by
    rw [← hcache₂, hretrieve]
    rfl
  refine ⟨(cache₂.lookup holds cp.fp).2, buffered', Option.bind_eq_some_iff.mpr ⟨(hit, cache₁), hhits,
    Option.bind_eq_some_iff.mpr ⟨cache₂, hinsert, Option.bind_eq_some_iff.mpr ⟨con', ?_,
      Option.bind_eq_some_iff.mpr ⟨_, hget', rfl⟩⟩⟩⟩, hsound₂.lookup holds cp.fp,
    (cache₂.lru.lookup_perm _).mem_iff.mpr hlast₂⟩
  exact Option.bind_eq_some_iff.mpr ⟨id, hid, hretrieve'⟩

/-- **The optimal cache**, of any size and with any window. -/
theorem optimalRestoreThread_eq {w size : ℕ} (hw : 0 < w) (hsize : 0 < size)
    (search : OptimalCache → ℤ → ℕ) (h : SafePointers st.pool (streamPointers stream)) :
    optimalRestoreThread st w size search (OptimalCache.writtenRecords (streamPointers stream)) stream =
      some (restored st stream) := by
  have hids : ∀ cp ∈ streamPointers stream, cp.id ≠ temporaryId := by
    intro cp hcp
    obtain ⟨d, hd⟩ := h.refers cp hcp
    exact hd.ne_temporaryId
  obtain ⟨cache₀, buffered₀, hinit, hsound₀, hlast₀⟩ := OptimalCache.init_spec hw hsize hids
  refine Option.bind_eq_some_iff.mpr ⟨cache₀, hinit, restoreLoop_eq (fun cache cp cps h ↦ ?_)
    (I := fun cache cps ↦ SafePointers st.pool cps ∧ (∃ buffered, cache.IsSound buffered cps) ∧
      (cache.lastId = temporaryId ∨ cache.lastId ∈ cache.lru.elems))
    ⟨h, ⟨buffered₀, hsound₀⟩, .inl hlast₀⟩⟩
  obtain ⟨hsafe, ⟨buffered, hsound⟩, hlast⟩ := h
  obtain ⟨cache', buffered', hfetch, hsound', hlast'⟩ := optimalFetch_spec hw search hsafe hsound hlast
  exact ⟨cache', hfetch, hsafe.tail, ⟨buffered', hsound'⟩, .inr hlast'⟩

end Pointers

/-! ## The assembly area -/

namespace AssemblyArea

/-- What is to be restored of a chunk in the area. -/
def expected (st : ContainerStore) : AreaChunk → RestoreChunk Bytes :=
  RestoreChunk.map fun c ↦ pointerData st c.1

/-- The chunks in the area can be fetched, and the data of those that are ready is right. -/
structure IsAssembled (st : ContainerStore) (area : List AreaChunk) : Prop where
  fetched : ∀ cp data, .chunk (cp, data) ∈ area → IsFetched st cp
  ready : ∀ cp d, .chunk (cp, some d) ∈ area → d = pointerData st cp

section Area

variable {st : ContainerStore} {area area' : List AreaChunk} {a : AssemblyArea}

theorem IsAssembled.of_suffix (h : IsAssembled st area) (hsuffix : area' <:+ area) : IsAssembled st area' :=
  ⟨fun cp data hc ↦ h.fetched cp data (hsuffix.subset hc), fun cp d hc ↦ h.ready cp d (hsuffix.subset hc)⟩

theorem popMarkers_spec (st : ContainerStore) (area : List AreaChunk) :
    area.map (expected st) = (popMarkers area).1 ++ (popMarkers area).2.map (expected st) ∧
      (popMarkers area).2 <:+ area ∧
      ((popMarkers area).2 = [] ∨ ∃ cp data rest, (popMarkers area).2 = .chunk (cp, data) :: rest) := by
  induction area with
  | nil => exact ⟨rfl, List.suffix_refl _, .inl rfl⟩
  | cons c area ih =>
    obtain ⟨heq, hsuffix, hhead⟩ := ih
    cases c with
    | fileStart filename =>
      exact ⟨congrArg (_ :: ·) heq, hsuffix.trans (List.suffix_cons _ _), hhead⟩
    | fileEnd => exact ⟨congrArg (_ :: ·) heq, hsuffix.trans (List.suffix_cons _ _), hhead⟩
    | chunk c => exact ⟨rfl, List.suffix_refl _, .inr ⟨c.1, c.2, area, rfl⟩⟩

theorem issue_spec (h : IsAssembled st area) (size : ℤ) :
    area.map (expected st) = (issue area size).1 ++ (issue area size).2.1.map (expected st) ∧
      (issue area size).2.1 <:+ area := by
  induction area generalizing size with
  | nil => exact ⟨rfl, List.suffix_refl _⟩
  | cons c area ih =>
    have harea := h.of_suffix (List.suffix_cons c area)
    cases c with
    | fileStart filename =>
      obtain ⟨heq, hsuffix⟩ := ih harea size
      exact ⟨congrArg (_ :: ·) heq, hsuffix.trans (List.suffix_cons _ _)⟩
    | fileEnd =>
      obtain ⟨heq, hsuffix⟩ := ih harea size
      exact ⟨congrArg (_ :: ·) heq, hsuffix.trans (List.suffix_cons _ _)⟩
    | chunk c =>
      obtain ⟨cp, data⟩ := c
      cases data with
      | none => exact ⟨rfl, List.suffix_refl _⟩
      | some d =>
        obtain ⟨heq, hsuffix⟩ := ih harea (size - cp.size)
        have hd := h.ready cp d List.mem_cons_self
        refine ⟨?_, hsuffix.trans (List.suffix_cons _ _)⟩
        subst hd
        exact congrArg (_ :: ·) heq

/-- A chunk with its data, where it is in the container. -/
def assembled (st : ContainerStore) (id : ℤ) : AreaChunk → AreaChunk
  | .chunk (cp, data) => .chunk (cp, if cp.id = id then some (pointerData st cp) else data)
  | c => c

theorem assembleChunk_eq {con : Container} {id : ℤ} (h : IsAssembled st area) (hcon : st.retrieve id = some con) :
    ∀ c ∈ area, assembleChunk con id c = some (assembled st id c) := by
  intro c hc
  cases c with
  | fileStart filename => rfl
  | fileEnd => rfl
  | chunk c =>
    obtain ⟨cp, data⟩ := c
    rw [assembleChunk, assembled]
    by_cases hid : cp.id = id
    · obtain ⟨con', hretrieve, hget, hsize⟩ := h.fetched cp data hc
      obtain rfl : con = con' := Option.some.inj (hcon.symm.trans (hid ▸ hretrieve))
      rw [if_pos hid, if_pos hid]
      exact Option.bind_eq_some_iff.mpr ⟨_, hget, if_pos hsize⟩
    · rw [if_neg hid, if_neg hid]

theorem expected_assembled (id : ℤ) (c : AreaChunk) : expected st (assembled st id c) = expected st c := by
  cases c <;> rfl

theorem IsAssembled.map_assembled (h : IsAssembled st area) (id : ℤ) :
    IsAssembled st (area.map (assembled st id)) := by
  have hmem : ∀ cp data, .chunk (cp, data) ∈ area.map (assembled st id) → ∃ data', .chunk (cp, data') ∈ area ∧
      data = if cp.id = id then some (pointerData st cp) else data' := by
    intro cp data hc
    obtain ⟨c, hmem, heq⟩ := List.mem_map.mp hc
    cases c with
    | fileStart filename => cases heq
    | fileEnd => cases heq
    | chunk c =>
      obtain ⟨cp', data'⟩ := c
      cases heq
      exact ⟨data', hmem, rfl⟩
  constructor
  case fetched =>
    intro cp data hc
    obtain ⟨data', hc', -⟩ := hmem cp data hc
    exact h.fetched cp data' hc'
  case ready =>
    intro cp d hc
    obtain ⟨data', hc', heq⟩ := hmem cp (some d) hc
    split_ifs at heq
    · exact Option.some.inj heq
    · exact h.ready cp d (heq ▸ hc')

/-- **The area is assembled**: some chunk goes to the queue, and nothing gets lost. -/
theorem assembleArea_spec (h : IsAssembled st a.area) (hne : a.area ≠ []) :
    ∃ q a', a.assembleArea st = some (some (q, a')) ∧ IsAssembled st a'.area ∧
      a.area.map (expected st) = q ++ a'.area.map (expected st) ∧ a'.area.length < a.area.length := by
  obtain ⟨heq, hsuffix, hhead⟩ := popMarkers_spec st a.area
  have hpopped := h.of_suffix hsuffix
  unfold assembleArea
  rw [if_neg fun hempty ↦ hne (List.isEmpty_iff.mp hempty)]
  generalize hpop : popMarkers a.area = r at heq hsuffix hhead hpopped
  obtain ⟨q, area⟩ := r
  dsimp only at heq hsuffix hhead hpopped ⊢
  obtain rfl | ⟨cp, data, rest, rfl⟩ := hhead
  · exact ⟨q, { a with area := [] }, rfl, hpopped, heq, List.length_pos_iff.mpr hne⟩
  · obtain ⟨con, hretrieve, -, -⟩ := hpopped.fetched cp data List.mem_cons_self
    have hassembled := hpopped.map_assembled cp.id
    obtain ⟨hissue, hsuffix'⟩ := issue_spec hassembled a.size
    refine ⟨q ++ (issue _ a.size).1, { a with area := (issue _ a.size).2.1, size := (issue _ a.size).2.2 },
      Option.bind_eq_some_iff.mpr ⟨con, hretrieve, Option.bind_eq_some_iff.mpr
        ⟨_, Fold.mapM_eq_map (assembleChunk_eq hpopped hretrieve), rfl⟩⟩, hassembled.of_suffix hsuffix', ?_, ?_⟩
    · rw [heq, List.append_assoc, ← hissue, List.map_map]
      exact congrArg (q ++ ·) (List.map_congr_left fun c _ ↦ (expected_assembled cp.id c).symm)
    · -- The first chunk is ready now.
      have hfirst : issue (((.chunk (cp, data) : AreaChunk) :: rest).map (assembled st cp.id)) a.size =
          (.chunk (pointerData st cp) :: (issue (rest.map (assembled st cp.id)) (a.size - cp.size)).1,
            (issue (rest.map (assembled st cp.id)) (a.size - cp.size)).2) := by
        rw [List.map_cons, assembled, if_pos rfl, issue]
      rw [hfirst]
      have hrest := (issue_spec (hassembled.of_suffix (List.suffix_cons _ _)) (a.size - cp.size)).2
      have hlen := hrest.length_le
      rw [List.length_map] at hlen
      exact (Nat.lt_succ_of_le hlen).trans_le hsuffix.length_le

theorem push_spec {c : RestoreChunk ChunkPointer} (h : IsAssembled st a.area)
    (hc : ∀ cp ∈ c.content, IsFetched st cp) :
    IsAssembled st (a.push c).2.area ∧
      (a.push c).2.area.map (expected st) = a.area.map (expected st) ++ [c.map (pointerData st)] ∧
      (a.push c).2.area ≠ [] ∧ (a.push c).2.area.length = a.area.length + 1 := by
  have harea : (a.push c).2.area = a.area ++ [c.map (·, none)] := by
    cases c <;> rfl
  rw [harea]
  refine ⟨?_, ?_, List.append_ne_nil_of_right_ne_nil _ (List.cons_ne_nil _ _), List.length_append⟩
  · constructor
    case fetched =>
      intro cp data hmem
      rcases List.mem_append.mp hmem with hmem | hmem
      · exact h.fetched cp data hmem
      · cases c with
        | fileStart filename => cases List.mem_singleton.mp hmem
        | fileEnd => cases List.mem_singleton.mp hmem
        | chunk cp' =>
          cases List.mem_singleton.mp hmem
          exact hc cp rfl
    case ready =>
      intro cp d hmem
      rcases List.mem_append.mp hmem with hmem | hmem
      · exact h.ready cp d hmem
      · cases c <;> cases List.mem_singleton.mp hmem
  · rw [List.map_append, List.map_singleton]
    cases c <;> rfl

/-- **The loop over the recipes.** -/
theorem restore_spec {stream : List (RestoreChunk ChunkPointer)} (h : IsAssembled st a.area)
    (hstream : ∀ cp ∈ streamPointers stream, IsFetched st cp) :
    ∃ out a', a.restore st stream = some (out, a') ∧ IsAssembled st a'.area ∧
      a.area.map (expected st) ++ restored st stream = out ++ a'.area.map (expected st) ∧
      a'.area.length ≤ a.area.length + stream.length := by
  induction stream generalizing a with
  | nil => exact ⟨[], a, rfl, h, List.append_nil _, le_rfl⟩
  | cons c stream ih =>
    have hc : ∀ cp ∈ c.content, IsFetched st cp := fun cp hcp ↦
      hstream cp (List.mem_filterMap.mpr ⟨c, List.mem_cons_self, hcp⟩)
    have hrest : ∀ cp ∈ streamPointers stream, IsFetched st cp := by
      intro cp hcp
      obtain ⟨c', hc', hcontent⟩ := List.mem_filterMap.mp hcp
      exact hstream cp (List.mem_filterMap.mpr ⟨c', List.mem_cons_of_mem c hc', hcontent⟩)
    obtain ⟨hpush, heq, hne, hlen⟩ := push_spec h hc
    have hout : a.area.map (expected st) ++ restored st (c :: stream) =
        (a.push c).2.area.map (expected st) ++ restored st stream := by
      rw [heq, List.append_assoc]
      rfl
    by_cases hfull : (a.push c).1 = true
    · obtain ⟨q, a₁, hassemble, h₁, heq₁, hlen₁⟩ := assembleArea_spec hpush hne
      obtain ⟨out, a₂, hrestore, h₂, heq₂, hlen₂⟩ := ih h₁ hrest
      have hrun : a.restore st (c :: stream) = some (q ++ out, a₂) := by
        rw [restore, if_pos hfull]
        exact Option.bind_eq_some_iff.mpr ⟨_, hassemble, Option.bind_eq_some_iff.mpr ⟨(q, a₁), rfl,
          Option.bind_eq_some_iff.mpr ⟨(out, a₂), hrestore, rfl⟩⟩⟩
      refine ⟨q ++ out, a₂, hrun, h₂, ?_, ?_⟩
      · rw [hout, heq₁, List.append_assoc, List.append_assoc, heq₂]
      · rw [List.length_cons]
        omega
    · obtain ⟨out, a₂, hrestore, h₂, heq₂, hlen₂⟩ := ih hpush hrest
      refine ⟨out, a₂, by rw [restore, if_neg hfull, hrestore], h₂, hout.trans heq₂, ?_⟩
      rw [List.length_cons]
      omega

/-- **The loop after the end**: with enough rounds, the whole area is issued. -/
theorem drain_eq {fuel : ℕ} (h : IsAssembled st a.area) (hfuel : a.area.length < fuel) :
    a.drain st fuel = some (a.area.map (expected st)) := by
  induction fuel generalizing a with
  | zero => exact absurd hfuel (Nat.not_lt_zero _)
  | succ fuel ih =>
    by_cases hne : a.area = []
    · have hnull : a.assembleArea st = some none := by
        rw [assembleArea, hne]
        rfl
      rw [hne]
      exact Option.bind_eq_some_iff.mpr ⟨none, hnull, rfl⟩
    · obtain ⟨q, a', hassemble, h', heq, hlen⟩ := assembleArea_spec h hne
      have hdrain := ih h' (hlen.trans_le (Nat.le_of_lt_succ hfuel))
      rw [heq]
      exact Option.bind_eq_some_iff.mpr ⟨some (q, a'), hassemble, Option.bind_eq_some_iff.mpr
        ⟨_, hdrain, rfl⟩⟩

end Area

end AssemblyArea

/-- **The assembly area**, of any size. -/
theorem assemblyRestoreThread_eq {st : ContainerStore} {stream : List (RestoreChunk ChunkPointer)} {fuel : ℕ}
    (size : ℕ) (h : SafePointers st.pool (streamPointers stream)) (hfuel : stream.length < fuel) :
    assemblyRestoreThread fuel st size stream = some (restored st stream) := by
  have hstream : ∀ cp ∈ streamPointers stream, IsFetched st cp := by
    intro cp hcp
    obtain ⟨d, hd⟩ := h.refers cp hcp
    exact hd.isFetched
  have hinit : AssemblyArea.IsAssembled st (AssemblyArea.init size).area :=
    ⟨fun _ _ h ↦ absurd h List.not_mem_nil, fun _ _ h ↦ absurd h List.not_mem_nil⟩
  obtain ⟨out, a, hrestore, ha, heq, hlen⟩ := AssemblyArea.restore_spec hinit hstream
  have hdrain := AssemblyArea.drain_eq ha ((hlen.trans_eq (Nat.zero_add _)).trans_lt hfuel)
  have hout : restored st stream = out ++ a.area.map (AssemblyArea.expected st) := heq
  rw [hout]
  exact Option.bind_eq_some_iff.mpr ⟨(out, a), hrestore, Option.bind_eq_some_iff.mpr ⟨_, hdrain, rfl⟩⟩

/-- All restore threads push what the restore without a cache pushes. -/
def RestoresAgree (st : ContainerStore) (w size : ℕ) (search : OptimalCache → ℤ → ℕ)
    (stream : List (RestoreChunk ChunkPointer)) : Prop :=
  ∃ out, naiveRestore st stream = some out ∧ lruRestoreThread st size stream = some out ∧
    optimalRestoreThread st w size search (OptimalCache.writtenRecords (streamPointers stream)) stream =
      some out ∧
    ∀ fuel, stream.length < fuel → assemblyRestoreThread fuel st size stream = some out

/-- **The restore threads are equivalent.** -/
theorem restoresAgree {st : ContainerStore} {w size : ℕ} {stream : List (RestoreChunk ChunkPointer)}
    (search : OptimalCache → ℤ → ℕ) (h : SafePointers st.pool (streamPointers stream)) (hsize : 0 < size)
    (hw : 0 < w) : RestoresAgree st w size search stream :=
  ⟨restored st stream, naiveRestore_eq h, lruRestoreThread_eq size h,
    optimalRestoreThread_eq hw hsize search h, fun _ hfuel ↦ assemblyRestoreThread_eq size h hfuel⟩

def twoChunks : Container := ⟨0, [⟨0, 1, .fill 1⟩, ⟨1, 2, .fill 2⟩], [5, 6, 7], by decide, by decide⟩

theorem safePointers_twoChunks :
    SafePointers [twoChunks] [⟨.fill 1, 0, 1⟩, ⟨.fill 2, 0, 2⟩, ⟨.fill 1, 0, 1⟩] := by
  constructor
  case refers =>
    have hfirst : Refers [twoChunks] [5] ⟨.fill 1, 0, 1⟩ :=
      ⟨by decide, twoChunks, List.mem_singleton_self _, rfl, fun _ h _ ↦ List.mem_singleton.mp h, by decide,
        ⟨0, 1, .fill 1⟩, by decide, rfl, by decide⟩
    have hsecond : Refers [twoChunks] [6, 7] ⟨.fill 2, 0, 2⟩ :=
      ⟨by decide, twoChunks, List.mem_singleton_self _, rfl, fun _ h _ ↦ List.mem_singleton.mp h, by decide,
        ⟨1, 2, .fill 2⟩, by decide, rfl, by decide⟩
    exact List.forall_mem_cons.mpr ⟨⟨_, hfirst⟩, List.forall_mem_cons.mpr ⟨⟨_, hsecond⟩,
      List.forall_mem_cons.mpr ⟨⟨_, hfirst⟩, List.forall_mem_nil _⟩⟩⟩
  case content =>
    intro con hcon con' hcon' fp d d' hd hd'
    rw [List.mem_singleton.mp hcon] at hd
    rw [List.mem_singleton.mp hcon'] at hd'
    exact Option.some.inj (hd.symm.trans hd')

/-- A file that is restored from the container. -/
theorem restoresAgree_twoChunks : RestoresAgree ⟨1, [], false, [twoChunks]⟩ 2 1 (fun st _ ↦ st.sorted.length)
    [.fileStart [97], .chunk ⟨.fill 1, 0, 1⟩, .chunk ⟨.fill 2, 0, 2⟩, .chunk ⟨.fill 1, 0, 1⟩, .fileEnd] :=
  restoresAgree _ safePointers_twoChunks (by decide) (by decide)

end UniDedup.Node
