import UniDedup.Node.KeyValue
import UniDedup.Node.Safety

/-!
# Exact deduplication is exact

With the exact index over physical locality and without rewriting, a fingerprint is stored once. The
key-value store has an entry for every chunk of every container submitted so far, under the whole
fingerprint and with the container as the latest id, because such a container is entered chunk by
chunk when it is submitted; the chunks of the container being filled and those in flight are found
without it. A chunk that was not found is therefore in no container, and only such chunks are stored.

## The invariant

`Exact` is put beside `Safe` in a contract (`exactness`). Only the filter thread can break it, and `ExactLoop` is
what its second pass keeps: what is in a container was there before the segment or has been treated in it.
-/

namespace UniDedup.Node

open Outcome Transition

/-! ## The configuration -/

/-- The options of exact deduplication with physical locality and without rewriting, as `init_index`
completes them. -/
structure ExactPhysical (cfg : Config) : Prop where
  category : cfg.category = .exact
  locality : cfg.locality = .physical
  noRewrite : cfg.rewriteAlgorithm = .no
  noHar : cfg.enableHar = false
  keySize : cfg.keySize = fpLength
  samplingMethod : cfg.samplingMethod = .uniform
  samplingRatio : cfg.samplingRatio = 1

theorem exactPhysical_of_initIndex {raw cfg : Config} (h : raw.initIndex = some cfg)
    (hc : cfg.category = .exact) (hl : cfg.locality = .physical) (hr : cfg.rewriteAlgorithm = .no)
    (hh : cfg.enableHar = false) : ExactPhysical cfg := by
  simp only [Config.initIndex, Option.bind_eq_bind, Option.bind_eq_some_iff] at h
  obtain ⟨cfg₁, -, h⟩ := h
  split_ifs at h with hexact hphys hexact' hsize hsize hsize hphys <;> cases h
  · exact ⟨hc, hl, hr, hh, rfl, rfl, rfl⟩
  all_goals simp_all

namespace ExactPhysical

variable {cfg : Config}

theorem keyOf_injective (h : ExactPhysical cfg) : Function.Injective (keyOf cfg) := by
  intro fp fp' heq
  have hall : ∀ fp : Fingerprint, keyOf cfg fp = fp.toList := by
    intro fp
    rw [keyOf, h.keySize, List.take_of_length_le (by simp)]
  rw [hall, hall] at heq
  exact List.Vector.toList_injective heq

theorem sampling_eq (h : ExactPhysical cfg) {cs : List Chunk} {n : ℕ} {features : List Key}
    (hcs : cs ≠ []) (hs : sampling cfg cs n = .ok features) :
    features = keysOf cfg (cs.map Chunk.fp) := by
  have hall : uniformChunks cfg cs = cs := by
    have hfilter : (cs.zipIdx.filter fun p ↦ p.2 % cfg.samplingRatio = 0) = cs.zipIdx := by
      rw [List.filter_eq_self]
      intro p _
      simp [h.samplingRatio, Nat.mod_one]
    rw [uniformChunks, hfilter, List.zipIdx_map_fst]
  simp only [sampling, h.samplingMethod, hall, bind_eq_ok] at hs
  obtain ⟨_, -, hs⟩ := hs
  rw [if_neg (by simpa using hcs)] at hs
  cases hs
  rfl

end ExactPhysical

/-! ## The invariant of the containers -/

/-- The index has every submitted container, and the container being filled repeats no chunk. -/
structure ExactStore (cfg : Config) (core : Core) : Prop where
  indexed : ∀ con ∈ core.storage.containers, ∀ fp ∈ con.fps,
    ∃ ids, core.kv (keyOf cfg fp) = some ((con.id : ℤ) :: ids)
  disjoint : ∀ con ∈ core.storage.containers, ∀ b ∈ core.containerBuffer, ∀ fp ∈ con.fps, fp ∉ b.fps
  /-- The chunks kept for sampling are those of the container. -/
  chunks : ∀ b ∈ core.containerBuffer, core.bufferChunks.map Chunk.fp = b.fps
  blank : ∀ b ∈ core.containerBuffer, b.isEmpty = true → b.data = []

namespace ExactStore

variable {cfg : Config} {core : Core} {con con' : Container}

theorem create (h : ExactStore cfg core) : ExactStore cfg core.createContainer where
  indexed := h.indexed
  disjoint con _ b hb fp _ := by
    cases hb
    exact List.not_mem_nil
  chunks b hb := by
    cases hb
    rfl
  blank b hb _ := by
    cases hb
    rfl

theorem submit (hcfg : ExactPhysical cfg) (h : ExactStore cfg core)
    (hcon : core.containerBuffer = some con) (hne : con.isEmpty = false) {E : FilterAbort → Prop}
    (hE : ∀ e, E (.sampling e)) : Post (core.submitContainer cfg con) (ExactStore cfg) E := by
  refine Core.post_submitContainer (fun kv _ hkv ↦ ?_) hE
  obtain ⟨features, hfeatures, rfl⟩ := hkv hcfg.locality
  have hfps := h.chunks con hcon
  have hnil : core.bufferChunks ≠ [] := by
    rintro hnil
    rw [hnil] at hfps
    have : con.entries = [] := by simpa [Container.fps] using hfps.symm
    simp [Container.isEmpty, this] at hne
  rw [hcfg.sampling_eq hnil hfeatures, hfps]
  have hst : (core.storage.writeContainerAsync con).containers =
      (core.storage.queue ++ [con]) ++ core.storage.pool := by
    rw [ContainerStore.writeContainerAsync, if_neg (by simp [hne])]
    rfl
  refine ⟨fun c hc fp hfp ↦ ?_, fun _ _ _ h ↦ (by simp at h), fun _ h ↦ (by simp at h),
    fun _ h ↦ (by simp at h)⟩
  dsimp only at hc ⊢
  rw [hst, List.mem_append, List.mem_append, List.mem_singleton] at hc
  by_cases hmem : fp ∈ con.fps
  · -- The container of a chunk that was entered just now is the one submitted.
    have hc : c = con := by
      by_contra hne
      have hold : c ∈ core.storage.containers := by
        rw [ContainerStore.containers, List.mem_append]
        tauto
      exact h.disjoint c hold con hcon fp hfp hmem
    rw [hc]
    exact KVStore.updateAll_of_mem (mem_keysOf.mpr ⟨fp, hmem, rfl⟩)
  · have hold : c ∈ core.storage.containers := by
      rw [ContainerStore.containers, List.mem_append]
      rcases hc with (hc | rfl) | hc
      · exact .inl hc
      · exact absurd hfp hmem
      · exact .inr hc
    rw [KVStore.updateAll_of_notMem]
    · exact h.indexed c hold fp hfp
    · rintro hkey
      obtain ⟨fp', hfp', heq⟩ := mem_keysOf.mp hkey
      exact hmem (hcfg.keyOf_injective heq ▸ hfp')

theorem add (h : ExactStore cfg core) (hcon : core.containerBuffer = some con) {fp : Fingerprint}
    {data : Bytes} (hadd : con.addChunk fp data = some con')
    (hnew : ∀ c ∈ core.storage.containers, fp ∉ c.fps) {stub : Chunk} (hstub : stub.fp = fp) :
    ExactStore cfg { core with
      containerBuffer := some con', bufferChunks := core.bufferChunks ++ [stub] } where
  indexed := h.indexed
  disjoint c hc b hb fp' hfp' hmem := by
    cases hb
    rw [Container.fps_addChunk hadd, List.mem_append, List.mem_singleton] at hmem
    rcases hmem with hmem | rfl
    · exact h.disjoint c hc con hcon fp' hfp' hmem
    · exact hnew c hc hfp'
  chunks b hb := by
    cases hb
    rw [List.map_append, h.chunks con hcon, Container.fps_addChunk hadd, List.map_singleton, hstub]
  blank b hb hempty := by
    cases hb
    simp [Container.isEmpty, (Container.addChunk_eq_some hadd).2.2.1] at hempty

/-- **No fingerprint is in two containers.** -/
theorem eq_of_mem (h : ExactStore cfg core) {sha1 : Bytes → Fingerprint} {sent : Bytes → Prop}
    (hstore : StoreOk sha1 sent core.containerBuffer core.storage)
    (hcon : con ∈ allContainers core.containerBuffer core.storage)
    (hcon' : con' ∈ allContainers core.containerBuffer core.storage) {fp : Fingerprint}
    (hfp : fp ∈ con.fps) (hfp' : fp ∈ con'.fps) : con = con' := by
  rw [allContainers, List.mem_append, Option.mem_toList] at hcon hcon'
  rcases hcon with hcon | hcon <;> rcases hcon' with hcon' | hcon'
  · exact Option.mem_unique hcon hcon'
  · exact absurd hfp (h.disjoint con' hcon' con hcon fp hfp')
  · exact absurd hfp' (h.disjoint con hcon con' hcon' fp hfp)
  · obtain ⟨ids, hids⟩ := h.indexed con hcon fp hfp
    obtain ⟨ids', hids'⟩ := h.indexed con' hcon' fp hfp'
    rw [hids] at hids'
    simp only [Option.some.injEq, List.cons.injEq, Int.ofNat_inj] at hids'
    exact hstore.inj con hcon con' hcon' hids'.1

end ExactStore

/-! ## The lookup finds what is stored -/

section Lookup

variable {cfg : Config} {env : LookupEnv}

/-- What the search in the key-value store does not find is in no submitted container. -/
theorem post_searchKVStore_exact (hcfg : ExactPhysical cfg)
    (hinj : ∀ con ∈ env.storage.containers, ∀ con' ∈ env.storage.containers, con.id = con'.id → con = con')
    (hindexed : ∀ con ∈ env.storage.containers, ∀ fp ∈ con.fps,
      ∃ ids, env.kv (keyOf cfg fp) = some ((con.id : ℤ) :: ids))
    (cache : Lru.Cache CacheUnit) (c : Chunk) :
    Post (searchKVStore cfg env true cache c)
      (fun r ↦ r.1.duplicate = false → ∀ con ∈ env.storage.containers, c.fp ∉ con.fps)
      fun _ ↦ True := by
  unfold searchKVStore
  split_ifs with hdup
  · intro hd
    have hd : c.duplicate = false := hd
    simp [hd] at hdup
  · cases hkv : env.kv (keyOf cfg c.fp) with
    | none =>
      intro _ con hcon hfp
      obtain ⟨ids, hids⟩ := hindexed con hcon c.fp hfp
      rw [hkv] at hids
      cases hids
    | some ids =>
      -- The container with the fingerprint is prefetched, so the second search of the cache hits.
      have hpre : Post (fingerprintCachePrefetch cfg env cache (ids.headD temporaryId))
          (fun cache' ↦ ∀ con ∈ env.storage.containers, c.fp ∈ con.fps →
            CacheUnit.ofContainer con ∈ cache'.elems) fun _ ↦ True := by
        unfold fingerprintCachePrefetch
        rw [hcfg.locality]
        refine (post_getOr fun _ ↦ trivial).bind fun cm hcm con hcon hfp ↦ ?_
        obtain ⟨ids', hids'⟩ := hindexed con hcon c.fp hfp
        rw [hkv, Option.some.injEq] at hids'
        rw [hids', List.headD_cons] at hcm
        obtain ⟨hmem, hid⟩ := ContainerStore.mem_of_retrieveMeta hcm
        rw [hinj con hcon cm hmem (by exact_mod_cast hid.symm)]
        exact Lru.Cache.mem_insert_self _ _
      refine hpre.bind fun cache' hcache' ↦ ?_
      have hlook : Post (fingerprintCacheLookup cfg cache' c.fp)
          (fun r ↦ ∀ con ∈ env.storage.containers, c.fp ∈ con.fps → r.1.isSome = true)
          fun _ ↦ True := by
        unfold fingerprintCacheLookup
        split
        · rename_i heq
          intro con hcon hfp
          have hnone := Lru.Cache.lookup_eq_none.mp (by rw [heq]) _ (hcache' con hcon hfp)
          simp only [CacheUnit.lookup, CacheUnit.ofContainer, Option.isSome_map, List.find?_isSome,
            Bool.eq_false_iff, ne_eq, not_exists, not_and] at hnone
          exact absurd (by simp) (hnone _ (List.mem_map.mpr ⟨c.fp, hfp, rfl⟩))
        · rename_i u cache₁ heq
          have hu := (Lru.Cache.mem_of_lookup (c := cache') (p := fun u ↦ (u.lookup c.fp).isSome)
            (a := u) (by rw [heq])).2
          exact (post_check fun _ ↦ trivial).bind fun _ _ _ _ _ ↦ hu
      unfold searchCache
      rw [if_neg (by simpa using hdup)]
      refine hlook.bind fun r hr hd con hcon hfp ↦ ?_
      obtain ⟨id, hid⟩ := Option.isSome_iff_exists.mp (hr con hcon hfp)
      simp [hid, Chunk.markDuplicate] at hd

theorem post_lookupChunk_exact (hcfg : ExactPhysical cfg)
    (hinj : ∀ con ∈ env.storage.containers, ∀ con' ∈ env.storage.containers, con.id = con'.id → con = con')
    (hindexed : ∀ con ∈ env.storage.containers, ∀ fp ∈ con.fps,
      ∃ ids, env.kv (keyOf cfg fp) = some ((con.id : ℤ) :: ids)) (st : IndexState) (c : Chunk) :
    Post (lookupChunk cfg env true st c)
      (fun r ↦ r.2.isFileMarker = false → r.2.duplicate = false →
        ∀ con ∈ env.storage.containers, r.2.fp ∉ con.fps) fun _ ↦ True := by
  have hup : Post (lookupChunk cfg env true st c) (fun r ↦ c.LookedUp r.2) fun _ ↦ True :=
    post_of_forall (fun r hr ↦ lookupChunk_lookedUp hr) fun _ _ ↦ trivial
  have hfound : Post (lookupChunk cfg env true st c)
      (fun r ↦ c.isFileMarker = false → r.2.duplicate = false →
        ∀ con ∈ env.storage.containers, c.fp ∉ con.fps) fun _ ↦ True := by
    unfold lookupChunk
    split_ifs with hm
    · intro hm'
      rw [hm] at hm'
      cases hm'
    · refine Post.bind (P := fun r ↦ r.1.fp = c.fp) ?_ fun r hr ↦ ?_
      · refine post_of_forall (fun r hr ↦ ?_) fun _ _ ↦ trivial
        have h := ((searchStorageBuffer_lookedUp env c).trans (searchIndexBuffer_lookedUp _ _)).trans
          (searchCache_lookedUp hr)
        rw [h]
      · refine (post_searchKVStore_exact hcfg hinj hindexed r.2 r.1).bind fun r' hr' ↦ ?_
        intro _ hd
        rw [← hr]
        exact hr' hd
  refine (hfound.and hup).mono (fun r ⟨hr, hc⟩ hm hd ↦ ?_) fun _ _ ↦ trivial
  have hfp : r.2.fp = c.fp := by rw [hc]
  rw [hfp]
  refine hr ?_ hd
  rw [hc] at hm
  exact hm

/-- **A chunk of a segment that was not found is in no submitted container.** -/
theorem post_indexLookup_exact (hcfg : ExactPhysical cfg)
    (hinj : ∀ con ∈ env.storage.containers, ∀ con' ∈ env.storage.containers, con.id = con'.id → con = con')
    (hindexed : ∀ con ∈ env.storage.containers, ∀ fp ∈ con.fps,
      ∃ ids, env.kv (keyOf cfg fp) = some ((con.id : ℤ) :: ids)) (st : IndexState) (cs : List Chunk) :
    Post (indexLookup cfg env st cs)
      (fun r ↦ ∀ c ∈ dataChunks r.2, c.duplicate = false →
        ∀ con ∈ env.storage.containers, c.fp ∉ con.fps) fun _ ↦ True := by
  have huse : cfg.searchesKVStore = true := by
    simp [Config.searchesKVStore, Config.similarityBased, hcfg.locality]
  unfold indexLookup
  rw [huse]
  refine Post.bind (P := fun _ ↦ True)
    (post_of_forall (fun _ _ ↦ trivial) fun _ _ ↦ trivial) fun cache _ ↦ ?_
  refine post_lookupChunks (E := fun _ ↦ True) (I := fun _ _ out _ ↦ ∀ c ∈ dataChunks out,
    c.duplicate = false → ∀ con ∈ env.storage.containers, c.fp ∉ con.fps)
    (fun done c todo out st hout ↦ ?_) fun _ h ↦ by cases h
  refine (post_lookupChunk_exact hcfg hinj hindexed st c).mono (fun r hr c' hc' ↦ ?_) fun _ h ↦ h
  rw [dataChunks_append, List.mem_append] at hc'
  rcases hc' with hc' | hc'
  · exact hout c' hc'
  · obtain ⟨hmem, hm⟩ := mem_dataChunks.mp hc'
    obtain rfl : c' = r.2 := by simpa using hmem
    exact hr hm

end Lookup

/-! ## The invariant of a backup -/

/-- **The exactness invariant** of a running backup. -/
structure Exact (cfg : Config) (x : Flight) : Prop where
  store : ExactStore cfg x.core
  /-- A chunk that was not found is in no submitted container. -/
  new : ∀ c ∈ dataChunks x.segs.flatten, c.duplicate = false →
    ∀ con ∈ x.core.storage.containers, c.fp ∉ con.fps
  plain : ∀ c ∈ dataChunks x.segs.flatten, c.sparse = false ∧ c.outOfOrder = false

/-- The invariant of the second pass over a segment. -/
structure ExactLoop (cfg : Config) (core₀ : Core) (done : List Chunk) (core : Core) : Prop where
  store : ExactStore cfg core
  /-- What is in a container was there before or has been treated. -/
  held : ∀ con ∈ allContainers core.containerBuffer core.storage, ∀ fp ∈ con.fps,
    (∃ con₀ ∈ allContainers core₀.containerBuffer core₀.storage, fp ∈ con₀.fps) ∨
      ∃ c ∈ dataChunks done, c.fp = fp

namespace ExactLoop

variable {cfg : Config} {core₀ core : Core} {done : List Chunk} {c : Chunk} {con : Container}

theorem skip (h : ExactLoop cfg core₀ done core) (c : Chunk) :
    ExactLoop cfg core₀ (done ++ [c]) core where
  store := h.store
  held con hcon fp hfp := by
    rcases h.held con hcon fp hfp with hold | ⟨c', hc', hfp'⟩
    · exact .inl hold
    · exact .inr ⟨c', by simp [hc'], hfp'⟩

theorem create (h : ExactLoop cfg core₀ done core) :
    ExactLoop cfg core₀ done core.createContainer where
  store := h.store.create
  held con hcon fp hfp := by
    rcases mem_allContainers.mp hcon with hcon | hcon
    · cases hcon
      cases hfp
    · exact h.held con (mem_allContainers.mpr (.inr hcon)) fp hfp

/-- A container is submitted; an empty one only for a chunk that fits into none. -/
theorem submit (hcfg : ExactPhysical cfg) (h : ExactLoop cfg core₀ done core)
    (hcon : core.containerBuffer = some con) {size : ℕ} (hover : con.overflow size = true) :
    Post (core.submitContainer cfg con)
      (fun core' ↦ ExactLoop cfg core₀ done core' ∨ containerSize - containerMetaSize < size)
      fun e ↦ e ≠ .alreadyStored := by
  cases hempty : con.isEmpty with
  | true =>
    have hlarge := Container.large_of_overflow hempty (h.store.blank con hcon hempty) hover
    exact Core.post_submitContainer (fun _ _ _ ↦ .inr hlarge) fun _ ↦ by simp
  | false =>
    have hheld : Post (core.submitContainer cfg con) (fun core' ↦
        ∀ c ∈ allContainers core'.containerBuffer core'.storage,
          c ∈ allContainers core.containerBuffer core.storage) fun _ ↦ True := by
      refine Core.post_submitContainer (fun kv _ _ c hc ↦ ?_) fun _ ↦ trivial
      rw [mem_allContainers] at hc ⊢
      dsimp only at hc
      rw [ContainerStore.writeContainerAsync, if_neg (by simp [hempty])] at hc
      rcases hc with hc | hc | hc
      · cases hc
      · rcases List.mem_append.mp hc with hc | hc
        · exact .inr (.inl hc)
        · rw [List.mem_singleton.mp hc]
          exact .inl hcon
      · exact .inr (.inr hc)
    refine ((h.store.submit hcfg hcon hempty (E := fun e ↦ e ≠ .alreadyStored) fun _ ↦ by simp).and
      hheld).mono (fun core' ⟨hstore, hsub⟩ ↦ .inl ⟨hstore, fun c hc ↦ ?_⟩) fun _ h ↦ h.1
    exact h.held c (hsub c hc)

theorem add (h : ExactLoop cfg core₀ done core) (hcon : core.containerBuffer = some con)
    {t : Core.Tables} {c₁ : Chunk} (hm : c.isFileMarker = false) (hc : c.Filtered c₁)
    (hnew : ∀ con₀ ∈ allContainers core₀.containerBuffer core₀.storage, c.fp ∉ con₀.fps)
    (hdone : ∀ c' ∈ dataChunks done, c'.fp ≠ c.fp) :
    Post (core.addChunk cfg t c₁ con) (fun r ↦ ExactLoop cfg core₀ (done ++ [c]) r.1)
      fun e ↦ e ≠ .alreadyStored := by
  have hnot : ∀ con₁ ∈ allContainers core.containerBuffer core.storage, c.fp ∉ con₁.fps := by
    intro con₁ hcon₁ hfp
    rcases h.held con₁ hcon₁ _ hfp with ⟨con₀, hcon₀, hfp₀⟩ | ⟨c', hc', hfp'⟩
    · exact hnew con₀ hcon₀ hfp₀
    · exact hdone c' hc' hfp'
  unfold Core.addChunk
  refine (post_check fun _ ↦ by simp).bind fun _ _ ↦ ?_
  split
  · rename_i con' hadd
    rw [post_pure]
    refine ⟨h.store.add hcon hadd (fun c' hc' ↦ ?_) rfl, fun con₁ hcon₁ fp hfp ↦ ?_⟩
    · rw [hc.fp]
      exact hnot c' (List.mem_append_right _ hc')
    · have hold : ∀ con₁ ∈ allContainers core.containerBuffer core.storage, fp ∈ con₁.fps →
          (∃ con₀ ∈ allContainers core₀.containerBuffer core₀.storage, fp ∈ con₀.fps) ∨
            ∃ c' ∈ dataChunks (done ++ [c]), c'.fp = fp :=
        fun con₁ hcon₁ hfp ↦ (h.skip c).held con₁ hcon₁ fp hfp
      rcases mem_allContainers.mp hcon₁ with hcon₁ | hcon₁
      · cases hcon₁
        rw [Container.fps_addChunk hadd, List.mem_append, List.mem_singleton] at hfp
        rcases hfp with hfp | rfl
        · exact hold con (mem_allContainers.mpr (.inl hcon)) hfp
        · exact .inr ⟨c, by simp [dataChunks, hm], hc.fp.symm⟩
      · exact hold con₁ (mem_allContainers.mpr (.inr hcon₁)) hfp
  · rename_i hadd
    have hmem := Container.addChunk_eq_none.mp hadd
    rw [hc.fp] at hmem
    exact absurd hmem (hnot con (mem_allContainers.mpr (.inl hcon)))

/-- **The turn of a chunk.** Only chunks that were not found are stored. -/
theorem step (hcfg : ExactPhysical cfg) (h : ExactLoop cfg core₀ done core) {t : Core.Tables}
    (hplain : c.isFileMarker = false → c.sparse = false ∧ c.outOfOrder = false)
    (hnew : c.isFileMarker = false → c.duplicate = false →
      (∀ con₀ ∈ allContainers core₀.containerBuffer core₀.storage, c.fp ∉ con₀.fps) ∧
      ∀ c' ∈ dataChunks done, c'.fp ≠ c.fp) :
    Post (core.filterChunk cfg t c) (fun r ↦ ExactLoop cfg core₀ (done ++ [c]) r.1)
      fun e ↦ e ≠ .alreadyStored := by
  cases hm : c.isFileMarker with
  | true =>
    unfold Core.filterChunk
    rw [if_pos hm]
    exact h.skip c
  | false =>
    refine Core.post_filterChunk (P := fun r ↦ ExactLoop cfg core₀ (done ++ [c]) r.1) hm
      (fun _ ↦ by simp) (fun _ _ _ ↦ by simp) (fun b c₁ hc₁ hmust ↦ ?_) (fun b c₁ _ _ ↦ ?_)
      fun r hr ↦ ⟨fun _ ↦ by simp, ⟨⟨hr.store.indexed, hr.store.disjoint, hr.store.chunks,
        hr.store.blank⟩, hr.held⟩⟩
    · have hd : c.duplicate = false := by
        obtain ⟨hsparse, hooo⟩ := hplain hm
        simpa [Core.mustStore, hc₁.filtered.duplicate, hc₁.filtered.sparse, hc₁.filtered.outOfOrder,
          hsparse, hooo] using hmust
      obtain ⟨hnew, hdone⟩ := hnew hm hd
      refine Core.post_storeChunk
        (I := fun core ↦ ExactLoop cfg core₀ done core ∨ containerSize - containerMetaSize < c₁.size)
        (fun core hI _ ↦ hI.imp_left ExactLoop.create) (fun core con hI hcon hover ↦ ?_)
        (fun core con hI hcon ↦ ?_)
        (.inl ⟨⟨h.store.indexed, h.store.disjoint, h.store.chunks, h.store.blank⟩, h.held⟩)
      · rcases hI with hI | hlarge
        · exact hI.submit hcfg hcon hover
        · exact Core.post_submitContainer (fun _ _ _ ↦ .inr hlarge) fun _ ↦ by simp
      · rcases hI with hI | hlarge
        · exact hI.add hcon hm hc₁.filtered hnew hdone
        · -- A chunk that fits into no container does not get here.
          have hfail : core.addChunk cfg t c₁ con = .error .containerOverflow := by
            unfold Core.addChunk check
            rw [if_neg (by simp [Container.overflow_of_large hlarge])]
            rfl
          rw [hfail]
          simp
    · have hI := h.skip c
      exact ⟨⟨hI.store.indexed, hI.store.disjoint, hI.store.chunks, hI.store.blank⟩, hI.held⟩

end ExactLoop

namespace Exact

variable {cfg : Config} {sha1 : Bytes → Fingerprint} {cl : Client} {core core' : Core}
  {segs : List (List Chunk)} {s s' rest : List Chunk}

theorem lookup (hcfg : ExactPhysical cfg) (hs : Safe sha1 cl ⟨core, segs, s ++ rest⟩)
    (h : Exact cfg ⟨core, segs, s ++ rest⟩) :
    Post (core.lookup cfg s) (fun r ↦ Exact cfg ⟨r.1, segs ++ [r.2], rest⟩) fun _ ↦ True := by
  have hup : Post (indexLookup cfg core.lookupEnv core.index s)
      (fun r ↦ List.Forall₂ Chunk.LookedUp s r.2) fun _ ↦ True :=
    post_of_forall (fun r hr ↦ indexLookup_lookedUp hr) fun _ _ ↦ trivial
  have hnew : Post (indexLookup cfg core.lookupEnv core.index s)
      (fun r ↦ ∀ c ∈ dataChunks r.2, c.duplicate = false →
        ∀ con ∈ core.storage.containers, c.fp ∉ con.fps) fun _ ↦ True :=
    post_indexLookup_exact hcfg hs.store.inj h.store.indexed core.index s
  unfold Core.lookup
  refine ((hnew.and hup).mono (fun _ h ↦ h) fun _ _ ↦ trivial).bind ?_
  rintro ⟨index, s'⟩ ⟨hnew, hs'⟩
  have hflat : dataChunks (segs ++ [s']).flatten = dataChunks segs.flatten ++ dataChunks s' := by simp
  refine ⟨⟨h.store.indexed, h.store.disjoint, h.store.chunks, h.store.blank⟩, ?_, ?_⟩
  · intro c hc
    dsimp only at hc
    rw [hflat, List.mem_append] at hc
    rcases hc with hc | hc
    · exact h.new c hc
    · exact hnew c hc
  · intro c hc
    dsimp only at hc
    rw [hflat, List.mem_append] at hc
    rcases hc with hc | hc
    · exact h.plain c hc
    · -- The chunk has not been marked since it was hashed.
      obtain ⟨hmem, hm⟩ := mem_dataChunks.mp hc
      obtain ⟨c₀, hc₀, hup⟩ := hs'.exists_of_mem_right hmem
      have hm₀ : c₀.isFileMarker = false := by
        rw [hup] at hm
        exact hm
      have hfresh : c₀ = Chunk.hashed sha1 c₀.data := hs.fresh c₀ (by
        simp [dataChunks_append, mem_dataChunks, hc₀, hm₀])
      rw [hup, hfresh]
      exact ⟨rfl, rfl⟩

theorem skip (h : Exact cfg ⟨core, segs, s ++ rest⟩) (hs : chunkNum s = 0) :
    Exact cfg ⟨core, segs ++ [s], rest⟩ := by
  have hflat : dataChunks (segs ++ [s]).flatten = dataChunks segs.flatten := by
    rw [chunkNum_eq, List.length_eq_zero_iff] at hs
    simp [hs]
  exact ⟨h.store, by simpa only [hflat] using h.new, by simpa only [hflat] using h.plain⟩

section Filter

variable {cs : List Chunk}

/-- The chunks of a segment after the first pass, with those the segment has in flight. -/
theorem exists_of_consulted {b : IndexBuffer} (hm : Marked cfg s s')
    (hcs : List.Forall₂ (Consulted b) s' cs) {c : Chunk} (hc : c ∈ dataChunks cs) :
    ∃ c₀ ∈ dataChunks s, ∃ c₁, c₀.Marks cfg c₁ ∧ c₁.Filtered c := by
  obtain ⟨hmem, hmark⟩ := mem_dataChunks.mp hc
  obtain ⟨c₁, hc₁, hcon⟩ := hcs.exists_of_mem_right hmem
  obtain ⟨c₀, hc₀, hmarks⟩ := List.Forall₂.exists_of_mem_right hm hc₁
  refine ⟨c₀, mem_dataChunks.mpr ⟨hc₀, ?_⟩, c₁, hmarks, hcon.filtered⟩
  rw [← hmarks.isFileMarker, ← hcon.filtered.isFileMarker]
  exact hmark

theorem filterChunks (hcfg : ExactPhysical cfg) (h : Exact cfg ⟨core, s :: segs, rest⟩) (hm : Marked cfg s s')
    (hcs : List.Forall₂ (Consulted core.index.buffer) s' cs)
    (hc : Checked (Holds core.containerBuffer core.storage) (InBuffer core.containerBuffer) cs) :
    Post (core.filterChunks cfg cs) (fun r ↦ ExactLoop cfg core cs r.1) fun e ↦ e ≠ .alreadyStored := by
  refine (Core.post_filterChunks (E := fun e ↦ e ≠ .alreadyStored) (I := fun done todo _ core' _ ↦
    cs = done ++ todo ∧ ExactLoop cfg core done core') ?_ ?_).mono (fun _ h ↦ h.2) fun _ h ↦ h
  · rintro done c todo out core' t ⟨rfl, hloop⟩
    refine (hloop.step hcfg (fun hmark ↦ ?_) fun hmark hd ↦ ⟨fun con hcon hfp ↦ ?_, ?_⟩).mono
      (fun r hr ↦ ⟨by simp, hr⟩) fun _ h ↦ h
    · obtain ⟨c₀, hc₀, c₁, hmarks, hf⟩ := exists_of_consulted hm hcs (c := c) (by
        simp [dataChunks_cons_data hmark])
      rw [hf.sparse, hf.outOfOrder, hmarks.sparse hcfg.noHar, hmarks.outOfOrder hcfg.noRewrite]
      exact h.plain c₀ (by simp [hc₀])
    · rw [allContainers, List.mem_append, Option.mem_toList] at hcon
      rcases hcon with hcon | hcon
      · exact (hc.unique done c todo rfl hmark hd).2 ⟨con, hcon, hfp⟩
      · obtain ⟨c₀, hc₀, c₁, hmarks, hf⟩ := exists_of_consulted hm hcs (c := c) (by
          simp [dataChunks_cons_data hmark])
        rw [hf.fp, hmarks.fp] at hfp
        refine h.new c₀ (by simp [hc₀]) ?_ con hcon hfp
        rw [← hmarks.duplicate, ← hf.duplicate]
        exact hd
    · exact (hc.unique done c todo rfl hmark hd).1
  · exact ⟨rfl, h.store, fun con hcon fp hfp ↦ .inl ⟨con, hcon, hfp⟩⟩

/-- **A segment is filtered**, and no chunk is found in the container it is added to. -/
theorem filter (hcfg : ExactPhysical cfg) (hs : Safe sha1 cl ⟨core, s :: segs, rest⟩)
    (h : Exact cfg ⟨core, s :: segs, rest⟩) (hm : Marked cfg s s') :
    Post (core.filterSegment cfg s') (fun core' ↦ Exact cfg ⟨core', segs, rest⟩)
      fun e ↦ e ≠ .alreadyStored := by
  unfold Core.filterSegment
  refine ((hs.consult hm).mono (fun _ h ↦ h) fun _ h ↦ h.elim).bind fun cs ⟨hcs, hc⟩ ↦ ?_
  refine (((hs.filterChunks hm hcs hc).and (h.filterChunks hcfg hm hcs hc)).mono (fun _ h ↦ h)
    fun _ h ↦ h.2).bind ?_
  rintro ⟨core₁, t, out⟩ ⟨hloop, hexact⟩
  have hloop : FilterLoop sha1 (Sent cl) core cs out core₁ t := hloop
  have hexact : ExactLoop cfg core cs core₁ := hexact
  refine ((hs.updateBuffer hm hcs hloop).mono (fun _ h ↦ h) fun _ h ↦ h.elim).bind fun b _ ↦ ?_
  refine ((hs.record hm hcs hloop b).mono (fun _ h ↦ h) fun _ h ↦ h.elim).bind
    fun ⟨sid, core₂⟩ hrec ↦ ?_
  refine Core.post_updateSegmentIndex (fun kv hkv _ ↦ ?_) fun _ ↦ by simp
  have hframe := hrec.records.frame
  dsimp only at hframe
  have hkv : kv = core₁.kv := by
    rw [hkv hcfg.locality, hframe]
  have hst : core₂.storage = core₁.storage := by rw [hframe]
  have hbuf : core₂.containerBuffer = core₁.containerBuffer := by rw [hframe]
  have hchunks : core₂.bufferChunks = core₁.bufferChunks := by rw [hframe]
  refine ⟨⟨?_, ?_, ?_, ?_⟩, fun c hc' hd con hcon hfp ↦ ?_, fun c hc' ↦ ?_⟩
  · simp only [hst, hkv]
    exact hexact.store.indexed
  · simp only [hst, hbuf]
    exact hexact.store.disjoint
  · simp only [hbuf, hchunks]
    exact hexact.store.chunks
  · simp only [hbuf]
    exact hexact.store.blank
  · -- A chunk that is still in flight and was not found is not one the segment stored.
    dsimp only at hc' hcon
    rw [hst] at hcon
    have hF := hs.inFlight_marked hm
    have hentry : c.entry ∈ entries segs.flatten := mem_entries.mpr ⟨c, hc', rfl⟩
    rcases hexact.held con (List.mem_append_right _ hcon) _ hfp with ⟨con₀, hcon₀, hfp₀⟩ | ⟨c', hc'', hfp'⟩
    · rw [allContainers, List.mem_append, Option.mem_toList] at hcon₀
      rcases hcon₀ with hcon₀ | hcon₀
      · obtain ⟨pre, post, hsplit⟩ := List.append_of_mem hentry
        exact (hF.unique (entries s' ++ pre) c.entry post (by simp [hsplit]) hd).2 ⟨con₀, hcon₀, hfp₀⟩
      · exact h.new c (by simp [hc']) hd con₀ hcon₀ hfp₀
    · obtain ⟨hmem, hmark⟩ := mem_dataChunks.mp hc''
      obtain ⟨c₁, hc₁, hcon₁⟩ := hcs.exists_of_mem_right hmem
      have hdata : c₁ ∈ dataChunks s' :=
        mem_dataChunks.mpr ⟨hc₁, hcon₁.filtered.isFileMarker ▸ hmark⟩
      refine hF.fp_ne_of_mem_append hentry hd (mem_entries.mpr ⟨c₁, hdata, rfl⟩) ?_
      change c₁.fp = c.fp
      rw [← hcon₁.filtered.fp, hfp']
  · have hc' : c ∈ dataChunks segs.flatten := hc'
    exact h.plain c (by simp [hc'])

end Filter

theorem flush (hcfg : ExactPhysical cfg) (h : Exact cfg ⟨core, [], []⟩) :
    Post (core.finalFlush cfg) (fun core' ↦ Exact cfg ⟨core', [], []⟩) fun e ↦ e ≠ .alreadyStored := by
  refine Core.post_finalFlush h fun con hcon hempty ↦ ?_
  exact (h.store.submit hcfg hcon hempty fun _ ↦ by simp).mono
    (fun core' hstore ↦ ⟨hstore, fun _ h ↦ (by cases h), fun _ h ↦ (by cases h)⟩) fun _ h ↦ h

theorem append (hs : Safe sha1 cl ⟨core, segs, rest⟩) (h : Exact cfg ⟨core, segs, rest⟩)
    (happ : core.append = some core') : Exact cfg ⟨core', segs, rest⟩ := by
  obtain ⟨st, hst, rfl⟩ := Option.map_eq_some_iff.mp happ
  have hmem := hs.store.mem_append hst
  exact
    { store :=
        { indexed := fun con hcon ↦ h.store.indexed con ((hmem con).mp hcon)
          disjoint := fun con hcon ↦ h.store.disjoint con ((hmem con).mp hcon)
          chunks := h.store.chunks
          blank := h.store.blank }
      new := fun c hc hd con hcon ↦ h.new c hc hd con ((hmem con).mp hcon)
      plain := h.plain }

end Exact

/-! ## The contract -/

/-- **Exactness as a contract**, on top of safety. -/
def exactness {cfg : Config} (hcfg : ExactPhysical cfg) (sha1 : Bytes → Fingerprint) :
    Contract cfg sha1 .backupsOnly where
  idle cl d := SafeDisk sha1 cl d ∧ ∀ con ∈ d.pool, ∀ fp ∈ con.fps,
    ∃ ids, d.kv (keyOf cfg fp) = some ((con.id : ℤ) :: ids)
  busy cl x := Safe sha1 cl x ∧ Exact cfg x
  abort e := e ≠ .filter .alreadyStored
  start := ⟨(safety cfg sha1 .backupsOnly).start, fun _ h ↦ by cases h⟩
  backup cl d files h := ⟨h.1.backup files,
    { store := ⟨h.2, fun _ _ _ h ↦ (by cases h), fun _ h ↦ (by cases h), fun _ h ↦ (by cases h)⟩
      new := fun _ h ↦ by cases h
      plain := fun _ h ↦ by cases h }⟩
  turn cl x r h ht := by
    have hexact : Post r (Exact cfg) fun e ↦ e ≠ .filter .alreadyStored := by
      cases ht with
      | stay => exact h.2
      | lookup =>
        exact Post.map (Post.mapError ((h.2.lookup hcfg h.1).mono (fun _ h ↦ h) fun _ _ ↦ by simp))
      | skip hs _ => exact h.2.skip hs
      | filter hm _ =>
        exact Post.map (Post.mapError ((h.2.filter hcfg h.1 hm).mono (fun _ h ↦ h)
          fun _ he h ↦ he (Abort.filter.inj h)))
      | flush =>
        exact Post.map (Post.mapError ((h.2.flush hcfg).mono (fun _ h ↦ h)
          fun _ he h ↦ he (Abort.filter.inj h)))
      | append happ => exact Exact.append h.1 h.2 happ
      | rewriteAbort => simp
    exact (((safety cfg sha1 .backupsOnly).turn cl x r h.1 ht).and hexact).mono (fun _ h ↦ h)
      fun _ h ↦ h.2
  finish cl core h hq hbuf := ⟨h.1.close hq hbuf, fun con hcon ↦
    h.2.store.indexed con (List.mem_append_right _ hcon)⟩
  delete _ _ _ _ h := h.elim

/-- No fingerprint is in two of the containers, or twice in one. -/
def StoredOnce (containers : List Container) : Prop :=
  ∀ con ∈ containers, con.fps.Nodup ∧ ∀ con' ∈ containers, ∀ fp ∈ con.fps, fp ∈ con'.fps → con' = con

/-- **Exact deduplication is exact.** In every run of backups, no fingerprint is ever stored twice, and
the assertion where a container already has a chunk is never reached. -/
theorem stored_once {raw cfg : Config} (hcfg : raw.initIndex = some cfg)
    (hexact : cfg.category = .exact) (hphysical : cfg.locality = .physical)
    (hrewrite : cfg.rewriteAlgorithm = .no) (hhar : cfg.enableHar = false)
    {sha1 : Bytes → Fingerprint} {queueSize : ℕ} {s : State}
    (h : (node cfg sha1 queueSize).Reach Policy.backupsOnly.Allows s) :
    (∀ d, s.node = .idle d → StoredOnce d.pool) ∧
    (∀ j, s.node = .running j → StoredOnce (allContainers j.core.containerBuffer j.core.storage)) ∧
    s.node ≠ .aborted (.filter .alreadyStored) := by
  have hat := (exactness (exactPhysical_of_initIndex hcfg hexact hphysical hrewrite hhar) sha1).holds h
  refine ⟨fun d hn con hcon ↦ ⟨con.nodup, fun con' hcon' fp hfp hfp' ↦ ?_⟩, fun j hn con hcon ↦
    ⟨con.nodup, fun con' hcon' fp hfp hfp' ↦ ?_⟩, fun hn ↦ Contract.at_aborted hat hn rfl⟩
  · obtain ⟨hsafe, hindexed⟩ := Contract.at_idle hat hn
    obtain ⟨ids, hids⟩ := hindexed con hcon fp hfp
    obtain ⟨ids', hids'⟩ := hindexed con' hcon' fp hfp'
    rw [hids] at hids'
    simp only [Option.some.injEq, List.cons.injEq, Int.ofNat_inj] at hids'
    exact hsafe.store.inj con' hcon' con hcon hids'.1.symm
  · obtain ⟨x, hf, hsafe, hx⟩ := Contract.at_running hat hn
    obtain ⟨core, segs, rest⟩ := x
    obtain rfl : core = j.core := hf.core
    exact hx.store.eq_of_mem hsafe.store hcon' hcon hfp' hfp

/-- The exact index over physical locality. -/
def exactConfig : Config := { Config.start with category := .exact }

theorem stored_once_sample :
    exactConfig.initIndex = some exactConfig ∧ ∃ s d,
      (node exactConfig sampleSha1 1000).Reach Policy.backupsOnly.Allows s ∧ s.node = .idle d ∧
      s.client.sent = [sampleFiles, sampleFiles] ∧ StoredOnce d.pool := by
  have hcfg : exactConfig.initIndex = some exactConfig := rfl
  have hrun : ((node exactConfig sampleSha1 1000).runIf Policy.backupsOnly.Allows .start
      (.backup sampleFiles :: turns 15 16 9 2 ++ .backup sampleFiles :: turns 15 16 9 0)).any
      (fun s ↦ s.node.isIdle && s.client.sent = [sampleFiles, sampleFiles]) = true := by
    decide +kernel
  obtain ⟨s, hs, hp⟩ := System.Reach.exists_of_runIf (.init rfl) _ hrun
  simp only [Bool.and_eq_true, decide_eq_true_eq] at hp
  obtain ⟨d, hd⟩ := NodeState.exists_of_isIdle hp.1
  exact ⟨hcfg, s, d, hs, hd, hp.2, (stored_once hcfg rfl rfl rfl rfl hs).1 d hd⟩

end UniDedup.Node
