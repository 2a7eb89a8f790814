import UniDedup.Node.Features
import UniDedup.Node.KeyValue
import UniDedup.Node.Safety

/-!
# The index of containers

With physical locality the key-value store has the ids of containers. Every id in the store is that of
a container that was submitted, and where the container was sampled from its own chunks it is under the
key of one of them. A deletion looks for the ids of the containers it reclaims under the keys of their
chunks, so none of those is left behind.
-/

namespace UniDedup.Node

open Outcome Transition

/-- The chunk kept for sampling in place of one that was stored. -/
def Chunk.stub (fp : Fingerprint) : Chunk := { Chunk.new .normal [] with fp := fp }

@[simp] theorem dataFps_stubs (fps : List Fingerprint) : dataFps (fps.map Chunk.stub) = fps := by
  have hall : ((fps.map Chunk.stub).filter fun c ↦ !c.isFileMarker) = fps.map Chunk.stub := by
    rw [List.filter_eq_self]
    intro c hc
    obtain ⟨fp, -, rfl⟩ := List.mem_map.mp hc
    rfl
  rw [dataFps, hall, List.map_map]
  exact List.map_id fps

/-! ## The entries of the store -/

/-- Was a container sampled from its own chunks? -/
def Sampled (cfg : Config) (con : Container) : Prop := SamplesData cfg (con.fps.map Chunk.stub)

instance (cfg : Config) (con : Container) : Decidable (Sampled cfg con) :=
  inferInstanceAs (Decidable (SamplesData _ _))

/-- Every id in the store is that of one of the containers, under the key of one of its chunks where
the container was sampled from these. -/
structure PhysicalIndex (cfg : Config) (kv : KVStore) (containers : List Container) : Prop where
  tidy : kv.Tidy
  owned : ∀ key id, kv.Has key id → ∃ con ∈ containers, (con.id : ℤ) = id ∧
    (Sampled cfg con → ∃ fp ∈ con.fps, keyOf cfg fp = key)

namespace PhysicalIndex

variable {cfg : Config} {kv kv' : KVStore} {containers containers' : List Container} {con : Container}

theorem mono (h : PhysicalIndex cfg kv containers) (hsub : ∀ con ∈ containers, con ∈ containers') :
    PhysicalIndex cfg kv containers' where
  tidy := h.tidy
  owned key id hh := by
    obtain ⟨con, hcon, hrest⟩ := h.owned key id hh
    exact ⟨con, hsub con hcon, hrest⟩

/-- **A container is entered.** -/
theorem enter (h : PhysicalIndex cfg kv containers) (hnew : ∀ con' ∈ containers, con'.id ≠ con.id)
    (hsub : ∀ con ∈ containers, con ∈ containers') (hcon : con ∈ containers') {n : ℕ}
    {features : List Key} (hf : sampling cfg (con.fps.map Chunk.stub) n = .ok features) :
    PhysicalIndex cfg (kv.updateAll cfg features con.id) containers' where
  tidy := by
    refine h.tidy.updateAll (sampling_nodup hf) fun key _ hh ↦ ?_
    obtain ⟨con', hcon', hid, -⟩ := h.owned key _ hh
    exact hnew con' hcon' (by exact_mod_cast hid)
  owned key id hh := by
    rcases hh.of_updateAll with ⟨hkey, rfl⟩ | hh
    · refine ⟨con, hcon, rfl, fun hs ↦ ?_⟩
      have hown := sampling_own hs hf key hkey
      rwa [dataFps_stubs] at hown
    · obtain ⟨con', hcon', hrest⟩ := h.owned key id hh
      exact ⟨con', hsub con' hcon', hrest⟩

theorem delete (h : PhysicalIndex cfg kv containers) {entries : List (Fingerprint × ℤ)}
    (hd : deleteEntries cfg kv entries = .ok kv') : PhysicalIndex cfg kv' containers := by
  obtain ⟨htidy, hhas, -⟩ := deleteEntries_spec hd h.tidy
  exact ⟨htidy, fun key id hh ↦ h.owned key id (hhas key id hh)⟩

end PhysicalIndex

/-- The entries of the reclaimed containers are those of all their chunks. -/
theorem mem_containerEntries {d : Disk} {invalid : List ℤ} {entries : List (Fingerprint × ℤ)}
    (h : containerEntries d invalid = .ok entries) {id : ℤ} (hid : id ∈ invalid) :
    ∃ con, d.storage.retrieveMeta id = some con ∧ ∀ fp ∈ con.fps, (fp, id) ∈ entries := by
  have hloop : Post (containerEntries d invalid)
      (fun es ↦ ∀ id ∈ [] ++ invalid, ∃ con, d.storage.retrieveMeta id = some con ∧
        ∀ fp ∈ con.fps, (fp, id) ∈ es) fun _ ↦ True := by
    refine Post.foldlM (I := fun done _ es ↦ ∀ id ∈ done, ∃ con,
      d.storage.retrieveMeta id = some con ∧ ∀ fp ∈ con.fps, (fp, id) ∈ es)
      (fun done a todo es hes ↦ ?_) invalid [] [] fun _ h ↦ by simp at h
    refine (post_getOr fun _ ↦ trivial).bind fun con hcon id hid ↦ ?_
    rw [List.mem_append, List.mem_singleton] at hid
    rcases hid with hid | rfl
    · obtain ⟨con', hcon', hes⟩ := hes id hid
      exact ⟨con', hcon', fun fp hfp ↦ List.mem_append_left _ (hes fp hfp)⟩
    · exact ⟨con, hcon, fun fp hfp ↦ List.mem_append_right _ (List.mem_map.mpr ⟨fp, hfp, rfl⟩)⟩
  exact hloop.ok h id hid

/-- **The containers that are reclaimed are taken out**, if they were sampled from their chunks. -/
theorem PhysicalIndex.not_has {cfg : Config} {d : Disk} {kv' : KVStore} {invalid : List ℤ}
    {entries : List (Fingerprint × ℤ)} (h : PhysicalIndex cfg d.kv d.pool)
    (hinj : ∀ con ∈ d.pool, ∀ con' ∈ d.pool, con.id = con'.id → con = con')
    (he : containerEntries d invalid = .ok entries) (hd : deleteEntries cfg d.kv entries = .ok kv')
    {id : ℤ} (hid : id ∈ invalid) (hs : ∀ con ∈ d.pool, (con.id : ℤ) = id → Sampled cfg con)
    (key : Key) : 0 ≤ id ∧ ¬kv'.Has key id := by
  obtain ⟨con, hcon, hentries⟩ := mem_containerEntries he hid
  obtain ⟨hpool, rfl⟩ := ContainerStore.mem_of_retrieveMeta hcon
  refine ⟨Int.natCast_nonneg _, fun hh ↦ ?_⟩
  obtain ⟨-, hhas, hgone⟩ := deleteEntries_spec hd h.tidy
  obtain ⟨con', hcon', hid', hown⟩ := h.owned key _ (hhas key _ hh)
  obtain rfl : con' = con := hinj con' hcon' con hpool (by exact_mod_cast hid')
  obtain ⟨fp, hfp, rfl⟩ := hown (hs con' hcon' rfl)
  exact hgone _ (hentries fp hfp) hh

/-! ## The invariant of a backup -/

/-- The store has containers that were submitted, and the chunks kept for sampling are those of the
container being filled. -/
structure Indexing (cfg : Config) (core : Core) : Prop where
  index : PhysicalIndex cfg core.kv core.storage.containers
  stubs : ∀ b ∈ core.containerBuffer, core.bufferChunks = b.fps.map Chunk.stub
  blank : ∀ b ∈ core.containerBuffer, b.isEmpty = true → b.data = []

namespace Indexing

variable {cfg : Config} {sha1 : Bytes → Fingerprint} {sent : Bytes → Prop} {core core' : Core}
  {con con' : Container} {t : Core.Tables} {c : Chunk}

theorem congr (h : Indexing cfg core) (hkv : core'.kv = core.kv) (hst : core'.storage = core.storage)
    (hbuf : core'.containerBuffer = core.containerBuffer)
    (hchunks : core'.bufferChunks = core.bufferChunks) : Indexing cfg core' := by
  refine ⟨?_, ?_, ?_⟩
  · rw [hkv, hst]
    exact h.index
  · rw [hbuf, hchunks]
    exact h.stubs
  · rw [hbuf]
    exact h.blank

theorem create (h : Indexing cfg core) : Indexing cfg core.createContainer where
  index := h.index
  stubs b hb := by
    cases hb
    rfl
  blank b hb _ := by
    cases hb
    rfl

theorem submit (hphys : cfg.locality = .physical)
    (hstore : StoreOk sha1 sent core.containerBuffer core.storage) (h : Indexing cfg core)
    (hcon : core.containerBuffer = some con) (hne : con.isEmpty = false) {E : FilterAbort → Prop}
    (hE : ∀ e, E (.sampling e)) : Post (core.submitContainer cfg con) (Indexing cfg) E := by
  refine Core.post_submitContainer (fun kv _ hkv ↦ ?_) hE
  obtain ⟨features, hfeatures, rfl⟩ := hkv hphys
  rw [h.stubs con hcon] at hfeatures
  have hst : (core.storage.writeContainerAsync con).containers =
      (core.storage.queue ++ [con]) ++ core.storage.pool := by
    rw [ContainerStore.writeContainerAsync, if_neg (by simp [hne])]
    rfl
  refine ⟨?_, fun _ h ↦ (by simp at h), fun _ h ↦ (by simp at h)⟩
  dsimp only
  rw [hst]
  refine h.index.enter (fun con' hcon' ↦ (hstore.bound con' hcon').2 con hcon) (fun con' hcon' ↦ ?_)
    (by simp) hfeatures
  rw [ContainerStore.containers, List.mem_append] at hcon'
  simp only [List.mem_append]
  tauto

theorem add (h : Indexing cfg core) (hcon : core.containerBuffer = some con) :
    Post (core.addChunk cfg t c con) (fun r ↦ Indexing cfg r.1) fun _ ↦ True := by
  unfold Core.addChunk
  refine (post_check fun _ ↦ trivial).bind fun _ _ ↦ ?_
  split
  · rename_i con' hadd
    rw [post_pure]
    refine ⟨h.index, fun b hb ↦ ?_, fun b hb hempty ↦ ?_⟩
    · cases hb
      rw [Container.fps_addChunk hadd, List.map_append, h.stubs con hcon]
      rfl
    · cases hb
      simp [Container.isEmpty, (Container.addChunk_eq_some hadd).2.2.1] at hempty
  · exact (post_check fun _ ↦ trivial).bind fun _ _ ↦ h

/-- A chunk is written to a container. An empty container is submitted only for a chunk that fits into
none, and that chunk is not added. -/
theorem store (hphys : cfg.locality = .physical)
    (hstore : StoreOk sha1 sent core.containerBuffer core.storage) (h : Indexing cfg core) :
    Post (core.storeChunk cfg t c) (fun r ↦ Indexing cfg r.1) fun _ ↦ True := by
  refine Core.post_storeChunk (E := fun _ ↦ True) (I := fun core ↦
    (StoreOk sha1 sent core.containerBuffer core.storage ∧ Indexing cfg core) ∨
      containerSize - containerMetaSize < c.size) ?_ ?_ ?_ (.inl ⟨hstore, h⟩)
  · rintro core (⟨hstore, hI⟩ | hlarge) hnone
    · rw [hnone] at hstore
      exact .inl ⟨hstore.create, hI.create⟩
    · exact .inr hlarge
  · rintro core con (⟨hstore, hI⟩ | hlarge) hcon hover
    · cases hempty : con.isEmpty with
      | true =>
        have hlarge := Container.large_of_overflow hempty (hI.blank con hcon hempty) hover
        exact Core.post_submitContainer (fun _ _ _ ↦ .inr hlarge) fun _ ↦ trivial
      | false =>
        have hsubmit : Post (core.submitContainer cfg con)
            (fun core' ↦ StoreOk sha1 sent core'.containerBuffer core'.storage) fun _ ↦ True := by
          rw [hcon] at hstore
          exact Core.post_submitContainer (fun _ _ _ ↦ hstore.submit) fun _ ↦ trivial
        exact (hsubmit.and (hI.submit hphys hstore hcon hempty (E := fun _ ↦ True)
          fun _ ↦ trivial)).mono (fun _ h ↦ .inl h) fun _ h ↦ h.1
    · exact Core.post_submitContainer (fun _ _ _ ↦ .inr hlarge) fun _ ↦ trivial
  · rintro core con (⟨-, hI⟩ | hlarge) hcon
    · exact hI.add hcon
    · have hfail : core.addChunk cfg t c con = .error .containerOverflow := by
        unfold Core.addChunk check
        rw [if_neg (by simp [Container.overflow_of_large hlarge])]
        rfl
      rw [hfail]
      trivial

/-- **The turn of a chunk.** -/
theorem step (hphys : cfg.locality = .physical)
    (hstore : StoreOk sha1 sent core.containerBuffer core.storage) (h : Indexing cfg core) :
    Post (core.filterChunk cfg t c) (fun r ↦ Indexing cfg r.1) fun _ ↦ True := by
  cases hm : c.isFileMarker with
  | true =>
    unfold Core.filterChunk
    rw [if_pos hm]
    exact h
  | false =>
    refine Core.post_filterChunk (P := fun r ↦ Indexing cfg r.1) hm (fun _ ↦ trivial)
      (fun _ _ _ ↦ trivial) (fun b c₁ _ _ ↦ ?_) (fun b c₁ _ _ ↦ h.congr rfl rfl rfl rfl)
      fun r hr ↦ ⟨fun _ ↦ trivial, hr.congr rfl rfl rfl rfl⟩
    have hb : Indexing cfg { core with enableRewrite := b } := h.congr rfl rfl rfl rfl
    exact hb.store hphys hstore

variable {cl : Client} {segs : List (List Chunk)} {s s' rest cs : List Chunk}

theorem filterChunks (hphys : cfg.locality = .physical)
    (hs : Safe sha1 cl ⟨core, s :: segs, rest⟩) (h : Indexing cfg core) (hm : Marked cfg s s')
    (hcs : List.Forall₂ (Consulted core.index.buffer) s' cs)
    (hc : Checked (Holds core.containerBuffer core.storage) (InBuffer core.containerBuffer) cs) :
    Post (core.filterChunks cfg cs) (fun r ↦ Indexing cfg r.1) fun _ ↦ True := by
  have hcontent := hs.hashed_consulted hm hcs
  refine (Core.post_filterChunks (E := fun _ ↦ True) (I := fun done todo out core' t ↦
    cs = done ++ todo ∧ FilterLoop sha1 (Sent cl) core done out core' t ∧ Indexing cfg core')
    ?_ ⟨rfl, .start hs.store hs.aware, h⟩).mono (fun _ h ↦ h.2.2) fun _ h ↦ h
  rintro done c todo out core' t ⟨rfl, hloop, hI⟩
  refine ((hloop.step hc fun hm ↦ hcontent c ?_).and (hI.step hphys hloop.store)).mono
    (fun r hr ↦ ⟨by simp, hr⟩) fun _ _ ↦ trivial
  simp [dataChunks_cons_data hm]

/-- **A segment is filtered.** -/
theorem filter (hphys : cfg.locality = .physical) (hs : Safe sha1 cl ⟨core, s :: segs, rest⟩)
    (h : Indexing cfg core) (hm : Marked cfg s s') :
    Post (core.filterSegment cfg s') (Indexing cfg) fun _ ↦ True := by
  unfold Core.filterSegment
  refine ((hs.consult hm).mono (fun _ h ↦ h) fun _ h ↦ h.elim).bind fun cs ⟨hcs, hc⟩ ↦ ?_
  refine (((hs.filterChunks hm hcs hc).and (h.filterChunks hphys hs hm hcs hc)).mono (fun _ h ↦ h)
    fun _ h ↦ h.2).bind ?_
  rintro ⟨core₁, t, out⟩ ⟨hloop, hI⟩
  have hloop : FilterLoop sha1 (Sent cl) core cs out core₁ t := hloop
  have hI : Indexing cfg core₁ := hI
  refine ((hs.updateBuffer hm hcs hloop).mono (fun _ h ↦ h) fun _ h ↦ h.elim).bind fun b _ ↦ ?_
  refine ((hs.record hm hcs hloop b).mono (fun _ h ↦ h) fun _ h ↦ h.elim).bind
    fun ⟨sid, core₂⟩ hrec ↦ ?_
  refine Core.post_updateSegmentIndex (fun kv hkv _ ↦ ?_) fun _ ↦ trivial
  have hframe := hrec.records.frame
  dsimp only at hframe
  refine hI.congr ?_ ?_ ?_ ?_
  · dsimp only
    rw [hkv hphys, hframe]
  · dsimp only
    rw [hframe]
  · dsimp only
    rw [hframe]
  · dsimp only
    rw [hframe]

theorem flush (hphys : cfg.locality = .physical)
    (hstore : StoreOk sha1 sent core.containerBuffer core.storage) (h : Indexing cfg core) :
    Post (core.finalFlush cfg) (Indexing cfg) fun _ ↦ True := by
  exact Core.post_finalFlush h fun con hcon hempty ↦ h.submit hphys hstore hcon hempty fun _ ↦ trivial

theorem lookup (h : Indexing cfg core) :
    Post (core.lookup cfg s) (fun r ↦ Indexing cfg r.1) fun _ ↦ True := by
  exact Core.post_lookup fun _ _ ↦ h.congr rfl rfl rfl rfl

theorem append (hstore : StoreOk sha1 sent core.containerBuffer core.storage) (h : Indexing cfg core)
    (happ : core.append = some core') : Indexing cfg core' := by
  obtain ⟨st, hst, rfl⟩ := Option.map_eq_some_iff.mp happ
  exact ⟨h.index.mono fun con hcon ↦ (hstore.mem_append hst con).mpr hcon, h.stubs, h.blank⟩

end Indexing

end UniDedup.Node
