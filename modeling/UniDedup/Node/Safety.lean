import UniDedup.Node.Contract
import UniDedup.Node.Record

/-!
# Deduplication is safe

Whatever the configuration and the interleaving of the threads, a pointer of a recipe refers to a
container that has the chunk the pointer was written for. The invariant `Safe` puts together what the
containers hold, what is known of the chunks in flight, that everything the lookup may find is right,
and how far the recipes have got with what the client sent. Fingerprints are assumed to be free of
collisions on the data sent, and only where a content is concluded from a fingerprint.

## How it is used

`Safe` is the `busy` part of a contract (`Node.Contract`), so it has to be kept by one turn of a thread only. What
else is proved about backups, such as that the store is exact, that the index has no deleted containers, or that the
lookup gets on, are contracts that have `Safe` beside a part of their own. None of them looks at the interleavings
again.
-/

namespace UniDedup.Node

open Outcome Transition

/-! ## What the client sent -/

/-- The contents of the chunks of a backup. -/
def contents (files : List File) : List Bytes := files.flatMap File.chunks

/-- The data the client sent in some backup. -/
def Sent (cl : Client) (d : Bytes) : Prop := ∃ files ∈ cl.sent, d ∈ contents files

theorem body_stream (sha1 : Bytes → Fingerprint) (files : List File) :
    body (stream sha1 files) = (contents files).map fun d ↦ (sha1 d, d) := by
  have hdata : ∀ ds : List Bytes, body (ds.map (Chunk.hashed sha1)) = ds.map fun d ↦ (sha1 d, d) := by
    intro ds
    induction ds with
    | nil => rfl
    | cons d ds ih =>
      rw [List.map_cons, List.map_cons, ← ih]
      rfl
  induction files with
  | nil => rfl
  | cons f files ih =>
    have hf : body (f.stream sha1) = f.chunks.map fun d ↦ (sha1 d, d) := by
      rw [← hdata f.chunks, File.stream, body_append]
      exact List.append_nil _
    rw [stream, List.flatMap_cons, body_append, hf, ← stream, ih, contents, contents,
      List.flatMap_cons, List.map_append]

theorem fresh_stream {sha1 : Bytes → Fingerprint} {files : List File} :
    ∀ c ∈ dataChunks (stream sha1 files), Fresh sha1 c := by
  intro c hc
  obtain ⟨hmem, hm⟩ := mem_dataChunks.mp hc
  obtain ⟨f, -, hc⟩ := List.mem_flatMap.mp hmem
  simp only [File.stream, List.cons_append, List.mem_cons, List.mem_append, List.mem_map,
    List.not_mem_nil, or_false] at hc
  rcases hc with rfl | ⟨d, -, rfl⟩ | rfl
  · simp [Chunk.isFileMarker, Chunk.new] at hm
  · rfl
  · simp [Chunk.isFileMarker, Chunk.new] at hm

/-! ## The invariant -/

/-- The pointers of a version are those of the data `ds`, and their containers have the chunks. -/
structure PointsTo (sha1 : Bytes → Fingerprint) (H : ℤ → Fingerprint → Prop) (ds : List Bytes)
    (b : BackupVersion) : Prop where
  pointers : b.pointers.map (fun cp ↦ (cp.fp, cp.size)) = ds.map fun d ↦ (sha1 d, d.length)
  held : ∀ cp ∈ b.pointers, H cp.id cp.fp

theorem PointsTo.mono {sha1 : Bytes → Fingerprint} {H H' : ℤ → Fingerprint → Prop} {ds : List Bytes}
    {b : BackupVersion} (h : PointsTo sha1 H ds b) (hH : ∀ id fp, H id fp → H' id fp) :
    PointsTo sha1 H' ds b := ⟨h.pointers, fun cp hcp ↦ hH _ _ (h.held cp hcp)⟩

theorem PointsTo.recipe {sha1 : Bytes → Fingerprint} {H : ℤ → Fingerprint → Prop} {ds : List Bytes}
    {b : BackupVersion} (h : PointsTo sha1 H ds b) : ∀ cp ∈ b.recipe, 0 ≤ cp.id → H cp.id cp.fp := by
  intro cp hcp hpos
  refine h.held cp (List.mem_filter.mpr ⟨hcp, decide_eq_true (p := _ ∧ _) ⟨?_, ?_⟩⟩)
  · unfold segmentStartId
    omega
  · unfold segmentEndId
    omega

/-- The recipes of the finished versions are those of the backups the client sent. -/
def Restorable (sha1 : Bytes → Fingerprint) (H : ℤ → Fingerprint → Prop) (sent : List (List File))
    (versions : List BackupVersion) : Prop :=
  List.Forall₂ (fun files b ↦ PointsTo sha1 H (contents files) b) sent versions

/-- How far the version being written has got: `ds` is the data of its pointers, and the rest is still
in flight or to be read. -/
structure Writing (sha1 : Bytes → Fingerprint) (H : ℤ → Fingerprint → Prop) (sent : List (List File))
    (x : Flight) : Prop where
  progress : ∃ files older ds, sent = files :: older ∧
    (ds.map fun d ↦ (sha1 d, d)) ++ body (x.segs.flatten ++ x.rest) =
      (contents files).map (fun d ↦ (sha1 d, d)) ∧
    PointsTo sha1 H ds x.core.bv ∧ Restorable sha1 H older x.core.versions

/-- **The safety invariant** of a running backup. -/
structure Safe (sha1 : Bytes → Fingerprint) (cl : Client) (x : Flight) : Prop where
  store : StoreOk sha1 (Sent cl) x.core.containerBuffer x.core.storage
  inFlight : InFlight (Holds x.core.containerBuffer x.core.storage) (InBuffer x.core.containerBuffer)
    x.core.index.buffer.queues (entries x.segs.flatten)
  cache : CacheOk (Holds x.core.containerBuffer x.core.storage) x.core.index.cache
  fresh : ∀ c ∈ dataChunks x.rest, Fresh sha1 c
  aware : temporaryId ∉ x.core.restoreAware.cache.elems
  bracketed : Bracketed x.core.fileRecipe.isSome ((x.segs.flatten ++ x.rest).map Chunk.kind)
  writing : Writing sha1 (Holds x.core.containerBuffer x.core.storage) cl.sent x

namespace Safe

variable {cfg : Config} {sha1 : Bytes → Fingerprint} {cl : Client} {core core' : Core}
  {segs : List (List Chunk)} {s s' rest : List Chunk} {x : Flight}

/-- The chunks in flight were sent, and their fingerprints are those of their data. -/
theorem hashed (h : Safe sha1 cl x) {c : Chunk} (hc : c ∈ dataChunks x.segs.flatten) :
    sha1 c.data = c.fp ∧ Sent cl c.data := by
  obtain ⟨files, older, ds, hsent, hbody, -⟩ := h.writing.progress
  have hmem : (c.fp, c.data) ∈ (contents files).map fun d ↦ (sha1 d, d) := by
    rw [← hbody, body_append]
    exact List.mem_append_right _ (List.mem_append_left _ (List.mem_map.mpr ⟨c, hc, rfl⟩))
  obtain ⟨d, hd, heq⟩ := List.mem_map.mp hmem
  obtain ⟨hfp, hdata⟩ := Prod.mk.inj heq
  rw [← hdata]
  exact ⟨hfp, files, by simp [hsent], hd⟩

theorem envOk (h : Safe sha1 cl ⟨core, segs, rest⟩) :
    EnvOk (Holds core.containerBuffer core.storage) core.lookupEnv where
  containers con hcon fp hfp := ⟨con, List.mem_append_right _ hcon, rfl, hfp⟩
  buffer con hcon fp hfp := ⟨con, mem_allContainers.mpr (.inl hcon), rfl, hfp⟩
  recipes b hb cp hcp hpos := by
    obtain ⟨files, older, ds, -, -, hbv, hold⟩ := h.writing.progress
    rcases List.mem_cons.mp hb with rfl | hb
    · exact hbv.recipe cp hcp hpos
    · obtain ⟨files', -, hb'⟩ := hold.exists_of_mem_right hb
      exact hb'.recipe cp hcp hpos

/-- The containers change without losing a chunk, and nothing is added to the one being filled. -/
theorem grow (h : Safe sha1 cl ⟨core, segs, rest⟩)
    (hstore : StoreOk sha1 (Sent cl) core'.containerBuffer core'.storage)
    (hgrows : Grows core.containerBuffer core.storage core'.containerBuffer core'.storage)
    (hbuffer : ∀ fp, InBuffer core'.containerBuffer fp → InBuffer core.containerBuffer fp)
    (hcore : core' = { core with
      storage := core'.storage, containerBuffer := core'.containerBuffer
      bufferChunks := core'.bufferChunks, kv := core'.kv }) :
    Safe sha1 cl ⟨core', segs, rest⟩ := by
  have hindex : core'.index = core.index := by rw [hcore]
  obtain ⟨files, older, ds, hsent, hbody, hbv, hold⟩ := h.writing.progress
  exact
    { store := hstore
      inFlight := by
        simp only [hindex]
        exact h.inFlight.mono hgrows hbuffer
      cache := by
        simp only [hindex]
        exact fun u hu p hp ↦ hgrows _ _ (h.cache u hu p hp)
      fresh := h.fresh
      aware := by
        rw [hcore]
        exact h.aware
      bracketed := by
        rw [hcore]
        exact h.bracketed
      writing := ⟨files, older, ds, hsent, hbody, by
        rw [hcore]
        exact hbv.mono hgrows, by
        rw [hcore]
        exact hold.imp fun _ _ hb ↦ hb.mono hgrows⟩ }

/-! ### The turns -/

theorem lookup (h : Safe sha1 cl ⟨core, segs, s ++ rest⟩) :
    Post (core.lookup cfg s) (fun r ↦ Safe sha1 cl ⟨r.1, segs ++ [r.2], rest⟩) fun _ ↦ True := by
  have hup : Post (indexLookup cfg core.lookupEnv core.index s)
      (fun r ↦ List.Forall₂ Chunk.LookedUp s r.2) fun _ ↦ True :=
    post_of_forall (fun r hr ↦ indexLookup_lookedUp hr) fun _ _ ↦ trivial
  have hlook : Post (indexLookup cfg core.lookupEnv core.index s)
      (fun r ↦ InFlight (Holds core.containerBuffer core.storage) (InBuffer core.containerBuffer)
        r.1.buffer.queues (entries segs.flatten ++ entries r.2) ∧
        CacheOk (Holds core.containerBuffer core.storage) r.1.cache) fun _ ↦ True :=
    post_indexLookup (fun id fp hh ↦ Holds.ne_temporaryId hh) h.envOk h.inFlight h.cache
      fun c hc ↦ h.fresh c (by simp [dataChunks_append, hc])
  unfold Core.lookup
  refine ((hlook.and hup).mono (fun _ h ↦ h) fun _ _ ↦ trivial).bind ?_
  rintro ⟨index, s'⟩ ⟨⟨hF, hcache⟩, hs'⟩
  have hcontent : s'.map Chunk.content = s.map Chunk.content :=
    map_content_eq (fun _ _ hc ↦ hc.content) hs'
  have hflat : (segs ++ [s']).flatten = segs.flatten ++ s' := by simp
  obtain ⟨files, older, ds, hsent, hbody, hbv, hold⟩ := h.writing.progress
  exact
    { store := h.store
      inFlight := by
        simp only [hflat, entries_append]
        exact hF
      cache := hcache
      fresh := fun c hc ↦ h.fresh c (by simp [dataChunks_append, hc])
      aware := h.aware
      bracketed := by
        have hb := h.bracketed
        simp only [hflat, List.map_append, kinds_congr hcontent, List.append_assoc] at hb ⊢
        exact hb
      writing := ⟨files, older, ds, hsent, by
        simp only [hflat, body_append, body_congr hcontent, List.append_assoc] at hbody ⊢
        exact hbody, hbv, hold⟩ }

theorem skip (h : Safe sha1 cl ⟨core, segs, s ++ rest⟩) (hs : chunkNum s = 0) :
    Safe sha1 cl ⟨core, segs ++ [s], rest⟩ := by
  have hflat : (segs ++ [s]).flatten = segs.flatten ++ s := by simp
  have hnil : entries s = [] := by
    rw [chunkNum_eq, List.length_eq_zero_iff] at hs
    rw [entries, hs]
    rfl
  obtain ⟨files, older, ds, hsent, hbody, hbv, hold⟩ := h.writing.progress
  exact
    { store := h.store
      inFlight := by
        simp only [hflat, entries_append, hnil, List.append_nil]
        exact h.inFlight
      cache := h.cache
      fresh := fun c hc ↦ h.fresh c (by simp [dataChunks_append, hc])
      aware := h.aware
      bracketed := by
        have hb := h.bracketed
        simp only [hflat, List.append_assoc] at hb ⊢
        exact hb
      writing := ⟨files, older, ds, hsent, by
        simp only [hflat, List.append_assoc] at hbody ⊢
        exact hbody, hbv, hold⟩ }

theorem inFlight_marked (h : Safe sha1 cl ⟨core, s :: segs, rest⟩) (hm : Marked cfg s s') :
    InFlight (Holds core.containerBuffer core.storage) (InBuffer core.containerBuffer)
      core.index.buffer.queues (entries s' ++ entries segs.flatten) := by
  have hF := h.inFlight
  rwa [List.flatten_cons, entries_append, ← hm.entries_eq] at hF

theorem consult (h : Safe sha1 cl ⟨core, s :: segs, rest⟩) (hm : Marked cfg s s') :
    Post (indexCheckBuffer core.index.buffer s')
      (fun cs ↦ List.Forall₂ (Consulted core.index.buffer) s' cs ∧
        Checked (Holds core.containerBuffer core.storage) (InBuffer core.containerBuffer) cs)
      fun _ ↦ False :=
  post_indexCheckBuffer (fun _ _ hh ↦ hh.nonneg) (h.inFlight_marked hm)

theorem content_consulted {b : IndexBuffer} (hm : Marked cfg s s') {cs : List Chunk}
    (hcs : List.Forall₂ (Consulted b) s' cs) : cs.map Chunk.content = s.map Chunk.content :=
  (map_content_eq (fun _ _ hc ↦ hc.filtered.content) hcs).trans
    (map_content_eq (fun _ _ hc ↦ hc.content) hm)

theorem hashed_consulted (h : Safe sha1 cl ⟨core, s :: segs, rest⟩) (hm : Marked cfg s s')
    {cs : List Chunk} (hcs : List.Forall₂ (Consulted core.index.buffer) s' cs) :
    ∀ c ∈ dataChunks cs, sha1 c.data = c.fp ∧ Sent cl c.data := by
  intro c hc
  have hmem : (c.fp, c.data) ∈ body s := by
    rw [← body_congr (content_consulted hm hcs)]
    exact List.mem_map.mpr ⟨c, hc, rfl⟩
  obtain ⟨c₀, hc₀, heq⟩ := List.mem_map.mp hmem
  obtain ⟨hfp, hdata⟩ := Prod.mk.inj heq
  rw [← hfp, ← hdata]
  exact h.hashed (by simp [hc₀])

theorem filterChunks (h : Safe sha1 cl ⟨core, s :: segs, rest⟩) (hm : Marked cfg s s')
    {cs : List Chunk} (hcs : List.Forall₂ (Consulted core.index.buffer) s' cs)
    (hc : Checked (Holds core.containerBuffer core.storage) (InBuffer core.containerBuffer) cs) :
    Post (core.filterChunks cfg cs) (fun r ↦ FilterLoop sha1 (Sent cl) core cs r.2.2 r.1 r.2.1)
      FilterAbort.Possible :=
  post_filterChunks h.store h.aware hc (h.hashed_consulted hm hcs)

section Passes

variable {cs out : List Chunk} {t : Core.Tables} {core₁ : Core}

theorem updateBuffer (h : Safe sha1 cl ⟨core, s :: segs, rest⟩) (hm : Marked cfg s s')
    (hcs : List.Forall₂ (Consulted core.index.buffer) s' cs)
    (hloop : FilterLoop sha1 (Sent cl) core cs out core₁ t) :
    Post (indexUpdateBuffer core₁.index.buffer out)
      (fun b ↦ InFlight (Holds core₁.containerBuffer core₁.storage) (InBuffer core₁.containerBuffer)
        b.queues (entries segs.flatten)) fun _ ↦ False := by
  have hF := h.inFlight_marked hm
  have hindex : core₁.index = core.index := by rw [hloop.frame]
  have hout : List.Forall₂ (FilteredAs (Holds core₁.containerBuffer core₁.storage)) s' out := by
    refine hcs.comp (fun c c₁ c₂ hc hc₁ ↦ ⟨hc.filtered.trans hc₁.1, fun hmark ↦ hc₁.2 ?_⟩) hloop.out
    rw [hc.filtered.isFileMarker]
    exact hmark
  rw [hindex]
  refine (post_indexUpdateBuffer (fun _ _ hh ↦ hh.ne_temporaryId)
    (hF.mono hloop.grows fun _ h ↦ h) hout).mono (fun b hb ↦ hb.refill ?_) fun _ h ↦ h
  -- What was stored for the segment does not occur behind it as a new chunk.
  intro e he hd hin
  rcases hloop.buffer _ hin with hold | ⟨c, hc, hfp⟩
  · exact hold
  · obtain ⟨hmem, hmark⟩ := mem_dataChunks.mp hc
    obtain ⟨c', hc', hcon⟩ := hcs.exists_of_mem_right hmem
    have hdata : c' ∈ dataChunks s' :=
      mem_dataChunks.mpr ⟨hc', hcon.filtered.isFileMarker ▸ hmark⟩
    refine absurd ?_ (hF.fp_ne_of_mem_append he hd (mem_entries.mpr ⟨c', hdata, rfl⟩))
    rw [← hfp, hcon.filtered.fp]
    rfl

theorem content_out (hm : Marked cfg s s') (hcs : List.Forall₂ (Consulted core.index.buffer) s' cs)
    (hloop : FilterLoop sha1 (Sent cl) core cs out core₁ t) :
    out.map Chunk.content = s.map Chunk.content :=
  (map_content_eq (fun _ _ hc ↦ hc.1.content) hloop.out).trans (content_consulted hm hcs)

theorem held_out (hloop : FilterLoop sha1 (Sent cl) core cs out core₁ t) {c : Chunk}
    (hc : c ∈ dataChunks out) : Holds core₁.containerBuffer core₁.storage c.id c.fp := by
  obtain ⟨hmem, hmark⟩ := mem_dataChunks.mp hc
  obtain ⟨c', -, hf, hheld⟩ := hloop.out.exists_of_mem_right hmem
  exact hheld (hf.isFileMarker ▸ hmark)

theorem record (h : Safe sha1 cl ⟨core, s :: segs, rest⟩) (hm : Marked cfg s s')
    (hcs : List.Forall₂ (Consulted core.index.buffer) s' cs)
    (hloop : FilterLoop sha1 (Sent cl) core cs out core₁ t) (b : IndexBuffer) :
    Post ({ core₁ with index := { core₁.index with buffer := b } }.writeSegmentRecipe out)
      (Core.Recorded { core₁ with index := { core₁.index with buffer := b } } out
        ((segs.flatten ++ rest).map Chunk.kind)) fun _ ↦ False := by
  refine Core.post_writeSegmentRecipe ?_ fun c hc ↦ (held_out hloop hc).nonneg
  have hb := h.bracketed
  have hrecipe : core₁.fileRecipe = core.fileRecipe := by rw [hloop.frame]
  simp only [List.flatten_cons, List.append_assoc, List.map_append] at hb ⊢
  rw [kinds_congr (content_out hm hcs hloop), hrecipe]
  exact hb

theorem pointsTo (h : Safe sha1 cl ⟨core, s :: segs, rest⟩) (hm : Marked cfg s s')
    (hcs : List.Forall₂ (Consulted core.index.buffer) s' cs)
    (hloop : FilterLoop sha1 (Sent cl) core cs out core₁ t) {b : BackupVersion}
    (hb : b.recipe = core₁.bv.recipe ++ segmentRecords out) {ds : List Bytes}
    (hbv : PointsTo sha1 (Holds core.containerBuffer core.storage) ds core.bv) :
    PointsTo sha1 (Holds core₁.containerBuffer core₁.storage) (ds ++ (body s).map Prod.snd) b := by
  have hbv₁ : core₁.bv = core.bv := by rw [hloop.frame]
  have hptr : b.pointers = core.bv.pointers ++ (dataChunks out).map Chunk.pointer := by
    rw [BackupVersion.pointers, hb, List.filter_append,
      filter_segmentRecords fun c hc ↦ (held_out hloop hc).nonneg, hbv₁]
    rfl
  constructor
  · have hseg : ((dataChunks out).map Chunk.pointer).map (fun cp ↦ (cp.fp, cp.size)) =
        (body out).map fun p ↦ (p.1, p.2.length) := by
      simp [body, Function.comp_def, Chunk.pointer, Chunk.size]
    rw [hptr, List.map_append, List.map_append, hbv.pointers, hseg,
      body_congr (content_out hm hcs hloop), List.map_map]
    congr 1
    refine List.map_congr_left fun p hp ↦ ?_
    obtain ⟨c, hc, rfl⟩ := List.mem_map.mp hp
    have := (h.hashed (c := c) (by simp [hc])).1
    simp [this]
  · intro cp hcp
    rw [hptr] at hcp
    rcases List.mem_append.mp hcp with hcp | hcp
    · exact hloop.grows _ _ (hbv.held cp hcp)
    · obtain ⟨c, hc, rfl⟩ := List.mem_map.mp hcp
      exact held_out hloop hc

end Passes

/-- **A segment is filtered.** -/
theorem filter (h : Safe sha1 cl ⟨core, s :: segs, rest⟩) (hm : Marked cfg s s') :
    Post (core.filterSegment cfg s') (fun core' ↦ Safe sha1 cl ⟨core', segs, rest⟩)
      FilterAbort.Possible := by
  unfold Core.filterSegment
  refine ((h.consult hm).mono (fun _ h ↦ h) fun _ h ↦ h.elim).bind fun cs ⟨hcs, hc⟩ ↦ ?_
  refine (h.filterChunks hm hcs hc).bind ?_
  rintro ⟨core₁, t, out⟩ (hloop : FilterLoop sha1 (Sent cl) core cs out core₁ t)
  refine ((h.updateBuffer hm hcs hloop).mono (fun _ h ↦ h) fun _ h ↦ h.elim).bind fun b hb ↦ ?_
  refine ((h.record hm hcs hloop b).mono (fun _ h ↦ h) fun _ h ↦ h.elim).bind
    fun ⟨sid, core₂⟩ hrec ↦ ?_
  refine Core.post_updateSegmentIndex (fun kv _ _ ↦ ?_) fun _ ↦ trivial
  obtain ⟨files, older, ds, hsent, hbody, hbv, hold⟩ := h.writing.progress
  have hframe := hrec.records.frame
  dsimp only at hframe
  have hbuf : core₂.containerBuffer = core₁.containerBuffer := by rw [hframe]
  have hst : core₂.storage = core₁.storage := by rw [hframe]
  have hix : core₂.index = { core₁.index with buffer := b } := by rw [hframe]
  have hver : core₂.versions = core.versions := by rw [hframe, hloop.frame]
  have hindex : core₁.index = core.index := by rw [hloop.frame]
  have haw : core₂.restoreAware = core₁.restoreAware := by rw [hframe]
  exact
    { store := by
        simp only [hbuf, hst]
        exact hloop.store
      inFlight := by
        simp only [hbuf, hst, hix]
        exact hb
      cache := by
        simp only [hbuf, hst, hix, hindex]
        exact fun u hu p hp ↦ hloop.grows _ _ (h.cache u hu p hp)
      fresh := h.fresh
      aware := by
        simp only [haw]
        exact hloop.aware
      bracketed := hrec.bracketed
      writing := by
        refine ⟨files, older, ds ++ (body s).map Prod.snd, hsent, ?_, ?_, ?_⟩
        · have hs : ((body s).map Prod.snd).map (fun d ↦ (sha1 d, d)) = body s := by
            rw [List.map_map]
            conv_rhs => rw [← List.map_id (body s)]
            refine List.map_congr_left fun p hp ↦ ?_
            obtain ⟨c, hc, rfl⟩ := List.mem_map.mp hp
            have := (h.hashed (c := c) (by simp [hc])).1
            simp [this]
          rw [List.map_append, hs, List.append_assoc, ← body_append]
          simpa using hbody
        · simp only [hbuf, hst]
          exact h.pointsTo hm hcs hloop hrec.recipe hbv
        · simp only [hbuf, hst, hver]
          exact hold.imp fun _ _ hb ↦ hb.mono hloop.grows }

theorem flush (h : Safe sha1 cl ⟨core, segs, rest⟩) :
    Post (core.finalFlush cfg) (fun core' ↦ Safe sha1 cl ⟨core', segs, rest⟩)
      FilterAbort.Possible := by
  refine Core.post_finalFlush h fun con hcon _ ↦ ?_
  have hstore := h.store
  rw [hcon] at hstore
  refine Core.post_submitContainer (fun kv _ _ ↦ ?_) fun _ ↦ trivial
  refine h.grow hstore.submit ?_ ?_ rfl
  · rw [hcon]
    exact StoreOk.grows_submit con _
  · rintro fp ⟨c, hc, -⟩
    cases hc

theorem append (h : Safe sha1 cl ⟨core, segs, rest⟩) (happ : core.append = some core') :
    Safe sha1 cl ⟨core', segs, rest⟩ := by
  obtain ⟨st, hst, rfl⟩ := Option.map_eq_some_iff.mp happ
  exact h.grow (h.store.append hst) (h.store.grows_append hst) (fun _ h ↦ h) rfl

end Safe

/-! ## The contract -/

/-- What holds between two jobs. -/
structure SafeDisk (sha1 : Bytes → Fingerprint) (cl : Client) (d : Disk) : Prop where
  store : StoreOk sha1 (Sent cl) none d.storage
  restorable : Restorable sha1 (Holds none d.storage) cl.sent d.versions

variable {cfg : Config} {sha1 : Bytes → Fingerprint} {cl : Client}

theorem SafeDisk.backup {d : Disk} (h : SafeDisk sha1 cl d) (files : List File) :
    Safe sha1 { cl with sent := files :: cl.sent } ⟨.init cfg d, [], stream sha1 files⟩ where
  store := h.store.mono fun _ ⟨fs, hfs, hd⟩ ↦ ⟨fs, List.mem_cons_of_mem _ hfs, hd⟩
  inFlight := .empty _ _
  cache := fun _ h ↦ by cases h
  fresh := fresh_stream
  aware := fun h ↦ by cases h
  bracketed := bracketed_stream sha1 files
  writing := ⟨files, cl.sent, [], rfl, body_stream sha1 files, ⟨rfl, fun _ h ↦ by cases h⟩,
    h.restorable⟩

theorem Safe.close {core : Core} (h : Safe sha1 cl ⟨core, [], []⟩) (hq : core.storage.queue = [])
    (hbuf : ∀ con ∈ core.containerBuffer, con.isEmpty = true) :
    SafeDisk sha1 cl (core.close cfg) where
  store := h.store.close
  restorable := by
    have hgrows := StoreOk.grows_close hq hbuf
    obtain ⟨files, older, ds, hsent, hbody, hbv, hold⟩ := h.writing.progress
    have hds : ds = contents files := by
      have := congrArg (List.map Prod.snd) hbody
      simpa [body, dataChunks, Function.comp_def] using this
    rw [hsent]
    refine .cons ?_ (hold.imp fun _ _ hb ↦ hb.mono hgrows)
    rw [← hds]
    exact ⟨hbv.pointers, fun cp hcp ↦ hgrows _ _ (hbv.held cp hcp)⟩

def Abort.Possible : Abort → Prop
  | .filter e => e.Possible
  | _ => True

/-- **Safety as a contract.** It holds under every policy. -/
def safety (cfg : Config) (sha1 : Bytes → Fingerprint) (π : Policy) : Contract cfg sha1 π where
  idle := SafeDisk sha1
  busy := Safe sha1
  abort := Abort.Possible
  start :=
    { store :=
        { latest := fun _ h ↦ by simp at h
          bound := fun _ h ↦ by cases h
          inj := fun _ h ↦ by cases h
          written := fun h ↦ by cases h
          content := fun _ h ↦ by cases h }
      restorable := .nil }
  backup _ _ files h := h.backup files
  turn cl x r h ht := by
    cases ht with
    | stay => exact h
    | lookup => exact h.lookup.mapError.map
    | skip hs _ => exact h.skip hs
    | filter hm _ => exact Post.map (Post.mapError (E := Abort.Possible) (h.filter hm))
    | flush => exact Post.map (Post.mapError (E := Abort.Possible) h.flush)
    | append happ => exact h.append happ
    | rewriteAbort => trivial
  finish _ _ h hq hbuf := h.close hq hbuf
  delete cl d jobid h _ := by
    unfold doDelete
    refine post_of_forall (fun d' hd' ↦ ?_) fun _ _ ↦ trivial
    simp only [bind_eq_ok] at hd'
    obtain ⟨_, -, _, -, _, -, _, -, hd'⟩ := hd'
    cases hd'
    exact ⟨h.store, h.restorable⟩

/-! ## What the pointers refer to -/

/-- The pointer `cp` names one of the containers, which has exactly one entry for the fingerprint, of
the length in the pointer and with the content `d`. -/
structure Refers (containers : List Container) (d : Bytes) (cp : ChunkPointer) : Prop where
  nonneg : 0 ≤ cp.id
  container : ∃ con ∈ containers, (con.id : ℤ) = cp.id ∧
    (∀ con' ∈ containers, con'.id = con.id → con' = con) ∧
    con.entries.countP (fun e ↦ e.fp = cp.fp) = 1 ∧
    ∃ e, con.entry cp.fp = some e ∧ e.len = cp.size ∧ con.getChunk cp.fp = some d

section Refers

variable {sent : Bytes → Prop} {buf : Option Container} {st : ContainerStore}

theorem refers_of_holds (hstore : StoreOk sha1 sent buf st) (hinj : Set.InjOn sha1 {d | sent d})
    {d : Bytes} (hd : sent d) {cp : ChunkPointer} (hfp : cp.fp = sha1 d) (hsize : cp.size = d.length)
    (hheld : Holds buf st cp.id cp.fp) : Refers (allContainers buf st) d cp := by
  obtain ⟨con, hcon, hid, hmem⟩ := hheld
  obtain ⟨d', hget⟩ := Container.mem_fps_iff.mp hmem
  obtain ⟨hfp', hd'⟩ := hstore.content con hcon _ _ hget
  -- The container has some data under the fingerprint, hence the data of the chunk.
  obtain rfl : d' = d := hinj hd' hd (hfp'.trans hfp)
  obtain ⟨e, he, -⟩ := Option.map_eq_some_iff.mp hget
  refine ⟨hid ▸ Int.natCast_nonneg _, con, hcon, hid, ?_, Container.countP_entries hmem, e, he, ?_,
    hget⟩
  · exact fun con' hcon' heq ↦ hstore.eq_of_id hcon' hcon heq
  · rw [Container.entry_len he hget, hsize]

theorem PointsTo.refers (hstore : StoreOk sha1 sent buf st) (hinj : Set.InjOn sha1 {d | sent d})
    {ds : List Bytes} (hds : ∀ d ∈ ds, sent d) {b : BackupVersion}
    (h : PointsTo sha1 (Holds buf st) ds b) :
    List.Forall₂ (Refers (allContainers buf st)) ds b.pointers := by
  obtain ⟨hptr, hheld⟩ := h
  generalize b.pointers = ps at hptr hheld
  induction ds generalizing ps with
  | nil =>
    obtain rfl : ps = [] := by simpa using hptr
    exact .nil
  | cons d ds ih =>
    cases ps with
    | nil => simp at hptr
    | cons cp ps =>
      simp only [List.map_cons, List.cons.injEq, Prod.mk.injEq] at hptr
      obtain ⟨⟨hfp, hsize⟩, hptr⟩ := hptr
      refine .cons ?_ (ih (fun d' hd' ↦ hds d' (List.mem_cons_of_mem _ hd')) ps hptr
        fun cp' hcp' ↦ hheld cp' (List.mem_cons_of_mem _ hcp'))
      exact refers_of_holds hstore hinj (hds d List.mem_cons_self) hfp hsize
        (hheld cp List.mem_cons_self)

theorem Restorable.refers (hstore : StoreOk sha1 sent buf st) (hinj : Set.InjOn sha1 {d | sent d})
    {older : List (List File)} (hsent : ∀ files ∈ older, ∀ d ∈ contents files, sent d)
    {versions : List BackupVersion} (h : Restorable sha1 (Holds buf st) older versions) :
    List.Forall₂ (fun files b ↦
      List.Forall₂ (Refers (allContainers buf st)) (contents files) b.pointers) older versions := by
  induction h with
  | nil => exact .nil
  | cons hb _ ih =>
    exact .cons (hb.refers hstore hinj (hsent _ List.mem_cons_self))
      (ih fun files hf ↦ hsent files (List.mem_cons_of_mem _ hf))

end Refers

/-- **Deduplication is safe.** In every run of a node, whatever its configuration: between two jobs
the pointers of each version refer, one by one, to the chunks of the backup the client sent, in
containers on disk; during a backup this holds of the pointers written so far, with the containers
that are not yet on disk; and none of the assertions on container ids fails. -/
theorem pointers_refer {queueSize : ℕ} {s : State} (h : (node cfg sha1 queueSize).Reachable s)
    (hinj : Set.InjOn sha1 {d | Sent s.client d}) :
    (∀ d, s.node = .idle d → List.Forall₂ (fun files b ↦
      List.Forall₂ (Refers d.pool) (contents files) b.pointers) s.client.sent d.versions) ∧
    (∀ j, s.node = .running j → ∃ files older ds, s.client.sent = files :: older ∧
      ds <+: contents files ∧
      List.Forall₂ (Refers (allContainers j.core.containerBuffer j.core.storage)) ds
        j.core.bv.pointers ∧
      List.Forall₂ (fun files b ↦
        List.Forall₂ (Refers (allContainers j.core.containerBuffer j.core.storage)) (contents files)
          b.pointers) older j.core.versions) ∧
    ∀ e, s.node = .aborted (.filter e) → e ≠ .bufferQueue ∧ e ≠ .recentlyUnique ∧
      e ≠ .temporaryId ∧ e ≠ .inCacheTemporary ∧ e ≠ .pointerId := by
  have hat : (safety cfg sha1 .any).At s := Contract.holds_reachable _ h
  refine ⟨fun d hn ↦ ?_, fun j hn ↦ ?_, fun e hn ↦ ?_⟩
  · have hd : SafeDisk sha1 s.client d := Contract.at_idle hat hn
    exact hd.restorable.refers hd.store hinj fun files hf d hd ↦ ⟨files, hf, hd⟩
  · obtain ⟨x, hf, hb⟩ := Contract.at_running hat hn
    obtain ⟨core, segs, rest⟩ := x
    obtain rfl : core = j.core := hf.core
    have hb : Safe sha1 s.client ⟨j.core, segs, rest⟩ := hb
    obtain ⟨files, older, ds, hsent, hbody, hbv, hold⟩ := hb.writing.progress
    have hpre : ds <+: contents files := by
      have := congrArg (List.map Prod.snd) hbody
      simp only [List.map_append, List.map_map, Function.comp_def, List.map_id'] at this
      exact ⟨_, this⟩
    refine ⟨files, older, ds, hsent, hpre, ?_, ?_⟩
    · exact hbv.refers hb.store hinj fun d hd ↦ ⟨files, by simp [hsent], hpre.subset hd⟩
    · exact hold.refers hb.store hinj fun fs hfs d hd ↦ ⟨fs, by simp [hsent, hfs], hd⟩
  · have he : e.Possible := Contract.at_aborted hat hn
    refine ⟨?_, ?_, ?_, ?_, ?_⟩ <;>
    · rintro rfl
      exact he

theorem pointers_refer_sample :
    ∃ s d, (node .start sampleSha1 1000).Reachable s ∧ s.node = .idle d ∧
      s.client.sent = [sampleFiles, sampleFiles] ∧ List.Forall₂ (fun files b ↦
        List.Forall₂ (Refers d.pool) (contents files) b.pointers) s.client.sent d.versions := by
  have hrun : ((node .start sampleSha1 1000).run .start
      (.backup sampleFiles :: turns 15 16 9 2 ++ .backup sampleFiles :: turns 15 16 9 0)).any
      (fun s ↦ s.node.isIdle && s.client.sent = [sampleFiles, sampleFiles]) = true := by
    decide +kernel
  obtain ⟨s, hs, hp⟩ := System.Reachable.exists_of_run (.init rfl) _ hrun
  simp only [Bool.and_eq_true, decide_eq_true_eq] at hp
  obtain ⟨d, hd⟩ := NodeState.exists_of_isIdle hp.1
  -- The chunks sent are those of the sample file, and their digests differ.
  have hinj : Set.InjOn sampleSha1 {d | Sent s.client d} := by
    have hmem : ∀ c, Sent s.client c → c ∈ contents sampleFiles := by
      rintro c ⟨files, hfiles, hc⟩
      rw [hp.2] at hfiles
      rcases List.mem_pair.mp hfiles with rfl | rfl <;> exact hc
    have hdigests : ∀ c ∈ contents sampleFiles, ∀ c' ∈ contents sampleFiles,
        sampleSha1 c = sampleSha1 c' → c = c' := by decide +kernel
    exact fun c hc c' hc' ↦ hdigests c (hmem c hc) c' (hmem c' hc')
  exact ⟨s, d, hs, hd, hp.2, (pointers_refer hs hinj).1 d hd⟩

end UniDedup.Node
