import UniDedup.Lib.Pointwise
import UniDedup.Node.Holds
import UniDedup.Node.Lookup

/-!
# Filtering the chunks of a segment

The filter thread treats a segment in three passes: the index buffer is consulted for chunks whose
container has become known since their lookup, the chunks are stored or get the container of an
earlier copy, and their elements are taken out of the index buffer. `Checked` is what the first pass
leaves behind and `FilterLoop` is the invariant of the second; together they say that a chunk which
has no container when its turn comes is either stored now or a copy of one that the same segment has
stored before.
-/

namespace UniDedup.Node

open Outcome

/-! ## What filtering leaves alone -/

/-- `c'` is `c` with the results of its filtering. -/
def Chunk.Filtered (c c' : Chunk) : Prop :=
  c' = { c with id := c'.id, inCache := c'.inCache, rewriteDenied := c'.rewriteDenied }

namespace Chunk.Filtered

variable {c c' c'' : Chunk}

theorem refl (c : Chunk) : c.Filtered c := rfl

theorem trans (h : c.Filtered c') (h' : c'.Filtered c'') : c.Filtered c'' := by
  unfold Chunk.Filtered at h h' ⊢
  rw [h] at h'
  exact h'

theorem kind (h : c.Filtered c') : c'.kind = c.kind := by rw [h]

theorem fp (h : c.Filtered c') : c'.fp = c.fp := by rw [h]

theorem data (h : c.Filtered c') : c'.data = c.data := by rw [h]

theorem duplicate (h : c.Filtered c') : c'.duplicate = c.duplicate := by rw [h]

theorem sparse (h : c.Filtered c') : c'.sparse = c.sparse := by rw [h]

theorem outOfOrder (h : c.Filtered c') : c'.outOfOrder = c.outOfOrder := by rw [h]

theorem isFileMarker (h : c.Filtered c') : c'.isFileMarker = c.isFileMarker := by
  simp only [Chunk.isFileMarker, h.kind]

end Chunk.Filtered

namespace Core

/-- Filtering chunks touches neither the index buffer and the cache nor the recipes. -/
def Filters (core core' : Core) : Prop :=
  core' = { core with
    storage := core'.storage, containerBuffer := core'.containerBuffer
    bufferChunks := core'.bufferChunks, kv := core'.kv, monitor := core'.monitor
    restoreAware := core'.restoreAware, enableRewrite := core'.enableRewrite }

theorem Filters.trans {core core' core'' : Core} (h : core.Filters core') (h' : core'.Filters core'') :
    core.Filters core'' := by
  unfold Filters at h h' ⊢
  rw [h] at h'
  exact h'

/-- Looking up a segment changes nothing but the index buffer and the cache. -/
theorem post_lookup {cfg : Config} {core : Core} {s : List Chunk} {Q : Core × List Chunk → Prop}
    (hok : ∀ index s', Q ({ core with index := index }, s')) : Post (core.lookup cfg s) Q fun _ ↦ True := by
  refine post_of_forall (fun r hr ↦ ?_) fun _ _ ↦ trivial
  simp only [lookup, bind_eq_ok] at hr
  obtain ⟨⟨index, s'⟩, -, hr⟩ := hr
  cases hr
  exact hok index s'

/-- **The rule for submitting a container.** With physical locality its features are entered in the
key-value store first. -/
theorem post_submitContainer {cfg : Config} {core : Core} {con : Container} {Q : Core → Prop}
    {E : FilterAbort → Prop}
    (hok : ∀ kv, (cfg.locality = .logical → kv = core.kv) →
      (cfg.locality = .physical → ∃ features,
        sampling cfg core.bufferChunks core.bufferChunks.length = .ok features ∧
        kv = core.kv.updateAll cfg features con.id) →
      Q { core with
        storage := core.storage.writeContainerAsync con, containerBuffer := none, bufferChunks := []
        kv := kv })
    (herr : ∀ e, E (.sampling e)) : Post (core.submitContainer cfg con) Q E := by
  unfold submitContainer updateContainerIndex
  split_ifs with hphys
  · cases hs : sampling cfg core.bufferChunks core.bufferChunks.length with
    | error e => exact herr e
    | ok features => exact hok _ (fun hlog ↦ by simp [hphys] at hlog) fun _ ↦ ⟨features, hs, rfl⟩
  · exact hok core.kv (fun _ ↦ rfl) fun h ↦ absurd h hphys

/-- The last flush submits the container being filled, or it leaves the core alone. -/
theorem post_finalFlush {cfg : Config} {core : Core} {Q : Core → Prop} {E : FilterAbort → Prop}
    (hsame : Q core)
    (hsubmit : ∀ con, core.containerBuffer = some con → con.isEmpty = false →
      Post (core.submitContainer cfg con) Q E) : Post (core.finalFlush cfg) Q E := by
  unfold finalFlush
  split
  · exact hsame
  · rename_i con hcon
    split_ifs with hempty
    · exact hsame
    · exact hsubmit con hcon (by simpa using hempty)

/-- The loop rule for the chunks of a segment: the invariant speaks of the chunks treated, of those to
come, of the chunks returned, of the shared state and of the tables. -/
theorem post_filterChunks {cfg : Config}
    {I : List Chunk → List Chunk → List Chunk → Core → Tables → Prop} {E : FilterAbort → Prop}
    (hstep : ∀ done c todo out core t, I done (c :: todo) out core t →
      Post (core.filterChunk cfg t c) (fun r ↦ I (done ++ [c]) todo (out ++ [r.2.2]) r.1 r.2.1) E)
    {core : Core} {cs : List Chunk} (h : I [] cs [] core ⟨[], []⟩) :
    Post (core.filterChunks cfg cs) (fun r ↦ I cs [] r.2.2 r.1 r.2.1) E := by
  refine Post.foldlM (I := fun done todo acc ↦ I done todo acc.2.2 acc.1 acc.2.1)
    (fun done c todo acc hacc ↦ ?_) cs [] (core, ⟨[], []⟩, []) h
  exact (hstep done c todo acc.2.2 acc.1 acc.2.1 hacc).bind fun _ hr ↦ hr

/-- `c₁` is `c` with its container as far as it is known before storing. -/
structure Resolved (t : Tables) (c c₁ : Chunk) : Prop where
  filtered : c.Filtered c₁
  id : c₁.id = c.id ∧ (c.duplicate = true → c.id ≠ Node.temporaryId) ∨ (c.fp, c₁.id) ∈ t.unique ∨
    (c.fp, c₁.id) ∈ t.rewritten

theorem Tables.mem_of_find {table : List (Fingerprint × ℤ)} {fp : Fingerprint} {id : ℤ}
    (h : find table fp = some id) : (fp, id) ∈ table := by
  obtain ⟨p, hp, rfl⟩ := Option.map_eq_some_iff.mp h
  have hfp : p.1 = fp := by simpa using List.find?_some hp
  rw [← hfp]
  exact List.mem_of_find?_eq_some hp

theorem Resolved.rewritten {t : Tables} {c c₁ : Chunk} (h : Resolved t c c₁) :
    Resolved t c (resolveRewritten t c₁) := by
  unfold resolveRewritten
  split
  · rename_i id hid
    rw [h.filtered.fp] at hid
    exact ⟨h.filtered.trans rfl, .inr (.inr (Tables.mem_of_find hid))⟩
  · exact h

/-- **The rule for filtering a chunk of data.** -/
theorem post_filterChunk {cfg : Config} {core : Core} {t : Tables} {c : Chunk}
    {P Q : Core × Tables × Chunk → Prop} {E : FilterAbort → Prop} (hm : c.isFileMarker = false)
    (haware : Node.temporaryId ∈ core.restoreAware.cache.elems → E .inCacheTemporary)
    (hcopy : c.duplicate = true → c.id = Node.temporaryId → Tables.find t.unique c.fp = none →
      E .recentlyUnique)
    (hstore : ∀ b c₁, Resolved t c c₁ → mustStore b c₁ = true →
      Post ({ core with enableRewrite := b }.storeChunk cfg t c₁) P E)
    (hskip : ∀ b c₁, Resolved t c c₁ → mustStore b c₁ = false →
      P ({ core with enableRewrite := b }, t, c₁))
    (hP : ∀ r, P r → (r.2.2.id = Node.temporaryId → E .temporaryId) ∧
      Q (r.1.collect r.2.2, r.2.1, r.2.2)) :
    Post (core.filterChunk cfg t c) Q E := by
  have hcache : Post (core.cacheAware cfg c)
      (fun c₁ ↦ c.Filtered c₁ ∧ c₁.id = c.id) E := by
    unfold cacheAware
    split_ifs with hin
    · refine (post_check fun hid ↦ ?_).bind fun _ _ ↦ ⟨rfl, rfl⟩
      simp only [Bool.and_eq_true, RestoreAware.contains, Lru.Cache.lookupWithoutUpdate,
        List.find?_isSome, decide_eq_true_eq, ne_eq, not_not] at hin hid
      obtain ⟨-, id, hid', rfl⟩ := hin
      exact haware (hid ▸ hid')
    · exact ⟨rfl, rfl⟩
  have hunique : ∀ c₁, c.Filtered c₁ ∧ c₁.id = c.id →
      Post (resolveUnique t c₁) (Resolved t c) E := by
    rintro c₁ ⟨hc, hid⟩
    unfold resolveUnique
    split_ifs with htemp
    · simp only [hc.duplicate, hid, Bool.and_eq_true, decide_eq_true_eq] at htemp
      refine (post_getOr fun hnone ↦ hcopy htemp.1 htemp.2 (hc.fp ▸ hnone)).bind fun id hfind ↦ ?_
      rw [hc.fp] at hfind
      exact ⟨hc.trans rfl, .inr (.inl (Tables.mem_of_find hfind))⟩
    · refine ⟨hc, .inl ⟨hid, fun hd ht ↦ htemp ?_⟩⟩
      simp [hc.duplicate, hid, hd, ht]
  unfold filterChunk
  rw [if_neg (by simp [hm])]
  refine hcache.bind fun c₁ hc₁ ↦ ?_
  refine (hunique c₁ hc₁).bind fun c₂ hc₂ ↦ ?_
  have hstep : Post ({ core with enableRewrite := core.cflSwitch cfg }.storeIfNeeded cfg t
      (resolveRewritten t c₂)) P E := by
    unfold storeIfNeeded
    split_ifs with hmust
    · exact hstore _ _ hc₂.rewritten hmust
    · exact hskip _ _ hc₂.rewritten (by simpa using hmust)
  refine hstep.bind fun r hr ↦ ?_
  obtain ⟨hid, hQ⟩ := hP r hr
  exact (post_check fun h ↦ hid (not_not.mp h)).bind fun _ _ ↦ hQ

end Core

/-! ## Consulting the index buffer -/

/-- `c'` is `c` with the container of the element of its fingerprint, if that was consulted. -/
structure Consulted (b : IndexBuffer) (c c' : Chunk) : Prop where
  filtered : c.Filtered c'
  id : c'.id = c.id ∨ c'.id ∈ b.queues c.fp
  temporary : c.isFileMarker = false → c.duplicate = true → c'.id = temporaryId →
    (b.queues c.fp).head? = some temporaryId

theorem post_checkChunk {b : IndexBuffer} {c : Chunk}
    (hq : c.isFileMarker = false → b.queues c.fp ≠ [])
    (hid : ∀ id ∈ b.queues c.fp, id = temporaryId ∨ 0 ≤ id) :
    Post (checkChunk b c) (Consulted b c) fun _ ↦ False := by
  unfold checkChunk
  split_ifs with hskip
  · refine ⟨.refl c, .inl rfl, fun hm hd htemp ↦ ?_⟩
    simp [hm, Chunk.needsCheck, hd, htemp] at hskip
  · have hm : c.isFileMarker = false := by
      simp only [Bool.or_eq_true, not_or] at hskip
      simpa using hskip.1
    split
    · rename_i heq
      exact hq hm heq
    · rename_i be q heq
      have hbe := hid be (by simp [heq])
      split_ifs with hlt
      · exact ⟨rfl, .inr (by simp [heq]), fun _ _ htemp ↦ by simpa [heq] using htemp⟩
      · refine ⟨.refl c, .inl rfl, fun _ _ htemp ↦ ?_⟩
        -- The chunk has no container, so the element has none either.
        have : be = temporaryId := by
          unfold temporaryId at *
          omega
        simp [heq, this]

/-- **What the first pass leaves behind.** -/
structure Checked (H : ℤ → Fingerprint → Prop) (O : Fingerprint → Prop) (cs : List Chunk) : Prop where
  /-- A container id is right once it is known. -/
  ids : ∀ c ∈ dataChunks cs, c.id = temporaryId ∨ H c.id c.fp
  /-- A chunk that was not found is new. -/
  unique : ∀ done c todo, cs = done ++ c :: todo → c.isFileMarker = false → c.duplicate = false →
    (∀ c' ∈ dataChunks done, c'.fp ≠ c.fp) ∧ ¬O c.fp
  /-- A duplicate without a container has a copy in the segment that will be stored before. -/
  copy : ∀ done c todo, cs = done ++ c :: todo → c.isFileMarker = false → c.duplicate = true →
    c.id = temporaryId → ∃ c' ∈ dataChunks done, c'.duplicate = false ∧ c'.fp = c.fp

theorem entries_split {done todo : List Chunk} {c : Chunk} (hm : c.isFileMarker = false) :
    entries (done ++ c :: todo) = entries done ++ c.entry :: entries todo := by
  simp [entries, dataChunks_cons_data hm]

theorem mem_entries {cs : List Chunk} {e : Entry} :
    e ∈ entries cs ↔ ∃ c ∈ dataChunks cs, c.entry = e := by
  simp [entries]

theorem checked_of_consulted {H : ℤ → Fingerprint → Prop} {O : Fingerprint → Prop} {b : IndexBuffer}
    {cs cs' : List Chunk} {F : List Entry} (hF : InFlight H O b.queues (entries cs ++ F))
    (h : List.Forall₂ (Consulted b) cs cs') : Checked H O cs' where
  ids c' hc' := by
    obtain ⟨hmem, hm⟩ := mem_dataChunks.mp hc'
    obtain ⟨c, hc, hcon⟩ := h.exists_of_mem_right hmem
    have hcd : c ∈ dataChunks cs := mem_dataChunks.mpr ⟨hc, hcon.filtered.isFileMarker ▸ hm⟩
    rw [hcon.filtered.fp]
    rcases hcon.id with hid | hid
    · rw [hid]
      exact hF.ids c.entry (List.mem_append_left _ (mem_entries.mpr ⟨c, hcd, rfl⟩))
    · exact hF.elems c.fp c'.id hid
  unique done' c' todo' hcs' hm hd := by
    subst hcs'
    obtain ⟨done, c, todo, rfl, hdone, hcon, -⟩ := h.split_right
    have hm' : c.isFileMarker = false := hcon.filtered.isFileMarker ▸ hm
    rw [entries_split hm', List.append_assoc, List.cons_append] at hF
    obtain ⟨hpre, ho⟩ := hF.unique _ _ _ rfl (hcon.filtered.duplicate ▸ hd : c.duplicate = false)
    refine ⟨fun c₁' hc₁' ↦ ?_, hcon.filtered.fp ▸ ho⟩
    obtain ⟨hmem, hm₁⟩ := mem_dataChunks.mp hc₁'
    obtain ⟨c₁, hc₁, hcon₁⟩ := hdone.exists_of_mem_right hmem
    rw [hcon₁.filtered.fp, hcon.filtered.fp]
    exact hpre c₁.entry (mem_entries.mpr
      ⟨c₁, mem_dataChunks.mpr ⟨hc₁, hcon₁.filtered.isFileMarker ▸ hm₁⟩, rfl⟩)
  copy done' c' todo' hcs' hm hd htemp := by
    subst hcs'
    obtain ⟨done, c, todo, rfl, hdone, hcon, -⟩ := h.split_right
    have hm' : c.isFileMarker = false := hcon.filtered.isFileMarker ▸ hm
    have hd' : c.duplicate = true := hcon.filtered.duplicate ▸ hd
    obtain ⟨e, hfind, hed⟩ := hF.head c.fp (hcon.temporary hm' hd' htemp)
    have hefp : e.fp = c.fp := by simpa using List.find?_some hfind
    -- The first occurrence is not the chunk itself, so it stands before it.
    have he : e ∈ entries done := by
      rw [entries_split hm', List.append_assoc, List.find?_append] at hfind
      rcases Option.or_eq_some_iff.mp hfind with hfind | ⟨-, hfind⟩
      · exact List.mem_of_find?_eq_some hfind
      · rw [List.cons_append, List.find?_cons_of_pos (by simp [Chunk.entry])] at hfind
        cases hfind
        simp [Chunk.entry, hd'] at hed
    obtain ⟨c₁, hc₁, rfl⟩ := mem_entries.mp he
    obtain ⟨hmem, hm₁⟩ := mem_dataChunks.mp hc₁
    obtain ⟨c₁', hc₁', hcon₁⟩ := hdone.exists_of_mem_left hmem
    refine ⟨c₁', mem_dataChunks.mpr ⟨hc₁', hcon₁.filtered.isFileMarker ▸ hm₁⟩, ?_, ?_⟩
    · rw [hcon₁.filtered.duplicate]
      exact hed
    · rw [hcon₁.filtered.fp, hcon.filtered.fp]
      exact hefp

/-- **The first pass** cannot fail. -/
theorem post_indexCheckBuffer {H : ℤ → Fingerprint → Prop} {O : Fingerprint → Prop}
    (hH : ∀ id fp, H id fp → 0 ≤ id) {b : IndexBuffer} {cs : List Chunk} {F : List Entry}
    (hF : InFlight H O b.queues (entries cs ++ F)) :
    Post (indexCheckBuffer b cs) (fun cs' ↦ List.Forall₂ (Consulted b) cs cs' ∧ Checked H O cs')
      fun _ ↦ False := by
  have hpass : Post (indexCheckBuffer b cs) (List.Forall₂ (Consulted b) cs) fun _ ↦ False := by
    refine Post.mapM fun c hc ↦ post_checkChunk (fun hm ↦ ?_) fun id hid ↦ ?_
    · have hcd : c ∈ dataChunks cs := mem_dataChunks.mpr ⟨hc, hm⟩
      exact hF.queue_ne_nil (List.mem_append_left _ (mem_entries.mpr ⟨c, hcd, rfl⟩))
    · exact (hF.elems c.fp id hid).imp (fun h ↦ h) (hH _ _)
  exact hpass.mono (fun cs' h ↦ ⟨h, checked_of_consulted hF h⟩) fun _ h ↦ h

/-! ## Storing the chunks -/

/-- The assertions of the filter phase that stay possible: a chunk larger than a container, a rewritten
chunk that the container being filled already has, and a sampling ratio of zero. -/
def FilterAbort.Possible : FilterAbort → Prop
  | .containerOverflow => True
  | .alreadyStored => True
  | .sampling _ => True
  | _ => False

/-- The chunks returned so far: nothing but the results of filtering has changed, and the container of
each chunk holds it. -/
def FilteredAs (H : ℤ → Fingerprint → Prop) (c c' : Chunk) : Prop :=
  c.Filtered c' ∧ (c.isFileMarker = false → H c'.id c'.fp)

/-- **The invariant of the second pass**, from the shared state `core₀` on. -/
structure FilterLoop (sha1 : Bytes → Fingerprint) (sent : Bytes → Prop) (core₀ : Core)
    (done out : List Chunk) (core : Core) (t : Core.Tables) : Prop where
  store : StoreOk sha1 sent core.containerBuffer core.storage
  grows : Grows core₀.containerBuffer core₀.storage core.containerBuffer core.storage
  /-- What is in the container being filled was there before or has been treated. -/
  buffer : ∀ fp, InBuffer core.containerBuffer fp →
    InBuffer core₀.containerBuffer fp ∨ ∃ c ∈ dataChunks done, c.fp = fp
  unique : ∀ p ∈ t.unique, Holds core.containerBuffer core.storage p.2 p.1
  rewritten : ∀ p ∈ t.rewritten, Holds core.containerBuffer core.storage p.2 p.1
  /-- The tables have chunks of the segment only. -/
  own : ∀ p ∈ t.unique ++ t.rewritten, ∃ c ∈ dataChunks done, c.fp = p.1
  /-- A unique chunk can be found in its table. -/
  stored : ∀ c ∈ dataChunks done, c.duplicate = false → ∃ id, Core.Tables.find t.unique c.fp = some id
  out : List.Forall₂ (FilteredAs (Holds core.containerBuffer core.storage)) done out
  /-- The simulated restore cache has real containers only. -/
  aware : temporaryId ∉ core.restoreAware.cache.elems
  frame : core₀.Filters core

theorem Core.Tables.exists_find_cons {table : List (Fingerprint × ℤ)} {fp : Fingerprint}
    (p : Fingerprint × ℤ) (h : p.1 = fp ∨ ∃ id, Core.Tables.find table fp = some id) :
    ∃ id, Core.Tables.find (p :: table) fp = some id := by
  unfold Core.Tables.find at h ⊢
  by_cases hfp : p.1 = fp
  · exact ⟨p.2, by simp [hfp]⟩
  · rw [List.find?_cons_of_neg (by simpa using hfp)]
    exact h.resolve_left hfp

namespace FilterLoop

variable {cfg : Config} {sha1 : Bytes → Fingerprint} {sent : Bytes → Prop} {core₀ core core' : Core}
  {done todo out : List Chunk} {t : Core.Tables} {c : Chunk}

theorem start (hstore : StoreOk sha1 sent core.containerBuffer core.storage)
    (haware : temporaryId ∉ core.restoreAware.cache.elems) :
    FilterLoop sha1 sent core [] [] core ⟨[], []⟩ where
  store := hstore
  grows := .refl _ _
  buffer := fun _ h ↦ .inl h
  unique := fun _ h ↦ by cases h
  rewritten := fun _ h ↦ by cases h
  own := fun _ h ↦ by cases h
  stored := fun _ h ↦ by cases h
  out := .nil
  aware := haware
  frame := rfl

theorem grow (h : FilterLoop sha1 sent core₀ done out core t)
    (hstore : StoreOk sha1 sent core'.containerBuffer core'.storage)
    (hgrows : Grows core.containerBuffer core.storage core'.containerBuffer core'.storage)
    (hbuffer : ∀ fp, InBuffer core'.containerBuffer fp → InBuffer core.containerBuffer fp ∨
      ∃ c ∈ dataChunks done, c.fp = fp)
    (haware : core'.restoreAware = core.restoreAware) (hframe : core.Filters core') :
    FilterLoop sha1 sent core₀ done out core' t where
  store := hstore
  grows := h.grows.trans hgrows
  buffer fp hfp := by
    rcases hbuffer fp hfp with hfp | hfp
    · exact h.buffer fp hfp
    · exact .inr hfp
  unique p hp := hgrows _ _ (h.unique p hp)
  rewritten p hp := hgrows _ _ (h.rewritten p hp)
  own := h.own
  stored := h.stored
  out := h.out.imp fun _ _ ⟨hf, hh⟩ ↦ ⟨hf, fun hm ↦ hgrows _ _ (hh hm)⟩
  aware := by
    rw [haware]
    exact h.aware
  frame := h.frame.trans hframe

theorem skip (h : FilterLoop sha1 sent core₀ done out core t) {c' : Chunk}
    (hm : c.isFileMarker = false) (hd : c.duplicate = true) (hc : c.Filtered c')
    (hheld : Holds core.containerBuffer core.storage c'.id c'.fp) :
    FilterLoop sha1 sent core₀ (done ++ [c]) (out ++ [c']) core t := by
  have hdone : dataChunks (done ++ [c]) = dataChunks done ++ [c] := by
    rw [dataChunks_append, dataChunks_cons_data hm]
    rfl
  exact
    { h with
      buffer := fun fp hfp ↦ by
        rw [hdone]
        rcases h.buffer fp hfp with hold | ⟨c', hc', hfp'⟩
        · exact .inl hold
        · exact .inr ⟨c', List.mem_append_left _ hc', hfp'⟩
      own := fun p hp ↦ by
        rw [hdone]
        obtain ⟨c', hc', hfp'⟩ := h.own p hp
        exact ⟨c', List.mem_append_left _ hc', hfp'⟩
      stored := fun c' hc' hd' ↦ by
        rw [hdone, List.mem_append, List.mem_singleton] at hc'
        rcases hc' with hc' | rfl
        · exact h.stored c' hc' hd'
        · rw [hd] at hd'
          cases hd'
      out := List.rel_append h.out (.cons ⟨hc, fun _ ↦ hheld⟩ .nil) }

theorem create (h : FilterLoop sha1 sent core₀ done out core t) (hnone : core.containerBuffer = none) :
    FilterLoop sha1 sent core₀ done out core.createContainer t := by
  have hstore := h.store
  rw [hnone] at hstore
  refine h.grow hstore.create ?_ ?_ rfl rfl
  · rw [hnone]
    exact StoreOk.grows_create _
  · rintro fp ⟨con, hcon, hfp⟩
    cases hcon
    cases hfp

theorem submit (h : FilterLoop sha1 sent core₀ done out core t) {con : Container}
    (hcon : core.containerBuffer = some con) :
    Post (core.submitContainer cfg con) (fun core' ↦ FilterLoop sha1 sent core₀ done out core' t)
      FilterAbort.Possible := by
  have hstore := h.store
  rw [hcon] at hstore
  refine Core.post_submitContainer (fun kv _ _ ↦ ?_) fun _ ↦ trivial
  refine h.grow hstore.submit ?_ ?_ rfl rfl
  · rw [hcon]
    exact StoreOk.grows_submit con _
  · rintro fp ⟨c, hc, -⟩
    cases hc

/-- A chunk is added to the container being filled. A chunk that was not found is new there. -/
theorem add (h : FilterLoop sha1 sent core₀ done out core t) {con : Container}
    (hcon : core.containerBuffer = some con) {c₁ : Chunk} (hc : c.Filtered c₁)
    (hm : c.isFileMarker = false) (hfp : sha1 c.data = c.fp) (hsent : sent c.data)
    (hnew : c.duplicate = false → ¬InBuffer core.containerBuffer c.fp) :
    Post (core.addChunk cfg t c₁ con)
      (fun r ↦ FilterLoop sha1 sent core₀ (done ++ [c]) (out ++ [r.2.2]) r.1 r.2.1)
      FilterAbort.Possible := by
  unfold Core.addChunk
  refine (post_check fun _ ↦ trivial).bind fun _ _ ↦ ?_
  have hdone : dataChunks (done ++ [c]) = dataChunks done ++ [c] := by
    rw [dataChunks_append, dataChunks_cons_data hm]
    rfl
  split
  · rename_i con' hadd
    have hstore := h.store
    rw [hcon] at hstore
    have hgrows : Grows core.containerBuffer core.storage (some con') core.storage := by
      rw [hcon]
      exact StoreOk.grows_add hadd _
    have hheld : Holds (some con') core.storage con.id c.fp := by
      have := StoreOk.holds_add hadd core.storage
      rwa [hc.fp] at this
    rw [post_pure]
    exact
      { store := hstore.add hadd (by rw [hc.fp, hc.data]; exact hfp) (by rw [hc.data]; exact hsent)
        grows := h.grows.trans hgrows
        buffer := by
          rintro fp ⟨con₁, hcon₁, hmem⟩
          cases hcon₁
          rw [Container.fps_addChunk hadd, List.mem_append, List.mem_singleton] at hmem
          rw [hdone]
          rcases hmem with hmem | rfl
          · rcases h.buffer fp ⟨con, hcon, hmem⟩ with hold | ⟨c', hc', hfp'⟩
            · exact .inl hold
            · exact .inr ⟨c', List.mem_append_left _ hc', hfp'⟩
          · exact .inr ⟨c, by simp, hc.fp.symm⟩
        unique := by
          intro p hp
          split_ifs at hp
          · exact hgrows _ _ (h.unique p hp)
          · rcases List.mem_cons.mp hp with rfl | hp
            · rw [hc.fp]
              exact hheld
            · exact hgrows _ _ (h.unique p hp)
        rewritten := by
          intro p hp
          split_ifs at hp
          · rcases List.mem_cons.mp hp with rfl | hp
            · rw [hc.fp]
              exact hheld
            · exact hgrows _ _ (h.rewritten p hp)
          · exact hgrows _ _ (h.rewritten p hp)
        own := by
          have hold : ∀ p ∈ t.unique ++ t.rewritten, ∃ c' ∈ dataChunks done ++ [c], c'.fp = p.1 := by
            intro p hp
            obtain ⟨c', hc', hfp'⟩ := h.own p hp
            exact ⟨c', List.mem_append_left _ hc', hfp'⟩
          intro p hp
          rw [hdone]
          have hcases : p = (c₁.fp, (con.id : ℤ)) ∨ p ∈ t.unique ++ t.rewritten := by
            split_ifs at hp <;> simp only [List.mem_append, List.mem_cons] at hp ⊢ <;> tauto
          rcases hcases with rfl | hp
          · exact ⟨c, by simp, hc.fp.symm⟩
          · exact hold p hp
        stored := by
          intro c' hc' hd
          rw [hdone, List.mem_append, List.mem_singleton] at hc'
          split_ifs with hdup
          · rcases hc' with hc' | rfl
            · exact h.stored c' hc' hd
            · rw [hc.duplicate, hd] at hdup
              cases hdup
          · refine Core.Tables.exists_find_cons _ ?_
            rcases hc' with hc' | rfl
            · exact .inr (h.stored c' hc' hd)
            · exact .inl hc.fp
        out := List.rel_append
          (h.out.imp fun _ _ ⟨hf, hh⟩ ↦ ⟨hf, fun hm ↦ hgrows _ _ (hh hm)⟩)
          (.cons ⟨hc.trans rfl, fun _ ↦ by
            change Holds _ _ _ c₁.fp
            rw [hc.fp]
            exact hheld⟩ .nil)
        aware := h.aware
        frame := h.frame.trans rfl }
  · rename_i hadd
    refine (post_check fun _ ↦ trivial).bind fun _ _ ↦ ?_
    have hmem : c.fp ∈ con.fps := by
      have := Container.addChunk_eq_none.mp hadd
      rwa [hc.fp] at this
    have hdup : c.duplicate = true := by
      cases hd : c.duplicate with
      | true => rfl
      | false => exact absurd ⟨con, hcon, hmem⟩ (hnew hd)
    rw [post_pure]
    exact h.skip hm hdup (hc.trans rfl) (by
      change Holds _ _ _ c₁.fp
      rw [hc.fp]
      exact ⟨con, mem_allContainers.mpr (.inl hcon), rfl, hmem⟩)

theorem collect (h : FilterLoop sha1 sent core₀ done out core t) (hid : c.id ≠ temporaryId) :
    FilterLoop sha1 sent core₀ done out (core.collect c) t :=
  { h with
    aware := fun hmem ↦ by
      simp only [Core.collect, RestoreAware.update] at hmem
      have hl := (core.restoreAware.cache.lookup_perm fun i ↦ decide (i = c.id)).subset
      split_ifs at hmem
      · exact h.aware (hl hmem)
      · rcases Lru.Cache.mem_of_mem_insert hmem with htemp | hmem
        · exact hid htemp.symm
        · exact h.aware (hl hmem)
    frame := h.frame.trans rfl }

theorem marker (h : FilterLoop sha1 sent core₀ done out core t) (hm : c.isFileMarker = true) :
    FilterLoop sha1 sent core₀ (done ++ [c]) (out ++ [c]) core t := by
  have hdone : dataChunks (done ++ [c]) = dataChunks done := by
    rw [dataChunks_append, dataChunks_cons_marker hm]
    exact List.append_nil _
  exact
    { h with
      buffer := by
        rw [hdone]
        exact h.buffer
      own := by
        rw [hdone]
        exact h.own
      stored := by
        rw [hdone]
        exact h.stored
      out := List.rel_append h.out (.cons ⟨.refl c, fun h ↦ by rw [hm] at h; cases h⟩ .nil) }

/-- A chunk whose turn has come and that is a duplicate has a container, or was stored by the
segment. -/
theorem held_of_resolved (h : FilterLoop sha1 sent core₀ done out core t)
    (hids : c.id = temporaryId ∨ Holds core₀.containerBuffer core₀.storage c.id c.fp)
    (hd : c.duplicate = true) {c₁ : Chunk} (hc : Core.Resolved t c c₁) :
    Holds core.containerBuffer core.storage c₁.id c₁.fp := by
  rw [hc.filtered.fp]
  rcases hc.id with ⟨hid, hne⟩ | hmem | hmem
  · rw [hid]
    exact h.grows _ _ (hids.resolve_left (hne hd))
  · exact h.unique _ hmem
  · exact h.rewritten _ hmem

/-- **The turn of a chunk.** -/
theorem step (h : FilterLoop sha1 sent core₀ done out core t)
    (hc : Checked (Holds core₀.containerBuffer core₀.storage) (InBuffer core₀.containerBuffer)
      (done ++ c :: todo))
    (hcontent : c.isFileMarker = false → sha1 c.data = c.fp ∧ sent c.data) :
    Post (core.filterChunk cfg t c)
      (fun r ↦ FilterLoop sha1 sent core₀ (done ++ [c]) (out ++ [r.2.2]) r.1 r.2.1)
      FilterAbort.Possible := by
  cases hm : c.isFileMarker with
  | true =>
    unfold Core.filterChunk
    rw [if_pos hm]
    exact h.marker hm
  | false =>
    obtain ⟨hfp, hsent⟩ := hcontent hm
    have hids := hc.ids c (by simp [dataChunks_cons_data hm])
    refine Core.post_filterChunk (P := fun r ↦
      FilterLoop sha1 sent core₀ (done ++ [c]) (out ++ [r.2.2]) r.1 r.2.1) hm h.aware ?_ ?_ ?_ ?_
    · intro hd htemp hnone
      obtain ⟨c', hc', hd', hfp'⟩ := hc.copy done c todo rfl hm hd htemp
      obtain ⟨id, hid⟩ := h.stored c' hc' hd'
      rw [hfp', hnone] at hid
      cases hid
    · intro b c₁ hc₁ _
      refine Core.post_storeChunk (I := fun core ↦ FilterLoop sha1 sent core₀ done out core t)
        (fun core hI hnone ↦ hI.create hnone) (fun core con hI hcon _ ↦ hI.submit hcon)
        (fun core con hI hcon ↦ hI.add hcon hc₁.filtered hm hfp hsent ?_)
        { h with frame := h.frame.trans rfl }
      intro hd hin
      obtain ⟨hpre, hnot⟩ := hc.unique done c todo rfl hm hd
      rcases hI.buffer _ hin with hold | ⟨c', hc', hfp'⟩
      · exact hnot hold
      · exact hpre c' hc' hfp'
    · intro b c₁ hc₁ hmust
      have hd : c.duplicate = true := by
        have : c₁.duplicate = true := by
          simp only [Core.mustStore, Bool.or_eq_false_iff, Bool.not_eq_false'] at hmust
          exact hmust.1
        rwa [hc₁.filtered.duplicate] at this
      have hI : FilterLoop sha1 sent core₀ done out { core with enableRewrite := b } t :=
        { h with frame := h.frame.trans rfl }
      exact hI.skip hm hd hc₁.filtered (hI.held_of_resolved hids hd hc₁)
    · intro r hr
      have hlast : FilteredAs (Holds r.1.containerBuffer r.1.storage) c r.2.2 := by
        have := List.rel_reverse hr.out
        simp only [List.reverse_append, List.reverse_singleton, List.singleton_append] at this
        exact (List.forall₂_cons.mp this).1
      have hid := (hlast.2 hm).ne_temporaryId
      exact ⟨fun h ↦ hid h, hr.collect hid⟩

end FilterLoop

/-- **The second pass.** -/
theorem post_filterChunks {cfg : Config} {sha1 : Bytes → Fingerprint} {sent : Bytes → Prop}
    {core : Core} {cs : List Chunk}
    (hstore : StoreOk sha1 sent core.containerBuffer core.storage)
    (haware : temporaryId ∉ core.restoreAware.cache.elems)
    (hc : Checked (Holds core.containerBuffer core.storage) (InBuffer core.containerBuffer) cs)
    (hcontent : ∀ c ∈ dataChunks cs, sha1 c.data = c.fp ∧ sent c.data) :
    Post (core.filterChunks cfg cs) (fun r ↦ FilterLoop sha1 sent core cs r.2.2 r.1 r.2.1)
      FilterAbort.Possible := by
  refine (Core.post_filterChunks (E := FilterAbort.Possible) (I := fun done todo out core' t ↦
    cs = done ++ todo ∧ FilterLoop sha1 sent core done out core' t) ?_ ?_).mono
      (fun _ h ↦ h.2) fun _ h ↦ h
  · rintro done c todo out core' t ⟨rfl, h⟩
    refine (h.step hc fun hm ↦ hcontent c ?_).mono (fun r hr ↦ ⟨by simp, hr⟩) fun _ h ↦ h
    simp [dataChunks_cons_data hm]
  · exact ⟨rfl, .start hstore haware⟩

/-! ## Handing the elements back -/

/-- **The third pass.** The chunks leave the index buffer with their containers. -/
theorem post_indexUpdateBuffer {H : ℤ → Fingerprint → Prop} {O : Fingerprint → Prop}
    (hH : ∀ id fp, H id fp → id ≠ temporaryId) {b : IndexBuffer} {cs out : List Chunk}
    {F : List Entry} (hF : InFlight H O b.queues (entries cs ++ F))
    (hout : List.Forall₂ (FilteredAs H) cs out) :
    Post (indexUpdateBuffer b out) (fun b' ↦ InFlight H O b'.queues F) fun _ ↦ False := by
  unfold indexUpdateBuffer
  induction hout generalizing b with
  | nil => exact hF
  | @cons c c' cs out hc _ ih =>
    rw [List.foldlM_cons]
    have hfp := hc.1.fp
    cases hm : c.isFileMarker with
    | true =>
      have hstep : updateChunk b c' = .ok b := by
        unfold updateChunk
        rw [if_pos (hc.1.isFileMarker.trans hm)]
      rw [hstep]
      refine ih ?_
      rwa [entries, dataChunks_cons_marker hm, ← entries] at hF
    | false =>
      rw [entries, dataChunks_cons_data hm, List.map_cons, List.cons_append, ← entries] at hF
      have hheld := hc.2 hm
      refine Post.bind (P := fun b' ↦ InFlight H O b'.queues (entries cs ++ F)) ?_
        fun b' hb' ↦ ih hb'
      unfold updateChunk
      rw [if_neg (by simp [hc.1.isFileMarker, hm])]
      refine (post_check fun h ↦ h (hH _ _ hheld)).bind fun _ _ ↦ ?_
      refine (post_check fun h ↦ h ?_).bind fun _ _ ↦ ?_
      · rw [hfp]
        exact hF.queue_ne_nil (e := c.entry) List.mem_cons_self
      · have hheld' : H c'.id c.fp := hfp ▸ hheld
        have hpop := hF.pop (e := c.entry) hheld' (hH _ _ hheld)
        simpa [IndexBuffer.pop, hfp, Chunk.entry] using hpop

end UniDedup.Node
