import UniDedup.Node.Layout
import UniDedup.Node.Reclaim
import UniDedup.Node.SparseMarks

/-!
# History-aware rewriting empties sparse containers

The rewrite thread marks every duplicate in a container that the version before recorded as sparse, and
the filter thread stores what is marked again unless a copy has been stored meanwhile. So no pointer of a
version names a container that the version before recorded as sparse, whatever the interleaving of the
threads is.

What the filter thread consults for a marked chunk is the head of the queue of its fingerprint, which
may be the element of another occurrence. The ids in a queue are therefore compared with the number of
containers at the start of the backup, the `base`: of the ids below there is one at most for each
fingerprint (`Settled`), so an id that replaces another one is that of a container of this backup.
-/

namespace UniDedup.Node

open Outcome Transition

/-! ## The containers of this backup -/

/-- The container being filled is the latest, and it was created behind the first `base` ones. -/
structure Recent (base : ℕ) (buf : Option Container) (st : ContainerStore) : Prop where
  count : base ≤ st.count
  buffer : ∀ con ∈ buf, base ≤ con.id ∧ con.id + 1 = st.count

/-- Before it is stored, `c₁` is in a container of this backup, or in the one that `c` is in. -/
structure PlacedAs (base : ℕ) (c c₁ : Chunk) : Prop where
  filtered : c.Filtered c₁
  id : (base : ℤ) ≤ c₁.id ∨ c₁.id = c.id ∧ c₁.rewriteDenied = c.rewriteDenied

/-- Behind its turn `c'` is in a container of this backup, or `c` was not to be stored again. -/
structure Drains (base : ℕ) (c c' : Chunk) : Prop where
  filtered : c.Filtered c'
  id : c.isFileMarker = false → (base : ℤ) ≤ c'.id ∨
    c'.id = c.id ∧ c.duplicate = true ∧ (c.rewriteDenied = true ∨ c.sparse = false)

/-- A chunk with a container of an earlier backup may be stored again. -/
def Rewritable (base : ℕ) (c : Chunk) : Prop :=
  c.isFileMarker = false → c.id < base → c.rewriteDenied = false

/-- What the segment has stored is in containers of this backup. -/
structure StoredAbove (base : ℕ) (core : Core) (t : Core.Tables) : Prop where
  recent : Recent base core.containerBuffer core.storage
  unique : ∀ p ∈ t.unique, (base : ℤ) ≤ p.2
  rewritten : ∀ p ∈ t.rewritten, (base : ℤ) ≤ p.2

section Storing

variable {cfg : Config} {base : ℕ} {core : Core} {con : Container} {t : Core.Tables} {c c₁ : Chunk}

theorem Recent.create (h : Recent base core.containerBuffer core.storage) :
    Recent base core.createContainer.containerBuffer core.createContainer.storage where
  count := h.count.trans (Nat.le_succ _)
  buffer con hcon := by
    cases hcon
    exact ⟨h.count, rfl⟩

theorem Recent.submit (h : Recent base core.containerBuffer core.storage)
    (hcon : core.containerBuffer = some con) :
    Recent base none (core.storage.writeContainerAsync con) where
  count := by
    obtain ⟨hle, hlatest⟩ := h.buffer con hcon
    unfold ContainerStore.writeContainerAsync
    split_ifs
    · change base ≤ core.storage.count - 1
      omega
    · exact h.count
  buffer _ h := by cases h

theorem PlacedAs.refl (base : ℕ) (c : Chunk) : PlacedAs base c c := ⟨.refl c, .inr ⟨rfl, rfl⟩⟩

theorem post_cacheAware_placedAs (base : ℕ) :
    Post (core.cacheAware cfg c) (PlacedAs base c) fun _ ↦ True := by
  unfold Core.cacheAware
  split_ifs
  · exact (post_check fun _ ↦ trivial).bind fun _ _ ↦ ⟨rfl, .inr ⟨rfl, rfl⟩⟩
  · exact .refl base c

namespace StoredAbove

theorem storeChunk (h : StoredAbove base core t) (c : Chunk) :
    Post (core.storeChunk cfg t c) (fun r ↦ StoredAbove base r.1 r.2.1 ∧ c.Filtered r.2.2 ∧
      (base : ℤ) ≤ r.2.2.id ∧ r.1.monitor = core.monitor) fun _ ↦ True := by
  refine Core.post_storeChunk (I := fun core' ↦
    Recent base core'.containerBuffer core'.storage ∧ core'.monitor = core.monitor)
    (fun core' h _ ↦ ⟨h.1.create, h.2⟩) (fun core' con h hcon _ ↦ ?_)
    (fun core' con hrec hcon ↦ ?_) ⟨h.recent, rfl⟩
  · exact Core.post_submitContainer (fun _ _ _ ↦ ⟨h.1.submit hcon, h.2⟩) fun _ ↦ trivial
  obtain ⟨hrec, hmonitor⟩ := hrec
  have hid : (base : ℤ) ≤ con.id := by exact_mod_cast (hrec.buffer con hcon).1
  unfold Core.addChunk
  refine (post_check fun _ ↦ trivial).bind fun _ _ ↦ ?_
  split
  · rename_i con' hadd
    have hsame : con'.id = con.id := (Container.addChunk_eq_some hadd).2.1
    refine ⟨⟨⟨hrec.count, fun con₁ hcon₁ ↦ ?_⟩, fun p hp ↦ ?_, fun p hp ↦ ?_⟩, rfl, hid, hmonitor⟩
    · cases hcon₁
      rw [hsame]
      exact hrec.buffer con hcon
    · split_ifs at hp
      · exact h.unique p hp
      · rcases List.mem_cons.mp hp with rfl | hp
        · exact hid
        · exact h.unique p hp
    · split_ifs at hp
      · rcases List.mem_cons.mp hp with rfl | hp
        · exact hid
        · exact h.rewritten p hp
      · exact h.rewritten p hp
  · exact (post_check fun _ ↦ trivial).bind fun _ _ ↦
      ⟨⟨hrec, h.unique, h.rewritten⟩, rfl, hid, hmonitor⟩

theorem resolveUnique (h : StoredAbove base core t) (hc : PlacedAs base c c₁) :
    Post (Core.resolveUnique t c₁) (PlacedAs base c) fun _ ↦ True := by
  unfold Core.resolveUnique
  split_ifs
  · exact (post_getOr fun _ ↦ trivial).bind fun id hid ↦
      ⟨hc.filtered.trans rfl, .inl (h.unique _ (Core.Tables.mem_of_find hid))⟩
  · exact hc

theorem resolveRewritten (h : StoredAbove base core t) (hc : PlacedAs base c c₁) :
    PlacedAs base c (Core.resolveRewritten t c₁) := by
  unfold Core.resolveRewritten
  split
  · rename_i id hid
    exact ⟨hc.filtered.trans rfl, .inl (h.rewritten _ (Core.Tables.mem_of_find hid))⟩
  · exact hc

/-- **The turn of a chunk.** -/
theorem filterChunk (h : StoredAbove base core t) (hm : c.isFileMarker = false) :
    Post (core.filterChunk cfg t c) (fun r ↦ StoredAbove base r.1 r.2.1 ∧ Drains base c r.2.2 ∧
      ∀ id ∈ r.1.monitor.map Prod.fst, id ∈ core.monitor.map Prod.fst ∨ id = r.2.2.id) fun _ ↦ True := by
  unfold Core.filterChunk
  rw [if_neg (by simp [hm])]
  refine (post_cacheAware_placedAs base).bind fun c₁ hc₁ ↦ ?_
  refine (h.resolveUnique hc₁).bind fun c₂ hc₂ ↦ ?_
  have hplaced := h.resolveRewritten hc₂
  have hstep : Post ({ core with enableRewrite := core.cflSwitch cfg }.storeIfNeeded cfg t
      (Core.resolveRewritten t c₂)) (fun r ↦ StoredAbove base r.1 r.2.1 ∧ Drains base c r.2.2 ∧
        r.1.monitor = core.monitor) fun _ ↦ True := by
    have hswitch : StoredAbove base { core with enableRewrite := core.cflSwitch cfg } t :=
      ⟨h.recent, h.unique, h.rewritten⟩
    unfold Core.storeIfNeeded
    split_ifs with hmust
    · refine (hswitch.storeChunk _).mono ?_ fun _ h ↦ h
      rintro r ⟨hs, hf, hid, hmon⟩
      exact ⟨hs, ⟨hplaced.filtered.trans hf, fun _ ↦ .inl hid⟩, hmon⟩
    · refine ⟨hswitch, ⟨hplaced.filtered, fun _ ↦ ?_⟩, rfl⟩
      rcases hplaced.id with hid | ⟨hid, hdenied⟩
      · exact .inl hid
      · -- The chunk is not stored, so it is a duplicate whose mark is missing or without effect.
        refine .inr ⟨hid, ?_⟩
        simp only [Core.mustStore, hplaced.filtered.duplicate, hdenied, hplaced.filtered.sparse,
          Bool.or_eq_true, Bool.not_eq_true', Bool.and_eq_true, not_or, not_and, Bool.not_eq_false] at hmust
        refine ⟨hmust.1, ?_⟩
        cases hd : c.rewriteDenied with
        | true => exact .inl rfl
        | false =>
          have hsparse := (hmust.2 hd).1
          exact .inr (by simpa using hsparse)
  refine hstep.bind ?_
  rintro ⟨core', t', c'⟩ ⟨hstored, hdrains, hmonitor⟩
  refine (post_check fun _ ↦ trivial).bind fun _ _ ↦ ?_
  refine ⟨⟨hstored.recent, hstored.unique, hstored.rewritten⟩, hdrains, fun id hid ↦ ?_⟩
  rcases mem_monitorUpdate.mp hid with hid | hid
  · exact .inr hid
  · rw [hmonitor] at hid
    exact .inl hid

end StoredAbove

/-- **The second pass over a segment.** -/
theorem Recent.filterChunks (h : Recent base core.containerBuffer core.storage) (cs : List Chunk) :
    Post (core.filterChunks cfg cs) (fun r ↦ Recent base r.1.containerBuffer r.1.storage ∧
      List.Forall₂ (Drains base) cs r.2.2 ∧
      ∀ id ∈ r.1.monitor.map Prod.fst, id ∈ core.monitor.map Prod.fst ∨
        ∃ c ∈ dataChunks r.2.2, c.id = id) fun _ ↦ True := by
  refine (Core.post_filterChunks (E := fun _ ↦ True) (I := fun done _ out core' t ↦
    StoredAbove base core' t ∧
    List.Forall₂ (Drains base) done out ∧
    ∀ id ∈ core'.monitor.map Prod.fst, id ∈ core.monitor.map Prod.fst ∨
      ∃ c ∈ dataChunks out, c.id = id) ?_ ?_).mono (fun r hr ↦ ⟨hr.1.recent, hr.2⟩) fun _ h ↦ h
  · rintro done c todo out core' t ⟨hstored, hout, hmonitor⟩
    have hold : ∀ {c' : Chunk} {id : ℤ}, id ∈ core'.monitor.map Prod.fst →
        id ∈ core.monitor.map Prod.fst ∨ ∃ c ∈ dataChunks (out ++ [c']), c.id = id := by
      intro c' id hid
      refine (hmonitor id hid).imp_right ?_
      rintro ⟨c₁, hc₁, heq⟩
      refine ⟨c₁, ?_, heq⟩
      rw [dataChunks_append]
      exact List.mem_append_left _ hc₁
    cases hm : c.isFileMarker with
    | true =>
      unfold Core.filterChunk
      rw [if_pos hm]
      refine ⟨hstored, List.rel_append hout (.cons ⟨.refl c, fun h ↦ ?_⟩ .nil), fun id hid ↦ hold hid⟩
      rw [hm] at h
      cases h
    | false =>
      refine (hstored.filterChunk hm).mono ?_ fun _ h ↦ h
      rintro r ⟨hstored', hdrains, hids⟩
      refine ⟨hstored', List.rel_append hout (.cons hdrains .nil), fun id hid ↦ ?_⟩
      rcases hids id hid with hid | rfl
      · exact hold hid
      · have hm' : r.2.2.isFileMarker = false := hdrains.filtered.isFileMarker.trans hm
        exact .inr ⟨r.2.2, by simp [dataChunks_cons_data hm'], rfl⟩
  · exact ⟨⟨h, fun _ h ↦ (by cases h), fun _ h ↦ (by cases h)⟩, .nil, fun id hid ↦ .inl hid⟩

end Storing

/-! ## The ids in flight -/

/-- The ids that are known for a fingerprint, in the index buffer and in flight. -/
def Known (queues : Fingerprint → List ℤ) (F : List Entry) (fp : Fingerprint) (id : ℤ) : Prop :=
  id ∈ queues fp ∨ ∃ e ∈ F, e.fp = fp ∧ e.id = id

/-- **Of the ids below `base` one at most is known for each fingerprint.** -/
def Settled (base : ℕ) (queues : Fingerprint → List ℤ) (F : List Entry) : Prop :=
  ∀ fp id id', Known queues F fp id → Known queues F fp id' → id < base → id' < base → id = id'

namespace Settled

variable {cfg : Config} {base : ℕ} {queues queues' : Fingerprint → List ℤ} {F F' : List Entry}

theorem empty (base : ℕ) : Settled base (fun _ ↦ []) [] := by
  rintro fp id id' (h | ⟨e, h, -⟩)
  · cases h
  · cases h

theorem of_known (h : Settled base queues F)
    (hk : ∀ fp (id : ℤ), id < base → Known queues' F' fp id → Known queues F fp id) :
    Settled base queues' F' :=
  fun fp id id' hid hid' hlt hlt' ↦ h fp id id' (hk fp id hlt hid) (hk fp id' hlt' hid') hlt hlt'

/-- **A chunk was looked up**: its container is new, or known already, or nothing was known. -/
theorem push (h : Settled base queues F) {e : Entry}
    (he : (base : ℤ) ≤ e.id ∨ e.id ∈ queues e.fp ∨ ∀ id, ¬Known queues F e.fp id) :
    Settled base (Function.update queues e.fp (queues e.fp ++ [e.id])) (F ++ [e]) := by
  have hknown : ∀ fp id, Known (Function.update queues e.fp (queues e.fp ++ [e.id])) (F ++ [e]) fp id →
      Known queues F fp id ∨ fp = e.fp ∧ id = e.id := by
    rintro fp id (hid | ⟨e', he', rfl, rfl⟩)
    · by_cases hfp : fp = e.fp
      · subst hfp
        rw [Function.update_self, List.mem_append, List.mem_singleton] at hid
        exact hid.imp (fun h ↦ .inl h) fun h ↦ ⟨rfl, h⟩
      · rw [Function.update_of_ne hfp] at hid
        exact .inl (.inl hid)
    · rcases List.mem_append.mp he' with he' | he'
      · exact .inl (.inr ⟨e', he', rfl, rfl⟩)
      · obtain rfl := List.mem_singleton.mp he'
        exact .inr ⟨rfl, rfl⟩
  rcases he with he | he | he
  · refine h.of_known fun fp id hlt hid ↦ (hknown fp id hid).resolve_right ?_
    rintro ⟨-, rfl⟩
    omega
  · refine h.of_known fun fp id _ hid ↦ ?_
    rcases hknown fp id hid with hid | ⟨rfl, rfl⟩
    · exact hid
    · exact .inl he
  · intro fp id id' hid hid' hlt hlt'
    rcases hknown fp id hid with hid | ⟨rfl, rfl⟩
    · rcases hknown fp id' hid' with hid' | ⟨rfl, rfl⟩
      · exact h fp id id' hid hid' hlt hlt'
      · exact absurd hid (he id)
    · rcases hknown _ id' hid' with hid' | ⟨-, rfl⟩
      · exact absurd hid' (he id')
      · rfl

/-- **A chunk was filtered**, and its container is new or the one it was found in. -/
theorem pop {e : Entry} (h : Settled base queues (e :: F)) {id : ℤ} (hid : (base : ℤ) ≤ id ∨ id = e.id) :
    Settled base (Function.update queues e.fp ((queues e.fp).tail.map fun _ ↦ id)) F := by
  refine h.of_known ?_
  rintro fp id' hlt (hid' | ⟨e', he', hfp, hid'⟩)
  · by_cases hfp : fp = e.fp
    · subst hfp
      rw [Function.update_self, List.mem_map] at hid'
      obtain ⟨_, -, rfl⟩ := hid'
      obtain rfl := hid.resolve_left (by omega)
      exact .inr ⟨e, List.mem_cons_self, rfl, rfl⟩
    · rw [Function.update_of_ne hfp] at hid'
      exact .inl hid'
  · exact .inr ⟨e', List.mem_cons_of_mem _ he', hfp, hid'⟩

/-! ### The lookup -/

theorem lookupChunk {env : LookupEnv} {useKV : Bool} {st : IndexState} {c : Chunk}
    (h : Settled base st.buffer.queues F)
    (hfree : ∀ fp, st.buffer.queues fp = [] → ∀ e ∈ F, e.fp ≠ fp)
    (hbuf : ∀ con ∈ env.containerBuffer, base ≤ con.id)
    (hc : c.isFileMarker = false → c.duplicate = false ∧ c.rewriteDenied = false) :
    Post (lookupChunk cfg env useKV st c)
      (fun r ↦ Settled base r.1.buffer.queues (F ++ entries [r.2]) ∧ Rewritable base r.2) fun _ ↦ True := by
  cases hm : c.isFileMarker with
  | true =>
    unfold Node.lookupChunk
    rw [if_pos hm]
    refine ⟨by simpa [entries, dataChunks, hm] using h, fun h ↦ ?_⟩
    rw [hm] at h
    cases h
  | false =>
    obtain ⟨hdup, hdenied⟩ := hc hm
    have hcache : CacheOk (fun _ _ ↦ True) st.cache := fun _ _ _ _ ↦ trivial
    have henv : EnvOk (fun _ _ ↦ True) env :=
      ⟨fun _ _ _ _ ↦ trivial, fun _ _ _ _ ↦ trivial, fun _ _ _ _ _ ↦ trivial⟩
    refine (post_lookupChunk_searched henv hcache hm hdup).mono ?_ fun _ h ↦ h
    rintro ⟨st', c'⟩ ⟨hsearched, hbuffer, -⟩
    dsimp only at hsearched hbuffer ⊢
    rw [hbuffer, entries_singleton (hsearched.isFileMarker.trans hm)]
    have hpush := h.push (e := c'.entry)
    -- Behind the index buffer nothing is known of the fingerprint.
    have hnone : st.buffer.queues c.fp = [] → ∀ id, ¬Known st.buffer.queues F c.fp id := by
      rintro hq id (hid | ⟨e, he, hefp, -⟩)
      · rw [hq] at hid
        cases hid
      · exact hfree c.fp hq e he hefp
    cases hsearched with
    | @storageBuffer con hcon _ =>
      have hle : (base : ℤ) ≤ con.id := by exact_mod_cast hbuf con hcon
      refine ⟨hpush (.inl hle), fun _ hlt ↦ ?_⟩
      exact absurd hle (not_le.mpr hlt)
    | indexBuffer hid => exact ⟨hpush (.inr (.inl hid)), fun _ _ ↦ hdenied⟩
    | cache hq _ => exact ⟨hpush (.inr (.inr (hnone hq))), fun _ _ ↦ hdenied⟩
    | nowhere hq _ => exact ⟨hpush (.inr (.inr (hnone hq))), fun _ _ ↦ hdenied⟩

/-- **Looking up a segment.** -/
theorem indexLookup {sha1 : Bytes → Fingerprint} {H : ℤ → Fingerprint → Prop} {env : LookupEnv}
    {st : IndexState} {cs : List Chunk} (h : Settled base st.buffer.queues F)
    (hH : ∀ id fp, H id fp → id ≠ temporaryId) (henv : EnvOk H env)
    (hF : InFlight H (InBuffer env.containerBuffer) st.buffer.queues F) (hcache : CacheOk H st.cache)
    (hbuf : ∀ con ∈ env.containerBuffer, base ≤ con.id) (hcs : ∀ c ∈ dataChunks cs, Fresh sha1 c) :
    Post (indexLookup cfg env st cs)
      (fun r ↦ Settled base r.1.buffer.queues (F ++ entries r.2) ∧ ∀ c ∈ r.2, Rewritable base c)
      fun _ ↦ True := by
  unfold Node.indexLookup
  refine (post_prefetchSimilar henv hcache cs).bind fun cache hcache' ↦ ?_
  refine (post_lookupChunks (E := fun _ ↦ True) (I := fun _ todo out st ↦
    (∀ c ∈ dataChunks todo, Fresh sha1 c) ∧
    (InFlight H (InBuffer env.containerBuffer) st.buffer.queues (F ++ entries out) ∧
      CacheOk H st.cache) ∧
    Settled base st.buffer.queues (F ++ entries out) ∧ ∀ c ∈ out, Rewritable base c) ?_
      ⟨hcs, ⟨by simpa [entries, dataChunks] using hF, hcache'⟩,
        by simpa [entries, dataChunks] using h, fun _ h ↦ by cases h⟩).mono
      (fun _ h ↦ h.2.2) fun _ _ ↦ trivial
  rintro done c todo out st ⟨hfresh, ⟨hF, hcache⟩, h, hopen⟩
  have hc : c.isFileMarker = false → Fresh sha1 c := fun hm ↦ hfresh c (by simp [dataChunks, hm])
  have hnew : c.isFileMarker = false → c.duplicate = false ∧ c.rewriteDenied = false := by
    intro hm
    have hcf : c = Chunk.hashed sha1 c.data := hc hm
    rw [hcf]
    exact ⟨rfl, rfl⟩
  refine ((post_lookupChunk hH henv hF hcache hc).and
    (h.lookupChunk (fun fp hq ↦ hF.fp_ne_of_queue_eq_nil hq) hbuf hnew)).mono ?_ fun _ _ ↦ trivial
  rintro r ⟨⟨hF', hcache'⟩, h', hopen'⟩
  refine ⟨fun c' hc' ↦ hfresh c' ?_, ⟨by simpa using hF', hcache'⟩, by simpa using h', ?_⟩
  · rw [mem_dataChunks] at hc' ⊢
    exact ⟨List.mem_cons_of_mem _ hc'.1, hc'.2⟩
  · rw [List.forall_mem_append, List.forall_mem_singleton]
    exact ⟨hopen, hopen'⟩

/-! ### The first and the third pass over a segment -/

/-- What the index buffer gives for a chunk is its container or a later one. -/
theorem post_checkChunk_id (b : IndexBuffer) (c : Chunk) :
    Post (checkChunk b c) (fun c' ↦ c' = c ∨ c.isFileMarker = false ∧ c.Filtered c' ∧ c.id < c'.id ∧
      c'.id ∈ b.queues c.fp) fun _ ↦ True := by
  unfold checkChunk
  split_ifs with hskip
  · exact .inl rfl
  · split
    · trivial
    · rename_i be q heq
      split_ifs with hlt
      · refine .inr ⟨?_, rfl, hlt, by simp [heq]⟩
        simp only [Bool.or_eq_true, not_or] at hskip
        simpa using hskip.1
      · exact .inl rfl

/-- **The first pass** leaves the container of a chunk alone, or it finds one of this backup. -/
theorem indexCheckBuffer {b : IndexBuffer} {cs : List Chunk} (h : Settled base b.queues (entries cs ++ F)) :
    Post (indexCheckBuffer b cs)
      (List.Forall₂ (fun c c' ↦ c' = c ∨ c.Filtered c' ∧ (base : ℤ) ≤ c'.id) cs) fun _ ↦ True := by
  refine Post.mapM fun c hc ↦ (post_checkChunk_id b c).mono (fun c' hc' ↦ hc'.imp_right ?_) fun _ h ↦ h
  rintro ⟨hm, hf, hlt, hmem⟩
  refine ⟨hf, ?_⟩
  by_contra hbase
  have hcd : c.entry ∈ entries cs := mem_entries.mpr ⟨c, mem_dataChunks.mpr ⟨hc, hm⟩, rfl⟩
  have heq := h c.fp c.id c'.id (.inr ⟨c.entry, List.mem_append_left _ hcd, rfl, rfl⟩) (.inl hmem)
    (by omega) (by omega)
  omega

/-- **The third pass.** -/
theorem indexUpdateBuffer {b : IndexBuffer} {cs out : List Chunk}
    (h : Settled base b.queues (entries cs ++ F))
    (hout : List.Forall₂ (Drains base) cs out) :
    Post (indexUpdateBuffer b out) (fun b' ↦ Settled base b'.queues F) fun _ ↦ True := by
  unfold Node.indexUpdateBuffer
  induction hout generalizing b with
  | nil => exact h
  | @cons c c' cs out hc _ ih =>
    rw [List.foldlM_cons]
    cases hm : c.isFileMarker with
    | true =>
      have hstep : updateChunk b c' = .ok b := by
        unfold updateChunk
        rw [if_pos (hc.filtered.isFileMarker.trans hm)]
      rw [hstep]
      refine ih ?_
      rwa [entries, dataChunks_cons_marker hm, ← entries] at h
    | false =>
      rw [entries, dataChunks_cons_data hm, List.map_cons, List.cons_append, ← entries] at h
      refine Post.bind (P := fun b' ↦ Settled base b'.queues (entries cs ++ F)) ?_ fun b' hb' ↦ ih hb'
      unfold updateChunk
      rw [if_neg (by simp [hc.filtered.isFileMarker, hm])]
      refine (post_check fun _ ↦ trivial).bind fun _ _ ↦ (post_check fun _ ↦ trivial).bind fun _ _ ↦ ?_
      have hpop := h.pop (e := c.entry) ((hc.id hm).imp_right And.left)
      simpa [IndexBuffer.pop, hc.filtered.fp, Chunk.entry] using hpop

end Settled

/-! ## What happens to a mark -/

namespace Drains

variable {base : ℕ} {inherited : List ℤ} {c c₁ c' : Chunk}

theorem comp (h : Drains base c₁ c') (hc : c₁ = c ∨ c.Filtered c₁ ∧ (base : ℤ) ≤ c₁.id) :
    Drains base c c' := by
  rcases hc with rfl | ⟨hf, hid⟩
  · exact h
  · refine ⟨hf.trans h.filtered, fun hm ↦ .inl ?_⟩
    rcases h.id (hf.isFileMarker.trans hm) with hid' | ⟨hid', -⟩
    · exact hid'
    · rw [hid']
      exact hid

/-- **A chunk with its mark does not stay in an inherited container.** -/
theorem id_not_mem (h : Drains base c c') (hinherited : ∀ id ∈ inherited, id < base)
    (hrewritable : Rewritable base c) (hsparse : c.SparseIn inherited) (hplain : c.isMarker = false) :
    c'.id ∉ inherited := by
  have hm : c.isFileMarker = false := Chunk.isFileMarker_of_isMarker hplain
  intro hmem
  have hlt := hinherited _ hmem
  obtain ⟨hid, hdup, hstays⟩ := (h.id hm).resolve_left (by omega)
  rw [hid] at hmem hlt
  rcases hstays with hdenied | hunmarked
  · rw [hrewritable hm hlt] at hdenied
    cases hdenied
  · rw [hsparse hplain hdup hmem] at hunmarked
    cases hunmarked

end Drains

/-! ## The contract -/

/-- No version refers to a container that the version before recorded as sparse. -/
def Drained : List BackupVersion → List (List (ℤ × ℕ)) → Prop
  | [], [] => True
  | b :: versions, _ :: sparse =>
    (∀ cp ∈ b.pointers, cp.id ∉ (sparse.headD []).map Prod.fst) ∧ Drained versions sparse
  | _, _ => False

/-- What the last version recorded are containers on disk. -/
structure DrainedDisk (d : Disk) : Prop where
  drained : Drained d.versions d.sparse
  recorded : ∀ id ∈ (d.sparse.headD []).map Prod.fst, 0 ≤ id ∧ id < d.count

/-- **The invariant of a running backup** that started with `base` containers. -/
structure Draining (base : ℕ) (x : Flight) : Prop where
  inherited : ∀ id ∈ x.core.inherited, 0 ≤ id ∧ id < base
  recent : Recent base x.core.containerBuffer x.core.storage
  settled : Settled base x.core.index.buffer.queues (entries x.segs.flatten)
  rewritable : ∀ c ∈ x.segs.flatten, Rewritable base c
  pointers : ∀ cp ∈ x.core.bv.pointers, cp.id ∉ x.core.inherited
  monitor : ∀ id ∈ x.core.monitor.map Prod.fst, ∃ fp, Holds x.core.containerBuffer x.core.storage id fp
  drained : Drained x.core.versions x.core.sparse

theorem Bracketed.plain : ∀ {ks : List Kind} {inFile : Bool}, Bracketed inFile ks →
    ∀ k ∈ ks, k ≠ .segmentStart ∧ k ≠ .segmentEnd
  | [], _, _, k, hk => by cases hk
  | k₀ :: ks, false, h, k, hk => by
    rcases List.mem_cons.mp hk with rfl | hk
    · rw [h.1]
      decide
    · exact Bracketed.plain h.2 k hk
  | k₀ :: ks, true, h, k, hk => by
    rcases h with ⟨rfl, h⟩ | ⟨rfl, h⟩ <;> rcases List.mem_cons.mp hk with rfl | hk
    · decide
    · exact Bracketed.plain h k hk
    · decide
    · exact Bracketed.plain h k hk

namespace Draining

variable {cfg : Config} {sha1 : Bytes → Fingerprint} {cl : Client} {base : ℕ} {core core' : Core}
  {segs : List (List Chunk)} {s s' rest : List Chunk}

theorem lookup (hs : Safe sha1 cl ⟨core, segs, s ++ rest⟩) (h : Draining base ⟨core, segs, s ++ rest⟩) :
    Post (core.lookup cfg s) (fun r ↦ Draining base ⟨r.1, segs ++ [r.2], rest⟩) fun _ ↦ True := by
  unfold Core.lookup
  refine (h.settled.indexLookup (fun id fp hh ↦ Holds.ne_temporaryId hh) hs.envOk hs.inFlight hs.cache
    (fun con hcon ↦ (h.recent.buffer con hcon).1)
    fun c hc ↦ hs.fresh c (by simp [dataChunks_append, hc])).bind ?_
  rintro ⟨index, s'⟩ ⟨hsettled, hrewritable⟩
  have hflat : (segs ++ [s']).flatten = segs.flatten ++ s' := by simp
  exact
    { h with
      settled := by
        simp only [hflat, entries_append]
        exact hsettled
      rewritable := by
        simp only [hflat, List.forall_mem_append]
        exact ⟨h.rewritable, hrewritable⟩ }

theorem skip (h : Draining base ⟨core, segs, s ++ rest⟩) (hs : chunkNum s = 0) :
    Draining base ⟨core, segs ++ [s], rest⟩ := by
  have hflat : (segs ++ [s]).flatten = segs.flatten ++ s := by simp
  have hnil : dataChunks s = [] := by
    rwa [chunkNum_eq, List.length_eq_zero_iff] at hs
  exact
    { h with
      settled := by
        have hentries : entries s = [] := by
          rw [entries, hnil]
          rfl
        simp only [hflat, entries_append, hentries, List.append_nil]
        exact h.settled
      rewritable := by
        simp only [hflat, List.forall_mem_append]
        refine ⟨h.rewritable, fun c hc hm ↦ ?_⟩
        have hmem : c ∈ dataChunks s := mem_dataChunks.mpr ⟨hc, hm⟩
        rw [hnil] at hmem
        cases hmem }

/-- The rewrite thread marks chunks, and no segment markers are among those of a segment. -/
theorem isMarker_of_marked (hs : Safe sha1 cl ⟨core, s :: segs, rest⟩) (hm : Marked cfg s s') {c : Chunk}
    (hc : c ∈ dataChunks s') : c.isMarker = false := by
  obtain ⟨hmem, hfile⟩ := mem_dataChunks.mp hc
  obtain ⟨c₀, hc₀, hmarks⟩ := List.Forall₂.exists_of_mem_right hm hmem
  have hkind := hs.bracketed.plain c.kind (by
    rw [hmarks.kind]
    exact List.mem_map_of_mem (by simp [hc₀]))
  simp [Chunk.isMarker, hfile, hkind]

theorem rewritable_of_marked (h : ∀ c ∈ s, Rewritable base c) (hm : Marked cfg s s') :
    ∀ c ∈ s', Rewritable base c := by
  intro c hc hfile hlt
  obtain ⟨c₀, hc₀, hmarks⟩ := List.Forall₂.exists_of_mem_right hm hc
  rw [hmarks.eq]
  refine h c₀ hc₀ (hmarks.isFileMarker.symm.trans hfile) ?_
  rw [← hmarks.id]
  exact hlt

/-- **A segment is filtered.** -/
theorem filter (hs : Safe sha1 cl ⟨core, s :: segs, rest⟩) (h : Draining base ⟨core, s :: segs, rest⟩)
    (hm : Marked cfg s s') (hsparse : ∀ c ∈ s', c.SparseIn core.inherited) :
    Post (core.filterSegment cfg s') (fun core' ↦ Draining base ⟨core', segs, rest⟩) fun _ ↦ True := by
  have hsettled : Settled base core.index.buffer.queues (entries s' ++ entries segs.flatten) := by
    have hF := h.settled
    rwa [List.flatten_cons, entries_append, ← hm.entries_eq] at hF
  have hrewritable : ∀ c ∈ s', Rewritable base c :=
    rewritable_of_marked (fun c hc ↦ h.rewritable c (by simp [hc])) hm
  unfold Core.filterSegment
  refine (((hs.consult hm).and hsettled.indexCheckBuffer).mono (fun _ h ↦ h) fun _ h ↦ h.1.elim).bind ?_
  rintro cs ⟨⟨hcs, hc⟩, hid⟩
  refine (((hs.filterChunks hm hcs hc).and (h.recent.filterChunks cs)).mono (fun _ h ↦ h)
    fun _ h ↦ h.2).bind ?_
  rintro ⟨core₁, t, out⟩ ⟨hloop, hrecent, hfilter, hmonitor⟩
  have hloop : FilterLoop sha1 (Sent cl) core cs out core₁ t := hloop
  -- both passes only ever move a chunk to a container of this backup
  have hdrains : List.Forall₂ (Drains base) s' out :=
    List.Forall₂.comp (T := Drains base) (fun _ _ _ h h' ↦ h'.comp h) hid hfilter
  have hframe₁ := hloop.frame
  have hindex : core₁.index = core.index := by rw [hframe₁]
  have hbuffer : Post (indexUpdateBuffer core₁.index.buffer out)
      (fun b ↦ Settled base b.queues (entries segs.flatten)) fun _ ↦ True := by
    rw [hindex]
    exact hsettled.indexUpdateBuffer hdrains
  refine hbuffer.bind fun b hb ↦ ?_
  refine ((hs.record hm hcs hloop b).mono (fun _ h ↦ h) fun _ h ↦ h.elim).bind ?_
  rintro ⟨sid, core₂⟩ hrec
  refine Core.post_updateSegmentIndex (fun kv _ _ ↦ ?_) fun _ ↦ trivial
  have hframe := hrec.records.frame
  dsimp only at hframe
  have hbuf : core₂.containerBuffer = core₁.containerBuffer := by rw [hframe]
  have hst : core₂.storage = core₁.storage := by rw [hframe]
  have hix : core₂.index = { core₁.index with buffer := b } := by rw [hframe]
  have hmon : core₂.monitor = core₁.monitor := by rw [hframe]
  have hver : core₂.versions = core.versions := by rw [hframe, hframe₁]
  have hrecorded : core₂.sparse = core.sparse := by rw [hframe, hframe₁]
  have hinherited : core₂.inherited = core.inherited := by rw [Core.inherited, Core.inherited, hrecorded]
  have hbv : core₁.bv = core.bv := by rw [hframe₁]
  have hptr : core₂.bv.pointers = core.bv.pointers ++ (dataChunks out).map Chunk.pointer := by
    have hrecipe : core₂.bv.recipe = core₁.bv.recipe ++ segmentRecords out := hrec.recipe
    rw [BackupVersion.pointers, hrecipe, List.filter_append,
      filter_segmentRecords fun c hc ↦ (Safe.held_out hloop hc).nonneg, hbv]
    rfl
  exact
    { inherited := by
        change ∀ id ∈ core₂.inherited, _
        rw [hinherited]
        exact h.inherited
      recent := by
        simp only [hbuf, hst]
        exact hrecent
      settled := by
        simp only [hix]
        exact hb
      rewritable := fun c hc ↦ h.rewritable c (by
        rw [List.flatten_cons]
        exact List.mem_append_right _ hc)
      pointers := by
        change ∀ cp ∈ core₂.bv.pointers, cp.id ∉ core₂.inherited
        rw [hinherited, hptr, List.forall_mem_append]
        refine ⟨h.pointers, fun cp hcp ↦ ?_⟩
        obtain ⟨c', hc', rfl⟩ := List.mem_map.mp hcp
        obtain ⟨hmem, hfile⟩ := mem_dataChunks.mp hc'
        obtain ⟨c, hc, hd⟩ := hdrains.exists_of_mem_right hmem
        have hdata : c ∈ dataChunks s' :=
          mem_dataChunks.mpr ⟨hc, hd.filtered.isFileMarker.symm.trans hfile⟩
        exact hd.id_not_mem (fun id hid ↦ (h.inherited id hid).2) (hrewritable c hc) (hsparse c hc)
          (isMarker_of_marked hs hm hdata)
      monitor := by
        simp only [hbuf, hst, hmon]
        intro id hid
        rcases hmonitor id hid with hid | ⟨c, hc, rfl⟩
        · obtain ⟨fp, hheld⟩ := h.monitor id hid
          exact ⟨fp, hloop.grows _ _ hheld⟩
        · exact ⟨c.fp, Safe.held_out hloop hc⟩
      drained := by
        simp only [hver, hrecorded]
        exact h.drained }

theorem grow (h : Draining base ⟨core, segs, rest⟩)
    (hrecent : Recent base core'.containerBuffer core'.storage)
    (hgrows : Grows core.containerBuffer core.storage core'.containerBuffer core'.storage)
    (hcore : core' = { core with
      storage := core'.storage, containerBuffer := core'.containerBuffer
      bufferChunks := core'.bufferChunks, kv := core'.kv }) :
    Draining base ⟨core', segs, rest⟩ := by
  rw [hcore]
  exact
    { h with
      recent := hrecent
      monitor := fun id hid ↦ (h.monitor id hid).imp fun fp hheld ↦ hgrows id fp hheld }

theorem flush (h : Draining base ⟨core, segs, rest⟩) :
    Post (core.finalFlush cfg) (fun core' ↦ Draining base ⟨core', segs, rest⟩) fun _ ↦ True := by
  refine Core.post_finalFlush h fun con hcon _ ↦ ?_
  refine Core.post_submitContainer (fun kv _ _ ↦ h.grow (h.recent.submit hcon) ?_ rfl) fun _ ↦ trivial
  rw [hcon]
  exact StoreOk.grows_submit con _

theorem append (hs : Safe sha1 cl ⟨core, segs, rest⟩) (h : Draining base ⟨core, segs, rest⟩)
    (happ : core.append = some core') : Draining base ⟨core', segs, rest⟩ := by
  obtain ⟨st, hst, rfl⟩ := Option.map_eq_some_iff.mp happ
  have hcount : st.count = core.storage.count := by
    obtain ⟨_, _, -, -, rfl⟩ | ⟨_, _, -, -, rfl⟩ := ContainerStore.append_cases hst <;> rfl
  refine h.grow ⟨?_, ?_⟩ (hs.store.grows_append hst) rfl
  · rw [hcount]
    exact h.recent.count
  · rw [hcount]
    exact h.recent.buffer

theorem backup {d : Disk} (h : DrainedDisk d) (cs : List Chunk) :
    Draining d.count ⟨.init cfg d, [], cs⟩ where
  inherited := h.recorded
  recent := ⟨le_rfl, fun _ h ↦ by cases h⟩
  settled := .empty _
  rewritable := fun _ h ↦ by cases h
  pointers := fun _ h ↦ by cases h
  monitor := fun _ h ↦ by cases h
  drained := h.drained

theorem mem_trimSparse {totalSize : ℕ} {r : ℤ × ℕ} : ∀ {seq : List (ℤ × ℕ)} {sparseSize : ℕ},
    r ∈ trimSparse cfg totalSize seq sparseSize → r ∈ seq
  | [], _, h => h
  | _ :: seq, _, h => by
    rw [trimSparse] at h
    split_ifs at h
    · exact List.mem_cons_of_mem _ (mem_trimSparse h)
    · exact h

theorem mem_sparseContainers {monitor : List (ℤ × ℕ)} {r : ℤ × ℕ} (h : r ∈ sparseContainers cfg monitor) :
    r ∈ monitor := by
  have hmem := mem_trimSparse (List.mem_reverse.mp h)
  rw [List.mem_reverse, List.mem_insertionSort] at hmem
  exact List.mem_of_mem_filter hmem

/-- **A backup ends.** -/
theorem close (hs : Safe sha1 cl ⟨core, [], []⟩) (h : Draining base ⟨core, [], []⟩)
    (hq : core.storage.queue = []) (hbuf : ∀ con ∈ core.containerBuffer, con.isEmpty = true) :
    DrainedDisk (core.close cfg) where
  drained := ⟨h.pointers, h.drained⟩
  recorded id hid := by
    obtain ⟨r, hr, rfl⟩ := List.mem_map.mp hid
    obtain ⟨fp, hheld⟩ := h.monitor r.1 (List.mem_map_of_mem (mem_sparseContainers hr))
    obtain ⟨con, hcon, hid, -⟩ := StoreOk.grows_close hq hbuf _ _ hheld
    refine ⟨hheld.nonneg, ?_⟩
    have hlt := (hs.store.close.bound con (by simpa [allContainers] using hcon)).1
    rw [← hid]
    exact_mod_cast hlt

end Draining

/-- What the rewrite thread has passed on is marked when it is filtered. -/
def Policy.marked : Policy := ⟨fun core cs ↦ ∀ c ∈ cs, c.SparseIn core.inherited, fun _ _ _ ↦ True⟩

/-- **History-aware rewriting as a contract**, on top of safety. -/
def draining (cfg : Config) (sha1 : Bytes → Fingerprint) : Contract cfg sha1 .marked where
  idle cl d := SafeDisk sha1 cl d ∧ DrainedDisk d
  busy cl x := Safe sha1 cl x ∧ ∃ base, Draining base x
  abort _ := True
  start := ⟨(safety cfg sha1 .marked).start, trivial, fun _ h ↦ by cases h⟩
  backup cl d files h := ⟨h.1.backup files, d.count, .backup h.2 _⟩
  turn cl x r h ht := by
    obtain ⟨hs, base, h⟩ := h
    have hdrain : Post r (fun x ↦ ∃ base, Draining base x) fun _ ↦ True := by
      cases ht with
      | stay => exact ⟨base, h⟩
      | lookup => exact Post.map (Post.mapError ((Draining.lookup hs h).mono (fun _ h ↦ ⟨base, h⟩) fun _ h ↦ h))
      | skip hnum => exact ⟨base, h.skip hnum⟩
      | filter hm ha =>
        exact Post.map (Post.mapError ((Draining.filter hs h hm ha).mono (fun _ h ↦ ⟨base, h⟩) fun _ h ↦ h))
      | flush => exact Post.map (Post.mapError (h.flush.mono (fun _ h ↦ ⟨base, h⟩) fun _ h ↦ h))
      | append happ => exact ⟨base, Draining.append hs h happ⟩
      | rewriteAbort => trivial
    exact (((safety cfg sha1 .marked).turn cl x r hs ht).and hdrain).mono (fun _ h ↦ h) fun _ _ ↦ trivial
  finish cl core h hq hbuf := by
    obtain ⟨hs, base, h⟩ := h
    exact ⟨hs.close hq hbuf, Draining.close hs h hq hbuf⟩
  delete cl d jobid h hdel := by
    have hdrained : Post (doDelete cfg d jobid) DrainedDisk fun _ ↦ True := by
      refine post_of_forall (fun d' hd' ↦ ?_) fun _ _ ↦ trivial
      simp only [doDelete, bind_eq_ok, getOr_eq_ok] at hd'
      obtain ⟨manifest, hmanifest, _, -, _, -, _, -, hd'⟩ := hd'
      cases hd'
      exact ⟨h.2.drained, h.2.recorded⟩
    exact (((safety cfg sha1 .marked).delete cl d jobid h.1 hdel).and hdrained).mono (fun _ h ↦ h)
      fun _ _ ↦ trivial

/-! ## Every run -/

/-- The steps before which a chunk has its mark when it is passed on. -/
def MarksFirst (cfg : Config) (_ : State) (l : Label) : Prop := cfg.rewriteAlgorithm = .no → l ≠ .rewrite true

instance (cfg : Config) (s : State) (l : Label) : Decidable (MarksFirst cfg s l) :=
  inferInstanceAs (Decidable (_ → _))

section Runs

variable {cfg : Config} {sha1 : Bytes → Fingerprint} {queueSize : ℕ} {s s' : State} {l : Label}

theorem allows_marked (hwatched : ∀ j, s.node = .running j → j.Watched) (l : Label) :
    Policy.marked.Allows s l := by
  unfold Policy.Allows
  split
  · trivial
  · rename_i j hj
    split
    · rename_i cs hcs
      have hw := hwatched j hj
      intro c hc
      rw [← hw.inherited]
      exact hw.passed c (by simp [hcs, FilterState.collected, hc])
    · trivial
  · trivial

theorem draining_at (hhar : cfg.enableHar = true) (h : (node cfg sha1 queueSize).Reach (MarksFirst cfg) s) :
    (draining cfg sha1).At s ∧ ∀ j, s.node = .running j → j.Watched := by
  refine System.Reach.invariant
    (P := fun s ↦ (draining cfg sha1).At s ∧ ∀ j, s.node = .running j → j.Watched) ?_ ?_ h
  · rintro s rfl
    exact ⟨(draining cfg sha1).start, fun j hj ↦ by cases hj⟩
  · rintro s l s' ⟨hat, hwatched⟩ hl hn
    refine ⟨(draining cfg sha1).at_next hat (allows_marked hwatched l) hn, fun j' hj' ↦ ?_⟩
    obtain ⟨d, files, hidle, rfl, rfl⟩ | ⟨d, jobid, d', -, rfl, -, rfl⟩ | ⟨d, jobid, e, -, rfl, -, rfl⟩ |
      ⟨j, d, -, rfl, -, rfl⟩ | ⟨j, r, hrun, hstep, rfl⟩ := node_next_cases hn
    · cases hj'
      obtain ⟨-, hd⟩ := Contract.at_idle hat hidle
      refine ⟨rfl, fun hmem ↦ ?_, fun _ h ↦ by cases h⟩
      have hnonneg := (hd.recorded temporaryId hmem).1
      unfold temporaryId at hnonneg
      omega
    · cases hj'
    · cases hj'
    · cases hj'
    · cases r with
      | ok j₁ =>
        cases hj'
        exact (hwatched j hrun).step hhar hl hstep
      | error e => cases hj'

end Runs

/-- **Sparse containers are drained.** With history-aware rewriting, in every run in which a chunk has
its mark when it is passed on, no version refers to a container that the version before recorded as
sparse; and neither does the version being written. -/
theorem sparse_not_referred {cfg : Config} {sha1 : Bytes → Fingerprint} {queueSize : ℕ} {s : State}
    (hhar : cfg.enableHar = true) (h : (node cfg sha1 queueSize).Reach (MarksFirst cfg) s) :
    (∀ d, s.node = .idle d → Drained d.versions d.sparse) ∧
    ∀ j, s.node = .running j → ∀ cp ∈ j.core.bv.pointers, cp.id ∉ j.core.inherited := by
  have hat := (draining_at hhar h).1
  refine ⟨fun d hn ↦ (Contract.at_idle hat hn).2.drained, fun j hn ↦ ?_⟩
  obtain ⟨x, hf, -, base, hx⟩ := Contract.at_running hat hn
  rw [← hf.core]
  exact hx.pointers

/-- Near-exact deduplication with history-aware rewriting. -/
def harConfig : Config := { Config.start with enableHar := true }

theorem sparseContainers_singleton (cfg : Config) (r : ℤ × ℕ) :
    sparseContainers cfg [r] = [] ∨ sparseContainers cfg [r] = [r] := by
  rw [sparseContainers, List.filter_singleton]
  cases hsparse : decide (r.2.toFloat / (containerSize - containerMetaSize).toFloat < cfg.harUtilizationThreshold) with
  | false => exact .inl rfl
  | true =>
    change (trimSparse cfg _ [r] _).reverse = [] ∨ (trimSparse cfg _ [r] _).reverse = [r]
    rw [trimSparse]
    split
    · exact .inl rfl
    · exact .inr rfl

set_option maxRecDepth 100000 in
theorem run_onceFiles_har : (node harConfig sampleSha1 1000).runIf (MarksFirst harConfig) .start
    (.backup onceFiles :: turns 11 12 7 2) =
      some ⟨⟨[onceFiles], 0⟩, .idle (onceDisk [onceVersion 0] [sparseContainers harConfig [(0, 1)]] 0)⟩ := rfl

/-- One file is backed up twice. When the container of its chunk was recorded as sparse after the first backup, the second
rewrites the chunk into a container of its own; else it refers to the old one. -/
theorem sparse_not_referred_sample :
    ∃ s d, (node harConfig sampleSha1 1000).Reach (MarksFirst harConfig) s ∧ s.node = .idle d ∧
      s.client.sent = [onceFiles, onceFiles] ∧
      d.versions.map (fun b ↦ b.pointers.map ChunkPointer.id) =
        [if sparseContainers harConfig [(0, 1)] = [] then [0] else [1], [0]] ∧
      Drained d.versions d.sparse := by
  have hfirst : (node harConfig sampleSha1 1000).Reach (MarksFirst harConfig)
      ⟨⟨[onceFiles], 0⟩, .idle (onceDisk [onceVersion 0] [sparseContainers harConfig [(0, 1)]] 0)⟩ :=
    System.Reach.runIf (.init rfl) run_onceFiles_har
  have hsecond : ∃ ls, ((node harConfig sampleSha1 1000).runIf (MarksFirst harConfig)
      ⟨⟨[onceFiles], 0⟩, .idle (onceDisk [onceVersion 0] [sparseContainers harConfig [(0, 1)]] 0)⟩ ls).any
      (fun s ↦ s.client.sent = [onceFiles, onceFiles] && s.node.testDisk fun d ↦
        d.versions.map (fun b ↦ b.pointers.map ChunkPointer.id) =
          [if sparseContainers harConfig [(0, 1)] = [] then [0] else [1], [0]]) = true := by
    -- the thresholds are floats, which no proof evaluates
    rcases sparseContainers_singleton harConfig (0, 1) with hnone | hsparse
    · rw [hnone]
      exact ⟨.backup onceFiles :: turns 11 12 7 0, by decide +kernel⟩
    · rw [hsparse]
      exact ⟨.backup onceFiles :: turns 11 12 7 2, by decide +kernel⟩
  obtain ⟨ls, hrun⟩ := hsecond
  obtain ⟨s, hs, hp⟩ := hfirst.exists_of_runIf ls hrun
  rw [Bool.and_eq_true, decide_eq_true_eq] at hp
  obtain ⟨d, hd, hids⟩ := NodeState.exists_of_testDisk hp.2
  exact ⟨s, d, hs, hd, hp.1, of_decide_eq_true hids, (sparse_not_referred rfl hs).1 d hd⟩

end UniDedup.Node
