import UniDedup.Node.Safety

/-!
# Reclaiming containers

A deletion reclaims the containers whose last use, according to the manifest, is not later than the
version deleted. The manifest is brought up to date at the end of a backup from the monitor, which the
filter thread feeds with the container of every chunk once it is final. Hence the time of a container
in the manifest is never before a version that refers to it, and no container of a later version is
reclaimed.
-/

namespace UniDedup.Node

open Outcome Transition

/-! ## The monitor and the manifest -/

theorem mem_monitorUpdate {monitor : List (ℤ × ℕ)} {id id' : ℤ} {size : ℕ} :
    id' ∈ (Core.monitorUpdate monitor id size).map Prod.fst ↔
      id' = id ∨ id' ∈ monitor.map Prod.fst := by
  unfold Core.monitorUpdate
  split_ifs with hmem
  · have hkeys : (monitor.map fun r ↦ if r.1 = id then (r.1, r.2 + size) else r).map Prod.fst =
        monitor.map Prod.fst := by
      rw [List.map_map]
      refine List.map_congr_left fun r _ ↦ ?_
      dsimp only [Function.comp_apply]
      split_ifs <;> rfl
    rw [hkeys]
    exact ⟨.inr, fun h ↦ h.elim (fun h ↦ h ▸ hmem) fun h ↦ h⟩
  · simp [or_comm]

/-- The entries of an updated manifest: the containers of the backup have its time. -/
theorem mem_updateManifest {manifest : Option (List (ℤ × ℕ))} {monitor : List (ℤ × ℕ)} {jobid : ℕ}
    {r : ℤ × ℕ} (h : r ∈ updateManifest manifest monitor jobid) :
    r.2 = jobid ∨ (r.1 ∉ monitor.map Prod.fst ∧ r ∈ manifest.getD []) := by
  simp only [updateManifest, List.mem_append, List.mem_map, List.mem_filter] at h
  rcases h with ⟨r', hr', rfl⟩ | ⟨id, -, rfl⟩
  · split_ifs with hid
    · exact .inl rfl
    · exact .inr ⟨by simpa using hid, hr'⟩
  · exact .inl rfl

/-- The manifest has no container with a time before a version that refers to it. -/
structure Stamped (versions : List BackupVersion) (manifest : Option (List (ℤ × ℕ))) : Prop where
  bound : ∀ b ∈ versions, b.bvNum < versions.length
  stamped : ∀ b ∈ versions, ∀ cp ∈ b.pointers, ∀ t, (cp.id, t) ∈ manifest.getD [] → b.bvNum ≤ t

/-- A container that `trunc_manifest` reclaims is not referred to by a later version. -/
theorem Stamped.not_reclaimed {versions : List BackupVersion} {manifest : List (ℤ × ℕ)}
    (h : Stamped versions (some manifest)) {jobid : ℕ} {b : BackupVersion} (hb : b ∈ versions)
    (hlater : jobid < b.bvNum) {cp : ChunkPointer} (hcp : cp ∈ b.pointers) :
    cp.id ∉ (truncManifest manifest jobid).1 := by
  intro hmem
  simp only [truncManifest, List.mem_map, List.mem_filter, decide_eq_true_eq] at hmem
  obtain ⟨⟨id, t⟩, ⟨hr, ht⟩, rfl⟩ := hmem
  have := h.stamped b hb cp hcp t hr
  dsimp only at ht
  omega

/-! ## The monitor of a segment -/

section Monitor

variable {cfg : Config} {core : Core} {t : Core.Tables} {c : Chunk}

theorem post_storeChunk_monitor (c : Chunk) :
    Post (core.storeChunk cfg t c) (fun r ↦ r.1.monitor = core.monitor) fun _ ↦ True := by
  refine Core.post_storeChunk (I := fun core' ↦ core'.monitor = core.monitor)
    (fun _ h _ ↦ h) (fun core' con h _ _ ↦ ?_) (fun core' con h _ ↦ ?_) rfl
  · exact Core.post_submitContainer (fun _ _ _ ↦ h) fun _ ↦ trivial
  · unfold Core.addChunk
    refine (post_check fun _ ↦ trivial).bind fun _ _ ↦ ?_
    split
    · exact h
    · exact (post_check fun _ ↦ trivial).bind fun _ _ ↦ h

theorem post_filterChunk_monitor :
    Post (core.filterChunk cfg t c)
      (fun r ↦ (∀ id ∈ core.monitor.map Prod.fst, id ∈ r.1.monitor.map Prod.fst) ∧
        (r.2.2.isFileMarker = false → r.2.2.id ∈ r.1.monitor.map Prod.fst)) fun _ ↦ True := by
  cases hm : c.isFileMarker with
  | true =>
    unfold Core.filterChunk
    rw [if_pos hm]
    refine ⟨fun _ h ↦ h, fun h ↦ ?_⟩
    dsimp only at h
    rw [hm] at h
    cases h
  | false =>
    refine Core.post_filterChunk (P := fun r ↦ r.1.monitor = core.monitor) hm (fun _ ↦ trivial)
      (fun _ _ _ ↦ trivial) (fun b c₁ _ _ ↦ post_storeChunk_monitor c₁) (fun _ _ _ _ ↦ rfl)
      fun r hr ↦ ⟨fun _ ↦ trivial, fun id hid ↦ ?_, fun _ ↦ ?_⟩
    · refine mem_monitorUpdate.mpr (.inr ?_)
      rw [hr]
      exact hid
    · exact mem_monitorUpdate.mpr (.inl rfl)

/-- **The containers of the chunks of a segment are recorded.** -/
theorem post_filterChunks_monitor (cs : List Chunk) :
    Post (core.filterChunks cfg cs)
      (fun r ↦ (∀ id ∈ core.monitor.map Prod.fst, id ∈ r.1.monitor.map Prod.fst) ∧
        ∀ c ∈ dataChunks r.2.2, c.id ∈ r.1.monitor.map Prod.fst) fun _ ↦ True := by
  refine Core.post_filterChunks (I := fun _ _ out core' _ ↦
    (∀ id ∈ core.monitor.map Prod.fst, id ∈ core'.monitor.map Prod.fst) ∧
      ∀ c ∈ dataChunks out, c.id ∈ core'.monitor.map Prod.fst) ?_ ⟨fun _ h ↦ h, fun _ h ↦ by cases h⟩
  rintro done c todo out core' t ⟨hkeys, hout⟩
  refine post_filterChunk_monitor.mono (fun r ⟨hmono, hid⟩ ↦ ⟨fun id h ↦ hmono id (hkeys id h), ?_⟩)
    fun _ h ↦ h
  intro c' hc'
  rw [dataChunks_append, List.mem_append] at hc'
  rcases hc' with hc' | hc'
  · exact hmono _ (hout c' hc')
  · obtain ⟨hmem, hm⟩ := mem_dataChunks.mp hc'
    obtain rfl : c' = r.2.2 := by simpa using hmem
    exact hid hm

end Monitor

/-! ## The contract -/

/-- The pointers of the version being written are in the monitor. -/
structure Monitored (core : Core) : Prop where
  stamped : Stamped core.versions core.manifest
  bvNum : core.bv.bvNum = core.versions.length
  pointers : ∀ cp ∈ core.bv.pointers, cp.id ∈ core.monitor.map Prod.fst

namespace Monitored

variable {cfg : Config} {sha1 : Bytes → Fingerprint} {cl : Client} {core core' : Core}
  {segs : List (List Chunk)} {s s' rest : List Chunk}

theorem congr (h : Monitored core) (hversions : core'.versions = core.versions)
    (hmanifest : core'.manifest = core.manifest) (hbv : core'.bv = core.bv)
    (hmonitor : core'.monitor = core.monitor) : Monitored core' where
  stamped := by
    rw [hversions, hmanifest]
    exact h.stamped
  bvNum := by
    rw [hversions, hbv]
    exact h.bvNum
  pointers := by
    rw [hbv, hmonitor]
    exact h.pointers

theorem lookup (h : Monitored core) :
    Post (core.lookup cfg s) (fun r ↦ Monitored r.1) fun _ ↦ True := by
  exact Core.post_lookup fun _ _ ↦ h.congr rfl rfl rfl rfl

theorem filter (hs : Safe sha1 cl ⟨core, s :: segs, rest⟩) (h : Monitored core)
    (hm : Marked cfg s s') :
    Post (core.filterSegment cfg s') Monitored fun _ ↦ True := by
  unfold Core.filterSegment
  refine ((hs.consult hm).mono (fun _ h ↦ h) fun _ h ↦ h.elim).bind fun cs ⟨hcs, hc⟩ ↦ ?_
  refine (((hs.filterChunks hm hcs hc).and (post_filterChunks_monitor cs)).mono (fun _ h ↦ h)
    fun _ h ↦ h.2).bind ?_
  rintro ⟨core₁, t, out⟩ ⟨hloop, hkeys, hout⟩
  have hloop : FilterLoop sha1 (Sent cl) core cs out core₁ t := hloop
  refine ((hs.updateBuffer hm hcs hloop).mono (fun _ h ↦ h) fun _ h ↦ h.elim).bind fun b _ ↦ ?_
  refine ((hs.record hm hcs hloop b).mono (fun _ h ↦ h) fun _ h ↦ h.elim).bind
    fun ⟨sid, core₂⟩ hrec ↦ ?_
  refine Core.post_updateSegmentIndex (fun kv _ _ ↦ ?_) fun _ ↦ trivial
  have hframe := hrec.records.frame
  dsimp only at hframe
  have hversions : core₂.versions = core.versions := by rw [hframe, hloop.frame]
  have hmanifest : core₂.manifest = core.manifest := by rw [hframe, hloop.frame]
  have hmonitor : core₂.monitor = core₁.monitor := by rw [hframe]
  have hbv : core₁.bv = core.bv := by rw [hloop.frame]
  have hptr : core₂.bv.pointers = core.bv.pointers ++ (dataChunks out).map Chunk.pointer := by
    have hrecipe : core₂.bv.recipe = core₁.bv.recipe ++ segmentRecords out := hrec.recipe
    rw [BackupVersion.pointers, hrecipe, List.filter_append,
      filter_segmentRecords fun c hc ↦ (Safe.held_out hloop hc).nonneg, hbv]
    rfl
  refine ⟨?_, ?_, fun cp hcp ↦ ?_⟩
  · simp only [hversions, hmanifest]
    exact h.stamped
  · have hnum : core₂.bv.bvNum = core₁.bv.bvNum := hrec.records.bvNum
    simp only [hversions, hnum, hbv]
    exact h.bvNum
  · dsimp only at hcp ⊢
    rw [hmonitor]
    rw [hptr, List.mem_append] at hcp
    rcases hcp with hcp | hcp
    · exact hkeys _ (h.pointers cp hcp)
    · obtain ⟨c, hc, rfl⟩ := List.mem_map.mp hcp
      exact hout c hc

theorem flush (h : Monitored core) : Post (core.finalFlush cfg) Monitored fun _ ↦ True := by
  exact Core.post_finalFlush h fun _ _ _ ↦
    Core.post_submitContainer (fun _ _ _ ↦ h.congr rfl rfl rfl rfl) fun _ ↦ trivial

theorem close (h : Monitored core) :
    Stamped (core.close cfg).versions (core.close cfg).manifest where
  bound b hb := by
    simp only [Core.close, List.mem_cons, List.length_cons] at hb ⊢
    rcases hb with rfl | hb
    · change core.bv.bvNum < _
      rw [h.bvNum]
      exact Nat.lt_succ_self _
    · exact (h.stamped.bound b hb).trans (Nat.lt_succ_self _)
  stamped b hb cp hcp t ht := by
    have hle : b.bvNum ≤ core.bv.bvNum := by
      rw [h.bvNum]
      rcases List.mem_cons.mp hb with rfl | hb
      · exact h.bvNum.le
      · exact (h.stamped.bound b hb).le
    rcases mem_updateManifest ht with ht | ⟨hnot, ht⟩
    · exact hle.trans ht.ge
    · rcases List.mem_cons.mp hb with rfl | hb
      · exact absurd (h.pointers cp hcp) hnot
      · exact h.stamped.stamped b hb cp hcp t ht

end Monitored

/-- **The times of the manifest as a contract**, on top of safety. -/
def reclaiming (cfg : Config) (sha1 : Bytes → Fingerprint) (π : Policy) : Contract cfg sha1 π where
  idle cl d := SafeDisk sha1 cl d ∧ Stamped d.versions d.manifest
  busy cl x := Safe sha1 cl x ∧ Monitored x.core
  abort _ := True
  start := ⟨(safety cfg sha1 π).start, fun _ h ↦ (by cases h), fun _ h ↦ (by cases h)⟩
  backup cl d files h := ⟨h.1.backup files, h.2, rfl, fun _ h ↦ by cases h⟩
  turn cl x r h ht := by
    have hmon : Post r (fun x ↦ Monitored x.core) fun _ ↦ True := by
      cases ht with
      | stay => exact h.2
      | lookup => exact Post.map (Post.mapError h.2.lookup)
      | skip => exact h.2
      | filter hm _ => exact Post.map (Post.mapError (h.2.filter h.1 hm))
      | flush => exact Post.map (Post.mapError h.2.flush)
      | append happ =>
        obtain ⟨st, -, rfl⟩ := Option.map_eq_some_iff.mp happ
        exact h.2.congr rfl rfl rfl rfl
      | rewriteAbort => trivial
    exact (((safety cfg sha1 π).turn cl x r h.1 ht).and hmon).mono (fun _ h ↦ h) fun _ _ ↦ trivial
  finish cl core h hq hbuf := ⟨h.1.close hq hbuf, h.2.close⟩
  delete cl d jobid h hdel := by
    have hstamped : Post (doDelete cfg d jobid) (fun d' ↦ Stamped d'.versions d'.manifest)
        fun _ ↦ True := by
      refine post_of_forall (fun d' hd' ↦ ?_) fun _ _ ↦ trivial
      simp only [doDelete, bind_eq_ok, getOr_eq_ok] at hd'
      obtain ⟨manifest, hmanifest, _, -, _, -, _, -, hd'⟩ := hd'
      cases hd'
      refine ⟨h.2.bound, fun b hb cp hcp t ht ↦ h.2.stamped b hb cp hcp t ?_⟩
      rw [hmanifest]
      exact (List.mem_filter.mp ht).1
    exact (((safety cfg sha1 π).delete cl d jobid h.1 hdel).and hstamped).mono (fun _ h ↦ h)
      fun _ _ ↦ trivial

/-- **Live data is never reclaimed.** Between two jobs of any run, in whatever order versions were
deleted before, the containers that `trunc_manifest` returns for a version are referred to by no later
version. -/
theorem reclaimed_disjoint {cfg : Config} {sha1 : Bytes → Fingerprint} {queueSize : ℕ} {s : State}
    {d : Disk} {manifest : List (ℤ × ℕ)} (h : (node cfg sha1 queueSize).Reachable s)
    (hidle : s.node = .idle d) (hmanifest : d.manifest = some manifest) (jobid : ℕ)
    {b : BackupVersion} (hb : b ∈ d.versions) (hlater : jobid < b.bvNum) {cp : ChunkPointer}
    (hcp : cp ∈ b.pointers) : cp.id ∉ (truncManifest manifest jobid).1 := by
  have hd := Contract.at_idle ((reclaiming cfg sha1 .any).holds_reachable h) hidle
  have hstamped := hd.2
  rw [hmanifest] at hstamped
  exact hstamped.not_reclaimed hb hlater hcp

/-- Is there a version with pointers behind the first? -/
def NodeState.hasLater : NodeState → Bool
  | .idle d => d.manifest.isSome && d.versions.any fun b ↦ 0 < b.bvNum && !b.pointers.isEmpty
  | _ => false

theorem reclaimed_disjoint_sample :
    ∃ s d manifest, ∃ b ∈ d.versions, ∃ cp ∈ b.pointers, (node .start sampleSha1 1000).Reachable s ∧
      s.node = .idle d ∧ d.manifest = some manifest ∧ 0 < b.bvNum ∧
      cp.id ∉ (truncManifest manifest 0).1 := by
  have hrun : ((node .start sampleSha1 1000).run .start
      (.backup sampleFiles :: turns 15 16 9 2 ++ .backup sampleFiles :: turns 15 16 9 0)).any
      (fun s ↦ s.node.hasLater) = true := by decide +kernel
  obtain ⟨s, hs, hp⟩ := System.Reachable.exists_of_run (.init rfl) _ hrun
  cases hn : s.node with
  | idle d =>
    simp only [hn, NodeState.hasLater, Bool.and_eq_true, List.any_eq_true, decide_eq_true_eq,
      Bool.not_eq_true', List.isEmpty_eq_false_iff_exists_mem] at hp
    obtain ⟨hmanifest, b, hb, hlater, cp, hcp⟩ := hp
    obtain ⟨manifest, hmanifest⟩ := Option.isSome_iff_exists.mp hmanifest
    exact ⟨s, d, manifest, b, hb, cp, hcp, hs, hn, hmanifest, hlater,
      reclaimed_disjoint hs hn hmanifest 0 hb hlater hcp⟩
  | running j => simp [hn, NodeState.hasLater] at hp
  | aborted e => simp [hn, NodeState.hasLater] at hp

end UniDedup.Node
