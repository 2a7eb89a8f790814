import UniDedup.Node.LogicalIndex
import UniDedup.Node.PhysicalIndex

/-!
# The index after a deletion

A deletion takes the ids of what it reclaims out of the key-value store: those of the reclaimed
containers with physical locality, those of the segments of the version with logical locality. It
looks for them under the keys of the chunks of the container or of the segment, whereas they were
entered under the features sampled from it. Where all features are keys of chunks the two agree and
nothing is left behind; a feature that stands in for a missing one, or that was sampled from a file
marker, stays in the store.

`hygienic` is the policy under which this does not happen, and under which the fields of segment ids
do not overflow.
-/

namespace UniDedup.Node

open Outcome Transition

/-- With logical locality, segments are sampled from their own chunks and segment ids do not overflow;
with physical locality, the containers that are reclaimed were sampled from their own chunks. -/
def hygienic (cfg : Config) : Policy where
  filter core cs := cfg.locality = .logical →
    SamplesData cfg cs ∧ core.bv.bvNum < 2 ^ 16 ∧
      recordSize * (core.bv.recipe.length + (chunkNum cs + 2)) ≤ 2 ^ 32
  delete _ d jobid := cfg.locality = .physical → ∀ con ∈ d.pool,
    (∃ r ∈ d.manifest.getD [], r.1 = con.id ∧ r.2 ≤ jobid) → Sampled cfg con

instance (cfg : Config) (core : Core) (cs : List Chunk) : Decidable ((hygienic cfg).filter core cs) :=
  inferInstanceAs (Decidable (_ → _))

instance (cfg : Config) (cl : Client) (d : Disk) (jobid : ℕ) :
    Decidable ((hygienic cfg).delete cl d jobid) :=
  inferInstanceAs (Decidable (_ → _))

/-! ## The contracts -/

section Contracts

variable {cfg : Config} (sha1 : Bytes → Fingerprint)

theorem doDelete_eq_ok {d d' : Disk} {jobid : ℕ} (h : doDelete cfg d jobid = .ok d') :
    ∃ manifest b entries kv, d.manifest = some manifest ∧ b ∈ d.versions ∧ b.bvNum = jobid ∧
      reclaimedEntries cfg d (truncManifest manifest jobid).1 b = .ok entries ∧
      deleteEntries cfg d.kv entries = .ok kv ∧
      d' = { d with kv := kv, manifest := some (truncManifest manifest jobid).2 } := by
  simp only [doDelete, bind_eq_ok, getOr_eq_ok] at h
  obtain ⟨manifest, hmanifest, b, hb, entries, hentries, kv, hkv, h⟩ := h
  cases h
  exact ⟨manifest, b, entries, kv, hmanifest, List.mem_of_find?_eq_some hb,
    by simpa using List.find?_some hb, hentries, hkv, rfl⟩

/-- **The index of segments as a contract**, on top of safety. -/
def segmentHygiene (hlog : cfg.locality = .logical) : Contract cfg sha1 (hygienic cfg) where
  idle cl d := SafeDisk sha1 cl d ∧ LogicalIndex cfg d.kv d.versions
  busy cl x := Safe sha1 cl x ∧ LogicalIndex cfg x.core.kv (x.core.bv :: x.core.versions)
  abort _ := True
  start := ⟨(safety cfg sha1 (hygienic cfg)).start, KVStore.tidy_empty,
    fun _ _ h ↦ absurd h KVStore.not_has_empty, fun _ h ↦ (by cases h), .nil, fun _ h ↦ (by cases h)⟩
  backup cl d files h := ⟨h.1.backup files, h.2.create⟩
  turn cl x r h ht := by
    have hindex : Post r (fun x ↦ LogicalIndex cfg x.core.kv (x.core.bv :: x.core.versions))
        fun _ ↦ True := by
      cases ht with
      | stay => exact h.2
      | lookup => exact Post.map (Post.mapError h.2.lookup)
      | skip => exact h.2
      | filter hm ha =>
        obtain ⟨hsamples, hb, hlen⟩ := ha hlog
        exact Post.map (Post.mapError (h.2.filter hlog h.1 hm hsamples hb hlen))
      | flush => exact Post.map (Post.mapError (h.2.flush hlog))
      | append happ =>
        obtain ⟨st, -, rfl⟩ := Option.map_eq_some_iff.mp happ
        exact h.2
      | rewriteAbort => trivial
    exact (((safety cfg sha1 _).turn cl x r h.1 ht).and hindex).mono (fun _ h ↦ h) fun _ _ ↦ trivial
  finish cl core h hq hbuf := ⟨h.1.close hq hbuf, h.2.congr rfl rfl⟩
  delete cl d jobid h hdel := by
    have hindex : Post (doDelete cfg d jobid) (fun d' ↦ LogicalIndex cfg d'.kv d'.versions)
        fun _ ↦ True := by
      refine post_of_forall (fun d' hd' ↦ ?_) fun _ _ ↦ trivial
      obtain ⟨_, _, _, kv, -, -, -, -, hkv, rfl⟩ := doDelete_eq_ok hd'
      exact h.2.delete hkv
    exact (((safety cfg sha1 _).delete cl d jobid h.1 hdel).and hindex).mono (fun _ h ↦ h)
      fun _ _ ↦ trivial

/-- **The index of containers as a contract**, on top of safety. -/
def containerHygiene (hphys : cfg.locality = .physical) : Contract cfg sha1 (hygienic cfg) where
  idle cl d := SafeDisk sha1 cl d ∧ PhysicalIndex cfg d.kv d.pool
  busy cl x := Safe sha1 cl x ∧ Indexing cfg x.core
  abort _ := True
  start := ⟨(safety cfg sha1 (hygienic cfg)).start, KVStore.tidy_empty,
    fun _ _ h ↦ absurd h KVStore.not_has_empty⟩
  backup cl d files h := ⟨h.1.backup files, h.2, fun _ h ↦ (by cases h), fun _ h ↦ (by cases h)⟩
  turn cl x r h ht := by
    have hindex : Post r (fun x ↦ Indexing cfg x.core) fun _ ↦ True := by
      cases ht with
      | stay => exact h.2
      | lookup => exact Post.map (Post.mapError h.2.lookup)
      | skip => exact h.2
      | filter hm _ => exact Post.map (Post.mapError (h.2.filter hphys h.1 hm))
      | flush => exact Post.map (Post.mapError (h.2.flush hphys h.1.store))
      | append happ => exact h.2.append h.1.store happ
      | rewriteAbort => trivial
    exact (((safety cfg sha1 _).turn cl x r h.1 ht).and hindex).mono (fun _ h ↦ h) fun _ _ ↦ trivial
  finish cl core h hq hbuf := by
    refine ⟨h.1.close hq hbuf, h.2.index.mono fun con hcon ↦ ?_⟩
    rw [ContainerStore.containers, hq] at hcon
    exact hcon
  delete cl d jobid h hdel := by
    have hindex : Post (doDelete cfg d jobid) (fun d' ↦ PhysicalIndex cfg d'.kv d'.pool)
        fun _ ↦ True := by
      refine post_of_forall (fun d' hd' ↦ ?_) fun _ _ ↦ trivial
      obtain ⟨_, _, _, kv, -, -, -, -, hkv, rfl⟩ := doDelete_eq_ok hd'
      exact h.2.delete hkv
    exact (((safety cfg sha1 _).delete cl d jobid h.1 hdel).and hindex).mono (fun _ h ↦ h)
      fun _ _ ↦ trivial

end Contracts

/-! ## Deletions -/

/-- No key holds the id of what the deletion of a version reclaims. -/
def Clean (cfg : Config) (d d' : Disk) (jobid : ℕ) : Prop :=
  match cfg.locality with
  | .physical => ∀ manifest ∈ d.manifest, ∀ id ∈ (truncManifest manifest jobid).1,
    ∀ key, ∀ ids ∈ d'.kv key, id ∉ ids
  | .logical => ∀ b ∈ d.versions, b.bvNum = jobid → ∀ sr ∈ b.segments,
    ∀ key, ∀ ids ∈ d'.kv key, sr.id ∉ ids

/-- **Nothing reclaimed stays in the index.** In every run in which no feature is a substitute for a
missing one or comes from a file marker, and segment ids do not overflow, a deletion leaves no id of a
container it reclaims, or of a segment of its version, in the key-value store. -/
theorem index_clean {cfg : Config} {sha1 : Bytes → Fingerprint} {queueSize : ℕ} {s s' : State}
    (h : (node cfg sha1 queueSize).Reach (hygienic cfg).Allows s) {d d' : Disk} {jobid : ℕ}
    (hidle : s.node = .idle d) (hallow : (hygienic cfg).Allows s (.delete jobid))
    (hnext : (node cfg sha1 queueSize).next s (.delete jobid) = some s')
    (hidle' : s'.node = .idle d') : Clean cfg d d' jobid := by
  have hdelete : doDelete cfg d jobid = .ok d' := by
    simp only [node, hidle] at hnext
    split at hnext <;> cases hnext <;> cases hidle'
    assumption
  obtain ⟨manifest, b, entries, kv, hmanifest, hb, hnum, hentries, hkv, rfl⟩ := doDelete_eq_ok hdelete
  unfold Clean
  cases hloc : cfg.locality with
  | physical =>
    obtain ⟨hsafe, hindex⟩ := Contract.at_idle ((containerHygiene sha1 hloc).holds h) hidle
    have hsampled : (hygienic cfg).delete s.client d jobid := by
      simpa [Policy.Allows, hidle] using hallow
    simp only [reclaimedEntries, hloc] at hentries
    intro manifest' hmanifest' id hid key ids hids hmem
    rw [hmanifest, Option.mem_some_iff] at hmanifest'
    subst hmanifest'
    obtain ⟨hpos, hnot⟩ := hindex.not_has hsafe.store.inj hentries hkv hid (fun con hcon heq ↦ by
      refine hsampled hloc con hcon ?_
      simp only [truncManifest, List.mem_map, List.mem_filter, decide_eq_true_eq] at hid
      obtain ⟨r, ⟨hr, hle⟩, rfl⟩ := hid
      exact ⟨r, by rw [hmanifest]; exact hr, heq.symm, hle⟩) key
    refine hnot ⟨?_, ids, hids, hmem⟩
    unfold temporaryId
    omega
  | logical =>
    obtain ⟨hsafe, hindex⟩ := Contract.at_idle ((segmentHygiene sha1 hloc).holds h) hidle
    simp only [reclaimedEntries, hloc] at hentries
    intro b' hb' hnum' sr hsr key ids hids hmem
    obtain rfl : b' = b := List.inj_on_of_nodup_map hindex.nodup hb' hb (hnum'.trans hnum.symm)
    exact hindex.not_has hb hentries hkv hsr key
      ⟨(hindex.addressable b' hb).ne_temporaryId hsr, ids, hids, hmem⟩

/-- The index of segments with min-sampling. -/
def minConfig : Config := { Config.start with locality := .logical, samplingMethod := .min }

/-- A run of one backup, after which its deletion leaves the index clean. -/
def CleanRun (cfg : Config) : Prop :=
  cfg.initIndex = some cfg ∧ ∃ s s' d d', (node cfg sampleSha1 1000).Reach (hygienic cfg).Allows s ∧
    s.node = .idle d ∧ s'.node = .idle d' ∧
    (node cfg sampleSha1 1000).next s (.delete 0) = some s' ∧ Clean cfg d d' 0

theorem index_clean_sample : CleanRun .start ∧ CleanRun minConfig := by
  have hrun : ∀ cfg ∈ [Config.start, minConfig],
      ((node cfg sampleSha1 1000).runIf (hygienic cfg).Allows .start
        (.backup sampleFiles :: turns 15 16 9 2)).any (fun s ↦ s.node.isIdle &&
          decide ((hygienic cfg).Allows s (.delete 0)) &&
          ((node cfg sampleSha1 1000).next s (.delete 0)).any fun s' ↦ s'.node.isIdle) = true := by
    decide +kernel
  have hclean : ∀ cfg ∈ [Config.start, minConfig], cfg.initIndex = some cfg → CleanRun cfg := by
    intro cfg hcfg hinit
    obtain ⟨s, hs, hp⟩ := System.Reach.exists_of_runIf (.init rfl) _ (hrun cfg hcfg)
    simp only [Bool.and_eq_true, decide_eq_true_eq, Option.any_eq_true] at hp
    obtain ⟨⟨hidle, hallow⟩, s', hnext, hidle'⟩ := hp
    obtain ⟨d, hd⟩ := NodeState.exists_of_isIdle hidle
    obtain ⟨d', hd'⟩ := NodeState.exists_of_isIdle hidle'
    exact ⟨hinit, s, s', d, d', hs, hd, hd', hnext, index_clean hs hd hallow hnext hd'⟩
  exact ⟨hclean _ (by simp) rfl, hclean _ (by simp) rfl⟩

/-- The index of segments with uniform sampling. -/
def uniformConfig : Config := { Config.start with locality := .logical }

/-- Does the row of a key have a segment of a version? -/
def Disk.hasSegment (d : Disk) (kv : KVStore) (bvNum : ℕ) (key : Key) : Bool :=
  d.versions.any fun b ↦ b.bvNum = bvNum && b.segments.any fun sr ↦
    (kv key).any fun ids ↦ sr.id ∈ ids

/-- Does a node between two jobs keep, in the next state, a segment of a version under a key? -/
def NodeState.keepsSegment (n n' : NodeState) (bvNum : ℕ) (key : Key) : Bool :=
  match n, n' with
  | .idle d, .idle d' => d.hasSegment d'.kv bvNum key
  | _, _ => false

/-- A segment whose file marker was sampled stays in the store under the key of the marker. -/
theorem segment_stays :
    uniformConfig.initIndex = some uniformConfig ∧ ∃ s s' d d',
      (node uniformConfig sampleSha1 1000).Reach Policy.fifo.Allows s ∧ s.node = .idle d ∧
      s'.node = .idle d' ∧ Policy.fifo.Allows s (.delete 0) ∧
      (node uniformConfig sampleSha1 1000).next s (.delete 0) = some s' ∧
      ¬Clean uniformConfig d d' 0 := by
  have hrun : ((node uniformConfig sampleSha1 1000).runIf Policy.fifo.Allows .start
      (.backup sampleFiles :: turns 15 16 9 2)).any (fun s ↦
        decide (Policy.fifo.Allows s (.delete 0)) &&
        ((node uniformConfig sampleSha1 1000).next s (.delete 0)).any fun s' ↦
          s.node.keepsSegment s'.node 0 (fallbackKey uniformConfig 0)) = true := by
    decide +kernel
  obtain ⟨s, hs, hp⟩ := System.Reach.exists_of_runIf (.init rfl) _ hrun
  simp only [Bool.and_eq_true, decide_eq_true_eq, Option.any_eq_true] at hp
  obtain ⟨hallow, s', hnext, hp⟩ := hp
  unfold NodeState.keepsSegment at hp
  split at hp
  · rename_i d d' hd hd'
    simp only [Disk.hasSegment, List.any_eq_true, Bool.and_eq_true, decide_eq_true_eq,
      Option.any_eq_true] at hp
    obtain ⟨b, hb, hnum, sr, hsr, ids, hids, hmem⟩ := hp
    exact ⟨rfl, s, s', d, d', hs, hd, hd', hallow, hnext, fun hclean ↦
      hclean b hb hnum sr hsr _ ids hids hmem⟩
  · cases hp

end UniDedup.Node
