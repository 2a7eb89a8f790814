import UniDedup.Node.Filter

/-!
# What the containers hold

Chunks move from the container being filled to the queue of the append thread and on to the pool, and
a reader may look at any of these. `Holds buf st id fp` says that the chunk `fp` can be found in
container `id` wherever that container is; the three things that happen to containers, creating,
filling and submitting them, and the turns of the append thread, never take this away again. Beside it
stands the invariant `StoreOk`: container ids are not reused, and what a container has under a
fingerprint is a chunk with that fingerprint that was sent to the node.
-/

namespace UniDedup.Node

open Outcome

/-- The containers of a job: the one being filled, those submitted and those on disk. -/
def allContainers (buf : Option Container) (st : ContainerStore) : List Container :=
  buf.toList ++ st.containers

/-- Container `id` has a chunk with fingerprint `fp`. -/
def Holds (buf : Option Container) (st : ContainerStore) (id : ℤ) (fp : Fingerprint) : Prop :=
  ∃ con ∈ allContainers buf st, (con.id : ℤ) = id ∧ fp ∈ con.fps

theorem mem_allContainers {buf : Option Container} {st : ContainerStore} {con : Container} :
    con ∈ allContainers buf st ↔ buf = some con ∨ con ∈ st.queue ∨ con ∈ st.pool := by
  simp [allContainers, ContainerStore.containers]

theorem Holds.nonneg {buf : Option Container} {st : ContainerStore} {id : ℤ} {fp : Fingerprint}
    (h : Holds buf st id fp) : 0 ≤ id := by
  obtain ⟨con, -, rfl, -⟩ := h
  exact Int.natCast_nonneg _

theorem Holds.ne_temporaryId {buf : Option Container} {st : ContainerStore} {id : ℤ}
    {fp : Fingerprint} (h : Holds buf st id fp) : id ≠ temporaryId := by
  have := h.nonneg
  unfold temporaryId
  omega

/-- The containers of one state are found in another, with all their chunks. -/
def Grows (buf : Option Container) (st : ContainerStore) (buf' : Option Container)
    (st' : ContainerStore) : Prop :=
  ∀ id fp, Holds buf st id fp → Holds buf' st' id fp

theorem Grows.refl (buf : Option Container) (st : ContainerStore) : Grows buf st buf st :=
  fun _ _ h ↦ h

theorem Grows.trans {buf buf' buf'' : Option Container} {st st' st'' : ContainerStore}
    (h : Grows buf st buf' st') (h' : Grows buf' st' buf'' st'') : Grows buf st buf'' st'' :=
  fun id fp hh ↦ h' id fp (h id fp hh)

theorem grows_of_subset {buf buf' : Option Container} {st st' : ContainerStore}
    (h : ∀ con ∈ allContainers buf st, con.isEmpty = false → con ∈ allContainers buf' st') :
    Grows buf st buf' st' := by
  rintro id fp ⟨con, hcon, hid, hfp⟩
  refine ⟨con, h con hcon ?_, hid, hfp⟩
  unfold Container.isEmpty
  rw [Container.fps] at hfp
  cases he : con.entries with
  | nil => simp [he] at hfp
  | cons e es => rfl

/-- **The invariant of the containers.** -/
structure StoreOk (sha1 : Bytes → Fingerprint) (sent : Bytes → Prop) (buf : Option Container)
    (st : ContainerStore) : Prop where
  /-- The container being filled has the latest id. -/
  latest : ∀ con ∈ buf, con.id + 1 = st.count
  /-- The ids of the others were given out before. -/
  bound : ∀ con ∈ st.containers, con.id < st.count ∧ ∀ con' ∈ buf, con.id ≠ con'.id
  inj : ∀ con ∈ st.containers, ∀ con' ∈ st.containers, con.id = con'.id → con = con'
  /-- A container the append thread has written is on disk. -/
  written : st.written = true → ∃ con rest, st.queue = con :: rest ∧ con ∈ st.pool
  /-- What is found under a fingerprint has that fingerprint and was sent. -/
  content : ∀ con ∈ allContainers buf st, ∀ fp d, con.getChunk fp = some d → sha1 d = fp ∧ sent d

namespace StoreOk

variable {sha1 : Bytes → Fingerprint} {sent sent' : Bytes → Prop} {buf : Option Container}
  {st st' : ContainerStore} {con con' : Container}

theorem mono (h : StoreOk sha1 sent buf st) (hs : ∀ d, sent d → sent' d) :
    StoreOk sha1 sent' buf st :=
  { h with
    content := fun con hcon fp d hd ↦
      ⟨(h.content con hcon fp d hd).1, hs d (h.content con hcon fp d hd).2⟩ }

theorem create (h : StoreOk sha1 sent none st) :
    StoreOk sha1 sent (some st.create.1) st.create.2 where
  latest con hcon := by
    cases hcon
    rfl
  bound con hcon := by
    have hlt := (h.bound con hcon).1
    refine ⟨Nat.lt_succ_of_lt hlt, ?_⟩
    rintro con' ⟨⟩
    exact hlt.ne
  inj := h.inj
  written := h.written
  content con hcon fp d hd := by
    rcases mem_allContainers.mp hcon with hbuf | hcon
    · cases hbuf
      cases hd
    · exact h.content con (mem_allContainers.mpr (.inr hcon)) fp d hd

theorem grows_create (st : ContainerStore) : Grows none st (some st.create.1) st.create.2 :=
  grows_of_subset fun con hcon _ ↦ by
    rcases mem_allContainers.mp hcon with hbuf | hcon
    · cases hbuf
    · exact mem_allContainers.mpr (.inr hcon)

theorem submit (h : StoreOk sha1 sent (some con) st) :
    StoreOk sha1 sent none (st.writeContainerAsync con) := by
  have hlatest := h.latest con rfl
  unfold ContainerStore.writeContainerAsync
  split_ifs with hempty
  · exact
      { latest := fun _ h ↦ by simp at h
        bound := fun c hc ↦ by
          obtain ⟨hlt, hne⟩ := h.bound c hc
          have := hne con rfl
          refine ⟨?_, fun _ h ↦ by simp at h⟩
          change c.id < st.count - 1
          omega
        inj := h.inj
        written := h.written
        content := fun c hc ↦ h.content c (mem_allContainers.mpr (by
          rcases mem_allContainers.mp hc with hc | hc
          · cases hc
          · exact .inr hc)) }
  · have hmem : ∀ c ∈ (st.queue ++ [con]) ++ st.pool, c = con ∨ c ∈ st.containers := by
      intro c hc
      simp only [List.mem_append, List.mem_singleton] at hc
      simp only [ContainerStore.containers, List.mem_append]
      tauto
    exact
      { latest := fun _ h ↦ by simp at h
        bound := fun c hc ↦ by
          refine ⟨?_, fun _ h ↦ by simp at h⟩
          rcases hmem c hc with rfl | hc
          · change c.id < st.count
            omega
          · exact (h.bound c hc).1
        inj := fun c hc c' hc' hid ↦ by
          rcases hmem c hc with rfl | hold <;> rcases hmem c' hc' with rfl | hold'
          · rfl
          · exact absurd hid.symm ((h.bound c' hold').2 c rfl)
          · exact absurd hid ((h.bound c hold).2 c' rfl)
          · exact h.inj c hold c' hold' hid
        written := fun hw ↦ by
          obtain ⟨c, rest, hq, hc⟩ := h.written hw
          exact ⟨c, rest ++ [con], by simp [hq], hc⟩
        content := fun c hc ↦ h.content c (mem_allContainers.mpr (by
          simp only [mem_allContainers, List.mem_append, List.mem_singleton] at hc
          rcases hc with hc | (hc | rfl) | hc
          · cases hc
          · exact .inr (.inl hc)
          · exact .inl rfl
          · exact .inr (.inr hc))) }

theorem grows_submit (con : Container) (st : ContainerStore) :
    Grows (some con) st none (st.writeContainerAsync con) := by
  refine grows_of_subset fun c hc hne ↦ ?_
  rw [mem_allContainers] at hc
  rw [mem_allContainers]
  unfold ContainerStore.writeContainerAsync
  split_ifs with hempty
  · rcases hc with hc | hc
    · cases hc
      simp [hempty] at hne
    · exact .inr hc
  · rcases hc with hc | hc | hc
    · cases hc
      exact .inr (.inl (List.mem_append_right _ List.mem_cons_self))
    · exact .inr (.inl (List.mem_append_left _ hc))
    · exact .inr (.inr hc)

section Add

variable {fp : Fingerprint} {data : Bytes}

theorem add (h : StoreOk sha1 sent (some con) st) (hadd : con.addChunk fp data = some con')
    (hfp : sha1 data = fp) (hsent : sent data) : StoreOk sha1 sent (some con') st := by
  have hid : con'.id = con.id := (Container.addChunk_eq_some hadd).2.1
  exact
    { latest := fun c hc ↦ by
        cases hc
        rw [hid]
        exact h.latest con rfl
      bound := fun c hc ↦ by
        refine ⟨(h.bound c hc).1, ?_⟩
        rintro c' ⟨⟩
        rw [hid]
        exact (h.bound c hc).2 con rfl
      inj := h.inj
      written := h.written
      content := fun c hc fp' d hd ↦ by
        rcases mem_allContainers.mp hc with hc | hc
        · cases hc
          rcases Container.getChunk_of_addChunk hadd hd with ⟨rfl, rfl⟩ | hd
          · exact ⟨hfp, hsent⟩
          · exact h.content con (mem_allContainers.mpr (.inl rfl)) fp' d hd
        · exact h.content c (mem_allContainers.mpr (.inr hc)) fp' d hd }

theorem grows_add (hadd : con.addChunk fp data = some con') (st : ContainerStore) :
    Grows (some con) st (some con') st := by
  rintro id fp' ⟨c, hc, rfl, hfp⟩
  rcases mem_allContainers.mp hc with hc | hc
  · cases hc
    refine ⟨con', mem_allContainers.mpr (.inl rfl), ?_, ?_⟩
    · rw [(Container.addChunk_eq_some hadd).2.1]
    · rw [Container.fps_addChunk hadd]
      exact List.mem_append_left _ hfp
  · exact ⟨c, mem_allContainers.mpr (.inr hc), rfl, hfp⟩

theorem holds_add (hadd : con.addChunk fp data = some con') (st : ContainerStore) :
    Holds (some con') st con.id fp := by
  refine ⟨con', mem_allContainers.mpr (.inl rfl), ?_, ?_⟩
  · rw [(Container.addChunk_eq_some hadd).2.1]
  · rw [Container.fps_addChunk hadd]
    exact List.mem_append_right _ List.mem_cons_self

end Add

theorem mem_append (h : StoreOk sha1 sent buf st) (happ : st.append = some st') :
    ∀ c, c ∈ st'.containers ↔ c ∈ st.containers := by
  intro c
  unfold ContainerStore.containers
  obtain ⟨con, rest, hq, hw, rfl⟩ | ⟨con, rest, hq, hw, rfl⟩ := ContainerStore.append_cases happ
  · obtain ⟨con', rest', hq', hpool⟩ := h.written hw
    rw [hq] at hq'
    cases hq'
    simp only [hq, List.mem_append, List.mem_cons]
    constructor
    · tauto
    · rintro ((rfl | hc) | hc)
      · exact .inr hpool
      · exact .inl hc
      · exact .inr hc
  · simp only [hq, List.mem_append, List.mem_cons]
    tauto

theorem append (h : StoreOk sha1 sent buf st) (happ : st.append = some st') :
    StoreOk sha1 sent buf st' := by
  have hmem := h.mem_append happ
  have hcount : st'.count = st.count := by
    obtain ⟨_, _, -, -, rfl⟩ | ⟨_, _, -, -, rfl⟩ := ContainerStore.append_cases happ <;> rfl
  exact
    { latest := fun c hc ↦ by
        rw [hcount]
        exact h.latest c hc
      bound := fun c hc ↦ by
        rw [hcount]
        exact h.bound c ((hmem c).mp hc)
      inj := fun c hc c' hc' ↦ h.inj c ((hmem c).mp hc) c' ((hmem c').mp hc')
      written := fun hw ↦ by
        obtain ⟨_, _, -, -, rfl⟩ | ⟨con, rest, hq, -, rfl⟩ := ContainerStore.append_cases happ
        · cases hw
        · exact ⟨con, rest, hq, List.mem_cons_self⟩
      content := fun c hc ↦ h.content c (by
        rw [allContainers, List.mem_append] at hc ⊢
        rw [hmem c] at hc
        exact hc) }

theorem grows_append (h : StoreOk sha1 sent buf st) (happ : st.append = some st') :
    Grows buf st buf st' := by
  refine grows_of_subset fun c hc _ ↦ ?_
  rw [allContainers, List.mem_append] at hc ⊢
  rw [h.mem_append happ c]
  exact hc

theorem close (h : StoreOk sha1 sent buf st) :
    StoreOk sha1 sent none ⟨st.count, [], false, st.pool⟩ := by
  have hmem : ∀ c, c ∈ st.pool → c ∈ st.containers := fun c hc ↦ List.mem_append_right _ hc
  exact
    { latest := fun _ h ↦ by simp at h
      bound := fun c hc ↦ ⟨(h.bound c (hmem c hc)).1, fun _ h ↦ by simp at h⟩
      inj := fun c hc c' hc' ↦ h.inj c (hmem c hc) c' (hmem c' hc')
      written := fun h ↦ by simp at h
      content := fun c hc ↦ h.content c (List.mem_append_right _ (hmem c hc)) }

theorem grows_close (hq : st.queue = []) (hbuf : ∀ con ∈ buf, con.isEmpty = true) :
    Grows buf st none ⟨st.count, [], false, st.pool⟩ := by
  refine grows_of_subset fun c hc hne ↦ ?_
  rcases mem_allContainers.mp hc with hc | hc | hc
  · rw [hbuf c hc] at hne
    cases hne
  · rw [hq] at hc
    cases hc
  · exact mem_allContainers.mpr (.inr (.inr hc))

theorem eq_of_id (h : StoreOk sha1 sent buf st) (hcon : con ∈ allContainers buf st)
    (hcon' : con' ∈ allContainers buf st) (hid : con.id = con'.id) : con = con' := by
  rw [allContainers, List.mem_append] at hcon hcon'
  rcases hcon with hcon | hcon <;> rcases hcon' with hcon' | hcon'
  · rw [Option.mem_toList] at hcon hcon'
    exact Option.mem_unique hcon hcon'
  · rw [Option.mem_toList] at hcon
    exact absurd hid.symm ((h.bound con' hcon').2 con hcon)
  · rw [Option.mem_toList] at hcon'
    exact absurd hid ((h.bound con hcon).2 con' hcon')
  · exact h.inj con hcon con' hcon' hid

end StoreOk

end UniDedup.Node
