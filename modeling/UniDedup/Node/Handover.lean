import UniDedup.Lib.Transition
import UniDedup.Node.ContainerFile

/-!
# Handing containers over to the append thread

Three threads share the container store. The filter thread fills a container and submits it to a
queue. The append thread looks at the top of the queue, writes that container to the pool file, takes
it off the queue and frees it, in this order. The dedup thread retrieves the metadata of a container:
it searches the queue, and only if the container is not there it reads the pool file. The queue has a
lock and so has the file, but nothing holds both, so any step of another thread may come between the
search and the read.

A submitted container is in the queue or on disk at any time, and it never returns to the queue. So
when the search has missed it, it is on disk for good.
-/

namespace UniDedup.Node

open Transition Outcome

/-! ## The code, step by step -/

/-- `container_meta_duplicate`. -/
def Container.metaDuplicate (con : Container) : ContainerMeta :=
  ⟨con.id, con.entries.length, con.data.length,
    fun fp ↦ (con.entry fp).map fun e ↦ ((e.off : ℤ), (e.len : ℤ))⟩

/-- Where the append thread is in its loop. -/
inductive AppendPhase
  /-- Before `sync_queue_get_top`. -/
  | waiting
  /-- The container on top of the queue is being written. -/
  | writing (con : Container)
  /-- It is written and still in the queue. -/
  | written (con : Container)
  /-- It is off the queue and will be freed. -/
  | popped (con : Container)

/-- Where the dedup thread is in `retrieve_container_meta_by_id`. -/
inductive LookupPhase
  | idle
  | searching (id : ℕ)
  /-- The container was not in the queue; the pool file will be read. -/
  | missed (id : ℕ)
  | returned (id : ℕ) (m : ContainerMeta)

/-- The container store and the three threads. -/
structure HandoverState where
  /-- `container_count` and the pool file. -/
  pool : ContainerPool
  /-- The container the filter thread fills. -/
  current : Option Container
  /-- `container_buffer`. -/
  queue : List Container
  appendPhase : AppendPhase
  lookup : LookupPhase
  submitted : List Container

/-- The capacity of `container_buffer`. -/
def containerBufferSize : ℕ := 25

/-- The steps of the three threads. -/
inductive HandoverStep
  /-- The filter thread calls `create_container`. -/
  | create
  | add (ck : Fingerprint × Bytes)
  /-- It calls `write_container_async`. -/
  | submit
  /-- The append thread calls `sync_queue_get_top`. -/
  | getTop
  /-- It calls `write_container`, which finds the entries in the given order. -/
  | write (es : List MetaEntry)
  /-- It calls `sync_queue_pop`. -/
  | pop
  /-- It calls `free_container`. -/
  | free
  /-- The dedup thread calls `retrieve_container_meta_by_id`. -/
  | call (id : ℕ)
  | search
  | readPool
  | finish

namespace HandoverState

/-- `create_container`. -/
def create (st : HandoverState) : Option HandoverState :=
  match st.current with
  | some _ => none
  | none => some { st with
      current := some (Container.create st.pool.count)
      pool := { st.pool with count := st.pool.count + 1 } }

/-- `add_chunk_to_container`, under `container_overflow`. -/
def add (st : HandoverState) (ck : Fingerprint × Bytes) : Option HandoverState := do
  let con ← st.current
  let con ← (addChunkToContainer con ck).toOption
  return { st with current := some con }

/-- `write_container_async`. The thread waits while the queue is full. -/
def submit (st : HandoverState) : Option HandoverState := do
  let con ← st.current
  if con.isEmpty then
    return { st with current := none, pool := { st.pool with count := st.pool.count - 1 } }
  else if st.queue.length < containerBufferSize then
    return { st with current := none, queue := st.queue ++ [con], submitted := st.submitted ++ [con] }
  else none

/-- `sync_queue_get_top`. The thread waits while the queue is empty. -/
def getTop (st : HandoverState) : Option HandoverState :=
  match st.appendPhase, st.queue with
  | .waiting, con :: _ => some { st with appendPhase := .writing con }
  | _, _ => none

/-- `write_container`. -/
def write (st : HandoverState) (es : List MetaEntry) : Option HandoverState :=
  match st.appendPhase with
  | .writing con => do
    guard (es.Perm con.entries)
    let pool ← (st.pool.writeContainer con es).toOption
    return { st with pool := pool, appendPhase := .written con }
  | _ => none

/-- `sync_queue_pop`. -/
def pop (st : HandoverState) : Option HandoverState :=
  match st.appendPhase, st.queue with
  | .written con, _ :: rest => some { st with queue := rest, appendPhase := .popped con }
  | _, _ => none

/-- `free_container`. -/
def free (st : HandoverState) : Option HandoverState :=
  match st.appendPhase with
  | .popped _ => some { st with appendPhase := .waiting }
  | _ => none

/-- A call for a container that has been submitted. -/
def call (st : HandoverState) (id : ℕ) : Option HandoverState :=
  match st.lookup with
  | .idle => do
    guard (id ∈ st.submitted.map Container.id)
    return { st with lookup := .searching id }
  | _ => none

/-- `sync_queue_find` with `container_check_id`. -/
def search (st : HandoverState) : Option HandoverState :=
  match st.lookup with
  | .searching id =>
    match st.queue.find? fun con ↦ con.id = id with
    | some con => some { st with lookup := .returned id con.metaDuplicate }
    | none => some { st with lookup := .missed id }
  | _ => none

/-- The rest of `retrieve_container_meta_by_id`: there is no next state where it fails. -/
def readPool (st : HandoverState) : Option HandoverState :=
  match st.lookup with
  | .missed id => do
    let m ← (st.pool.retrieveContainerMetaById id).toOption
    return { st with lookup := .returned id m }
  | _ => none

def finish (st : HandoverState) : Option HandoverState :=
  match st.lookup with
  | .returned _ _ => some { st with lookup := .idle }
  | _ => none

def next (st : HandoverState) : HandoverStep → Option HandoverState
  | .create => st.create
  | .add ck => st.add ck
  | .submit => st.submit
  | .getTop => st.getTop
  | .write es => st.write es
  | .pop => st.pop
  | .free => st.free
  | .call id => st.call id
  | .search => st.search
  | .readPool => st.readPool
  | .finish => st.finish

/-- The start of a job: the containers of earlier jobs are on disk, under different ids below the
count, and the threads have not begun. -/
structure Start (st : HandoverState) : Prop where
  current : st.current = none
  queue : st.queue = []
  appendPhase : st.appendPhase = .waiting
  lookup : st.lookup = .idle
  nodup : (st.submitted.map Container.id).Nodup
  lt : ∀ con ∈ st.submitted, con.id < st.pool.count
  onDisk : ∀ con ∈ st.submitted, OnDisk st.pool.file con

end HandoverState

/-- Any interleaving of the three threads. -/
def handover : System HandoverState HandoverStep := ⟨HandoverState.Start, HandoverState.next⟩

/-! ## The invariant -/

namespace HandoverState

/-- What holds at any time. -/
structure Safe (st : HandoverState) : Prop where
  nodup : (st.submitted.map Container.id).Nodup
  lt : ∀ con ∈ st.submitted, con.id < st.pool.count
  current : ∀ con, st.current = some con →
    con.Fitted ∧ con.id + 1 = st.pool.count ∧ ∀ con' ∈ st.submitted, con'.id < con.id
  sublist : st.queue.Sublist st.submitted
  fitted : ∀ con ∈ st.queue, con.Fitted ∧ con.isEmpty = false
  found : ∀ con ∈ st.submitted, con ∈ st.queue ∨ OnDisk st.pool.file con
  writing : ∀ con, st.appendPhase = .writing con → ∃ rest, st.queue = con :: rest
  written : ∀ con, st.appendPhase = .written con →
    OnDisk st.pool.file con ∧ ∃ rest, st.queue = con :: rest
  popped : ∀ con, st.appendPhase = .popped con → con ∈ st.submitted ∧ con ∉ st.queue
  searching : ∀ id, st.lookup = .searching id → id ∈ st.submitted.map Container.id
  missed : ∀ id, st.lookup = .missed id →
    ∃ con ∈ st.submitted, con.id = id ∧ OnDisk st.pool.file con
  returned : ∀ id m, st.lookup = .returned id m →
    ∃ con ∈ st.submitted, con.id = id ∧ m.Describes con

variable {st st' : HandoverState}

theorem Start.safe (h : st.Start) : st.Safe where
  nodup := h.nodup
  lt := h.lt
  current con hcon := by rw [h.current] at hcon; cases hcon
  sublist := by rw [h.queue]; exact List.nil_sublist _
  fitted con hcon := by rw [h.queue] at hcon; cases hcon
  found con hcon := .inr (h.onDisk con hcon)
  writing con hcon := by rw [h.appendPhase] at hcon; cases hcon
  written con hcon := by rw [h.appendPhase] at hcon; cases hcon
  popped con hcon := by rw [h.appendPhase] at hcon; cases hcon
  searching id hid := by rw [h.lookup] at hid; cases hid
  missed id hid := by rw [h.lookup] at hid; cases hid
  returned id m hid := by rw [h.lookup] at hid; cases hid

/-! ### The filter thread -/

theorem Safe.create (h : st.Safe) (hs : st.create = some st') : st'.Safe := by
  unfold HandoverState.create at hs
  split at hs
  · cases hs
  · obtain rfl := Option.some.inj hs
    refine { h with lt := fun con hcon ↦ Nat.lt_succ_of_lt (h.lt con hcon), current := ?_ }
    intro con hcon
    obtain rfl := Option.some.inj hcon
    exact ⟨fitted_create _, rfl, h.lt⟩

theorem Safe.add (h : st.Safe) {ck : Fingerprint × Bytes} (hs : st.add ck = some st') : st'.Safe := by
  obtain ⟨con, hcon, hs⟩ := Option.bind_eq_some_iff.mp hs
  obtain ⟨con', hadd, hs⟩ := Option.bind_eq_some_iff.mp hs
  obtain rfl := Option.some.inj hs
  have hadd' := toOption_eq_some.mp hadd
  obtain ⟨hfit, hid, hlt⟩ := h.current con hcon
  refine { h with current := ?_ }
  intro con'' hcon''
  obtain rfl := Option.some.inj hcon''
  rw [id_addChunkToContainer hadd']
  exact ⟨Post.ok (hfit.addChunk ck) hadd', hid, hlt⟩

theorem Safe.submit (h : st.Safe) (hs : st.submit = some st') : st'.Safe := by
  obtain ⟨con, hcon, hs⟩ := Option.bind_eq_some_iff.mp hs
  obtain ⟨hfit, hid, hlt⟩ := h.current con hcon
  split_ifs at hs with hempty hroom
  · obtain rfl := Option.some.inj hs
    refine { h with lt := ?_, current := fun con' hcon' ↦ by cases hcon' }
    intro con' hcon'
    have := hlt con' hcon'
    dsimp only
    omega
  · obtain rfl := Option.some.inj hs
    have hne : ∀ con' ∈ st.submitted, con' ≠ con := by
      rintro con' hcon' rfl
      exact absurd (hlt con' hcon') (lt_irrefl _)
    have hmem : ∀ con' ∈ st.submitted, con' ∈ st.submitted ++ [con] :=
      fun con' ↦ List.mem_append_left [con]
    exact
      { nodup := by
          rw [List.map_append, List.nodup_append]
          refine ⟨h.nodup, List.nodup_singleton _, ?_⟩
          rintro i hi j hj rfl
          obtain ⟨con', hcon', rfl⟩ := List.mem_map.mp hi
          have := hlt con' hcon'
          rw [List.mem_singleton.mp hj] at this
          exact lt_irrefl _ this
        lt := by
          intro con' hcon'
          rcases List.mem_append.mp hcon' with hcon' | hcon'
          · exact h.lt con' hcon'
          · rw [List.mem_singleton.mp hcon']
            exact Nat.lt_of_succ_le hid.le
        current := fun con' hcon' ↦ by cases hcon'
        sublist := h.sublist.append (List.Sublist.refl _)
        fitted := by
          intro con' hcon'
          rcases List.mem_append.mp hcon' with hcon' | hcon'
          · exact h.fitted con' hcon'
          · rw [List.mem_singleton.mp hcon']
            exact ⟨hfit, by simpa using hempty⟩
        found := by
          intro con' hcon'
          rcases List.mem_append.mp hcon' with hcon' | hcon'
          · exact (h.found con' hcon').imp_left (List.mem_append_left [con])
          · exact .inl (List.mem_append_right _ hcon')
        writing := by
          intro con' hcon'
          obtain ⟨rest, hrest⟩ := h.writing con' hcon'
          exact ⟨rest ++ [con], by simp [hrest]⟩
        written := by
          intro con' hcon'
          obtain ⟨hdisk, rest, hrest⟩ := h.written con' hcon'
          exact ⟨hdisk, rest ++ [con], by simp [hrest]⟩
        popped := by
          intro con' hcon'
          obtain ⟨hsub, hnot⟩ := h.popped con' hcon'
          refine ⟨hmem con' hsub, fun hmem' ↦ ?_⟩
          rcases List.mem_append.mp hmem' with hmem' | hmem'
          · exact hnot hmem'
          · exact hne con' hsub (List.mem_singleton.mp hmem')
        searching := by
          intro id hid
          rw [List.map_append]
          exact List.mem_append_left _ (h.searching id hid)
        missed := by
          intro id hid
          obtain ⟨con', hcon', hspec⟩ := h.missed id hid
          exact ⟨con', hmem con' hcon', hspec⟩
        returned := by
          intro id m hid
          obtain ⟨con', hcon', hspec⟩ := h.returned id m hid
          exact ⟨con', hmem con' hcon', hspec⟩ }

/-! ### The append thread -/

theorem Safe.getTop (h : st.Safe) (hs : st.getTop = some st') : st'.Safe := by
  unfold HandoverState.getTop at hs
  split at hs
  · rename_i con rest _ hqueue
    obtain rfl := Option.some.inj hs
    refine { h with writing := ?_, written := ?_, popped := ?_ }
    · rintro con' hcon'
      obtain rfl := AppendPhase.writing.inj hcon'
      exact ⟨rest, hqueue⟩
    · intro con' hcon'
      cases hcon'
    · intro con' hcon'
      cases hcon'
  · cases hs

theorem Safe.eq_of_id (h : st.Safe) {con con' : Container} (hcon : con ∈ st.submitted)
    (hcon' : con' ∈ st.submitted) (hid : con.id = con'.id) : con = con' :=
  List.inj_on_of_nodup_map h.nodup hcon hcon' hid

theorem Safe.write (h : st.Safe) {es : List MetaEntry} (hs : st.write es = some st') : st'.Safe := by
  unfold HandoverState.write at hs
  split at hs
  · rename_i con hphase
    obtain ⟨_, hperm, hs⟩ := Option.bind_eq_some_iff.mp hs
    obtain ⟨pool, hpool, hs⟩ := Option.bind_eq_some_iff.mp hs
    obtain rfl := Option.some.inj hs
    have hperm' : es.Perm con.entries := by simpa [guard] using hperm
    obtain ⟨rest, hqueue⟩ := h.writing con hphase
    have hmem : con ∈ st.queue := by rw [hqueue]; exact List.mem_cons_self
    obtain ⟨hfit, hempty⟩ := h.fitted con hmem
    have hrange := range_of_writeContainer hempty (toOption_eq_some.mp hpool)
    obtain ⟨pool', hwrite, hcount, hdisk, hother⟩ :=
      st.pool.writeContainer_spec hfit hempty hperm' hrange
    obtain rfl : pool' = pool := Except.ok.inj (hwrite.symm.trans (toOption_eq_some.mp hpool))
    -- the container itself is written, every other one stays where it is
    have hkeep : ∀ con' ∈ st.submitted, OnDisk st.pool.file con' → OnDisk pool'.file con' := by
      intro con' hcon' hold
      by_cases hid : con'.id = con.id
      · rwa [h.eq_of_id hcon' (h.sublist.subset hmem) hid]
      · exact hother con' hold hid
    refine { h with lt := ?_, current := ?_, found := ?_, writing := ?_, written := ?_, popped := ?_, missed := ?_ }
    · intro con' hcon'
      exact hcount.symm ▸ h.lt con' hcon'
    · intro con' hcon'
      obtain ⟨hfit', hid', hlt'⟩ := h.current con' hcon'
      exact ⟨hfit', hid'.trans hcount.symm, hlt'⟩
    · intro con' hcon'
      exact (h.found con' hcon').imp_right (hkeep con' hcon')
    · intro con' hcon'
      cases hcon'
    · intro con' hcon'
      obtain rfl := AppendPhase.written.inj hcon'
      exact ⟨hdisk, rest, hqueue⟩
    · intro con' hcon'
      cases hcon'
    · intro id hid
      obtain ⟨con', hcon', hid', hold⟩ := h.missed id hid
      exact ⟨con', hcon', hid', hkeep con' hcon' hold⟩
  · cases hs

theorem Safe.pop (h : st.Safe) (hs : st.pop = some st') : st'.Safe := by
  unfold HandoverState.pop at hs
  split at hs
  · rename_i con top rest hphase hqueue
    obtain rfl := Option.some.inj hs
    obtain ⟨hdisk, rest', hqueue'⟩ := h.written con hphase
    obtain ⟨rfl, rfl⟩ := List.cons.inj (hqueue.symm.trans hqueue')
    have hsub : rest.Sublist st.submitted := (List.sublist_cons_self top rest).trans (hqueue ▸ h.sublist)
    have hmem : top ∈ st.submitted := h.sublist.subset (hqueue ▸ List.mem_cons_self)
    refine { h with sublist := hsub, fitted := ?_, found := ?_, writing := ?_, written := ?_, popped := ?_ }
    · intro con' hcon'
      exact h.fitted con' (hqueue ▸ List.mem_cons_of_mem top hcon')
    · intro con' hcon'
      rcases h.found con' hcon' with hin | hold
      · rw [hqueue] at hin
        rcases List.mem_cons.mp hin with rfl | hin
        · exact .inr hdisk
        · exact .inl hin
      · exact .inr hold
    · intro con' hcon'
      cases hcon'
    · intro con' hcon'
      cases hcon'
    · intro con' hcon'
      obtain rfl := AppendPhase.popped.inj hcon'
      have hnodup := (h.sublist.map Container.id).nodup h.nodup
      rw [hqueue, List.map_cons, List.nodup_cons] at hnodup
      exact ⟨hmem, fun hin ↦ hnodup.1 (List.mem_map_of_mem hin)⟩
  · cases hs

theorem Safe.free (h : st.Safe) (hs : st.free = some st') : st'.Safe := by
  unfold HandoverState.free at hs
  split at hs
  · obtain rfl := Option.some.inj hs
    refine { h with writing := ?_, written := ?_, popped := ?_ }
    all_goals
      intro con hcon
      cases hcon
  · cases hs

/-! ### The dedup thread -/

theorem Container.describes_metaDuplicate (con : Container) : con.metaDuplicate.Describes con :=
  ⟨rfl, rfl, rfl, fun _ ↦ rfl⟩

theorem Safe.call (h : st.Safe) {id : ℕ} (hs : st.call id = some st') : st'.Safe := by
  unfold HandoverState.call at hs
  split at hs
  · obtain ⟨_, hid, hs⟩ := Option.bind_eq_some_iff.mp hs
    obtain rfl := Option.some.inj hs
    have hmem : id ∈ st.submitted.map Container.id := by
      simp only [guard] at hid
      split_ifs at hid with hmem
      exact hmem
    refine { h with searching := ?_, missed := ?_, returned := ?_ }
    · intro id' hid'
      obtain rfl := LookupPhase.searching.inj hid'
      exact hmem
    · intro id' hid'
      cases hid'
    · intro id' m hid'
      cases hid'
  · cases hs

theorem Safe.search (h : st.Safe) (hs : st.search = some st') : st'.Safe := by
  unfold HandoverState.search at hs
  split at hs
  · rename_i id hphase
    obtain ⟨con, hcon, hid⟩ := List.mem_map.mp (h.searching id hphase)
    split at hs
    · rename_i con' hfind
      obtain rfl := Option.some.inj hs
      refine { h with searching := ?_, missed := ?_, returned := ?_ }
      · intro id' hid'
        cases hid'
      · intro id' hid'
        cases hid'
      · intro id' m hid'
        obtain ⟨rfl, rfl⟩ := LookupPhase.returned.inj hid'
        refine ⟨con', h.sublist.subset (List.mem_of_find?_eq_some hfind), ?_,
          Container.describes_metaDuplicate con'⟩
        simpa using List.find?_some hfind
    · rename_i hfind
      obtain rfl := Option.some.inj hs
      refine { h with searching := ?_, missed := ?_, returned := ?_ }
      · intro id' hid'
        cases hid'
      · intro id' hid'
        obtain rfl := LookupPhase.missed.inj hid'
        refine ⟨con, hcon, hid, (h.found con hcon).resolve_left fun hin ↦ ?_⟩
        exact absurd hid (by simpa using List.find?_eq_none.mp hfind con hin)
      · intro id' m hid'
        cases hid'
  · cases hs

theorem Safe.readPool (h : st.Safe) (hs : st.readPool = some st') : st'.Safe := by
  unfold HandoverState.readPool at hs
  split at hs
  · rename_i id hphase
    obtain ⟨m, hm, hs⟩ := Option.bind_eq_some_iff.mp hs
    obtain rfl := Option.some.inj hs
    obtain ⟨con, hcon, rfl, hdisk⟩ := h.missed id hphase
    obtain ⟨m', hm', hdesc⟩ := hdisk.recovers.byMeta
    obtain rfl : m' = m := Except.ok.inj (hm'.symm.trans (toOption_eq_some.mp hm))
    refine { h with searching := ?_, missed := ?_, returned := ?_ }
    · intro id' hid'
      cases hid'
    · intro id' hid'
      cases hid'
    · intro id' m hid'
      obtain ⟨rfl, rfl⟩ := LookupPhase.returned.inj hid'
      exact ⟨con, hcon, rfl, hdesc⟩
  · cases hs

theorem Safe.finish (h : st.Safe) (hs : st.finish = some st') : st'.Safe := by
  unfold HandoverState.finish at hs
  split at hs
  · obtain rfl := Option.some.inj hs
    refine { h with searching := ?_, missed := ?_, returned := ?_ }
    · intro id hid
      cases hid
    · intro id hid
      cases hid
    · intro id m hid
      cases hid
  · cases hs

theorem Safe.next (h : st.Safe) {l : HandoverStep} (hs : st.next l = some st') : st'.Safe := by
  cases l with
  | create => exact h.create hs
  | add ck => exact h.add hs
  | submit => exact h.submit hs
  | getTop => exact h.getTop hs
  | write es => exact h.write hs
  | pop => exact h.pop hs
  | free => exact h.free hs
  | call id => exact h.call hs
  | search => exact h.search hs
  | readPool => exact h.readPool hs
  | finish => exact h.finish hs

end HandoverState

/-! ## Submitted containers are found -/

variable {st : HandoverState}

theorem safe_of_reachable (h : handover.Reachable st) : st.Safe := by
  refine System.Reachable.invariant (P := HandoverState.Safe) ?_ ?_ h
  · intro s hs
    exact HandoverState.Start.safe hs
  · intro s l s' hsafe hs
    exact hsafe.next hs

/-- **A submitted container is always findable.** In every interleaving an id stands for one container
at most; a retrieval that goes to the disk finds the container there, with its id, and goes on to
return; what a retrieval returns is the metadata of the container; and a container is freed only when
it is off the queue. -/
theorem container_findable (h : handover.Reachable st) :
    (∀ con ∈ st.submitted, ∀ con' ∈ st.submitted, con.id = con'.id → con = con') ∧
    (∀ id, st.lookup = .missed id → ∃ con ∈ st.submitted, con.id = id ∧ OnDisk st.pool.file con ∧
      ∃ m, st.pool.retrieveContainerMetaById id = .ok m ∧ m.Describes con ∧
        st.next .readPool = some { st with lookup := .returned id m }) ∧
    (∀ id m, st.lookup = .returned id m → ∃ con ∈ st.submitted, con.id = id ∧ m.Describes con) ∧
    ∀ con, st.appendPhase = .popped con → con ∉ st.queue := by
  have hsafe := safe_of_reachable h
  refine ⟨fun con hcon con' hcon' hid ↦ hsafe.eq_of_id hcon hcon' hid, ?_, hsafe.returned,
    fun con hcon ↦ (hsafe.popped con hcon).2⟩
  intro id hid
  obtain ⟨con, hcon, rfl, hdisk⟩ := hsafe.missed id hid
  obtain ⟨m, hm, hdesc⟩ := hdisk.recovers.byMeta
  refine ⟨con, hcon, rfl, hdisk, m, hm, hdesc, ?_⟩
  rw [HandoverState.next, HandoverState.readPool, hid]
  dsimp only
  rw [hm]
  rfl

def newStore : HandoverState := ⟨⟨0, []⟩, none, [], .waiting, .idle, []⟩

/-- The filter thread submits a container with one chunk, and the dedup thread asks for it while it is
in the queue. -/
def submitAndSearch : List HandoverStep :=
  [.create, .add (Fingerprint.fill 0, [0]), .submit, .call 0, .search]

/-- Has a retrieval of the container returned? -/
def HandoverState.hasReturned (st : HandoverState) (id : ℕ) : Bool :=
  match st.lookup with
  | .returned id' _ => id' = id
  | _ => false

theorem start_newStore : newStore.Start :=
  ⟨rfl, rfl, rfl, rfl, List.nodup_nil, List.forall_mem_nil _, List.forall_mem_nil _⟩

/-- A run in which the dedup thread asks for a container that is on disk and off the queue. -/
theorem reachable_missed {ck : Fingerprint × Bytes} {con : Container}
    (hadd : addChunkToContainer (Container.create 0) ck = .ok con) :
    ∃ pool, handover.Reachable ⟨pool, none, [], .popped con, .missed 0, [con]⟩ := by
  have hfill : [ck].foldlM addChunkToContainer (Container.create 0) = .ok con := bind_eq_ok.mpr ⟨con, hadd, rfl⟩
  have hid : con.id = 0 := id_of_foldlM hfill
  have hne : con.isEmpty = false := isEmpty_of_foldlM hfill (List.cons_ne_nil _ _)
  obtain ⟨pool, hwrite, -⟩ := @ContainerPool.writeContainer_spec ⟨1, []⟩ con con.entries (fitted_of_foldlM hfill) hne
    (.refl con.entries) (by rw [hid]; decide)
  have hcreate : handover.Reachable ⟨⟨1, []⟩, some (Container.create 0), [], .waiting, .idle, []⟩ :=
    .step (l := .create) (.init start_newStore) trivial rfl
  have hadded : handover.Reachable ⟨⟨1, []⟩, some con, [], .waiting, .idle, []⟩ := by
    refine .step (l := .add ck) hcreate trivial ?_
    show Option.bind (addChunkToContainer (Container.create 0) ck).toOption _ = _
    rw [hadd]
    rfl
  have hsubmitted : handover.Reachable ⟨⟨1, []⟩, none, [con], .waiting, .idle, [con]⟩ := by
    refine .step (l := .submit) hadded trivial ?_
    show HandoverState.submit ⟨⟨1, []⟩, some con, [], .waiting, .idle, []⟩ = _
    simp only [HandoverState.submit, Option.bind_eq_bind, Option.bind_some, hne]
    rfl
  have hwriting : handover.Reachable ⟨⟨1, []⟩, none, [con], .writing con, .idle, [con]⟩ :=
    .step (l := .getTop) hsubmitted trivial rfl
  have hwritten : handover.Reachable ⟨pool, none, [con], .written con, .idle, [con]⟩ := by
    refine .step (l := .write con.entries) hwriting trivial ?_
    show HandoverState.write ⟨⟨1, []⟩, none, [con], .writing con, .idle, [con]⟩ con.entries = _
    simp only [HandoverState.write, hwrite]
    rw [guard, if_pos (List.Perm.refl _)]
    rfl
  have hpopped : handover.Reachable ⟨pool, none, [], .popped con, .idle, [con]⟩ :=
    .step (l := .pop) hwritten trivial rfl
  have hcalled : handover.Reachable ⟨pool, none, [], .popped con, .searching 0, [con]⟩ := by
    refine .step (l := .call 0) hpopped trivial ?_
    show HandoverState.call ⟨pool, none, [], .popped con, .idle, [con]⟩ 0 = _
    simp only [HandoverState.call]
    rw [guard, if_pos (hid ▸ List.mem_cons_self)]
    rfl
  exact ⟨pool, .step (l := .search) hcalled trivial rfl⟩

/-- A container that is found in the queue, and one that is found on disk. -/
theorem container_findable_first :
    (∃ st, handover.Reachable st ∧ st.hasReturned 0 = true ∧
      ∀ id m, st.lookup = .returned id m → ∃ con ∈ st.submitted, con.id = id ∧ m.Describes con) ∧
    ∃ st, handover.Reachable st ∧ st.lookup = .missed 0 ∧
      ∃ m, st.next .readPool = some { st with lookup := .returned 0 m } := by
  constructor
  · have hreach : handover.Reachable newStore := .init start_newStore
    obtain ⟨st, hst, hret⟩ := hreach.exists_of_run submitAndSearch
      (p := fun st ↦ st.hasReturned 0) (by decide)
    exact ⟨st, hst, hret, (container_findable hst).2.2.1⟩
  · have hok : (addChunkToContainer (Container.create 0) (Fingerprint.fill 1, [1, 2])).isOk = true := by decide
    cases hadd : addChunkToContainer (Container.create 0) (Fingerprint.fill 1, [1, 2]) with
    | ok con =>
      obtain ⟨pool, hst⟩ := reachable_missed hadd
      obtain ⟨-, -, -, -, m, -, -, hnext⟩ := (container_findable hst).2.1 0 rfl
      exact ⟨_, hst, rfl, m, hnext⟩
    | error e =>
      rw [hadd] at hok
      cases hok

end UniDedup.Node
