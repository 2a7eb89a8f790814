import UniDedup.Storage.PoolRuns

/-!
# The schedule of the encodings

A file that is finalized hands its complete stripes to `addEncodeCandidate`, while it holds the lock of the pool. The
thread of `scanning` wakes up every second. While fewer stripes are in progress than the settings allow, it takes the
first one from the queue, enters it as in progress and sends a command. The threads of the coordinator take the
commands; each encodes a stripe under the lock of the pool, waits until its objects are written, and finishes it.

The number of stripes in progress is read before a stripe is taken from the queue. Only `scanning` makes it larger, so
what was read is an upper bound (`EncodePc.Counts`), and there are never more than the settings allow.
-/

namespace UniDedup.Storage

open Transition

/-! ## The threads -/

/-- Where the thread of `scanning` is. From `locked` on it holds `_lockPECQueue`. -/
inductive EncodePc
  | sleeping
  | awake
  | locked
  | counted (ecInProgressNum : ℕ)
  | popped (stripename : Name)
  | started (stripename : Name)
deriving DecidableEq

namespace EncodePc

/-- `_lockPECQueue` is free. -/
def unlocks : EncodePc → Bool
  | .sleeping => true
  | .awake => true
  | _ => false

/-- The stripe that was taken from the queue and is not sent yet. -/
def held : EncodePc → List Name
  | .popped t => [t]
  | .started t => [t]
  | _ => []

/-- The same stripe, once it is in progress. -/
def entered : EncodePc → List Name
  | .started t => [t]
  | _ => []

/-- What is known of the number of stripes in progress. -/
def Counts (concurrentNum num : ℕ) : EncodePc → Prop
  | .counted ecInProgressNum => num ≤ ecInProgressNum
  | .popped _ => num < concurrentNum
  | _ => True

end EncodePc

/-- A pool with the threads that encode its stripes. -/
structure EncodeState where
  run : PoolRun
  /-- The stripes that the file being finalized still hands over. -/
  adding : List Name
  enableScan : Bool
  pendingECQueue : List Name
  ecInProgress : List Name
  scan : EncodePc
  /-- The commands sent to the coordinator. -/
  requests : List Name
  /-- The commands its threads have taken, in their order. -/
  taken : List Name
  /-- The stripes that threads are about to encode. -/
  encoding : List Name
  /-- The stripes whose objects are being written. -/
  writing : List Name
  finished : List Name

inductive EncodeStep
  | registerOfflineEC (clientIp : ℕ) (filename : Name) (filesizeMB : ℕ) (picks : ℕ → ℕ)
  | finalizeFile (filename : Name)
  | addEncodeCandidate
  | setECStatus (op : Bool)
  | wakeUp
  | lockPECQueue
  | getECInProgressNum
  | pop
  | startECStripe
  | sendTo
  | unlockPECQueue
  | takeCommand
  | offlineEnc (stripename : Name) (picks : ℕ → ℕ)
  | finishECStripe (stripename : Name)

/-- The steps of `scanning`. -/
def EncodeStep.IsScan : EncodeStep → Prop
  | .wakeUp => True
  | .lockPECQueue => True
  | .getECInProgressNum => True
  | .pop => True
  | .startECStripe => True
  | .sendTo => True
  | .unlockPECQueue => True
  | _ => False

namespace EncodeState

variable (conf : Config) (clock : ℕ → ℕ) (concurrentNum : ℕ)

/-- The effect of a step. A file is finalized under the lock of the pool, so nothing else happens to the pool before
all its stripes are handed over. -/
def next (s : EncodeState) : EncodeStep → Option EncodeState
  | .registerOfflineEC clientIp filename filesizeMB picks =>
    if s.adding = [] then
      (s.run.next conf clock (.registerOfflineEC clientIp filename filesizeMB picks)).map fun run ↦
        { s with run := run }
    else none
  | .finalizeFile filename =>
    if s.adding = [] then
      (s.run.next conf clock (.finalizeFile filename)).map fun run ↦
        { s with run := run, adding := run.candidates.drop s.run.candidates.length }
    else none
  | .addEncodeCandidate =>
    match s.adding with
    | t :: rest =>
      if s.scan.unlocks then some { s with adding := rest, pendingECQueue := s.pendingECQueue ++ [t] } else none
    | [] => none
  | .setECStatus op => some { s with enableScan := op }
  | .wakeUp =>
    match s.scan with
    | .sleeping => if s.enableScan then some { s with scan := .awake } else none
    | _ => none
  | .lockPECQueue =>
    match s.scan with
    | .awake => some { s with scan := .locked }
    | _ => none
  | .getECInProgressNum =>
    match s.scan with
    | .locked => some { s with scan := .counted s.ecInProgress.length }
    | _ => none
  | .pop =>
    match s.scan, s.pendingECQueue with
    | .counted num, t :: rest =>
      if num < concurrentNum then some { s with scan := .popped t, pendingECQueue := rest } else none
    | _, _ => none
  | .startECStripe =>
    match s.scan with
    | .popped t => some { s with scan := .started t, ecInProgress := s.ecInProgress ++ [t] }
    | _ => none
  | .sendTo =>
    match s.scan with
    | .started t => some { s with scan := .locked, requests := s.requests ++ [t] }
    | _ => none
  | .unlockPECQueue =>
    match s.scan with
    | .counted num =>
      if s.pendingECQueue = [] ∨ concurrentNum ≤ num then some { s with scan := .sleeping } else none
    | _ => none
  | .takeCommand =>
    match s.requests with
    | t :: rest => some { s with requests := rest, taken := s.taken ++ [t], encoding := s.encoding ++ [t] }
    | [] => none
  | .offlineEnc t picks =>
    if s.adding = [] ∧ t ∈ s.encoding then
      (s.run.next conf clock (.offlineEnc t picks)).map fun run ↦
        { s with run := run, encoding := s.encoding.erase t, writing := s.writing ++ [t] }
    else none
  | .finishECStripe t =>
    if t ∈ s.writing then
      some { s with
        ecInProgress := s.ecInProgress.erase t
        writing := s.writing.erase t
        finished := s.finished ++ [t] }
    else none

/-- A new pool, no thread at work, and `scanning` disabled. -/
def IsInitial (s : EncodeState) : Prop :=
  ∃ run : PoolRun, run.IsInitial ∧ s = ⟨run, [], false, [], [], .sleeping, [], [], [], [], []⟩

def system : System EncodeState EncodeStep := ⟨IsInitial, next conf clock concurrentNum⟩

end EncodeState

/-! ## What the requests do to the queue -/

namespace PoolRun

variable {conf : Config} {clock picks : ℕ → ℕ} {s s' : PoolRun}

theorem queue_registerOfflineEC {clientIp filesizeMB : ℕ} {f : Name}
    (h : next conf clock s (.registerOfflineEC clientIp f filesizeMB picks) = some s') :
    s'.candidates = s.candidates ∧ s'.encoded = s.encoded := by
  obtain ⟨r, -, rfl⟩ := Option.map_eq_some_iff.mp h
  exact ⟨rfl, rfl⟩

theorem queue_finalizeFile {f : Name} (h : next conf clock s (.finalizeFile f) = some s') :
    s'.candidates = s.candidates ++ s'.candidates.drop s.candidates.length ∧ s'.encoded = s.encoded := by
  rw [next] at h
  split_ifs at h
  obtain ⟨r, -, rfl⟩ := Option.map_eq_some_iff.mp h
  refine ⟨?_, rfl⟩
  rw [List.drop_left]

theorem queue_offlineEnc {t : Name} (h : next conf clock s (.offlineEnc t picks) = some s') :
    s'.candidates = s.candidates ∧ s'.encoded = s.encoded ++ [t] := by
  rw [next] at h
  split_ifs at h
  obtain ⟨r, -, rfl⟩ := Option.map_eq_some_iff.mp h
  exact ⟨rfl, rfl⟩

theorem reachable_next {l : PoolRequest} (h : (system conf clock).Reachable s)
    (hs : next conf clock s l = some s') : (system conf clock).Reachable s' := .step h trivial hs

theorem Inv.nodup_candidates (h : s.Inv clock) : s.candidates.Nodup := by
  rw [List.nodup_iff_count_le_one]
  intro t
  by_cases hready : s.pool.Ready t
  · exact ((h.packed.queued t).1 hready).le
  · rw [(h.packed.queued t).2 hready]
    exact Nat.zero_le 1

end PoolRun

/-! ## The invariant -/

section Moves

variable {α : Type*} [BEq α] [LawfulBEq α] {t : α} {l l' m : List α}

theorem perm_move (ht : t ∈ l) : (l ++ l').Perm (l.erase t ++ (l' ++ [t])) := by
  rw [← List.append_assoc]
  exact ((List.perm_cons_erase ht).append_right l').trans (List.perm_append_singleton t _).symm

theorem perm_erase_append (h : m.Perm (l ++ l')) (ht : t ∈ l') : (m.erase t).Perm (l ++ l'.erase t) := by
  have hfront : m.Perm (t :: (l ++ l'.erase t)) :=
    (h.trans ((List.perm_cons_erase ht).append_left l)).trans List.perm_middle
  simpa using hfront.erase t

end Moves

theorem EncodePc.Counts.mono {concurrentNum num num' : ℕ} (hle : num' ≤ num) :
    ∀ {pc : EncodePc}, pc.Counts concurrentNum num → pc.Counts concurrentNum num'
  | .counted _, h => hle.trans h
  | .popped _, h => hle.trans_lt h
  | .sleeping, _ => trivial
  | .awake, _ => trivial
  | .locked, _ => trivial
  | .started _, _ => trivial

namespace EncodeState

/-- What holds between two steps. -/
structure Inv (conf : Config) (clock : ℕ → ℕ) (concurrentNum : ℕ) (s : EncodeState) : Prop where
  run : (PoolRun.system conf clock).Reachable s.run
  order : s.run.candidates = s.taken ++ (s.requests ++ (s.scan.held ++ (s.pendingECQueue ++ s.adding)))
  taken : s.taken.Perm (s.encoding ++ s.run.encoded)
  encoded : s.run.encoded.Perm (s.writing ++ s.finished)
  inProgress : s.ecInProgress.Perm ((s.scan.entered ++ (s.requests ++ s.encoding)) ++ s.writing)
  bounded : s.ecInProgress.length ≤ concurrentNum
  counts : s.scan.Counts concurrentNum s.ecInProgress.length

variable {conf : Config} {clock : ℕ → ℕ} {concurrentNum : ℕ} {s s' : EncodeState}

theorem IsInitial.inv (h : s.IsInitial) : s.Inv conf clock concurrentNum := by
  obtain ⟨run, hrun, rfl⟩ := h
  obtain ⟨store, ecpoolid, ecpolicy, basesize, rfl⟩ := hrun
  exact
    { run := .init ⟨store, ecpoolid, ecpolicy, basesize, rfl⟩
      order := rfl
      taken := .refl _
      encoded := .refl _
      inProgress := .refl _
      bounded := Nat.zero_le _
      counts := trivial }

namespace Inv

variable (h : s.Inv conf clock concurrentNum)

include h

/-! ### The coordinator -/

theorem registerOfflineEC {clientIp filesizeMB : ℕ} {f : Name} {picks : ℕ → ℕ}
    (hs : next conf clock concurrentNum s (.registerOfflineEC clientIp f filesizeMB picks) = some s') :
    s'.Inv conf clock concurrentNum := by
  rw [next] at hs
  split_ifs at hs
  obtain ⟨run, hrun, rfl⟩ := Option.map_eq_some_iff.mp hs
  obtain ⟨hcand, henc⟩ := PoolRun.queue_registerOfflineEC hrun
  exact
    { h with
      run := PoolRun.reachable_next h.run hrun
      order := hcand.trans h.order
      taken := by
        rw [henc]
        exact h.taken
      encoded := by
        rw [henc]
        exact h.encoded }

theorem finalizeFile {f : Name} (hs : next conf clock concurrentNum s (.finalizeFile f) = some s') :
    s'.Inv conf clock concurrentNum := by
  rw [next] at hs
  split_ifs at hs with hadding
  obtain ⟨run, hrun, rfl⟩ := Option.map_eq_some_iff.mp hs
  obtain ⟨hcand, henc⟩ := PoolRun.queue_finalizeFile hrun
  exact
    { h with
      run := PoolRun.reachable_next h.run hrun
      order := by
        have horder := h.order
        rw [hadding, List.append_nil] at horder
        dsimp only
        generalize run.candidates.drop s.run.candidates.length = l at hcand ⊢
        rw [hcand, horder]
        simp only [List.append_assoc]
      taken := by
        rw [henc]
        exact h.taken
      encoded := by
        rw [henc]
        exact h.encoded }

theorem takeCommand (hs : next conf clock concurrentNum s .takeCommand = some s') :
    s'.Inv conf clock concurrentNum := by
  rw [next] at hs
  split at hs
  · rename_i t rest hrequests
    cases hs
    have horder := h.order
    have hprogress := h.inProgress
    rw [hrequests] at horder hprogress
    exact
      { h with
        order := by simpa using horder
        taken := by
          rw [List.append_assoc]
          refine (h.taken.append_right [t]).trans ?_
          rw [List.append_assoc]
          exact List.perm_append_comm.append_left _
        inProgress := by
          refine hprogress.trans (.append_right _ (.append_left _ ?_))
          rw [← List.append_assoc]
          exact (List.perm_append_singleton t _).symm }
  · cases hs

theorem offlineEnc {t : Name} {picks : ℕ → ℕ}
    (hs : next conf clock concurrentNum s (.offlineEnc t picks) = some s') : s'.Inv conf clock concurrentNum := by
  rw [next] at hs
  split_ifs at hs with hguard
  obtain ⟨run, hrun, rfl⟩ := Option.map_eq_some_iff.mp hs
  obtain ⟨hcand, henc⟩ := PoolRun.queue_offlineEnc hrun
  exact
    { h with
      run := PoolRun.reachable_next h.run hrun
      order := hcand.trans h.order
      taken := by
        rw [henc]
        exact h.taken.trans (perm_move hguard.2)
      encoded := by
        rw [henc, List.append_assoc]
        refine (h.encoded.append_right [t]).trans ?_
        rw [List.append_assoc]
        exact List.perm_append_comm.append_left _
      inProgress := by
        have hprogress := h.inProgress
        simp only [List.append_assoc] at hprogress ⊢
        exact hprogress.trans (((perm_move hguard.2).append_left _).append_left _) }

theorem finishECStripe {t : Name} (hs : next conf clock concurrentNum s (.finishECStripe t) = some s') :
    s'.Inv conf clock concurrentNum := by
  rw [next] at hs
  split_ifs at hs with ht
  cases hs
  have hle : (s.ecInProgress.erase t).length ≤ s.ecInProgress.length := List.length_erase_le
  exact
    { h with
      encoded := h.encoded.trans (perm_move ht)
      inProgress := perm_erase_append h.inProgress ht
      bounded := hle.trans h.bounded
      counts := h.counts.mono hle }

/-! ### The queue -/

theorem addEncodeCandidate (hs : next conf clock concurrentNum s .addEncodeCandidate = some s') :
    s'.Inv conf clock concurrentNum := by
  rw [next] at hs
  split at hs
  · rename_i t rest hadding
    split_ifs at hs
    cases hs
    have horder := h.order
    rw [hadding] at horder
    exact
      { h with
        order := by simpa using horder }
  · cases hs

theorem withScan (pc : EncodePc) (hheld : pc.held = s.scan.held) (hentered : pc.entered = s.scan.entered)
    (hcounts : pc.Counts concurrentNum s.ecInProgress.length) :
    ({ s with scan := pc } : EncodeState).Inv conf clock concurrentNum :=
  { h with
    order := by
      dsimp only
      rw [hheld]
      exact h.order
    inProgress := by
      dsimp only
      rw [hentered]
      exact h.inProgress
    counts := hcounts }

theorem wakeUp (hs : next conf clock concurrentNum s .wakeUp = some s') : s'.Inv conf clock concurrentNum := by
  rw [next] at hs
  split at hs
  · rename_i hscan
    split_ifs at hs
    cases hs
    exact h.withScan .awake (by rw [hscan]; rfl) (by rw [hscan]; rfl) trivial
  · cases hs

theorem lockPECQueue (hs : next conf clock concurrentNum s .lockPECQueue = some s') :
    s'.Inv conf clock concurrentNum := by
  rw [next] at hs
  split at hs
  · rename_i hscan
    cases hs
    exact h.withScan .locked (by rw [hscan]; rfl) (by rw [hscan]; rfl) trivial
  · cases hs

theorem getECInProgressNum (hs : next conf clock concurrentNum s .getECInProgressNum = some s') :
    s'.Inv conf clock concurrentNum := by
  rw [next] at hs
  split at hs
  · rename_i hscan
    cases hs
    exact h.withScan (.counted s.ecInProgress.length) (by rw [hscan]; rfl) (by rw [hscan]; rfl)
      (le_refl s.ecInProgress.length)
  · cases hs

theorem unlockPECQueue (hs : next conf clock concurrentNum s .unlockPECQueue = some s') :
    s'.Inv conf clock concurrentNum := by
  rw [next] at hs
  split at hs
  · rename_i num hscan
    split_ifs at hs
    cases hs
    exact h.withScan .sleeping (by rw [hscan]; rfl) (by rw [hscan]; rfl) trivial
  · cases hs

theorem pop (hs : next conf clock concurrentNum s .pop = some s') : s'.Inv conf clock concurrentNum := by
  rw [next] at hs
  split at hs
  · rename_i num t rest hscan hqueue
    split_ifs at hs with hlt
    cases hs
    have horder := h.order
    have hprogress := h.inProgress
    have hcounts := h.counts
    rw [hscan] at horder hprogress hcounts
    rw [hqueue] at horder
    exact
      { h with
        order := horder
        inProgress := hprogress
        counts := lt_of_le_of_lt hcounts hlt }
  · cases hs

theorem startECStripe (hs : next conf clock concurrentNum s .startECStripe = some s') :
    s'.Inv conf clock concurrentNum := by
  rw [next] at hs
  split at hs
  · rename_i t hscan
    cases hs
    have horder := h.order
    have hprogress := h.inProgress
    have hcounts : s.ecInProgress.length < concurrentNum := by
      have hcounts := h.counts
      rwa [hscan] at hcounts
    rw [hscan] at horder hprogress
    exact
      { h with
        order := horder
        inProgress := (List.perm_append_singleton t _).trans (hprogress.cons t)
        bounded := by
          rw [List.length_append]
          exact hcounts
        counts := trivial }
  · cases hs

theorem sendTo (hs : next conf clock concurrentNum s .sendTo = some s') : s'.Inv conf clock concurrentNum := by
  rw [next] at hs
  split at hs
  · rename_i t hscan
    cases hs
    have horder := h.order
    have hprogress := h.inProgress
    rw [hscan] at horder hprogress
    exact
      { h with
        order := by simpa [EncodePc.held] using horder
        inProgress := by
          refine hprogress.trans (.append_right _ ?_)
          change ([t] ++ (s.requests ++ s.encoding)).Perm ((s.requests ++ [t]) ++ s.encoding)
          rw [← List.append_assoc]
          exact List.perm_append_comm.append_right _
        counts := trivial }
  · cases hs

theorem step {l : EncodeStep} (hs : next conf clock concurrentNum s l = some s') :
    s'.Inv conf clock concurrentNum := by
  cases l with
  | registerOfflineEC clientIp f filesizeMB picks => exact h.registerOfflineEC hs
  | finalizeFile f => exact h.finalizeFile hs
  | addEncodeCandidate => exact h.addEncodeCandidate hs
  | setECStatus op =>
    cases hs
    exact { h with }
  | wakeUp => exact h.wakeUp hs
  | lockPECQueue => exact h.lockPECQueue hs
  | getECInProgressNum => exact h.getECInProgressNum hs
  | pop => exact h.pop hs
  | startECStripe => exact h.startECStripe hs
  | sendTo => exact h.sendTo hs
  | unlockPECQueue => exact h.unlockPECQueue hs
  | takeCommand => exact h.takeCommand hs
  | offlineEnc t picks => exact h.offlineEnc hs
  | finishECStripe t => exact h.finishECStripe hs

/-- A stripe that a thread is about to encode waits in the queue of the pool. -/
theorem mem_pendingECQueue (hclock : StrictMono clock) {t : Name} (ht : t ∈ s.encoding) :
    t ∈ s.run.pendingECQueue := by
  have hinv := PoolRun.inv_of_reachable hclock h.run
  have hpos : 0 < s.encoding.count t := List.count_pos_iff.mpr ht
  have hcand : s.run.candidates.count t = s.run.pendingECQueue.count t + s.run.encoded.count t := by
    rw [hinv.pending.count_eq, List.count_append]
  have htaken : s.taken.count t = s.encoding.count t + s.run.encoded.count t := by
    rw [h.taken.count_eq, List.count_append]
  rw [h.order, List.count_append] at hcand
  exact List.count_pos_iff.mp (by omega)

end Inv

theorem inv_of_reachable (h : (system conf clock concurrentNum).Reachable s) :
    s.Inv conf clock concurrentNum := by
  refine System.Reachable.invariant (fun s (hs : IsInitial s) ↦ hs.inv) (fun s l s' hinv hs ↦ ?_) h
  exact @Inv.step conf clock concurrentNum s s' hinv l hs

/-! ## Scheduling -/

/-- The stripes of a pool as they should be scheduled. -/
structure WellScheduled (concurrentNum : ℕ) (s : EncodeState) : Prop where
  /-- The commands are taken in the order in which the stripes were handed over. -/
  in_order : s.run.candidates = s.taken ++ (s.requests ++ (s.scan.held ++ (s.pendingECQueue ++ s.adding)))
  once : s.run.candidates.Nodup
  /-- What was taken is about to be encoded, or it has been encoded and is written or finished. -/
  accounted : s.taken.Perm (s.encoding ++ s.run.encoded) ∧ s.run.encoded.Perm (s.writing ++ s.finished)
  /-- A stripe is in progress until it is finished. -/
  in_progress : s.ecInProgress.Perm (s.scan.entered ++ (s.requests ++ (s.encoding ++ s.writing)))
  bounded : s.ecInProgress.length ≤ concurrentNum
  /-- The pool has what is about to be encoded in its queue. -/
  queued : ∀ t ∈ s.encoding, t ∈ s.run.pendingECQueue

theorem Inv.wellScheduled (h : s.Inv conf clock concurrentNum) (hclock : StrictMono clock) :
    s.WellScheduled concurrentNum where
  in_order := h.order
  once := (PoolRun.inv_of_reachable hclock h.run).nodup_candidates
  accounted := ⟨h.taken, h.encoded⟩
  in_progress := by
    have hprogress := h.inProgress
    simp only [List.append_assoc] at hprogress
    exact hprogress
  bounded := h.bounded
  queued _ ht := h.mem_pendingECQueue hclock ht

/-- Some steps of `scanning` send the command for the first stripe that waits. -/
def SendsFirst (conf : Config) (clock : ℕ → ℕ) (concurrentNum : ℕ) (s : EncodeState) : Prop :=
  ∃ ls s' t, (∀ l ∈ ls, l.IsScan) ∧ (system conf clock concurrentNum).run s ls = some s' ∧
    s'.requests = s.requests ++ [t] ∧ s.scan.held ++ s.pendingECQueue = t :: (s'.scan.held ++ s'.pendingECQueue)

theorem SendsFirst.of_next {l : EncodeStep} (hs : next conf clock concurrentNum s l = some s') (hl : l.IsScan)
    (hrequests : s'.requests = s.requests)
    (hwaiting : s'.scan.held ++ s'.pendingECQueue = s.scan.held ++ s.pendingECQueue)
    (h : s'.SendsFirst conf clock concurrentNum) : s.SendsFirst conf clock concurrentNum := by
  obtain ⟨ls, s'', t, hls, hrun, hsent, hfirst⟩ := h
  refine ⟨l :: ls, s'', t, List.forall_mem_cons.mpr ⟨hl, hls⟩, ?_, hrequests ▸ hsent, hwaiting ▸ hfirst⟩
  rw [System.run]
  exact Option.bind_eq_some_iff.mpr ⟨s', hs, hrun⟩

theorem sendsFirst_of_started {t : Name} (hscan : s.scan = .started t) : s.SendsFirst conf clock concurrentNum := by
  refine ⟨[.sendTo], { s with scan := .locked, requests := s.requests ++ [t] }, t, by simp [EncodeStep.IsScan], ?_,
    rfl, ?_⟩
  · simp [System.run, system, next, hscan]
  · rw [hscan]
    rfl

theorem sendsFirst_of_popped {t : Name} (hscan : s.scan = .popped t) : s.SendsFirst conf clock concurrentNum := by
  have hs : next conf clock concurrentNum s .startECStripe =
      some { s with scan := .started t, ecInProgress := s.ecInProgress ++ [t] } := by
    rw [next, hscan]
  exact .of_next hs trivial rfl (by rw [hscan]; rfl) (sendsFirst_of_started rfl)

theorem sendsFirst_of_counted {num : ℕ} (hscan : s.scan = .counted num) (hlt : num < concurrentNum)
    (hqueue : s.pendingECQueue ≠ []) : s.SendsFirst conf clock concurrentNum := by
  obtain ⟨t, rest, hqueue⟩ := List.exists_cons_of_ne_nil hqueue
  have hs : next conf clock concurrentNum s .pop =
      some { s with scan := .popped t, pendingECQueue := rest } := by
    rw [next, hscan, hqueue]
    exact if_pos hlt
  exact .of_next hs trivial rfl (by rw [hscan, hqueue]; rfl) (sendsFirst_of_popped rfl)

theorem sendsFirst_of_locked (hscan : s.scan = .locked) (hslot : s.ecInProgress.length < concurrentNum)
    (hqueue : s.pendingECQueue ≠ []) : s.SendsFirst conf clock concurrentNum := by
  have hs : next conf clock concurrentNum s .getECInProgressNum =
      some { s with scan := .counted s.ecInProgress.length } := by
    rw [next, hscan]
  exact .of_next hs trivial rfl (by rw [hscan]; rfl) (sendsFirst_of_counted rfl hslot hqueue)

theorem sendsFirst_of_awake (hscan : s.scan = .awake) (hslot : s.ecInProgress.length < concurrentNum)
    (hqueue : s.pendingECQueue ≠ []) : s.SendsFirst conf clock concurrentNum := by
  have hs : next conf clock concurrentNum s .lockPECQueue = some { s with scan := .locked } := by
    rw [next, hscan]
  exact .of_next hs trivial rfl (by rw [hscan]; rfl) (sendsFirst_of_locked rfl hslot hqueue)

theorem sendsFirst_of_sleeping (hscan : s.scan = .sleeping) (henable : s.enableScan = true)
    (hslot : s.ecInProgress.length < concurrentNum) (hqueue : s.pendingECQueue ≠ []) :
    s.SendsFirst conf clock concurrentNum := by
  have hs : next conf clock concurrentNum s .wakeUp = some { s with scan := .awake } := by
    rw [next, hscan]
    exact if_pos henable
  exact .of_next hs trivial rfl (by rw [hscan]; rfl) (sendsFirst_of_awake rfl hslot hqueue)

/-- **A free slot is used**, wherever `scanning` is. -/
theorem sendsFirst (henable : s.enableScan = true) (hslot : s.ecInProgress.length < concurrentNum)
    (hqueue : s.pendingECQueue ≠ []) : s.SendsFirst conf clock concurrentNum := by
  cases hscan : s.scan with
  | sleeping => exact sendsFirst_of_sleeping hscan henable hslot hqueue
  | awake => exact sendsFirst_of_awake hscan hslot hqueue
  | locked => exact sendsFirst_of_locked hscan hslot hqueue
  | counted num =>
    by_cases hlt : num < concurrentNum
    · exact sendsFirst_of_counted hscan hlt hqueue
    · -- Stripes were finished after the number was read; the next round reads a smaller one.
      have hs : next conf clock concurrentNum s .unlockPECQueue = some { s with scan := .sleeping } := by
        rw [next, hscan]
        exact if_pos (.inr (not_lt.mp hlt))
      exact .of_next hs trivial rfl (by rw [hscan]; rfl) (sendsFirst_of_sleeping rfl henable hslot hqueue)
  | popped t => exact sendsFirst_of_popped hscan
  | started t => exact sendsFirst_of_started hscan

/-- **Stripes are encoded in order, once, and not too many at a time.** Whatever the order is in which files are
registered and finalized, commands are sent and taken, and stripes are encoded and finished, the runs of the pool are
those of its requests, the stripes are scheduled as they should be, and a free slot goes to the stripe that has waited
longest. -/
theorem wellScheduled_of_reachable (hclock : StrictMono clock) (h : (system conf clock concurrentNum).Reachable s) :
    (PoolRun.system conf clock).Reachable s.run ∧ s.WellScheduled concurrentNum ∧
      (s.enableScan = true → s.ecInProgress.length < concurrentNum → s.pendingECQueue ≠ [] →
        s.SendsFirst conf clock concurrentNum) := by
  have hinv := inv_of_reachable h
  exact ⟨hinv.run, hinv.wellScheduled hclock, sendsFirst⟩

/-- A file of two objects is finalized, and its stripe is encoded. -/
theorem wellScheduled_twoObjects :
    ∃ s : EncodeState, s.run.candidates = [stripeName 0] ∧ s.finished = [stripeName 0] ∧ s.WellScheduled 1 := by
  let policy : ECPolicy := ⟨3, 2, 1, [], Nat.succ_pos 1, Nat.lt_succ_self 2⟩
  let conf : Config := ⟨[(['a'], 1), (['a'], 2), (['b'], 3), (['b'], 4)], false, true, 1⟩
  obtain ⟨s, hs, hq⟩ := System.Reachable.exists_of_run (S := system conf id 1)
    (s := ⟨⟨⟨∅, ∅⟩, .empty ['p'] policy 4, [], [], [], [], [], []⟩, [], false, [], [], .sleeping, [], [], [], [],
      []⟩)
    (.init ⟨_, ⟨_, _, _, _, rfl⟩, rfl⟩)
    [.registerOfflineEC 1 ['f'] 7 id, .finalizeFile ['f'], .addEncodeCandidate, .setECStatus true, .wakeUp,
      .lockPECQueue, .getECInProgressNum, .pop, .startECStripe, .sendTo, .takeCommand, .offlineEnc (stripeName 0) id,
      .getECInProgressNum, .unlockPECQueue, .finishECStripe (stripeName 0)]
    (p := fun s ↦ decide (s.run.candidates = [stripeName 0] ∧ s.finished = [stripeName 0])) (by decide +kernel)
  have hq := of_decide_eq_true hq
  exact ⟨s, hq.1, hq.2, (wellScheduled_of_reachable strictMono_id hs).2.1⟩

end EncodeState

end UniDedup.Storage
