import UniDedup.Node.Flow

/-!
# Contracts

A contract states what holds between two jobs, what holds during a backup of the shared state, the
segments in flight and the input, and which aborts are possible; its obligations are about the turns
of the coarse system only. `Contract.holds` carries a contract over to every interleaving of the
threads in every run.

A policy restricts the runs: which segments may be filtered in which state, and which deletions may be
asked for.
-/

namespace UniDedup.Node

open Outcome Transition

/-! ## Policies -/

/-- A restriction on the runs of a node. -/
structure Policy where
  /-- The segments that may be filtered. -/
  filter : Core → List Chunk → Prop
  delete : Client → Disk → ℕ → Prop

namespace Policy

def any : Policy := ⟨fun _ _ ↦ True, fun _ _ _ ↦ True⟩

/-- The versions are deleted in the order they were made. -/
def fifo : Policy := ⟨fun _ _ ↦ True, fun cl _ jobid ↦ jobid = cl.deletions⟩

def backupsOnly : Policy := ⟨fun _ _ ↦ True, fun _ _ _ ↦ False⟩

def Allows (π : Policy) (s : State) (l : Label) : Prop :=
  match s.node, l with
  | .idle d, .delete jobid => π.delete s.client d jobid
  | .running j, .filter =>
    match j.filter with
    | .ready cs => π.filter j.core cs
    | _ => True
  | _, _ => True

theorem allows_any (s : State) (l : Label) : any.Allows s l := by
  unfold Allows any
  split
  · trivial
  · split <;> trivial
  · trivial

instance (π : Policy) [∀ core cs, Decidable (π.filter core cs)]
    [∀ cl d jobid, Decidable (π.delete cl d jobid)] : DecidableRel π.Allows := fun s l ↦ by
  unfold Allows
  split
  · infer_instance
  · split <;> infer_instance
  · infer_instance

instance (cl : Client) (d : Disk) (jobid : ℕ) : Decidable (fifo.delete cl d jobid) :=
  inferInstanceAs (Decidable (_ = _))

instance (core : Core) (cs : List Chunk) : Decidable (fifo.filter core cs) :=
  inferInstanceAs (Decidable True)

instance (cl : Client) (d : Disk) (jobid : ℕ) : Decidable (backupsOnly.delete cl d jobid) :=
  inferInstanceAs (Decidable False)

instance (core : Core) (cs : List Chunk) : Decidable (backupsOnly.filter core cs) :=
  inferInstanceAs (Decidable True)

end Policy

/-! ## The steps of a node -/

section Steps

variable {cfg : Config} {sha1 : Bytes → Fingerprint} {queueSize : ℕ} {s s' : State} {l : Label}

theorem node_next_cases (h : (node cfg sha1 queueSize).next s l = some s') :
    (∃ d files, s.node = .idle d ∧ l = .backup files ∧
      s' = ⟨{ s.client with sent := files :: s.client.sent },
        .running (.init cfg d (stream sha1 files))⟩) ∨
    (∃ d jobid d', s.node = .idle d ∧ l = .delete jobid ∧ doDelete cfg d jobid = .ok d' ∧
      s' = ⟨{ s.client with deletions := s.client.deletions + 1 }, .idle d'⟩) ∨
    (∃ d jobid e, s.node = .idle d ∧ l = .delete jobid ∧ doDelete cfg d jobid = .error e ∧
      s' = ⟨s.client, .aborted (.delete e)⟩) ∨
    (∃ j d, s.node = .running j ∧ l = .finish ∧ j.finish cfg = some d ∧ s' = ⟨s.client, .idle d⟩) ∨
    (∃ j r, s.node = .running j ∧ jobStep cfg queueSize j l = some r ∧
      s' = ⟨s.client, .ofJob r⟩) := by
  simp only [node] at h
  split at h
  · rename_i d hn
    split at h
    · rename_i files
      cases h
      exact .inl ⟨d, files, hn, rfl, rfl⟩
    · rename_i jobid
      split at h
      · rename_i d' hd
        cases h
        exact .inr (.inl ⟨d, jobid, d', hn, rfl, hd, rfl⟩)
      · rename_i e hd
        cases h
        exact .inr (.inr (.inl ⟨d, jobid, e, hn, rfl, hd, rfl⟩))
    · cases h
  · rename_i j hn
    split at h
    · obtain ⟨d, hd, rfl⟩ := Option.map_eq_some_iff.mp h
      exact .inr (.inr (.inr (.inl ⟨j, d, hn, rfl, hd, rfl⟩)))
    · obtain ⟨r, hr, rfl⟩ := Option.map_eq_some_iff.mp h
      exact .inr (.inr (.inr (.inr ⟨j, r, hn, hr, rfl⟩)))
  · cases h

theorem Job.finish_eq_some {j : Job} {d : Disk} (h : j.finish cfg = some d) :
    j.filter = .done ∧ j.core.storage.queue = [] ∧ d = j.core.close cfg := by
  unfold finish at h
  split at h
  · rename_i hf
    split_ifs at h with hq
    exact ⟨hf, hq, (Option.some.inj h).symm⟩
  · cases h

theorem stream_plain {files : List File} {c : Chunk} (h : c ∈ stream sha1 files) :
    c.kind ≠ .segmentStart ∧ c.kind ≠ .segmentEnd := by
  obtain ⟨f, -, hc⟩ := List.mem_flatMap.mp h
  simp only [File.stream, List.cons_append, List.mem_cons, List.mem_append, List.mem_map,
    List.not_mem_nil, or_false] at hc
  rcases hc with rfl | ⟨d, -, rfl⟩ | rfl <;> simp [Chunk.new, Chunk.hashed]

end Steps

/-! ## Contracts -/

/-- A contract between the operations on the shared state and the system. -/
structure Contract (cfg : Config) (sha1 : Bytes → Fingerprint) (π : Policy) where
  idle : Client → Disk → Prop
  busy : Client → Flight → Prop
  abort : Abort → Prop
  start : idle ⟨[], 0⟩ .empty
  backup : ∀ cl d files, idle cl d →
    busy { cl with sent := files :: cl.sent } ⟨.init cfg d, [], stream sha1 files⟩
  turn : ∀ cl x r, busy cl x → Turn cfg π.filter x r → Post r (busy cl) abort
  finish : ∀ cl core, busy cl ⟨core, [], []⟩ → core.storage.queue = [] →
    (∀ con ∈ core.containerBuffer, con.isEmpty = true) → idle cl (core.close cfg)
  delete : ∀ cl d jobid, idle cl d → π.delete cl d jobid →
    Post (doDelete cfg d jobid) (idle { cl with deletions := cl.deletions + 1 })
      fun e ↦ abort (.delete e)

namespace Contract

variable {cfg : Config} {sha1 : Bytes → Fingerprint} {π : Policy} {queueSize : ℕ}

/-- What a contract says of a state of the system. -/
def At (K : Contract cfg sha1 π) (s : State) : Prop :=
  match s.node with
  | .idle d => K.idle s.client d
  | .running j => ∃ x, j.Flows cfg x ∧ K.busy s.client x
  | .aborted e => K.abort e

theorem at_idle {K : Contract cfg sha1 π} {s : State} {d : Disk} (h : K.At s)
    (hn : s.node = .idle d) : K.idle s.client d := by
  simpa [At, hn] using h

theorem at_running {K : Contract cfg sha1 π} {s : State} {j : Job} (h : K.At s)
    (hn : s.node = .running j) : ∃ x, j.Flows cfg x ∧ K.busy s.client x := by
  simpa [At, hn] using h

theorem at_aborted {K : Contract cfg sha1 π} {s : State} {e : Abort} (h : K.At s)
    (hn : s.node = .aborted e) : K.abort e := by
  simpa [At, hn] using h

theorem at_next (K : Contract cfg sha1 π) {s s' : State} {l : Label} (hs : K.At s)
    (ha : π.Allows s l) (h : (node cfg sha1 queueSize).next s l = some s') : K.At s' := by
  obtain ⟨d, files, hn, rfl, rfl⟩ | ⟨d, jobid, d', hn, rfl, hd, rfl⟩ |
    ⟨d, jobid, e, hn, rfl, hd, rfl⟩ | ⟨j, d, hn, rfl, hd, rfl⟩ | ⟨j, r, hn, hr, rfl⟩ :=
    node_next_cases h
  · exact ⟨_, Job.flows_init fun c hc ↦ stream_plain hc, K.backup _ d files (at_idle hs hn)⟩
  · have hdel : π.delete s.client d jobid := by simpa [Policy.Allows, hn] using ha
    exact (K.delete _ d jobid (at_idle hs hn) hdel).ok hd
  · have hdel : π.delete s.client d jobid := by simpa [Policy.Allows, hn] using ha
    exact (K.delete _ d jobid (at_idle hs hn) hdel).error hd
  · obtain ⟨x, hf, hb⟩ := at_running hs hn
    obtain ⟨hdone, hq, rfl⟩ := Job.finish_eq_some hd
    obtain ⟨hitems, hterm, hempty⟩ := hf.done hdone
    obtain ⟨hflow, hrest⟩ := hf.drained hitems hterm
    obtain ⟨core, segs, rest⟩ := x
    obtain rfl : core = j.core := hf.core
    obtain rfl : rest = [] := hrest
    obtain rfl : segs = [] := by
      have hstream := hf.stream
      rw [hflow, hdone, FilterState.taken] at hstream
      cases segs with
      | nil => rfl
      | cons t segs' => cases hstream
    exact K.finish _ j.core hb hq hempty
  · obtain ⟨x, hf, hb⟩ := at_running hs hn
    have hallow : l = .filter → ∀ cs, j.filter = .ready cs → π.filter j.core cs := by
      rintro rfl cs hcs
      simpa [Policy.Allows, hn, hcs] using ha
    obtain ⟨r', hturn, hmatch⟩ := Job.jobStep_turn hf hallow hr
    have hpost := K.turn _ x r' hb hturn
    cases r with
    | ok j' =>
      cases r' with
      | ok x' => exact ⟨x', hmatch, hpost⟩
      | error e' => exact hmatch.elim
    | error e =>
      cases r' with
      | ok x' => exact hmatch.elim
      | error e' =>
        obtain rfl : e = e' := hmatch
        exact hpost

/-- **A contract holds in every state of every run the policy allows.** -/
theorem holds (K : Contract cfg sha1 π) {s : State}
    (h : (node cfg sha1 queueSize).Reach π.Allows s) : K.At s := by
  refine System.Reach.invariant (P := K.At) ?_ (fun s l s' hs ha hn ↦ K.at_next hs ha hn) h
  rintro s rfl
  exact K.start

theorem holds_reachable (K : Contract cfg sha1 .any) {s : State}
    (h : (node cfg sha1 queueSize).Reachable s) : K.At s :=
  K.holds (h.reach (P := fun _ ↦ True) (fun _ _ ↦ trivial) fun t l _ ↦ Policy.allows_any t l)

end Contract

/-! ## Sample runs -/

/-- The SHA-1 digests of `"abc"` and of `"a"`, the chunks of the sample runs. -/
def sampleSha1 (d : Bytes) : Fingerprint :=
  if d = [0x61, 0x62, 0x63] then
    ⟨[0xa9, 0x99, 0x3e, 0x36, 0x47, 0x06, 0x81, 0x6a, 0xba, 0x3e, 0x25, 0x71, 0x78, 0x50, 0xc2, 0x6c,
      0x9c, 0xd0, 0xd8, 0x9d], rfl⟩
  else
    ⟨[0x86, 0xf7, 0xe4, 0x37, 0xfa, 0xa5, 0xa7, 0xfc, 0xe1, 0x5d, 0x1d, 0xdc, 0xb9, 0xea, 0xea, 0xea,
      0x37, 0x76, 0x67, 0xb8], rfl⟩

/-- One file whose first chunk comes again as its last. -/
def sampleFiles : List File := [⟨[0x66], [[0x61, 0x62, 0x63], [0x61], [0x61, 0x62, 0x63]]⟩]

/-- A schedule for a backup in which each thread finishes before the next one starts. -/
def turns (dedup rewrite filter append : ℕ) : List Label :=
  List.replicate dedup .dedup ++ List.replicate rewrite (.rewrite false) ++
    List.replicate filter .filter ++ List.replicate append .append ++ [.finish]

def State.start : State := ⟨⟨[], 0⟩, .idle .empty⟩

def NodeState.isIdle : NodeState → Bool
  | .idle _ => true
  | _ => false

theorem NodeState.exists_of_isIdle {n : NodeState} (h : n.isIdle = true) : ∃ d, n = .idle d := by
  cases n with
  | idle d => exact ⟨d, rfl⟩
  | running j => cases h
  | aborted e => cases h

/-- The disk between two jobs passes a test. -/
def NodeState.testDisk (p : Disk → Bool) : NodeState → Bool
  | .idle d => p d
  | _ => false

theorem NodeState.exists_of_testDisk {p : Disk → Bool} {n : NodeState} (h : n.testDisk p = true) :
    ∃ d, n = .idle d ∧ p d = true := by
  cases n with
  | idle d => exact ⟨d, rfl, h⟩
  | running j => cases h
  | aborted e => cases h

end UniDedup.Node
