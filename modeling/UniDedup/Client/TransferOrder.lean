import UniDedup.Client.Transfer
import Mathlib.Algebra.BigOperators.Fin
import Mathlib.Data.List.Nodup

/-!
# What the node stores

The invariant of the transfer protocol under the order condition. The lists are described completely
by the history: `destor_request` holds the commands issued and not yet popped, and
`<group>_data_<i>` holds packet `i` of those writes of the group that have pushed it and whose
packet `i` the node has not popped, in the order of their commands.

From it follow, for every run that meets the condition, that each processed command stored exactly
the bytes of its issuer and that no packet of a processed command is left. Without any condition,
for distinct group names, the same holds, every run ends, and it ends with every group stored.

## The invariant

`TransferInv` is proved from what one step can do (`transferSystem_next_cases`): a client pushes a command or a
packet, the node pops one. The order condition is needed at one of the steps only, the push of a packet, and there
only to know that the packet lands behind those of earlier commands. That every run ends is shown by a measure, the
work left (`workLeft`).
-/

namespace UniDedup.Client

open Decimal Transition

variable {n : ℕ} {jobs : Fin n → List Write} {st st' : Transfer n}

/-- The number of packets of its group `index`, of the given size, that a client has pushed. -/
def ClientState.pushed (s : ClientState) (size index : ℕ) : ℕ :=
  if index < s.pos then pktNum size
  else if index = s.pos then
    match s.phase with
    | .command => 0
    | .send k _ => k
    | .wait => pktNum size
  else 0

/-- A client has pushed the command of its group `index`. -/
def ClientState.Started (s : ClientState) (index : ℕ) : Prop :=
  index < s.pos ∨ index = s.pos ∧ s.phase ≠ .command

namespace Transfer

/-- The number of packets of a write that its client has pushed. -/
def pushed (st : Transfer n) (t : Ticket n) : ℕ :=
  (st.clients t.client).pushed t.write.size t.index

/-- The client has pushed the command of the write. -/
def Started (st : Transfer n) (t : Ticket n) : Prop := (st.clients t.client).Started t.index

/-- The client has seen the token for the write. -/
def Left (st : Transfer n) (t : Ticket n) : Prop := t.index < (st.clients t.client).pos

instance (st : Transfer n) (t : Ticket n) : Decidable (st.Left t) :=
  inferInstanceAs (Decidable (_ < _))

/-- The writes issued and not yet stored. -/
def pending (st : Transfer n) : List (Ticket n) := st.issued.drop st.log.length

/-- The number of packets of a write that the node has popped, while the write is pending. -/
def popped (st : Transfer n) (t : Ticket n) : ℕ :=
  match st.node with
  | .idle => 0
  | .reading _ _ t' i _ => if t' = t then i else 0

/-- Packet `i` of the write is on its way on the list of group `g`. -/
def InFlight (st : Transfer n) (g : Name) (i : ℕ) (t : Ticket n) : Prop :=
  t.write.groupName = g ∧ st.popped t ≤ i ∧ i < st.pushed t

instance (st : Transfer n) (g : Name) (i : ℕ) (t : Ticket n) : Decidable (st.InFlight g i t) :=
  inferInstanceAs (Decidable (_ ∧ _ ∧ _))

end Transfer

/-- The write and the index of the packet a client is about to push. -/
def nextPacket (jobs : Fin n → List Write) (st : Transfer n) (c : Fin n) :
    Option (Ticket n × ℕ) := do
  let w ← (jobs c)[(st.clients c).pos]?
  match (st.clients c).phase with
  | .send k written => if written < w.size then some (⟨c, (st.clients c).pos, w⟩, k) else none
  | _ => none

/-- **The order condition** on a step: when a client is about to push packet `k` of a group, every
write of the same group name whose command was pushed before its own has already pushed its packet
`k`, or has no such packet. -/
def InOrder (jobs : Fin n → List Write) (st : Transfer n) : Mover n → Prop
  | .node => True
  | .client c => ∀ p ∈ nextPacket jobs st c, ∀ t₀ ∈ st.issued, [t₀, p.1].Sublist st.issued →
      t₀.write.groupName = p.1.write.groupName →
        p.2 < st.pushed t₀ ∨ pktNum t₀.write.size ≤ p.2

instance (jobs : Fin n → List Write) (st : Transfer n) (m : Mover n) :
    Decidable (InOrder jobs st m) :=
  match m with
  | .node => inferInstanceAs (Decidable True)
  | .client c => inferInstanceAs (Decidable (∀ p ∈ nextPacket jobs st c, ∀ t₀ ∈ st.issued, _ → _ → _))

/-- The command of a write, as it travels. -/
def commandItem (t : Ticket n) : Item n := ⟨.command t.write.groupName t.write.size, t⟩

/-- Packet `i` of a write, as it travels. -/
def packetItem (i : ℕ) (t : Ticket n) : Item n :=
  ⟨.packet (clientPacket t.write.data (writtenAfter t.write.size i)), t⟩

/-- What the node holds: nothing between two commands, or the first blocks of the first pending
write. -/
def NodeInv (st : Transfer n) : Prop :=
  match st.node with
  | .idle => st.lists requestKey = st.pending.map commandItem
  | .reading g size t i blocks => ∃ rest, st.pending = t :: rest ∧
      st.lists requestKey = rest.map commandItem ∧ g = t.write.groupName ∧ size = t.write.size ∧
      i ≤ pktNum t.write.size ∧ i ≤ st.pushed t ∧ blocks = (List.range i).map (blockAt t.write.data)

/-- The invariant of the commands and packets on their way. -/
structure QueueInv (st : Transfer n) : Prop where
  nodup : st.issued.Nodup
  log_tickets : st.log.map Stored.ticket = st.issued.take st.log.length
  log_pushed : ∀ e ∈ st.log, st.pushed e.ticket = pktNum e.ticket.write.size
  log_blocks : ∀ e ∈ st.log, e.groupName = e.ticket.write.groupName ∧
    e.size = e.ticket.write.size ∧
    e.blocks = (List.range (pktNum e.ticket.write.size)).map (blockAt e.ticket.write.data)
  node : NodeInv st
  data : ∀ g i, st.lists (clientDataKey g i) =
    (st.pending.filter (st.InFlight g i ·)).map (packetItem i)
  order : st.issued.Pairwise fun t₀ t ↦ t₀.write.groupName = t.write.groupName →
    ∀ i < st.pushed t, i < st.pushed t₀ ∨ pktNum t₀.write.size ≤ i

/-- The invariant of the system: where the clients are, what is on its way, and one token for each
stored group that a client has not yet taken. -/
structure TransferInv (jobs : Fin n → List Write) (st : Transfer n) : Prop where
  sending : ∀ c k written, (st.clients c).phase = .send k written →
    ∃ w, (jobs c)[(st.clients c).pos]? = some w ∧ k ≤ pktNum w.size ∧
      written = writtenAfter w.size k
  mem_issued : ∀ t, t ∈ st.issued ↔ (jobs t.client)[t.index]? = some t.write ∧ st.Started t
  queues : QueueInv st
  tokens : ∀ g, (st.lists (finishedKey g)).length +
      st.issued.countP (fun t ↦ t.write.groupName = g ∧ st.Left t) =
    st.log.countP (fun e ↦ e.groupName = g)

/-! ## Lists -/

/-- Appending to a filtered list: the test starts to hold for one more element, and for no element
behind it. -/
private theorem filter_eq_append_singleton {α : Type*} {p q : α → Bool} {l : List α} {a : α}
    (hnodup : l.Nodup) (ha : a ∈ l) (hpa : p a = false) (hqa : q a = true)
    (hsame : ∀ x ∈ l, x ≠ a → q x = p x) (hafter : ∀ x, [a, x].Sublist l → p x = false) :
    l.filter q = l.filter p ++ [a] := by
  obtain ⟨l₁, l₂, rfl⟩ := List.append_of_mem ha
  have hmid := List.nodup_middle.mp hnodup
  rw [List.nodup_cons, List.mem_append, not_or] at hmid
  have h₁ : l₁.filter q = l₁.filter p := List.filter_congr fun x hx ↦
    hsame x (by simp [hx]) fun heq ↦ hmid.1.1 (heq ▸ hx)
  have hsub : ∀ x ∈ l₂, [a, x].Sublist (l₁ ++ a :: l₂) := fun x hx ↦
    ((List.singleton_sublist.mpr hx).cons_cons a).trans (List.sublist_append_right l₁ _)
  have h₂p : l₂.filter p = [] := List.filter_eq_nil_iff.mpr fun x hx ↦ by
    simp [hafter x (hsub x hx)]
  have h₂q : l₂.filter q = [] := by
    rw [← h₂p]
    exact List.filter_congr fun x hx ↦ hsame x (by simp [hx]) fun heq ↦ hmid.1.2 (heq ▸ hx)
  simp [List.filter_append, hpa, hqa, h₁, h₂p, h₂q]

/-- Counting in a list without repetition: the test starts to hold for one more element. -/
private theorem countP_eq_add_one {α : Type*} {p q : α → Bool} {l : List α} {a : α}
    (hnodup : l.Nodup) (ha : a ∈ l) (hpa : p a = false) (hqa : q a = true)
    (hsame : ∀ x ∈ l, x ≠ a → q x = p x) : l.countP q = l.countP p + 1 := by
  obtain ⟨l₁, l₂, rfl⟩ := List.append_of_mem ha
  have hmid := List.nodup_middle.mp hnodup
  rw [List.nodup_cons, List.mem_append, not_or] at hmid
  have h₁ : l₁.countP q = l₁.countP p := List.countP_congr fun x hx ↦ by
    rw [hsame x (by simp [hx]) fun heq ↦ hmid.1.1 (heq ▸ hx)]
  have h₂ : l₂.countP q = l₂.countP p := List.countP_congr fun x hx ↦ by
    rw [hsame x (by simp [hx]) fun heq ↦ hmid.1.2 (heq ▸ hx)]
  simp [List.countP_append, hpa, hqa, h₁, h₂]
  omega

/-! ## What a step can do -/

namespace Transfer

variable {c : Fin n} {s : ClientState} {k : Name} {x : Item n} {t : Ticket n}

theorem lists_rpush (st : Transfer n) (k k' : Name) (x : Item n) :
    (st.rpush k x).lists k' = if k' = k then st.lists k ++ [x] else st.lists k' := by
  by_cases h : k' = k
  · subst h
    simp [rpush]
  · simp [rpush, h]

theorem lists_lpop (st : Transfer n) (k k' : Name) :
    (st.lpop k).lists k' = if k' = k then (st.lists k).tail else st.lists k' := by
  by_cases h : k' = k
  · subst h
    simp [lpop]
  · simp [lpop, h]

theorem clients_setClient (st : Transfer n) (c c' : Fin n) (s : ClientState) :
    (st.setClient c s).clients c' = if c' = c then s else st.clients c' := by
  by_cases h : c' = c
  · subst h
    simp [setClient]
  · simp [setClient, h]

end Transfer

/-- Everything a step can do: a client issues a command, pushes a packet, leaves the send loop or
takes its token; the node pops a command, pops a packet or finishes. -/
theorem transferSystem_next_cases {m : Mover n} (h : (transferSystem jobs).next st m = some st') :
    (∃ c w, m = .client c ∧ (jobs c)[(st.clients c).pos]? = some w ∧
      let s := st.clients c
      let t : Ticket n := ⟨c, s.pos, w⟩
      (s.phase = .command ∧ st' = { (st.rpush requestKey (commandItem t)).setClient c
          { s with phase := .send 0 0 } with issued := st.issued ++ [t] }) ∨
      (∃ k written, s.phase = .send k written ∧ written < w.size ∧
        st' = (st.rpush (clientDataKey w.groupName k)
          ⟨.packet (clientPacket w.data written), t⟩).setClient c
          { s with phase := .send (k + 1) (written + thisTimeSize w.size written) }) ∨
      (∃ k written, s.phase = .send k written ∧ ¬ written < w.size ∧
        st' = st.setClient c { s with phase := .wait }) ∨
      (s.phase = .wait ∧ st.lists (finishedKey w.groupName) ≠ [] ∧
        st' = (st.lpop (finishedKey w.groupName)).setClient c ⟨s.pos + 1, .command⟩)) ∨
    (m = .node ∧
      ((st.node = .idle ∧ ∃ g size t rest,
          st.lists requestKey = ⟨.command g size, t⟩ :: rest ∧
          st' = { st.lpop requestKey with node := .reading g size t 0 [] }) ∨
      (∃ g size t i blocks, st.node = .reading g size t i blocks ∧
        ((i < pktNum size ∧ ∃ pkt t' rest,
            st.lists (nodeDataKey g i) = ⟨.packet pkt, t'⟩ :: rest ∧
            st' = { st.lpop (nodeDataKey g i) with
              node := .reading g size t (i + 1) (blocks ++ [nodeBlock pkt]) }) ∨
          (¬ i < pktNum size ∧ st' = { st.rpush (finishedKey g) ⟨.token, t⟩ with
              node := .idle, log := st.log ++ [⟨g, size, t, blocks⟩] }))))) := by
  cases m with
  | client c =>
    left
    obtain ⟨w, hw, hstep⟩ := Option.bind_eq_some_iff.mp h
    refine ⟨c, w, rfl, hw, ?_⟩
    simp only [Transfer.clientStep] at hstep
    split at hstep
    next hphase =>
      exact Or.inl ⟨hphase, (Option.some.inj hstep).symm⟩
    next k written hphase =>
      split at hstep
      next hlt => exact Or.inr (Or.inl ⟨k, written, hphase, hlt, (Option.some.inj hstep).symm⟩)
      next hge =>
        exact Or.inr (Or.inr (Or.inl ⟨k, written, hphase, hge, (Option.some.inj hstep).symm⟩))
    next hphase =>
      split at hstep
      next => cases hstep
      next hlist =>
        refine Or.inr (Or.inr (Or.inr ⟨hphase, ?_, (Option.some.inj hstep).symm⟩))
        simp [hlist]
  | node =>
    right
    refine ⟨rfl, ?_⟩
    simp only [transferSystem, Transfer.nodeStep] at h
    split at h
    next hidle =>
      split at h
      next g size t rest hlist =>
        exact Or.inl ⟨hidle, g, size, t, rest, hlist, (Option.some.inj h).symm⟩
      next => cases h
    next g size t i blocks hnode =>
      refine Or.inr ⟨g, size, t, i, blocks, hnode, ?_⟩
      split at h
      next hlt =>
        split at h
        next pkt t' rest hlist =>
          exact Or.inl ⟨hlt, pkt, t', rest, hlist, (Option.some.inj h).symm⟩
        next => cases h
      next hge => exact Or.inr ⟨hge, (Option.some.inj h).symm⟩

/-! ## The invariant is kept -/

theorem QueueInv.log_length_le (h : QueueInv st) : st.log.length ≤ st.issued.length := by
  have := congrArg List.length h.log_tickets
  rw [List.length_map, List.length_take] at this
  omega

theorem QueueInv.mem_issued_of_mem_log (h : QueueInv st) {e : Stored n} (he : e ∈ st.log) :
    e.ticket ∈ st.issued := by
  have : e.ticket ∈ st.issued.take st.log.length := h.log_tickets ▸ List.mem_map_of_mem he
  exact List.mem_of_mem_take this

theorem mem_issued_of_mem_pending {t : Ticket n} (ht : t ∈ st.pending) : t ∈ st.issued :=
  List.mem_of_mem_drop ht

theorem inFlight_congr {g : Name} {i : ℕ} {t : Ticket n} (hpopped : st'.popped t = st.popped t)
    (hpushed : st'.pushed t = st.pushed t) :
    decide (st'.InFlight g i t) = decide (st.InFlight g i t) := by
  rw [decide_eq_decide, Transfer.InFlight, Transfer.InFlight, hpopped, hpushed]

theorem countP_left_congr {l : List (Ticket n)} (h : ∀ t ∈ l, (st'.Left t ↔ st.Left t)) (g : Name) :
    l.countP (fun t ↦ t.write.groupName = g ∧ st'.Left t) =
      l.countP (fun t ↦ t.write.groupName = g ∧ st.Left t) :=
  List.countP_congr fun t ht ↦ by simp [h t ht]

theorem left_congr_of_clients (hclients : st'.clients = st.clients) (t : Ticket n) :
    st'.Left t ↔ st.Left t := by
  rw [Transfer.Left, hclients]
  rfl

/-- A step that changes neither the queues of commands and packets nor the progress of issued writes
keeps the queue invariant. -/
theorem QueueInv.frame (h : QueueInv st) (hissued : st'.issued = st.issued)
    (hlog : st'.log = st.log) (hnode : st'.node = st.node)
    (hpushed : ∀ t ∈ st.issued, st'.pushed t = st.pushed t)
    (hdata : ∀ g i, st'.lists (clientDataKey g i) = st.lists (clientDataKey g i))
    (hrequest : st'.lists requestKey = st.lists requestKey) : QueueInv st' := by
  have hpending : st'.pending = st.pending := by rw [Transfer.pending, hissued, hlog]; rfl
  refine ⟨hissued ▸ h.nodup, by rw [hlog, hissued]; exact h.log_tickets, ?_, ?_, ?_, ?_, ?_⟩
  · intro e he
    rw [hlog] at he
    rw [hpushed _ (h.mem_issued_of_mem_log he)]
    exact h.log_pushed e he
  · rw [hlog]
    exact h.log_blocks
  · have hn := h.node
    unfold NodeInv at hn ⊢
    rw [hnode]
    cases hst : st.node with
    | idle =>
      rw [hst] at hn
      rw [hrequest, hpending]
      exact hn
    | reading g size t i blocks =>
      rw [hst] at hn
      obtain ⟨rest, hrest, hreq, hg, hsize, hi, hip, hblocks⟩ := hn
      refine ⟨rest, hpending ▸ hrest, hrequest ▸ hreq, hg, hsize, hi, ?_, hblocks⟩
      rw [hpushed t (mem_issued_of_mem_pending (by rw [hrest]; simp))]
      exact hip
  · intro g i
    rw [hdata, h.data, hpending]
    congr 1
    refine List.filter_congr fun t ht ↦ ?_
    have hpopped : st'.popped t = st.popped t := by rw [Transfer.popped, hnode]; rfl
    exact (inFlight_congr hpopped (hpushed t (mem_issued_of_mem_pending ht))).symm
  · rw [hissued]
    refine h.order.imp_of_mem fun {t₀ t} ht₀ ht hord hname i hi ↦ ?_
    rw [hpushed t ht] at hi
    rw [hpushed t₀ ht₀]
    exact hord hname i hi

section Steps

variable {c : Fin n} {w : Write}

/-- The ticket of a client's current group, if it is issued, is the one with that group. -/
theorem TransferInv.eq_of_current (h : TransferInv jobs st)
    (hw : (jobs c)[(st.clients c).pos]? = some w) {t : Ticket n} (ht : t ∈ st.issued)
    (hc : t.client = c) (hi : t.index = (st.clients c).pos) : t = ⟨c, (st.clients c).pos, w⟩ := by
  obtain ⟨client, index, write⟩ := t
  obtain ⟨hwrite, -⟩ := (h.mem_issued _).mp ht
  dsimp only at hc hi hwrite
  subst hc
  rw [hi, hw, Option.some.injEq] at hwrite
  rw [hi, hwrite]

theorem TransferInv.issue (h : TransferInv jobs st)
    (hw : (jobs c)[(st.clients c).pos]? = some w) (hphase : (st.clients c).phase = .command)
    {t : Ticket n} (ht : t = ⟨c, (st.clients c).pos, w⟩)
    (hclients : ∀ c', st'.clients c' =
      if c' = c then ⟨(st.clients c).pos, .send 0 0⟩ else st.clients c')
    (hlists : ∀ k, st'.lists k =
      if k = requestKey then st.lists requestKey ++ [commandItem t] else st.lists k)
    (hnode : st'.node = st.node) (hlog : st'.log = st.log)
    (hissued : st'.issued = st.issued ++ [t]) : TransferInv jobs st' := by
  have hpushed : ∀ t', st'.pushed t' = st.pushed t' := by
    intro t'
    rw [Transfer.pushed, Transfer.pushed, hclients]
    by_cases hc : t'.client = c
    · rw [if_pos hc, hc]
      simp only [ClientState.pushed, hphase]
    · rw [if_neg hc]
  have hleft : ∀ t', st'.Left t' ↔ st.Left t' := by
    intro t'
    rw [Transfer.Left, Transfer.Left, hclients]
    by_cases hc : t'.client = c
    · rw [if_pos hc, hc]
    · rw [if_neg hc]
  have hnew : t ∉ st.issued := by
    intro hmem
    have hs := ((h.mem_issued t).mp hmem).2
    rw [ht] at hs
    rcases hs with hlt | ⟨-, hne⟩
    · exact lt_irrefl _ hlt
    · exact hne hphase
  have hzero : st.pushed t = 0 := by
    rw [ht, Transfer.pushed, ClientState.pushed, hphase]
    simp
  have hpending : st'.pending = st.pending ++ [t] := by
    rw [Transfer.pending, hissued, hlog, List.drop_append_of_le_length h.queues.log_length_le]
    rfl
  have hpopped : ∀ t', st'.popped t' = st.popped t' := fun t' ↦ by
    rw [Transfer.popped, hnode]
    rfl
  refine ⟨?_, ?_, ⟨?_, ?_, ?_, hlog ▸ h.queues.log_blocks, ?_, ?_, ?_⟩, ?_⟩
  · intro c' k written hsend
    rw [hclients] at hsend ⊢
    by_cases hc : c' = c
    · rw [if_pos hc] at hsend ⊢
      obtain ⟨rfl, rfl⟩ : k = 0 ∧ written = 0 := by simpa [eq_comm] using hsend
      exact ⟨w, by rw [hc]; exact hw, Nat.zero_le _, by simp [writtenAfter]⟩
    · rw [if_neg hc] at hsend ⊢
      exact h.sending c' k written hsend
  · intro t'
    have hstarted : st'.Started t' ↔
        st.Started t' ∨ t'.client = c ∧ t'.index = (st.clients c).pos := by
      rw [Transfer.Started, Transfer.Started, hclients]
      by_cases hc : t'.client = c
      · rw [if_pos hc, hc]
        simp [ClientState.Started, hphase]
      · simp [hc]
    rw [hissued, List.mem_append, List.mem_singleton, h.mem_issued, hstarted, ht]
    constructor
    · rintro (⟨hj, hs⟩ | rfl)
      · exact ⟨hj, Or.inl hs⟩
      · exact ⟨hw, Or.inr ⟨rfl, rfl⟩⟩
    · rintro ⟨hj, hs | ⟨hc, hi⟩⟩
      · exact Or.inl ⟨hj, hs⟩
      · right
        obtain ⟨client, index, write⟩ := t'
        dsimp only at hc hi hj
        rw [hc, hi, hw, Option.some.injEq] at hj
        rw [hc, hi, hj]
  · rw [hissued]
    refine List.nodup_append.mpr ⟨h.queues.nodup, List.nodup_singleton t, ?_⟩
    rintro a ha b hb rfl
    exact hnew (List.mem_singleton.mp hb ▸ ha)
  · rw [hlog, hissued, List.take_append_of_le_length h.queues.log_length_le]
    exact h.queues.log_tickets
  · intro e he
    rw [hpushed]
    exact h.queues.log_pushed e (hlog ▸ he)
  · have hn := h.queues.node
    unfold NodeInv at hn ⊢
    rw [hnode, hlists, if_pos rfl]
    cases hst : st.node with
    | idle =>
      rw [hst] at hn
      rw [hn, hpending, List.map_append]
      rfl
    | reading g size t₀ i blocks =>
      rw [hst] at hn
      obtain ⟨rest, hrest, hreq, hg, hsize, hi, hip, hblocks⟩ := hn
      refine ⟨rest ++ [t], by rw [hpending, hrest]; rfl, by rw [hreq, List.map_append]; rfl, hg,
        hsize, hi, ?_, hblocks⟩
      rw [hpushed]
      exact hip
  · intro g i
    rw [hlists, if_neg (clientDataKey_ne_requestKey g i), h.queues.data, hpending,
      List.filter_append]
    have hnone : [t].filter (st'.InFlight g i ·) = [] := by
      simp [Transfer.InFlight, hpushed, hzero]
    rw [hnone, List.append_nil]
    congr 1
    exact List.filter_congr fun t' _ ↦ (inFlight_congr (hpopped t') (hpushed t')).symm
  · rw [hissued]
    refine List.pairwise_append.mpr ⟨?_, List.pairwise_singleton _ _, ?_⟩
    · simpa only [hpushed] using h.queues.order
    · intro t₀ _ t₁ ht₁ _ i hi
      rw [List.mem_singleton.mp ht₁, hpushed, hzero] at hi
      exact absurd hi (Nat.not_lt_zero i)
  · intro g
    rw [hlists, if_neg (finishedKey_ne_requestKey g), hlog, hissued, List.countP_append,
      ← h.tokens g]
    have hnotleft : ¬ st'.Left t := by
      rw [hleft, ht]
      exact lt_irrefl _
    have hnone : [t].countP (fun t' ↦ t'.write.groupName = g ∧ st'.Left t') = 0 := by
      simp [hnotleft]
    rw [hnone, Nat.add_zero, countP_left_congr fun t' _ ↦ hleft t']

theorem TransferInv.push (h : TransferInv jobs st)
    (hw : (jobs c)[(st.clients c).pos]? = some w) {k written : ℕ}
    (hphase : (st.clients c).phase = .send k written) (hlt : written < w.size)
    {t : Ticket n} (ht : t = ⟨c, (st.clients c).pos, w⟩)
    (hord : ∀ t₀, [t₀, t].Sublist st.issued →
      t₀.write.groupName = w.groupName → k < st.pushed t₀ ∨ pktNum t₀.write.size ≤ k)
    (hclients : ∀ c', st'.clients c' = if c' = c then
      ⟨(st.clients c).pos, .send (k + 1) (written + thisTimeSize w.size written)⟩
      else st.clients c')
    (hlists : ∀ k', st'.lists k' = if k' = clientDataKey w.groupName k then
      st.lists (clientDataKey w.groupName k) ++ [⟨.packet (clientPacket w.data written), t⟩]
      else st.lists k')
    (hnode : st'.node = st.node) (hlog : st'.log = st.log)
    (hissued : st'.issued = st.issued) : TransferInv jobs st' := by
  obtain ⟨w', hw', hk, hwritten⟩ := h.sending c k written hphase
  obtain rfl : w = w' := by simpa [hw] using hw'
  have hkw : k < pktNum w.size := (writtenAfter_lt_iff w.size k).mp (hwritten ▸ hlt)
  have hmem : t ∈ st.issued := by
    rw [h.mem_issued, ht]
    exact ⟨hw, Or.inr ⟨rfl, by rw [hphase]; simp⟩⟩
  have hself : st.pushed t = k := by
    rw [ht, Transfer.pushed, ClientState.pushed, hphase]
    simp
  have hself' : st'.pushed t = k + 1 := by
    rw [ht, Transfer.pushed, hclients, if_pos rfl, ClientState.pushed]
    simp
  have hother : ∀ t' ∈ st.issued, t' ≠ t → st'.pushed t' = st.pushed t' := by
    intro t' ht' hne
    rw [Transfer.pushed, Transfer.pushed, hclients]
    by_cases hc : t'.client = c
    · have hi : t'.index ≠ (st.clients c).pos := fun hi ↦
        hne (ht ▸ h.eq_of_current hw ht' hc hi)
      rw [if_pos hc, hc]
      simp only [ClientState.pushed, hi, if_false]
    · rw [if_neg hc]
  have hmono : ∀ t' ∈ st.issued, st.pushed t' ≤ st'.pushed t' := by
    intro t' ht'
    by_cases hne : t' = t
    · rw [hne, hself, hself']
      omega
    · rw [hother t' ht' hne]
  have hpending : st'.pending = st.pending := by rw [Transfer.pending, hissued, hlog]; rfl
  have hpopped : ∀ t', st'.popped t' = st.popped t' := fun t' ↦ by
    rw [Transfer.popped, hnode]
    rfl
  -- a write still in its send loop is not stored yet
  have hnotlog : ∀ e ∈ st.log, e.ticket ≠ t := by
    intro e he heq
    have hall := h.queues.log_pushed e he
    rw [heq, hself, ht] at hall
    dsimp only at hall
    omega
  have hmemp : t ∈ st.pending := by
    rcases List.mem_append.mp (List.take_append_drop st.log.length st.issued ▸ hmem) with htake | hd
    · rw [← h.queues.log_tickets] at htake
      obtain ⟨e, he, heq⟩ := List.mem_map.mp htake
      exact absurd heq (hnotlog e he)
    · exact hd
  have hpopk : st.popped t ≤ k := by
    have hn := h.queues.node
    unfold NodeInv at hn
    rw [Transfer.popped]
    cases hst : st.node with
    | idle => exact Nat.zero_le k
    | reading g size t₀ i blocks =>
      rw [hst] at hn
      obtain ⟨rest, -, -, -, -, -, hip, -⟩ := hn
      dsimp only
      split_ifs with heq
      · rw [← hself, ← heq]
        exact hip
      · exact Nat.zero_le k
  -- later writes of the same name have not pushed packet `k`
  have hlater : ∀ t', [t, t'].Sublist st.issued → t'.write.groupName = w.groupName →
      ¬ k < st.pushed t' := by
    intro t' hsub hname hlt'
    have hpair := List.pairwise_iff_forall_sublist.mp h.queues.order hsub
    rcases hpair (by rw [ht]; exact hname.symm) k hlt' with hc | hc
    · omega
    · rw [ht] at hc
      dsimp only at hc
      omega
  refine ⟨?_, ?_, ⟨hissued ▸ h.queues.nodup, ?_, ?_, hlog ▸ h.queues.log_blocks, ?_, ?_, ?_⟩, ?_⟩
  · intro c' k' written' hsend
    rw [hclients] at hsend ⊢
    by_cases hc : c' = c
    · rw [if_pos hc] at hsend ⊢
      obtain ⟨rfl, rfl⟩ : k' = k + 1 ∧ written' = written + thisTimeSize w.size written := by
        simpa [eq_comm] using hsend
      exact ⟨w, by rw [hc]; exact hw, hkw, by rw [hwritten, writtenAfter_succ hkw]⟩
    · rw [if_neg hc] at hsend ⊢
      exact h.sending c' k' written' hsend
  · intro t'
    have hstarted : st'.Started t' ↔ st.Started t' := by
      rw [Transfer.Started, Transfer.Started, hclients]
      by_cases hc : t'.client = c
      · rw [if_pos hc, hc]
        simp [ClientState.Started, hphase]
      · rw [if_neg hc]
    rw [hissued, hstarted]
    exact h.mem_issued t'
  · rw [hlog, hissued]
    exact h.queues.log_tickets
  · intro e he
    rw [hlog] at he
    rw [hother _ (h.queues.mem_issued_of_mem_log he) (hnotlog e he)]
    exact h.queues.log_pushed e he
  · have hn := h.queues.node
    unfold NodeInv at hn ⊢
    rw [hnode, hlists, if_neg (clientDataKey_ne_requestKey _ _).symm]
    cases hst : st.node with
    | idle =>
      rw [hst] at hn
      rw [hpending]
      exact hn
    | reading g size t₀ i blocks =>
      rw [hst] at hn
      obtain ⟨rest, hrest, hreq, hg, hsize, hi, hip, hblocks⟩ := hn
      refine ⟨rest, hpending ▸ hrest, hreq, hg, hsize, hi, hip.trans (hmono t₀ ?_), hblocks⟩
      exact mem_issued_of_mem_pending (by rw [hrest]; simp)
  · intro g i
    rw [hlists, hpending]
    by_cases hkey : clientDataKey g i = clientDataKey w.groupName k
    · obtain ⟨rfl, rfl⟩ := clientDataKey_inj hkey
      have happend : st.pending.filter (st'.InFlight w.groupName i ·) =
          st.pending.filter (st.InFlight w.groupName i ·) ++ [t] := by
        refine filter_eq_append_singleton (h.queues.nodup.sublist (List.drop_sublist _ _)) hmemp
          ?_ ?_ ?_ ?_
        · simp [Transfer.InFlight, hself]
        · rw [decide_eq_true_eq, Transfer.InFlight, hpopped, hself']
          exact ⟨by rw [ht], hpopk, Nat.lt_succ_self i⟩
        · intro t' ht' hne
          exact inFlight_congr (hpopped t') (hother t' (mem_issued_of_mem_pending ht') hne)
        · intro t' hsub
          rw [decide_eq_false_iff_not]
          rintro ⟨hname, -, hlt'⟩
          exact hlater t' (hsub.trans (List.drop_sublist _ _)) hname hlt'
      rw [if_pos rfl, happend, List.map_append, ← h.queues.data, List.map_singleton, packetItem,
        hwritten, ht]
    · rw [if_neg hkey, h.queues.data]
      congr 1
      refine List.filter_congr fun t' ht' ↦ ?_
      by_cases hne : t' = t
      · -- another packet of the same write
        rw [decide_eq_decide, hne, Transfer.InFlight, Transfer.InFlight, hpopped, hself, hself', ht]
        constructor
        · rintro ⟨hg, hp, hi⟩
          exact ⟨hg, hp, by omega⟩
        · rintro ⟨hg, hp, hi⟩
          refine ⟨hg, hp, ?_⟩
          have : i ≠ k := fun hik ↦ hkey (by rw [← hg, hik])
          omega
      · exact (inFlight_congr (hpopped t')
          (hother t' (mem_issued_of_mem_pending ht') hne)).symm
  · rw [hissued, List.pairwise_iff_forall_sublist]
    intro t₀ t₁ hsub hname i hi
    have hmem₀ : t₀ ∈ st.issued := hsub.subset (by simp)
    have hmem₁ : t₁ ∈ st.issued := hsub.subset (by simp)
    have hold := List.pairwise_iff_forall_sublist.mp h.queues.order hsub hname i
    by_cases hlt₁ : i < st.pushed t₁
    · exact (hold hlt₁).imp_left fun hi₀ ↦ hi₀.trans_le (hmono t₀ hmem₀)
    · -- only the packet just pushed is new
      have heq : t₁ = t := by
        by_contra hne
        rw [hother t₁ hmem₁ hne] at hi
        exact hlt₁ hi
      rw [heq, hself'] at hi
      rw [heq, hself] at hlt₁
      obtain rfl : i = k := by omega
      rw [heq] at hsub hname
      refine (hord t₀ hsub (by rw [hname, ht])).imp_left fun hi₀ ↦ hi₀.trans_le (hmono t₀ hmem₀)
  · intro g
    rw [hlists, if_neg (clientDataKey_ne_finishedKey _ _ _).symm, hissued, hlog, ← h.tokens g]
    rw [countP_left_congr fun t' _ ↦ ?_]
    rw [Transfer.Left, Transfer.Left, hclients]
    by_cases hc : t'.client = c
    · rw [if_pos hc, hc]
    · rw [if_neg hc]

theorem TransferInv.endSend (h : TransferInv jobs st)
    (hw : (jobs c)[(st.clients c).pos]? = some w) {k written : ℕ}
    (hphase : (st.clients c).phase = .send k written) (hge : ¬ written < w.size)
    (hclients : ∀ c', st'.clients c' =
      if c' = c then ⟨(st.clients c).pos, .wait⟩ else st.clients c')
    (hlists : st'.lists = st.lists) (hnode : st'.node = st.node) (hlog : st'.log = st.log)
    (hissued : st'.issued = st.issued) : TransferInv jobs st' := by
  obtain ⟨w', hw', hk, hwritten⟩ := h.sending c k written hphase
  obtain rfl : w = w' := by simpa [hw] using hw'
  have hkw : k = pktNum w.size := by
    have := mt (writtenAfter_lt_iff w.size k).mpr (hwritten ▸ hge)
    omega
  have hpushed : ∀ t ∈ st.issued, st'.pushed t = st.pushed t := by
    intro t ht
    rw [Transfer.pushed, Transfer.pushed, hclients]
    by_cases hc : t.client = c
    · rw [if_pos hc, hc]
      by_cases hi : t.index = (st.clients c).pos
      · rw [h.eq_of_current hw ht hc hi]
        simp [ClientState.pushed, hphase, hkw]
      · simp [ClientState.pushed, hi]
    · rw [if_neg hc]
  refine ⟨?_, ?_, h.queues.frame hissued hlog hnode hpushed (fun _ _ ↦ by rw [hlists])
    (by rw [hlists]), ?_⟩
  · intro c' k' written' hsend
    rw [hclients] at hsend ⊢
    by_cases hc : c' = c
    · rw [if_pos hc] at hsend
      simp at hsend
    · rw [if_neg hc] at hsend ⊢
      exact h.sending c' k' written' hsend
  · intro t
    have hstarted : st'.Started t ↔ st.Started t := by
      rw [Transfer.Started, Transfer.Started, hclients]
      by_cases hc : t.client = c
      · rw [if_pos hc, hc]
        simp [ClientState.Started, hphase]
      · rw [if_neg hc]
    rw [hissued, hstarted]
    exact h.mem_issued t
  · intro g
    rw [hlists, hissued, hlog, ← h.tokens g]
    rw [countP_left_congr fun t _ ↦ ?_]
    rw [Transfer.Left, Transfer.Left, hclients]
    by_cases hc : t.client = c
    · rw [if_pos hc, hc]
    · rw [if_neg hc]

theorem TransferInv.leave (h : TransferInv jobs st)
    (hw : (jobs c)[(st.clients c).pos]? = some w) (hphase : (st.clients c).phase = .wait)
    (htoken : st.lists (finishedKey w.groupName) ≠ [])
    (hclients : ∀ c', st'.clients c' =
      if c' = c then ⟨(st.clients c).pos + 1, .command⟩ else st.clients c')
    (hlists : ∀ k, st'.lists k = if k = finishedKey w.groupName then
      (st.lists (finishedKey w.groupName)).tail else st.lists k)
    (hnode : st'.node = st.node) (hlog : st'.log = st.log)
    (hissued : st'.issued = st.issued) : TransferInv jobs st' := by
  have hpushed : ∀ t, st'.pushed t = st.pushed t := by
    intro t
    rw [Transfer.pushed, Transfer.pushed, hclients]
    by_cases hc : t.client = c
    · rw [if_pos hc, hc]
      simp only [ClientState.pushed, hphase]
      split_ifs <;> first | rfl | omega
    · rw [if_neg hc]
  have hstarted : ∀ t, st'.Started t ↔ st.Started t := by
    intro t
    rw [Transfer.Started, Transfer.Started, hclients]
    by_cases hc : t.client = c
    · rw [if_pos hc, hc]
      simp only [ClientState.Started, hphase]
      simp
      omega
    · rw [if_neg hc]
  refine ⟨?_, ?_, h.queues.frame hissued hlog hnode (fun t _ ↦ hpushed t) (fun g i ↦ ?_) ?_, ?_⟩
  · intro c' k' written' hsend
    rw [hclients] at hsend ⊢
    by_cases hc : c' = c
    · rw [if_pos hc] at hsend
      simp at hsend
    · rw [if_neg hc] at hsend ⊢
      exact h.sending c' k' written' hsend
  · intro t
    rw [hissued, hstarted]
    exact h.mem_issued t
  · rw [hlists, if_neg (clientDataKey_ne_finishedKey _ _ _)]
  · rw [hlists, if_neg (finishedKey_ne_requestKey _).symm]
  · intro g
    set t : Ticket n := ⟨c, (st.clients c).pos, w⟩ with ht
    have hmem : t ∈ st.issued := (h.mem_issued t).mpr ⟨hw, Or.inr ⟨rfl, by simp [ht, hphase]⟩⟩
    have hself' : st'.Left t := by
      rw [Transfer.Left, hclients, if_pos rfl]
      exact Nat.lt_succ_self _
    have hother : ∀ t' ∈ st.issued, t' ≠ t → (st'.Left t' ↔ st.Left t') := by
      intro t' ht' hne
      rw [Transfer.Left, Transfer.Left, hclients]
      by_cases hc : t'.client = c
      · have hi : t'.index ≠ (st.clients c).pos := fun hi ↦ hne (h.eq_of_current hw ht' hc hi)
        rw [if_pos hc, hc]
        dsimp only
        omega
      · rw [if_neg hc]
    have hold := h.tokens g
    rw [hissued, hlog, ← hold, hlists]
    by_cases hg : w.groupName = g
    · subst hg
      have hcount : st.issued.countP
            (fun t' ↦ t'.write.groupName = w.groupName ∧ st'.Left t') =
          st.issued.countP (fun t' ↦ t'.write.groupName = w.groupName ∧ st.Left t') + 1 := by
        refine countP_eq_add_one h.queues.nodup hmem ?_ ?_ ?_
        · simp [ht, Transfer.Left]
        · simpa [ht] using hself'
        · intro t' ht' hne
          simp [hother t' ht' hne]
      have hpos := List.length_pos_iff.mpr htoken
      rw [if_pos rfl, hcount, List.length_tail]
      omega
    · have hkey : finishedKey g ≠ finishedKey w.groupName := fun heq ↦ hg (finishedKey_inj heq).symm
      rw [if_neg hkey]
      congr 1
      refine List.countP_congr fun t' ht' ↦ ?_
      by_cases hne : t' = t
      · rw [hne]
        simp [ht, hg]
      · simp [hother t' ht' hne]

theorem TransferInv.popCommand (h : TransferInv jobs st) (hidle : st.node = .idle) {g : Name}
    {size : ℕ} {t : Ticket n} {rest : List (Item n)}
    (hreq : st.lists requestKey = ⟨.command g size, t⟩ :: rest)
    (hclients : st'.clients = st.clients)
    (hlists : ∀ k, st'.lists k = if k = requestKey then rest else st.lists k)
    (hnode : st'.node = .reading g size t 0 []) (hlog : st'.log = st.log)
    (hissued : st'.issued = st.issued) : TransferInv jobs st' := by
  have hpushed : ∀ t', st'.pushed t' = st.pushed t' := fun t' ↦ by
    rw [Transfer.pushed, hclients]
    rfl
  have hpending : st'.pending = st.pending := by rw [Transfer.pending, hissued, hlog]; rfl
  have hn := h.queues.node
  rw [NodeInv, hidle, hreq] at hn
  obtain ⟨t₀, ts, hts, ht₀, hrest⟩ := List.map_eq_cons_iff.mp hn.symm
  obtain ⟨⟨rfl, rfl⟩, rfl⟩ : (t₀.write.groupName = g ∧ t₀.write.size = size) ∧ t₀ = t := by
    simpa [commandItem] using ht₀
  have hpopped : ∀ t', st'.popped t' = st.popped t' := fun t' ↦ by
    rw [Transfer.popped, Transfer.popped, hnode, hidle]
    simp
  refine ⟨?_, ?_, ⟨hissued ▸ h.queues.nodup, ?_, ?_, hlog ▸ h.queues.log_blocks, ?_, ?_, ?_⟩, ?_⟩
  · rw [hclients]
    exact h.sending
  · intro t'
    rw [hissued, Transfer.Started, hclients]
    exact h.mem_issued t'
  · rw [hlog, hissued]
    exact h.queues.log_tickets
  · intro e he
    rw [hpushed]
    exact h.queues.log_pushed e (hlog ▸ he)
  · rw [NodeInv, hnode]
    refine ⟨ts, hpending ▸ hts, ?_, rfl, rfl, Nat.zero_le _, Nat.zero_le _, rfl⟩
    rw [hlists, if_pos rfl, hrest]
  · intro g i
    rw [hlists, if_neg (clientDataKey_ne_requestKey g i), h.queues.data, hpending]
    congr 1
    exact List.filter_congr fun t' _ ↦ (inFlight_congr (hpopped t') (hpushed t')).symm
  · rw [hissued]
    simpa only [hpushed] using h.queues.order
  · intro g
    rw [hlists, if_neg (finishedKey_ne_requestKey g), hissued, hlog, ← h.tokens g,
      countP_left_congr fun t _ ↦ left_congr_of_clients hclients t]

/-- What the node finds when it pops a packet: the packet of the write it is reading. -/
theorem QueueInv.head_packet (h : QueueInv st) {g : Name} {size i : ℕ} {t : Ticket n}
    {blocks : List Bytes} (hnode : st.node = .reading g size t i blocks) (hi : i < pktNum size) :
    ∃ rest, st.pending = t :: rest ∧ g = t.write.groupName ∧ size = t.write.size ∧
      (i < st.pushed t → st.lists (clientDataKey g i) =
        packetItem i t :: (rest.filter (st.InFlight g i ·)).map (packetItem i)) ∧
      (¬ i < st.pushed t → st.lists (clientDataKey g i) = []) := by
  have hn := h.node
  rw [NodeInv, hnode] at hn
  obtain ⟨rest, hrest, -, rfl, rfl, -, hip, -⟩ := hn
  have hpop : st.popped t = i := by
    rw [Transfer.popped, hnode]
    simp
  refine ⟨rest, hrest, rfl, rfl, fun hlt ↦ ?_, fun hge ↦ ?_⟩
  · rw [h.data, hrest, List.filter_cons_of_pos, List.map_cons]
    rw [decide_eq_true_eq]
    exact ⟨rfl, hpop.le, hlt⟩
  · rw [h.data, hrest, List.map_eq_nil_iff, List.filter_eq_nil_iff]
    intro t' ht'
    rw [decide_eq_true_eq]
    rintro ⟨hname, -, hlt'⟩
    rcases List.mem_cons.mp ht' with rfl | ht'
    · exact hge hlt'
    · -- a later write of the name would have pushed out of order
      have hsub : [t, t'].Sublist st.issued := by
        have : [t, t'].Sublist st.pending := by
          rw [hrest]
          exact (List.singleton_sublist.mpr ht').cons_cons t
        exact this.trans (List.drop_sublist _ _)
      rcases List.pairwise_iff_forall_sublist.mp h.order hsub hname.symm i hlt' with hc | hc
      · exact hge hc
      · omega

theorem TransferInv.popPacket (h : TransferInv jobs st) {g : Name} {size i : ℕ} {t : Ticket n}
    {blocks : List Bytes} (hread : st.node = .reading g size t i blocks) (hi : i < pktNum size)
    {pkt : Bytes} {t' : Ticket n} {rest : List (Item n)}
    (hlist : st.lists (clientDataKey g i) = ⟨.packet pkt, t'⟩ :: rest)
    (hclients : st'.clients = st.clients)
    (hlists : ∀ k, st'.lists k = if k = clientDataKey g i then rest else st.lists k)
    (hnode : st'.node = .reading g size t (i + 1) (blocks ++ [nodeBlock pkt]))
    (hlog : st'.log = st.log) (hissued : st'.issued = st.issued) : TransferInv jobs st' := by
  obtain ⟨later, hpend, rfl, rfl, hhead, hempty⟩ := h.queues.head_packet hread hi
  have hpt : i < st.pushed t := by
    by_contra hge
    rw [hempty hge] at hlist
    cases hlist
  rw [hhead hpt, packetItem, List.cons.injEq, Item.mk.injEq, Payload.packet.injEq] at hlist
  obtain ⟨⟨rfl, rfl⟩, rfl⟩ := hlist
  have hpushed : ∀ t', st'.pushed t' = st.pushed t' := fun t' ↦ by
    rw [Transfer.pushed, hclients]
    rfl
  have hpending : st'.pending = st.pending := by rw [Transfer.pending, hissued, hlog]; rfl
  have hnodup : (t :: later).Nodup := hpend ▸ h.queues.nodup.sublist (List.drop_sublist _ _)
  have hpopped : ∀ t' ∈ later, st'.popped t' = st.popped t' := by
    intro t' ht'
    have hne : t ≠ t' := fun heq ↦ (List.nodup_cons.mp hnodup).1 (heq ▸ ht')
    rw [Transfer.popped, Transfer.popped, hnode, hread]
    simp [hne]
  have hself : st.popped t = i := by
    rw [Transfer.popped, hread]
    simp
  have hself' : st'.popped t = i + 1 := by
    rw [Transfer.popped, hnode]
    simp
  refine ⟨?_, ?_, ⟨hissued ▸ h.queues.nodup, ?_, ?_, hlog ▸ h.queues.log_blocks, ?_, ?_, ?_⟩, ?_⟩
  · rw [hclients]
    exact h.sending
  · intro t'
    rw [hissued, Transfer.Started, hclients]
    exact h.mem_issued t'
  · rw [hlog, hissued]
    exact h.queues.log_tickets
  · intro e he
    rw [hpushed]
    exact h.queues.log_pushed e (hlog ▸ he)
  · have hn := h.queues.node
    rw [NodeInv, hread] at hn
    obtain ⟨ts, hts, hreq, -, -, -, -, hblocks⟩ := hn
    rw [NodeInv, hnode]
    refine ⟨ts, hpending ▸ hts, ?_, rfl, rfl, hi, by rw [hpushed]; exact hpt, ?_⟩
    · rw [hlists, if_neg (clientDataKey_ne_requestKey _ _).symm, hreq]
    · rw [hblocks, List.range_succ, List.map_append, List.map_singleton, Write.size,
        nodeBlock_clientPacket_writtenAfter t.write.size_lt hi]
  · intro g j
    rw [hlists, hpending, hpend]
    have hlater : later.filter (st'.InFlight g j ·) = later.filter (st.InFlight g j ·) :=
      List.filter_congr fun t' ht' ↦ inFlight_congr (hpopped t' ht') (hpushed t')
    by_cases hkey : clientDataKey g j = clientDataKey t.write.groupName i
    · obtain ⟨rfl, rfl⟩ := clientDataKey_inj hkey
      rw [if_pos rfl, List.filter_cons_of_neg, hlater]
      rw [decide_eq_true_eq]
      rintro ⟨-, hle, -⟩
      omega
    · have hsame : decide (st'.InFlight g j t) = decide (st.InFlight g j t) := by
        rw [decide_eq_decide, Transfer.InFlight, Transfer.InFlight, hself, hself', hpushed]
        constructor
        · rintro ⟨hg, hle, hlt⟩
          exact ⟨hg, by omega, hlt⟩
        · rintro ⟨hg, hle, hlt⟩
          have : j ≠ i := fun hji ↦ hkey (by rw [hg, hji])
          exact ⟨hg, by omega, hlt⟩
      rw [if_neg hkey, h.queues.data, hpend, List.filter_cons, List.filter_cons, hsame, hlater]
  · rw [hissued]
    simpa only [hpushed] using h.queues.order
  · intro g
    rw [hlists, if_neg (clientDataKey_ne_finishedKey _ _ _).symm, hissued, hlog, ← h.tokens g,
      countP_left_congr fun t _ ↦ left_congr_of_clients hclients t]

theorem TransferInv.finish (h : TransferInv jobs st) {g : Name} {size i : ℕ} {t : Ticket n}
    {blocks : List Bytes} (hread : st.node = .reading g size t i blocks) (hi : ¬ i < pktNum size)
    (hclients : st'.clients = st.clients)
    (hlists : ∀ k, st'.lists k = if k = finishedKey g then
      st.lists (finishedKey g) ++ [⟨.token, t⟩] else st.lists k)
    (hnode : st'.node = .idle) (hlog : st'.log = st.log ++ [⟨g, size, t, blocks⟩])
    (hissued : st'.issued = st.issued) : TransferInv jobs st' := by
  have hn := h.queues.node
  rw [NodeInv, hread] at hn
  obtain ⟨rest, hrest, hreq, rfl, rfl, hile, hip, hblocks⟩ := hn
  obtain rfl : i = pktNum t.write.size := by omega
  have hpushed : ∀ t', st'.pushed t' = st.pushed t' := fun t' ↦ by
    rw [Transfer.pushed, hclients]
    rfl
  have hmem : t ∈ st.issued := mem_issued_of_mem_pending (by rw [hrest]; simp)
  have hle : ∀ t' ∈ st.issued, st.pushed t' ≤ pktNum t'.write.size := by
    intro t' ht'
    rw [Transfer.pushed, ClientState.pushed]
    obtain ⟨hj, -⟩ := (h.mem_issued t').mp ht'
    split_ifs with h₁ h₂
    · exact le_rfl
    · cases hphase : (st.clients t'.client).phase with
      | command => exact Nat.zero_le _
      | send k written =>
        obtain ⟨w, hw, hk, -⟩ := h.sending _ k written hphase
        rw [← h₂, hj, Option.some.injEq] at hw
        exact hw ▸ hk
      | wait => exact le_rfl
    · exact Nat.zero_le _
  have hall : st.pushed t = pktNum t.write.size := le_antisymm (hle t hmem) hip
  have hdrop : st.issued.drop (st.log.length + 1) = rest := by
    have : st.issued.drop st.log.length = t :: rest := hrest
    rw [← List.tail_drop, this, List.tail_cons]
  have hpending : st'.pending = rest := by
    rw [Transfer.pending, hissued, hlog, List.length_append, List.length_singleton, hdrop]
  have hnodup : (t :: rest).Nodup := hrest ▸ h.queues.nodup.sublist (List.drop_sublist _ _)
  have hpopped : ∀ t' ∈ rest, st'.popped t' = st.popped t' := by
    intro t' ht'
    have hne : t ≠ t' := fun heq ↦ (List.nodup_cons.mp hnodup).1 (heq ▸ ht')
    rw [Transfer.popped, Transfer.popped, hnode, hread]
    simp [hne]
  refine ⟨?_, ?_, ⟨hissued ▸ h.queues.nodup, ?_, ?_, ?_, ?_, ?_, ?_⟩, ?_⟩
  · rw [hclients]
    exact h.sending
  · intro t'
    rw [hissued, Transfer.Started, hclients]
    exact h.mem_issued t'
  · have htake : st.issued.take (st.log.length + 1) = st.issued.take st.log.length ++ [t] := by
      have hget : st.issued[st.log.length]? = some t := by
        have := congrArg List.head? hrest
        rwa [Transfer.pending, List.head?_drop, List.head?_cons] at this
      rw [List.take_add_one, hget]
      rfl
    rw [hlog, hissued, List.map_append, h.queues.log_tickets, List.length_append,
      List.length_singleton, htake]
    rfl
  · intro e he
    rw [hpushed]
    rw [hlog, List.mem_append, List.mem_singleton] at he
    rcases he with he | rfl
    · exact h.queues.log_pushed e he
    · exact hall
  · intro e he
    rw [hlog, List.mem_append, List.mem_singleton] at he
    rcases he with he | rfl
    · exact h.queues.log_blocks e he
    · exact ⟨rfl, rfl, hblocks⟩
  · rw [NodeInv, hnode]
    dsimp only
    rw [hlists, if_neg (finishedKey_ne_requestKey _).symm, hreq, hpending]
  · intro g j
    rw [hlists, if_neg (clientDataKey_ne_finishedKey _ _ _), h.queues.data, hrest, hpending,
      List.filter_cons_of_neg]
    · congr 1
      exact List.filter_congr fun t' ht' ↦
        (inFlight_congr (hpopped t' ht') (hpushed t')).symm
    · -- all its packets are popped
      have hpop : st.popped t = pktNum t.write.size := by
        rw [Transfer.popped, hread]
        simp
      rw [decide_eq_true_eq]
      rintro ⟨-, hle', hlt'⟩
      omega
  · rw [hissued]
    simpa only [hpushed] using h.queues.order
  · intro g
    have hold := h.tokens g
    rw [hlists, hissued, hlog, List.countP_append,
      countP_left_congr fun t _ ↦ left_congr_of_clients hclients t]
    by_cases hg : t.write.groupName = g
    · subst hg
      simp only [if_true, List.length_append, List.length_singleton, List.countP_singleton,
        decide_true]
      omega
    · have hkey : finishedKey g ≠ finishedKey t.write.groupName := fun heq ↦
        hg (finishedKey_inj heq).symm
      simp only [if_neg hkey, List.countP_singleton, hg, decide_false, Bool.false_eq_true,
        if_false]
      omega

end Steps

/-- **The invariant is kept** by every step that meets the order condition. -/
theorem TransferInv.next (h : TransferInv jobs st) {m : Mover n} (hord : InOrder jobs st m)
    (hs : (transferSystem jobs).next st m = some st') : TransferInv jobs st' := by
  rcases transferSystem_next_cases hs with ⟨c, w, rfl, hw, hcase⟩ | ⟨rfl, hcase⟩
  · rcases hcase with ⟨hphase, rfl⟩ | ⟨k, written, hphase, hlt, rfl⟩ | ⟨k, written, hphase, hge, rfl⟩ |
      ⟨hphase, htoken, rfl⟩
    · exact h.issue hw hphase rfl (fun _ ↦ Transfer.clients_setClient ..)
        (fun _ ↦ Transfer.lists_rpush ..) rfl rfl rfl
    · have hpacket : nextPacket jobs st c = some (⟨c, (st.clients c).pos, w⟩, k) := by
        simp [nextPacket, hw, hphase, hlt]
      exact h.push hw hphase hlt rfl
        (fun t₀ hsub hname ↦ hord _ hpacket t₀ (hsub.subset (by simp)) hsub hname)
        (fun _ ↦ Transfer.clients_setClient ..) (fun _ ↦ Transfer.lists_rpush ..) rfl rfl rfl
    · exact h.endSend hw hphase hge (fun _ ↦ Transfer.clients_setClient ..) rfl rfl rfl rfl
    · exact h.leave hw hphase htoken (fun _ ↦ Transfer.clients_setClient ..)
        (fun _ ↦ Transfer.lists_lpop ..) rfl rfl rfl
  · rcases hcase with ⟨hidle, g, size, t, rest, hreq, rfl⟩ | ⟨g, size, t, i, blocks, hread, hcase⟩
    · refine h.popCommand hidle hreq rfl (fun k ↦ ?_) rfl rfl rfl
      simpa [hreq] using Transfer.lists_lpop st requestKey k
    · rcases hcase with ⟨hi, pkt, t', rest, hlist, rfl⟩ | ⟨hi, rfl⟩
      · rw [nodeDataKey_eq] at hlist
        refine h.popPacket hread hi hlist rfl (fun k ↦ ?_) rfl rfl rfl
        simpa [hlist, nodeDataKey_eq] using Transfer.lists_lpop st (nodeDataKey g i) k
      · exact h.finish hread hi rfl (fun _ ↦ Transfer.lists_rpush ..) rfl rfl rfl

theorem transferInv_init (hinit : (transferSystem jobs).init st) : TransferInv jobs st := by
  subst hinit
  refine ⟨by simp [transferStart], ?_, ⟨List.nodup_nil, rfl, by simp [transferStart],
    by simp [transferStart], rfl, by simp [Transfer.pending, transferStart],
    List.Pairwise.nil⟩, by simp [transferStart]⟩
  intro t
  simp [Transfer.Started, ClientState.Started, transferStart]

theorem transferInv_of_reach (h : (transferSystem jobs).Reach (InOrder jobs) st) :
    TransferInv jobs st :=
  h.invariant (fun _ ↦ transferInv_init) fun _ _ _ hP ha hs ↦ hP.next ha hs

/-! ## Writes of one name, in order -/

/-- What the node stored for a processed command is exactly the write of one client: its group name,
its size and its bytes. -/
theorem TransferInv.log_exact (h : TransferInv jobs st) {e : Stored n} (he : e ∈ st.log) :
    (jobs e.ticket.client)[e.ticket.index]? = some e.ticket.write ∧
      e.groupName = e.ticket.write.groupName ∧ e.size = e.ticket.write.size ∧
      e.blocks.flatten = e.ticket.write.data := by
  obtain ⟨hg, hsize, hblocks⟩ := h.queues.log_blocks e he
  obtain ⟨hjob, -⟩ := (h.mem_issued _).mp (h.queues.mem_issued_of_mem_log he)
  exact ⟨hjob, hg, hsize, by rw [hblocks, Write.size, flatten_blocks]⟩

theorem TransferInv.mem_pending_of_mem_data (h : TransferInv jobs st) {g : Name} {i : ℕ}
    {x : Item n} (hx : x ∈ st.lists (clientDataKey g i)) :
    x.ticket ∈ st.pending ∧ x.ticket.write.groupName = g ∧ x = packetItem i x.ticket ∧
      i < st.pushed x.ticket := by
  rw [h.queues.data] at hx
  obtain ⟨t, ht, rfl⟩ := List.mem_map.mp hx
  obtain ⟨hmem, hfly⟩ := List.mem_filter.mp ht
  rw [decide_eq_true_eq] at hfly
  exact ⟨hmem, hfly.1, rfl, hfly.2.2⟩

theorem QueueInv.ne_of_mem_pending (h : QueueInv st) {t : Ticket n} (ht : t ∈ st.pending)
    {e : Stored n} (he : e ∈ st.log) : t ≠ e.ticket := by
  rintro rfl
  have htake : e.ticket ∈ st.issued.take st.log.length := h.log_tickets ▸ List.mem_map_of_mem he
  exact List.disjoint_take_drop h.nodup le_rfl htake ht

/-- **Writes in order are atomic.** In every run in which the packets of a name arrive in the order
of the commands, every processed command stored exactly the bytes of the client that issued it,
under its name and size, and none of its packets is left on any list. -/
theorem stored_of_inOrder (h : (transferSystem jobs).Reach (InOrder jobs) st) {e : Stored n}
    (he : e ∈ st.log) :
    (∃ w, (jobs e.ticket.client)[e.ticket.index]? = some w ∧ e.groupName = w.groupName ∧
      e.size = w.size ∧ e.blocks.flatten = w.data) ∧
    ∀ g i, ∀ x ∈ st.lists (clientDataKey g i), x.ticket ≠ e.ticket := by
  have hinv := transferInv_of_reach h
  refine ⟨⟨_, hinv.log_exact he⟩, fun g i x hx ↦ ?_⟩
  exact hinv.queues.ne_of_mem_pending (hinv.mem_pending_of_mem_data hx).1 he

/-- Two clients that each write one group named `g`, of one and of two bytes. -/
def sameName : Fin 2 → List Write
  | 0 => [⟨['g'], [1], by decide⟩]
  | 1 => [⟨['g'], [2, 3], by decide⟩]

/-- One write after the other, as `stored_of_inOrder` requires. -/
theorem stored_of_inOrder_sameName :
    ∃ st : Transfer 2, (transferSystem sameName).Reach (InOrder sameName) st ∧
      ∃ e ∈ st.log, (∃ w, (sameName e.ticket.client)[e.ticket.index]? = some w ∧
        e.groupName = w.groupName ∧ e.size = w.size ∧ e.blocks.flatten = w.data) ∧
        ∀ g i, ∀ x ∈ st.lists (clientDataKey g i), x.ticket ≠ e.ticket := by
  have hstart : (transferSystem sameName).Reach (InOrder sameName) (transferStart 2) := .init rfl
  obtain ⟨st, hreach, hlog⟩ := hstart.exists_of_runIf
    [.client 0, .client 0, .client 0, .node, .node, .node, .client 0,
      .client 1, .client 1, .client 1, .node, .node, .node]
    (p := fun st ↦ st.log.length = 2) (by decide)
  obtain ⟨e, he⟩ := List.exists_mem_of_length_pos (l := st.log) (by simp_all)
  exact ⟨st, hreach, e, he, stored_of_inOrder hreach he⟩

/-- Every processed command stored the bytes of one client under the size of that client. -/
def AtomicWrites (jobs : Fin n → List Write) (st : Transfer n) : Prop :=
  ∀ e ∈ st.log, ∃ c, ∃ w ∈ jobs c, w.groupName = e.groupName ∧ w.size = e.size ∧
    e.blocks.flatten = w.data

/-- Both commands first, then the packet of the second client before that of the first: the command
of the one-byte group stores the two bytes of the other client. -/
theorem not_atomicWrites_sameName :
    ∃ st : Transfer 2, (transferSystem sameName).Reachable st ∧ ¬ AtomicWrites sameName st := by
  have hstart : (transferSystem sameName).Reachable (transferStart 2) := .init rfl
  obtain ⟨st, hreach, hlog⟩ := hstart.exists_of_run
    [.client 0, .client 1, .client 1, .client 0, .node, .node, .node]
    (p := fun st ↦ st.log.any fun e ↦ e.size = 1 ∧ e.blocks = [[2, 3]]) (by decide)
  refine ⟨st, hreach, fun hatomic ↦ ?_⟩
  obtain ⟨e, he, hp⟩ := List.any_eq_true.mp hlog
  obtain ⟨hsize, hblocks⟩ := of_decide_eq_true hp
  obtain ⟨c, w, -, -, hwsize, hdata⟩ := hatomic e he
  rw [hblocks] at hdata
  rw [Write.size, ← hdata, hsize] at hwsize
  simp at hwsize

/-! ## Distinct names -/

/-- The group names of all clients are pairwise distinct. -/
def DistinctNames (jobs : Fin n → List Write) : Prop :=
  ∀ c (k : ℕ) (w : Write) c' (k' : ℕ) (w' : Write), (jobs c)[k]? = some w → (jobs c')[k']? = some w' →
    w.groupName = w'.groupName → c = c' ∧ k = k'

theorem TransferInv.eq_of_groupName (h : TransferInv jobs st) (hnames : DistinctNames jobs)
    {t t' : Ticket n} (ht : t ∈ st.issued) (ht' : t' ∈ st.issued)
    (hg : t.write.groupName = t'.write.groupName) : t = t' := by
  obtain ⟨client, index, write⟩ := t
  obtain ⟨client', index', write'⟩ := t'
  obtain ⟨hw, -⟩ := (h.mem_issued _).mp ht
  obtain ⟨hw', -⟩ := (h.mem_issued _).mp ht'
  obtain ⟨rfl, rfl⟩ := hnames _ _ _ _ _ _ hw hw' hg
  obtain rfl : write = write' := by simpa [hw] using hw'
  rfl

/-- With distinct names there is never a second write whose order could matter. -/
theorem TransferInv.inOrder (h : TransferInv jobs st) (hnames : DistinctNames jobs) (m : Mover n) :
    InOrder jobs st m := by
  cases m with
  | node => trivial
  | client c =>
    intro p _ t₀ ht₀ hsub hg
    have hne : t₀ ≠ p.1 := by
      have := h.queues.nodup.sublist hsub
      simpa using this
    exact absurd (h.eq_of_groupName hnames ht₀ (hsub.subset (by simp)) hg) hne

theorem transferInv_of_reachable (hnames : DistinctNames jobs)
    (h : (transferSystem jobs).Reachable st) : TransferInv jobs st :=
  transferInv_of_reach (System.Reachable.reach (P := TransferInv jobs)
    (fun _ hs ↦ transferInv_of_reach hs) (fun _ m hP ↦ hP.inOrder hnames m) h)

/-- A write that has not pushed all its packets belongs to a client that can push one. -/
theorem TransferInv.exists_next_of_pushed_lt (h : TransferInv jobs st) {t : Ticket n}
    (ht : t ∈ st.issued) (hlt : st.pushed t < pktNum t.write.size) :
    ∃ st', (transferSystem jobs).next st (.client t.client) = some st' := by
  obtain ⟨hw, hstarted⟩ := (h.mem_issued t).mp ht
  rcases hstarted with hpos | ⟨hpos, hphase⟩
  · rw [Transfer.pushed, ClientState.pushed, if_pos hpos] at hlt
    exact absurd hlt (lt_irrefl _)
  · rw [Transfer.pushed, ClientState.pushed, if_neg (by omega), if_pos hpos] at hlt
    rw [hpos] at hw
    cases hp : (st.clients t.client).phase with
    | command => exact absurd hp hphase
    | wait =>
      rw [hp] at hlt
      exact absurd hlt (lt_irrefl _)
    | send k written =>
      simp only [transferSystem, hw, Transfer.clientStep, hp, Option.bind_eq_bind, Option.bind_some]
      split_ifs <;> exact ⟨_, rfl⟩

/-- **No deadlock.** When nobody can move, the node is idle and every group of every client is
stored. -/
theorem TransferInv.all_stored_of_stuck (h : TransferInv jobs st)
    (hstuck : ∀ m, (transferSystem jobs).next st m = none) :
    ∀ c, ∀ w ∈ jobs c, ∃ e ∈ st.log, e.ticket.client = c ∧ e.ticket.write = w := by
  -- the node waits for a command, and there is none
  have hpending : st.pending = [] := by
    have hnode := hstuck .node
    simp only [transferSystem, Transfer.nodeStep] at hnode
    cases hn : st.node with
    | idle =>
      have hreq := h.queues.node
      rw [NodeInv, hn] at hreq
      cases hp : st.pending with
      | nil => rfl
      | cons t rest => simp [hn, hreq, hp, commandItem] at hnode
    | reading g size t i blocks =>
      simp only [hn] at hnode
      by_cases hi : i < pktNum size
      · obtain ⟨rest, hp, rfl, rfl, hhead, -⟩ := h.queues.head_packet hn hi
        by_cases hpt : i < st.pushed t
        · simp [hi, nodeDataKey_eq, hhead hpt, packetItem] at hnode
        · obtain ⟨st', hst'⟩ := h.exists_next_of_pushed_lt
            (mem_issued_of_mem_pending (t := t) (by rw [hp]; simp)) (by omega)
          rw [hstuck] at hst'
          cases hst'
      · simp [hi] at hnode
  have hlog : st.log.map Stored.ticket = st.issued := by
    have := List.take_append_drop st.log.length st.issued
    rw [← h.queues.log_tickets, show st.issued.drop st.log.length = [] from hpending,
      List.append_nil] at this
    exact this
  -- every client is past its last group
  have hdone : ∀ c, (jobs c)[(st.clients c).pos]? = none := by
    intro c
    by_contra hsome
    obtain ⟨w, hw⟩ := Option.ne_none_iff_exists'.mp hsome
    have hclient := hstuck (.client c)
    simp only [transferSystem, hw, Transfer.clientStep, Option.bind_eq_bind, Option.bind_some]
      at hclient
    cases hphase : (st.clients c).phase with
    | command => simp [hphase] at hclient
    | send k written =>
      simp only [hphase] at hclient
      split_ifs at hclient
    | wait =>
      simp only [hphase] at hclient
      have hempty : st.lists (finishedKey w.groupName) = [] := by
        split at hclient
        next hnil => exact hnil
        next => cases hclient
      -- all its tokens are taken, although its own group is stored
      have htokens := h.tokens w.groupName
      have hcount : st.log.countP (fun e ↦ e.groupName = w.groupName) =
          st.issued.countP (fun t ↦ t.write.groupName = w.groupName) := by
        rw [← hlog, List.countP_map]
        refine List.countP_congr fun e he ↦ ?_
        simp [(h.queues.log_blocks e he).1]
      have hlt : st.issued.countP (fun t ↦ t.write.groupName = w.groupName ∧ st.Left t) <
          st.issued.countP (fun t ↦ t.write.groupName = w.groupName) := by
        have hmem : (⟨c, (st.clients c).pos, w⟩ : Ticket n) ∈ st.issued :=
          (h.mem_issued _).mpr ⟨hw, Or.inr ⟨rfl, by simp [hphase]⟩⟩
        have hpos : 0 < (st.issued.filter fun t ↦ ¬ st.Left t).countP
            fun t ↦ t.write.groupName = w.groupName := by
          refine List.countP_pos_iff.mpr ⟨⟨c, (st.clients c).pos, w⟩, ?_, by simp⟩
          exact List.mem_filter.mpr ⟨hmem, by simp [Transfer.Left]⟩
        have hsplit := List.countP_eq_countP_filter_add st.issued
          (fun t ↦ decide (t.write.groupName = w.groupName)) (fun t ↦ decide (st.Left t))
        rw [List.countP_filter] at hsplit
        simp only [← decide_not, ← Bool.decide_and] at hsplit
        omega
      rw [hempty, hcount, List.length_nil] at htokens
      omega
  intro c w hw
  obtain ⟨k, hk, rfl⟩ := List.getElem_of_mem hw
  have hmem : (⟨c, k, (jobs c)[k]⟩ : Ticket n) ∈ st.issued := by
    refine (h.mem_issued _).mpr ⟨by simp [hk], Or.inl ?_⟩
    have := List.getElem?_eq_none_iff.mp (hdone c)
    exact hk.trans_le this
  rw [← hlog] at hmem
  obtain ⟨e, he, heq⟩ := List.mem_map.mp hmem
  exact ⟨e, he, by rw [heq], by rw [heq]⟩

/-! ## Every run ends

Each step uses up part of the work: the steps a client still has to make, with the node's work for
groups not yet announced, and the node's work for the commands on its list and in its hands. -/

/-- The steps for a group that is not announced: the client's and the node's. -/
def Write.work (w : Write) : ℕ := 2 * pktNum w.size + 6

/-- The steps left for the group a client is at. -/
def Write.workIn (w : Write) : ClientPhase → ℕ
  | .command => w.work
  | .send k _ => pktNum w.size - k + 2
  | .wait => 1

def clientWork (ws : List Write) (s : ClientState) : ℕ :=
  ((ws.drop (s.pos + 1)).map Write.work).sum + (ws[s.pos]?.map fun w ↦ w.workIn s.phase).getD 0

theorem clientWork_eq {ws : List Write} {k : ℕ} {w : Write} (hw : ws[k]? = some w)
    (phase : ClientPhase) :
    clientWork ws ⟨k, phase⟩ = ((ws.drop (k + 1)).map Write.work).sum + w.workIn phase := by
  simp [clientWork, hw]

/-- The node's steps for an element of its command list. -/
def Item.work (x : Item n) : ℕ :=
  match x.payload with
  | .command _ size => pktNum size + 2
  | _ => 0

/-- The node's steps for the command it is reading. -/
def NodeState.work : NodeState n → ℕ
  | .idle => 0
  | .reading _ size _ i _ => pktNum size - i + 1

def workLeft (jobs : Fin n → List Write) (st : Transfer n) : ℕ :=
  ∑ c, clientWork (jobs c) (st.clients c) + ((st.lists requestKey).map Item.work).sum +
    st.node.work

private theorem sum_clientWork_update (jobs : Fin n → List Write) (st st' : Transfer n) (c : Fin n)
    {s : ClientState} (hclients : ∀ c', st'.clients c' = if c' = c then s else st.clients c') :
    ∑ c', clientWork (jobs c') (st'.clients c') + clientWork (jobs c) (st.clients c) =
      ∑ c', clientWork (jobs c') (st.clients c') + clientWork (jobs c) s := by
  have h' := Finset.add_sum_erase Finset.univ (fun c' ↦ clientWork (jobs c') (st'.clients c'))
    (Finset.mem_univ c)
  have h := Finset.add_sum_erase Finset.univ (fun c' ↦ clientWork (jobs c') (st.clients c'))
    (Finset.mem_univ c)
  have hself : st'.clients c = s := (hclients c).trans (if_pos rfl)
  have hrest : ∑ c' ∈ Finset.univ.erase c, clientWork (jobs c') (st'.clients c') =
      ∑ c' ∈ Finset.univ.erase c, clientWork (jobs c') (st.clients c') :=
    Finset.sum_congr rfl fun c' hc' ↦ by rw [hclients c', if_neg (Finset.ne_of_mem_erase hc')]
  rw [hself] at h'
  omega

private theorem clientWork_leave (ws : List Write) (k : ℕ) :
    clientWork ws ⟨k + 1, .command⟩ = ((ws.drop (k + 1)).map Write.work).sum := by
  cases hk : ws[k + 1]? with
  | none =>
    have hlen := List.getElem?_eq_none_iff.mp hk
    have hnil : ws.drop (k + 1) = [] := List.drop_eq_nil_of_le hlen
    have hnil' : ws.drop (k + 1 + 1) = [] := List.drop_eq_nil_of_le (by omega)
    simp [clientWork, hk, hnil, hnil']
  | some w =>
    obtain ⟨hlt, rfl⟩ := List.getElem?_eq_some_iff.mp hk
    rw [clientWork_eq hk, List.drop_eq_getElem_cons hlt, List.map_cons, List.sum_cons, Nat.add_comm]
    rfl

/-- **Every step uses up work.** -/
theorem TransferInv.workLeft_lt (h : TransferInv jobs st) {m : Mover n}
    (hs : (transferSystem jobs).next st m = some st') : workLeft jobs st' < workLeft jobs st := by
  rcases transferSystem_next_cases hs with ⟨c, w, -, hw, hcase⟩ | ⟨-, hcase⟩
  · have hold : clientWork (jobs c) (st.clients c) = _ := clientWork_eq hw (st.clients c).phase
    rcases hcase with ⟨hphase, hst⟩ | ⟨k, written, hphase, hlt, hst⟩ |
      ⟨k, written, hphase, hge, hst⟩ | ⟨hphase, htoken, hst⟩
    · have hsum := sum_clientWork_update jobs st st' c
        (fun c' ↦ by rw [hst]; exact Transfer.clients_setClient ..)
      have hreq : st'.lists requestKey =
          st.lists requestKey ++ [commandItem ⟨c, (st.clients c).pos, w⟩] := by
        rw [hst]
        exact (Transfer.lists_rpush st requestKey requestKey _).trans (if_pos rfl)
      have hnode : st'.node = st.node := by rw [hst]; rfl
      rw [hold, clientWork_eq hw, hphase] at hsum
      simp only [Write.workIn, Write.work] at hsum
      simp only [workLeft, hreq, hnode, List.map_append, List.sum_append, List.map_singleton,
        List.sum_singleton, Item.work, commandItem]
      omega
    · obtain ⟨w', hw', hk, hwritten⟩ := h.sending c k written hphase
      obtain rfl : w = w' := by simpa [hw] using hw'
      have hkw : k < pktNum w.size := (writtenAfter_lt_iff w.size k).mp (hwritten ▸ hlt)
      have hsum := sum_clientWork_update jobs st st' c
        (fun c' ↦ by rw [hst]; exact Transfer.clients_setClient ..)
      have hreq : st'.lists requestKey = st.lists requestKey := by
        rw [hst]
        exact (Transfer.lists_rpush st _ requestKey _).trans
          (if_neg (clientDataKey_ne_requestKey _ _).symm)
      have hnode : st'.node = st.node := by rw [hst]; rfl
      rw [hold, clientWork_eq hw, hphase] at hsum
      simp only [Write.workIn] at hsum
      simp only [workLeft, hreq, hnode]
      omega
    · have hsum := sum_clientWork_update jobs st st' c
        (fun c' ↦ by rw [hst]; exact Transfer.clients_setClient ..)
      have hreq : st'.lists requestKey = st.lists requestKey := by rw [hst]; rfl
      have hnode : st'.node = st.node := by rw [hst]; rfl
      rw [hold, clientWork_eq hw, hphase] at hsum
      simp only [Write.workIn] at hsum
      simp only [workLeft, hreq, hnode]
      omega
    · have hsum := sum_clientWork_update jobs st st' c
        (fun c' ↦ by rw [hst]; exact Transfer.clients_setClient ..)
      have hreq : st'.lists requestKey = st.lists requestKey := by
        rw [hst]
        exact (Transfer.lists_lpop st _ requestKey).trans
          (if_neg (finishedKey_ne_requestKey _).symm)
      have hnode : st'.node = st.node := by rw [hst]; rfl
      rw [hold, clientWork_leave, hphase] at hsum
      simp only [Write.workIn] at hsum
      simp only [workLeft, hreq, hnode]
      omega
  · rcases hcase with ⟨hidle, g, size, t, rest, hreq, hst⟩ |
      ⟨g, size, t, i, blocks, hread, hcase⟩
    · have hreq' : st'.lists requestKey = rest := by
        rw [hst]
        simpa [hreq] using Transfer.lists_lpop st requestKey requestKey
      have hclients : st'.clients = st.clients := by rw [hst]; rfl
      have hnode : st'.node = .reading g size t 0 [] := by rw [hst]
      simp only [workLeft, hclients, hreq', hnode, hreq, hidle, NodeState.work, List.map_cons,
        List.sum_cons, Item.work]
      omega
    · rcases hcase with ⟨hi, pkt, t', rest, hlist, hst⟩ | ⟨hi, hst⟩
      · have hreq : st'.lists requestKey = st.lists requestKey := by
          rw [hst]
          refine (Transfer.lists_lpop st _ requestKey).trans (if_neg ?_)
          rw [nodeDataKey_eq]
          exact (clientDataKey_ne_requestKey _ _).symm
        have hclients : st'.clients = st.clients := by rw [hst]; rfl
        have hnode : st'.node = .reading g size t (i + 1) (blocks ++ [nodeBlock pkt]) := by rw [hst]
        simp only [workLeft, hclients, hreq, hnode, hread, NodeState.work]
        omega
      · have hreq : st'.lists requestKey = st.lists requestKey := by
          rw [hst]
          exact (Transfer.lists_rpush st _ requestKey _).trans
            (if_neg (finishedKey_ne_requestKey _).symm)
        have hclients : st'.clients = st.clients := by rw [hst]; rfl
        have hnode : st'.node = .idle := by rw [hst]
        simp only [workLeft, hclients, hreq, hnode, hread, NodeState.work]
        omega

/-- **Client-to-node transfer.** For clients with pairwise distinct group names, in every reachable
state of every interleaving:

* every processed command stored exactly the bytes of the group of that name and size;
* both programs use the same key for a packet, and a client pushes packet `k` exactly when the node
  expects a packet `k`, the number of packets being the size divided by the block size, rounded up;
* every packet on its way carries its own length, and every packet on the list the node pops from
  belongs to the group the node is reading;
* when nobody can move, every group of every client is stored, and every run is bounded in
  length. -/
theorem transfer_exact (hnames : DistinctNames jobs) (h : (transferSystem jobs).Reachable st) :
    (∀ e ∈ st.log, ∃ w ∈ jobs e.ticket.client, e.groupName = w.groupName ∧ e.size = w.size ∧
      e.blocks.flatten = w.data) ∧
    (∀ g i, nodeDataKey g i = clientDataKey g i) ∧
    (∀ c k written, (st.clients c).phase = .send k written →
      ∃ w ∈ jobs c, (written < w.size ↔ k < pktNum w.size) ∧
        pktNum w.size = (w.size + (defaultBlockSize - 1)) / defaultBlockSize) ∧
    (∀ g i, ∀ x ∈ st.lists (clientDataKey g i), ∃ pkt, x.payload = .packet pkt ∧
      ntohl pkt + 4 = pkt.length) ∧
    (∀ g size t i blocks, st.node = .reading g size t i blocks →
      ∀ x ∈ st.lists (nodeDataKey g i), x.ticket = t) ∧
    ((∀ m, (transferSystem jobs).next st m = none) → ∀ c, ∀ w ∈ jobs c,
      ∃ e ∈ st.log, e.groupName = w.groupName ∧ e.size = w.size ∧ e.blocks.flatten = w.data) ∧
    ∀ ms st', (transferSystem jobs).run st ms = some st' → ms.length ≤ workLeft jobs st := by
  have hinv := transferInv_of_reachable hnames h
  refine ⟨?_, nodeDataKey_eq, ?_, ?_, ?_, ?_, ?_⟩
  · intro e he
    obtain ⟨hjob, hrest⟩ := hinv.log_exact he
    exact ⟨_, List.mem_of_getElem? hjob, hrest⟩
  · intro c k written hphase
    obtain ⟨w, hw, -, rfl⟩ := hinv.sending c k written hphase
    exact ⟨w, List.mem_of_getElem? hw, writtenAfter_lt_iff w.size k, pktNum_eq w.size⟩
  · intro g i x hx
    obtain ⟨hmem, -, hpacket, hi⟩ := hinv.mem_pending_of_mem_data hx
    refine ⟨_, by rw [hpacket]; rfl, ?_⟩
    exact ntohl_clientPacket x.ticket.write.size_lt (by simp [writtenAfter, Write.size])
  · intro g size t i blocks hread x hx
    have hn := hinv.queues.node
    rw [NodeInv, hread] at hn
    obtain ⟨rest, hrest, -, rfl, -⟩ := hn
    rw [nodeDataKey_eq] at hx
    obtain ⟨hmem, hg, -⟩ := hinv.mem_pending_of_mem_data hx
    exact hinv.eq_of_groupName hnames (mem_issued_of_mem_pending hmem)
      (mem_issued_of_mem_pending (by rw [hrest]; simp)) hg
  · intro hstuck c w hw
    obtain ⟨e, he, rfl, rfl⟩ := hinv.all_stored_of_stuck hstuck c w hw
    exact ⟨e, he, (hinv.log_exact he).2⟩
  · intro ms st' hrun
    refine System.length_le_of_run (P := (transferSystem jobs).Reachable) ?_ h hrun
    intro s m s' hs hnext
    exact ⟨.step hs trivial hnext, (transferInv_of_reachable hnames hs).workLeft_lt hnext⟩

/-- Two clients with one group each, `g` and `h`. -/
def twoNames : Fin 2 → List Write
  | 0 => [⟨['g'], [1], by decide⟩]
  | 1 => [⟨['h'], [2, 3], by decide⟩]

theorem distinctNames_twoNames : DistinctNames twoNames := by
  intro c k w c' k' w' hw hw' hg
  obtain ⟨hk, rfl⟩ := List.getElem?_eq_some_iff.mp hw
  obtain ⟨hk', rfl⟩ := List.getElem?_eq_some_iff.mp hw'
  match c, c' with
  | 0, 0 => simp [twoNames] at hk hk' ⊢; omega
  | 0, 1 => simp [twoNames] at hk hk' hg
  | 1, 0 => simp [twoNames] at hk hk' hg
  | 1, 1 => simp [twoNames] at hk hk' ⊢; omega

/-- The transfer of two groups, both stored at the end of a run. -/
theorem transfer_exact_twoNames :
    ∃ st : Transfer 2, (transferSystem twoNames).Reachable st ∧
      ∃ e ∈ st.log, ∃ w ∈ twoNames e.ticket.client, e.groupName = w.groupName ∧ e.size = w.size ∧
        e.blocks.flatten = w.data := by
  have hstart : (transferSystem twoNames).Reachable (transferStart 2) := .init rfl
  obtain ⟨st, hreach, hlog⟩ := hstart.exists_of_run
    [.client 0, .client 1, .client 1, .client 0, .node, .node, .node, .node, .node, .node]
    (p := fun st ↦ st.log.length = 2) (by decide)
  obtain ⟨e, he⟩ := List.exists_mem_of_length_pos (l := st.log) (by simp_all)
  exact ⟨st, hreach, e, he, (transfer_exact distinctNames_twoNames hreach).1 e he⟩

end UniDedup.Client
