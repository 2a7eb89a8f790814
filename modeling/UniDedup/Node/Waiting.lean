import UniDedup.Node.SyncQueue
import UniDedup.Node.System

/-!
# Waiting for a queue

A thread that waits for a condition variable sleeps until someone wakes it, so the calls have to wake whoever can go
on. A push wakes the threads that wait for an item, a pop those that wait for room, and `sync_queue_term` the former
only. This is enough: a thread that sleeps has nothing to do (`waits_of_reachable`), and no producer sleeps while a
consumer does.

A producer that was waiting for room does not look at `term` again, so items may be accepted after a consumer has been
told that there are none. Where nobody waits for room when the queue is terminated, nothing is accepted any more
(`accepted_eq_of_run`), and every phase of the node terminates its queue itself, after its last push.

The node as a whole is modelled over queues without threads, which are pushed to when they have room and popped from
when they are not empty. What a call does to the queue here is what a turn does there (`node_turn`).
-/

namespace UniDedup.Node.Sync

open Transition

variable {α : Type} {size : Int32}

/-! ## Sleeping threads -/

/-- The two condition variables. -/
inductive Cond
  | maxWork
  | minWork
deriving DecidableEq

/-- What a thread waits for that was not woken. -/
def Thread.asleep : Thread α → Option Cond
  | .pushing _ false => some .maxWork
  | .popping false => some .minWork
  | .topping false => some .minWork
  | _ => none

theorem Thread.asleep_wakeMaxWork (th : Thread α) (c : Cond) :
    th.wakeMaxWork.asleep = some c ↔ th.asleep = some c ∧ c = .minWork := by
  rcases th with _ | ⟨item, _ | _⟩ | ⟨_ | _⟩ | ⟨_ | _⟩ <;> rcases c with _ | _ <;> simp [wakeMaxWork, asleep]

theorem Thread.asleep_wakeMinWork (th : Thread α) (c : Cond) :
    th.wakeMinWork.asleep = some c ↔ th.asleep = some c ∧ c = .maxWork := by
  rcases th with _ | ⟨item, _ | _⟩ | ⟨_ | _⟩ | ⟨_ | _⟩ <;> rcases c with _ | _ <;> simp [wakeMinWork, asleep]

/-- What a thread that waits for a condition variable cannot do. -/
def SyncQueue.Lacks (sq : SyncQueue α) : Cond → Prop
  | .maxWork => sq.isFull = true
  | .minWork => sq.queue.size = 0 ∧ sq.term = false

def Waits (s : State α) : Prop := ∀ t c, (s.threads t).asleep = some c → s.sq.Lacks c

namespace Waits

variable {s s' : State α} {t : ℕ}

theorem setThread (h : Waits s) (th : Thread α) (hth : ∀ c, th.asleep = some c → s.sq.Lacks c) :
    Waits (s.setThread t th) := by
  intro u c hu
  by_cases hut : u = t
  · rw [hut, State.threads_setThread_self] at hu
    exact hth c hu
  · rw [State.threads_setThread_of_ne _ hut] at hu
    exact h u c hu

theorem finish (h : Waits s) (e : Event α) : Waits (s.finish t e) :=
  h.setThread .running fun _ hc ↦ absurd hc nofun

theorem broadcastMaxWork (h : ∀ t, (s.threads t).asleep = some .minWork → s.sq.Lacks .minWork) :
    Waits s.broadcastMaxWork := by
  intro t c ht
  obtain ⟨hsleep, rfl⟩ := (Thread.asleep_wakeMaxWork _ c).mp ht
  exact h t hsleep

theorem broadcastMinWork (h : ∀ t, (s.threads t).asleep = some .maxWork → s.sq.Lacks .maxWork) :
    Waits s.broadcastMinWork := by
  intro t c ht
  obtain ⟨hsleep, rfl⟩ := (Thread.asleep_wakeMinWork _ c).mp ht
  exact h t hsleep

theorem pushLoop (h : Waits s) (item : Option α) (mem : Option ℕ) : Waits (s.pushLoop t item mem) := by
  rw [State.pushLoop]
  by_cases hfull : s.sq.isFull = true
  · rw [if_pos hfull]
    refine h.setThread _ fun c hc ↦ ?_
    obtain rfl := Option.some.inj hc
    exact hfull
  · rw [if_neg hfull]
    rcases s.sq.queue.push item mem with e | q
    · exact h
    · have hwoken : Waits (s.setQueue q).broadcastMinWork :=
        broadcastMinWork fun u hu ↦ absurd (h u .maxWork hu) hfull
      exact hwoken.finish _

theorem push (h : Waits s) (item : Option α) (mem : Option ℕ) : Waits (s.push t item mem) := by
  rw [State.push]
  split_ifs with hterm
  · exact h.finish _
  · exact h.pushLoop item mem

theorem pop (h : Waits s) : Waits (s.pop t) := by
  rw [State.pop]
  split_ifs with h0 hterm
  · exact h.finish _
  · refine h.setThread _ fun c hc ↦ ?_
    obtain rfl := Option.some.inj hc
    exact ⟨h0, Bool.not_eq_true _ ▸ hterm⟩
  · rcases s.sq.queue.pop with e | ⟨q, item⟩
    · exact h
    · have hwoken : Waits (s.setQueue q).broadcastMaxWork :=
        broadcastMaxWork fun u hu ↦ absurd (h u .minWork hu).1 h0
      exact hwoken.finish _

theorem getTop (h : Waits s) : Waits (s.getTop t) := by
  rw [State.getTop]
  split_ifs with h0 hterm
  · exact h.finish _
  · refine h.setThread _ fun c hc ↦ ?_
    obtain rfl := Option.some.inj hc
    exact ⟨h0, Bool.not_eq_true _ ▸ hterm⟩
  · rcases s.sq.queue.top with e | item
    · exact h
    · exact h.finish _

theorem term (h : Waits s) : Waits (s.term t) := by
  have hwoken : Waits ({ s with sq := { s.sq with term := true } }).broadcastMinWork :=
    broadcastMinWork fun u hu ↦ h u .maxWork hu
  exact hwoken.finish _

theorem call (h : Waits s) {lab : Label α} (hs : s.call lab = some s') : Waits s' := by
  rcases lab with ⟨t, item, mem⟩ | t | t | t | ⟨t, hit, dup, fuel⟩ | ⟨t, mem⟩ | t
  · rw [State.call] at hs
    split_ifs at hs
    exact Option.some.inj hs ▸ h.push item mem
  · exact Option.some.inj hs ▸ h.pop
  · exact Option.some.inj hs ▸ h.getTop
  · exact Option.some.inj hs ▸ h.term
  · obtain ⟨r, -, rfl⟩ := Option.map_eq_some_iff.mp hs
    rcases r with e | item
    · exact h
    · exact h.finish _
  · obtain ⟨item, -, -, rfl⟩ | rfl | rfl := State.goOn_cases hs
    · exact h.pushLoop item mem
    · exact h.pop
    · exact h.getTop
  · obtain rfl := Option.some.inj hs
    refine h.setThread _ fun c hc ↦ ?_
    obtain ⟨hc, rfl⟩ := (Thread.asleep_wakeMinWork _ c).mp hc
    exact absurd ((Thread.asleep_wakeMaxWork _ _).mp hc).2 (by decide)

end Waits

/-- **No lost wake-up.** A thread that sleeps has nothing to do. -/
theorem waits_of_reachable {s : State α} (h : (system α size).Reachable s) : Waits s := by
  refine System.Reachable.invariant ?_ ?_ h
  · rintro s rfl t c ht
    exact absurd ht nofun
  · intro s lab s' hw hs
    change (if _ then _ else _) = _ at hs
    split_ifs at hs
    exact hw.call hs

theorem not_asleep_both {s : State α} (h : (system α size).Reachable s) {t u : ℕ}
    (ht : (s.threads t).asleep = some .maxWork) : (s.threads u).asleep ≠ some .minWork := by
  intro hu
  have hfull := waits_of_reachable h t _ ht
  have hempty := (waits_of_reachable h u _ hu).1
  rw [SyncQueue.Lacks, SyncQueue.isFull, Bool.and_eq_true, decide_eq_true_iff, decide_eq_true_iff, hempty] at hfull
  exact absurd (hfull.1.trans_le hfull.2) (lt_irrefl 0)

/-! ## After the end -/

def Thread.isPushing : Thread α → Bool
  | .pushing .. => true
  | _ => false

theorem Thread.isPushing_wakeMaxWork (th : Thread α) : th.wakeMaxWork.isPushing = th.isPushing := by
  rcases th with _ | _ | _ | _ <;> rfl

theorem Thread.isPushing_wakeMinWork (th : Thread α) : th.wakeMinWork.isPushing = th.isPushing := by
  rcases th with _ | _ | _ | _ <;> rfl

/-- The queue is terminated, and nobody waits for room. -/
structure Closed (s : State α) : Prop where
  term : s.sq.term = true
  not_pushing : ∀ t, (s.threads t).isPushing = false

theorem accepted_append (log log' : List (Event α)) : accepted (log ++ log') = accepted log ++ accepted log' :=
  List.filterMap_append

namespace Closed

variable {s s' : State α} {t : ℕ}

theorem setThread (h : Closed s) {th : Thread α} (hth : th.isPushing = false) : Closed (s.setThread t th) := by
  refine ⟨h.term, fun u ↦ ?_⟩
  by_cases hut : u = t
  · rw [hut, State.threads_setThread_self, hth]
  · rw [State.threads_setThread_of_ne _ hut, h.not_pushing]

theorem finish (h : Closed s) {e : Event α} (he : accepted [e] = []) :
    Closed (s.finish t e) ∧ accepted (s.finish t e).log = accepted s.log := by
  have hthread : Closed (s.setThread t .running) := h.setThread rfl
  refine ⟨⟨hthread.term, hthread.not_pushing⟩, ?_⟩
  rw [State.finish, accepted_append, he, List.append_nil]

theorem broadcastMaxWork (h : Closed s) : Closed s.broadcastMaxWork :=
  ⟨h.term, fun t ↦ (Thread.isPushing_wakeMaxWork _).trans (h.not_pushing t)⟩

theorem broadcastMinWork (h : Closed s) : Closed s.broadcastMinWork :=
  ⟨h.term, fun t ↦ (Thread.isPushing_wakeMinWork _).trans (h.not_pushing t)⟩

theorem pop (h : Closed s) : Closed (s.pop t) ∧ accepted (s.pop t).log = accepted s.log := by
  rw [State.pop]
  by_cases h0 : s.sq.queue.size = 0
  · rw [if_pos h0, if_pos h.term]
    exact h.finish rfl
  · rw [if_neg h0]
    rcases s.sq.queue.pop with e | ⟨q, item⟩
    · exact ⟨⟨h.term, h.not_pushing⟩, rfl⟩
    · have hset : Closed (s.setQueue q) := ⟨h.term, h.not_pushing⟩
      exact hset.broadcastMaxWork.finish rfl

theorem getTop (h : Closed s) : Closed (s.getTop t) ∧ accepted (s.getTop t).log = accepted s.log := by
  rw [State.getTop]
  by_cases h0 : s.sq.queue.size = 0
  · rw [if_pos h0, if_pos h.term]
    exact h.finish rfl
  · rw [if_neg h0]
    rcases s.sq.queue.top with e | item
    · exact ⟨⟨h.term, h.not_pushing⟩, rfl⟩
    · exact h.finish rfl

theorem call (h : Closed s) {lab : Label α} (hs : s.call lab = some s') :
    Closed s' ∧ accepted s'.log = accepted s.log := by
  rcases lab with ⟨t, item, mem⟩ | t | t | t | ⟨t, hit, dup, fuel⟩ | ⟨t, mem⟩ | t
  · rw [State.call, State.push, if_pos h.term] at hs
    split_ifs at hs
    exact Option.some.inj hs ▸ h.finish rfl
  · exact Option.some.inj hs ▸ h.pop
  · exact Option.some.inj hs ▸ h.getTop
  · have hset : Closed { s with sq := { s.sq with term := true } } := ⟨rfl, h.not_pushing⟩
    exact Option.some.inj hs ▸ hset.broadcastMinWork.finish rfl
  · obtain ⟨r, -, rfl⟩ := Option.map_eq_some_iff.mp hs
    rcases r with e | item
    · exact ⟨⟨h.term, h.not_pushing⟩, rfl⟩
    · exact h.finish rfl
  · obtain ⟨item, hth, -, rfl⟩ | rfl | rfl := State.goOn_cases hs
    · have hpushing := h.not_pushing t
      rw [hth] at hpushing
      exact absurd hpushing.symm Bool.false_ne_true
    · exact h.pop
    · exact h.getTop
  · obtain rfl := Option.some.inj hs
    exact ⟨h.setThread ((h.broadcastMaxWork.broadcastMinWork).not_pushing t), rfl⟩

end Closed

/-- **Nothing is accepted any more** once the queue is terminated and nobody waits for room. -/
theorem accepted_eq_of_run {s s' : State α} (h : Closed s) {labels : List (Label α)}
    (hrun : (system α size).run s labels = some s') : accepted s'.log = accepted s.log := by
  induction labels generalizing s with
  | nil => exact congrArg (accepted ·.log) (Option.some.inj hrun).symm
  | cons lab labels ih =>
    obtain ⟨s₁, hs, hrest⟩ := Option.bind_eq_some_iff.mp hrun
    change (if _ then _ else _) = _ at hs
    split_ifs at hs
    obtain ⟨hclosed, hsame⟩ := h.call hs
    rw [ih hclosed hrest, hsame]

/-! ## The queues of the node model -/

/-- The items that are still to be popped. -/
def State.items (s : State α) : List (Option α) := (accepted s.log).drop (popped s.log).length

/-- The queue of the node model that stands for the state: it holds chunks, so no null pointers. -/
structure Abstracts (s : State Chunk) (q : Node.SyncQueue) : Prop where
  items : s.items = q.items.map some
  term : s.sq.term = q.term

/-- What a thread of the node model does to a queue for at most `queueSize` chunks, any number if this is zero. -/
inductive Turn (queueSize : ℕ) : Node.SyncQueue → Event Chunk → Node.SyncQueue → Prop
  | push {q : Node.SyncQueue} {t : ℕ} {c : Chunk} (h : q.hasRoom queueSize = true) :
    Turn queueSize q (.accepted t (some c)) (q.push c)
  | pop {items : List Chunk} {term : Bool} {t : ℕ} {c : Chunk} :
    Turn queueSize ⟨c :: items, term⟩ (.popped t (some c)) ⟨items, term⟩
  | term {q : Node.SyncQueue} {t : ℕ} : Turn queueSize q (.terminated t) { q with term := true }
  | ended {t : ℕ} : Turn queueSize ⟨[], true⟩ (.ended t) ⟨[], true⟩
  | unseen {t : ℕ} : Turn queueSize ⟨[], true⟩ (.unseen t) ⟨[], true⟩
  | stay {q : Node.SyncQueue} {e : Event Chunk} (h : e.onChannel = none) : Turn queueSize q e q

theorem hasRoom_of_lt {q : Node.SyncQueue} (h : (q.items.length : ℕ∞) < capacity size) :
    q.hasRoom size.toInt.toNat = true := by
  rw [capacity] at h
  rw [Node.SyncQueue.hasRoom, Bool.or_eq_true, decide_eq_true_iff, decide_eq_true_iff]
  split_ifs at h with hpos
  · exact .inr (by exact_mod_cast h)
  · exact .inl (Int.toNat_of_nonpos (not_lt.mp hpos))

theorem channel_eq {s : State α} {l : List (ℕ × Option α)} (h : Inv size l s) {c : Channel.State (Option α)}
    (hc : Channel.Run (capacity size) (history s.log) c) : c = ⟨s.items, s.sq.term⟩ := by
  rcases c with ⟨queued, closed⟩
  have hqueued : queued = s.items := by
    rw [State.items, ← puts_history, ← takes_history]
    exact hc.queued_eq
  have hclosed : closed = s.sq.term := Bool.eq_iff_iff.mpr (hc.closed_iff.trans h.run.closed_iff.symm)
  rw [hqueued, hclosed]

theorem exists_turn {q : Node.SyncQueue} {e : Event Chunk} {c : Channel.Event (Option Chunk)}
    {u : Channel.State (Option Chunk)} (hs : Channel.Step (capacity size) ⟨q.items.map some, q.term⟩ c u)
    (hchan : e.onChannel = some c) (he : ∀ t, e ≠ .accepted t none) :
    ∃ q', Turn size.toInt.toNat q e q' ∧ u = ⟨q'.items.map some, q'.term⟩ := by
  obtain ⟨items, term⟩ := q
  generalize hitems : items.map some = l at hs
  rcases e with ⟨t, item⟩ | _ | _ | ⟨t, item⟩ | t | _ | t | _ | t
  all_goals simp only [Event.onChannel, Option.some_inj, reduceCtorEq] at hchan
  all_goals subst hchan
  · rcases item with _ | chunk
    · exact absurd rfl (he t)
    · rcases hs with hlt | _ | _ | _
      rw [← hitems, List.length_map] at hlt
      refine ⟨_, .push (hasRoom_of_lt (q := ⟨items, term⟩) hlt), ?_⟩
      rw [← hitems, Node.SyncQueue.push, List.map_append, List.map_singleton]
  · rcases hs with _ | _ | _ | _
    obtain ⟨chunk, rest, rfl, rfl, rfl⟩ := List.map_eq_cons_iff.mp hitems
    exact ⟨_, .pop, rfl⟩
  · rcases hs with _ | _ | _ | _
    obtain rfl := List.map_eq_nil_iff.mp hitems
    exact ⟨_, .ended, rfl⟩
  · rcases hs with _ | _ | _ | _
    obtain rfl := List.map_eq_nil_iff.mp hitems
    exact ⟨_, .unseen, rfl⟩
  · rcases hs with _ | _ | _ | _
    subst hitems
    exact ⟨_, .term, rfl⟩

/-- **The node model.** A call that ends does to the queue what a turn of a thread does to it there; where it is a push,
of a chunk. -/
theorem node_turn {s s' : State Chunk} {l l' : List (ℕ × Option Chunk)} (h : Inv size l s) (h' : Inv size l' s')
    {q : Node.SyncQueue} (hq : Abstracts s q) {e : Event Chunk} (hlog : s'.log = s.log ++ [e])
    (he : ∀ t, e ≠ .accepted t none) : ∃ q', Turn size.toInt.toNat q e q' ∧ Abstracts s' q' := by
  rcases hchan : e.onChannel with _ | c
  · have hhist : history s'.log = history s.log := by
      rw [hlog, history_append, history, history, List.filterMap_cons_none hchan, List.filterMap_nil, List.append_nil]
    have hstate := channel_eq h' (hhist ▸ h.run)
    rw [channel_eq h h.run] at hstate
    obtain ⟨hitems, hterm⟩ := Channel.State.mk.inj hstate
    exact ⟨q, .stay hchan, hitems ▸ hq.items, hterm ▸ hq.term⟩
  · have hhist : history s'.log = history s.log ++ [c] := history_split hlog hchan
    have hrun : Channel.Run (capacity size) (history s.log ++ c :: []) _ := hhist ▸ h'.run
    obtain ⟨u, u', hu, hs⟩ := hrun.step
    have hu' := channel_eq h' (hhist ▸ hu.concat hs)
    rw [channel_eq h hu, hq.items, hq.term] at hs
    obtain ⟨q', hturn, heq⟩ := exists_turn hs hchan he
    obtain ⟨hitems, hterm⟩ := Channel.State.mk.inj (hu'.symm.trans heq)
    exact ⟨q', hturn, hitems, hterm⟩

end UniDedup.Node.Sync
