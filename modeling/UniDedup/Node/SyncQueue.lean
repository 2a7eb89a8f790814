import Mathlib.Data.Int.Order.Basic
import UniDedup.Lib.Channel
import UniDedup.Lib.Transition
import UniDedup.Node.Queue

/-!
# The queues between the threads

`sync_queue.c` lets any number of threads push to a queue and pop from it. A mutex is held while the queue is looked
at or changed. A thread that finds no room waits for `max_work`, a thread that finds no element for `min_work`; both
release the mutex while they wait and look again when they have it back. They go on when the condition variable is
broadcast, or at any other time, as POSIX allows.

What a thread does from getting the mutex to giving it away is one step, so a run of the system is an interleaving of
critical sections. The log says how each call ended, in this order. Underneath is the linked list of `queue.c`; above
it the queue is a channel, and that is where its guarantees come from (`handsOver_of_reachable`).
-/

namespace UniDedup.Node.Sync

open Transition

variable {α : Type}

/-- `SyncQueue`, without its mutex and condition variables. -/
structure SyncQueue (α : Type) where
  term : Bool
  maxSize : ℤ
  queue : Queue α

/-- `sync_queue_new`. -/
def SyncQueue.new (size : Int32) : SyncQueue α := ⟨false, size.toInt, .new⟩

def SyncQueue.isFull (sq : SyncQueue α) : Bool := 0 < sq.maxSize && sq.maxSize ≤ sq.queue.size

/-- Where a thread is. One that waits may have been woken. -/
inductive Thread (α : Type)
  | running
  /-- In `sync_queue_push`, waiting for `max_work`. -/
  | pushing (item : Option α) (woken : Bool)
  /-- In `sync_queue_pop`, waiting for `min_work`. -/
  | popping (woken : Bool)
  /-- In `sync_queue_get_top`, waiting for `min_work`. -/
  | topping (woken : Bool)

/-- `pthread_cond_broadcast` for `max_work`. -/
def Thread.wakeMaxWork : Thread α → Thread α
  | .pushing item _ => .pushing item true
  | t => t

/-- `pthread_cond_broadcast` for `min_work`. -/
def Thread.wakeMinWork : Thread α → Thread α
  | .popping _ => .popping true
  | .topping _ => .topping true
  | t => t

/-- How a call of thread `t` ended. -/
inductive Event (α : Type)
  /-- A push has put its item into the queue. -/
  | accepted (t : ℕ) (item : Option α)
  /-- A push has found the queue terminated. -/
  | refused (t : ℕ) (item : Option α)
  | dropped (t : ℕ) (item : Option α)
  | popped (t : ℕ) (item : Option α)
  /-- A pop has found the queue empty and terminated. -/
  | ended (t : ℕ)
  /-- `sync_queue_get_top` has found an item. -/
  | seen (t : ℕ) (item : Option α)
  /-- `sync_queue_get_top` has found the queue empty and terminated. -/
  | unseen (t : ℕ)
  /-- `sync_queue_find` has returned. -/
  | found (t : ℕ) (item : Option α)
  | terminated (t : ℕ)

/-- The queue with the threads that use it. -/
structure State (α : Type) where
  sq : SyncQueue α
  threads : ℕ → Thread α
  log : List (Event α)
  /-- A step that is undefined; it is the last one. -/
  fault : Option QueueFault

/-- A step of thread `t`. A push takes along what `malloc` returns. -/
inductive Label (α : Type)
  /-- `sync_queue_push` until it returns or waits. -/
  | push (t : ℕ) (item : Option α) (mem : Option ℕ)
  /-- `sync_queue_pop`. -/
  | pop (t : ℕ)
  /-- `sync_queue_get_top`. -/
  | getTop (t : ℕ)
  /-- `sync_queue_term`. -/
  | term (t : ℕ)
  /-- `sync_queue_find`, which looks at so many elements at most. -/
  | find (t : ℕ) (hit : Option α → Bool) (dup : Option (α → α)) (fuel : ℕ)
  /-- A thread that was woken has the mutex back and goes on until it returns or waits again. -/
  | goOn (t : ℕ) (mem : Option ℕ)
  | wake (t : ℕ)

namespace State

variable (s : State α)

def setThread (t : ℕ) (thread : Thread α) : State α := { s with threads := Function.update s.threads t thread }

@[simp] theorem threads_setThread_self (t : ℕ) (thread : Thread α) : (s.setThread t thread).threads t = thread :=
  Function.update_self ..

theorem threads_setThread_of_ne {t u : ℕ} (h : u ≠ t) (thread : Thread α) :
    (s.setThread t thread).threads u = s.threads u := Function.update_of_ne h _ _

def setQueue (q : Queue α) : State α := { s with sq := { s.sq with queue := q } }

/-- Thread `t` returns. -/
def finish (t : ℕ) (e : Event α) : State α := { s.setThread t .running with log := s.log ++ [e] }

def broadcastMaxWork : State α := { s with threads := fun t ↦ (s.threads t).wakeMaxWork }

def broadcastMinWork : State α := { s with threads := fun t ↦ (s.threads t).wakeMinWork }

def crash (e : QueueFault) : State α := { s with fault := some e }

/-- `sync_queue_push` from the loop on. -/
def pushLoop (t : ℕ) (item : Option α) (mem : Option ℕ) : State α :=
  if s.sq.isFull then s.setThread t (.pushing item false)
  else
    match s.sq.queue.push item mem with
    | .error e => s.crash e
    | .ok q => (s.setQueue q).broadcastMinWork.finish t
      (if mem.isSome then .accepted t item else .dropped t item)

/-- `sync_queue_push`. Whether the queue is terminated is asked once, before the thread waits for room. -/
def push (t : ℕ) (item : Option α) (mem : Option ℕ) : State α :=
  if s.sq.term then s.finish t (.refused t item) else s.pushLoop t item mem

/-- `sync_queue_pop`. -/
def pop (t : ℕ) : State α :=
  if s.sq.queue.size = 0 then
    if s.sq.term then s.finish t (.ended t) else s.setThread t (.popping false)
  else
    match s.sq.queue.pop with
    | .error e => s.crash e
    | .ok (q, item) => (s.setQueue q).broadcastMaxWork.finish t (.popped t item)

/-- `sync_queue_get_top`. -/
def getTop (t : ℕ) : State α :=
  if s.sq.queue.size = 0 then
    if s.sq.term then s.finish t (.unseen t) else s.setThread t (.topping false)
  else
    match s.sq.queue.top with
    | .error e => s.crash e
    | .ok item => s.finish t (.seen t item)

/-- `sync_queue_term`. -/
def term (t : ℕ) : State α := { s with sq := { s.sq with term := true } }.broadcastMinWork.finish t (.terminated t)

/-- `sync_queue_find`. -/
def find (t : ℕ) (hit : Option α → Bool) (dup : Option (α → α)) (fuel : ℕ) : Option (State α) :=
  (s.sq.queue.find hit fuel).map fun
    | .error e => s.crash e
    | .ok item => s.finish t (.found t (item.map (dup.getD id)))

/-- `malloc` returns a null pointer or memory that is not in use. -/
def mayAllocate (mem : Option ℕ) : Bool := mem.all fun a ↦ (s.sq.queue.eles a).isNone

/-- What the thread does that has got the mutex. -/
def call : Label α → Option (State α)
  | .push t item mem => if s.mayAllocate mem then some (s.push t item mem) else none
  | .pop t => some (s.pop t)
  | .getTop t => some (s.getTop t)
  | .term t => some (s.term t)
  | .find t hit dup fuel => s.find t hit dup fuel
  | .goOn t mem =>
    match s.threads t with
    | .pushing item true => if s.mayAllocate mem then some (s.pushLoop t item mem) else none
    | .popping true => some (s.pop t)
    | .topping true => some (s.getTop t)
    | _ => none
  | .wake t => some (s.setThread t (s.threads t).wakeMaxWork.wakeMinWork)

variable {s}

theorem goOn_cases {t : ℕ} {mem : Option ℕ} {s' : State α} (h : s.call (.goOn t mem) = some s') :
    (∃ item, s.threads t = .pushing item true ∧ s.mayAllocate mem ∧ s.pushLoop t item mem = s') ∨
      s.pop t = s' ∨ s.getTop t = s' := by
  rw [call] at h
  split at h
  · next item hth =>
    split_ifs at h with hmem
    exact .inl ⟨item, hth, hmem, Option.some.inj h⟩
  · exact .inr (.inl (Option.some.inj h))
  · exact .inr (.inr (Option.some.inj h))
  · exact absurd h nofun

end State

/-- The thread of a new call; the other labels are for threads that wait. -/
def Label.caller : Label α → Option ℕ
  | .push t .. => some t
  | .pop t => some t
  | .getTop t => some t
  | .term t => some t
  | .find t .. => some t
  | .goOn .. => none
  | .wake .. => none

/-- A thread can make a call when it is in none of the functions. -/
def Thread.isRunning : Thread α → Bool
  | .running => true
  | _ => false

/-- Any interleaving of any number of threads on a new queue. -/
def system (α : Type) (size : Int32) : System (State α) (Label α) where
  init s := s = ⟨.new size, fun _ ↦ .running, [], none⟩
  next s l := if s.fault = none ∧ l.caller.all (fun t ↦ (s.threads t).isRunning) then s.call l else none

/-! ## The queue as a channel -/

def Event.onChannel : Event α → Option (Channel.Event (Option α))
  | .accepted _ item => some (.put item)
  | .popped _ item => some (.take item)
  | .terminated _ => some .close
  | .ended _ => some .stop
  | .unseen _ => some .stop
  | _ => none

def history (log : List (Event α)) : List (Channel.Event (Option α)) := log.filterMap Event.onChannel

/-- The items that were put into the queue. -/
def accepted (log : List (Event α)) : List (Option α) :=
  log.filterMap fun
    | .accepted _ item => some item
    | _ => none

def popped (log : List (Event α)) : List (Option α) :=
  log.filterMap fun
    | .popped _ item => some item
    | _ => none

theorem history_append (log log' : List (Event α)) : history (log ++ log') = history log ++ history log' :=
  List.filterMap_append

theorem history_cons {e : Event α} {c : Channel.Event (Option α)} (he : e.onChannel = some c) (log : List (Event α)) :
    history (e :: log) = c :: history log := List.filterMap_cons_some he

theorem history_split {log pre post : List (Event α)} {e : Event α} {c : Channel.Event (Option α)}
    (hlog : log = pre ++ e :: post) (he : e.onChannel = some c) : history log = history pre ++ c :: history post := by
  rw [hlog, history_append, history_cons he]

theorem puts_history (log : List (Event α)) : Channel.puts (history log) = accepted log := by
  rw [Channel.puts, history, List.filterMap_filterMap, accepted]
  congr 1
  funext e
  rcases e with _ | _ | _ | _ | _ | _ | _ | _ | _ <;> rfl

theorem takes_history (log : List (Event α)) : Channel.takes (history log) = popped log := by
  rw [Channel.takes, history, List.filterMap_filterMap, popped]
  congr 1
  funext e
  rcases e with _ | _ | _ | _ | _ | _ | _ | _ | _ <;> rfl

/-- A queue whose maximum is not positive takes any number of items. -/
def capacity (size : Int32) : ℕ∞ := if 0 < size.toInt then size.toInt.toNat else ⊤

/-- **The refinement.** The list below the queue holds what the channel holds. -/
structure Inv (size : Int32) (l : List (ℕ × Option α)) (s : State α) : Prop where
  maxSize_eq : s.sq.maxSize = size.toInt
  holds : s.sq.queue.Holds l
  length_lt : l.length < 2 ^ 31
  run : Channel.Run (capacity size) (history s.log) ⟨l.map Prod.snd, s.sq.term⟩
  fault : ∀ e, s.fault = some e → e = .overflow ∧ size.toInt ≤ 0 ∧ l.length + 1 = 2 ^ 31

namespace Inv

variable {size : Int32} {l l' : List (ℕ × Option α)} {s s' : State α} {e : Event α} {t : ℕ}

theorem init : Inv size [] (⟨.new size, fun _ ↦ .running, [], none⟩ : State α) where
  maxSize_eq := rfl
  holds := Queue.holds_new
  length_lt := Nat.two_pow_pos 31
  run := .nil
  fault _ h := absurd h nofun

theorem wait (h : Inv size l s) (hsq : s'.sq = s.sq) (hlog : s'.log = s.log) (hfault : s'.fault = s.fault) :
    Inv size l s' where
  maxSize_eq := hsq ▸ h.maxSize_eq
  holds := hsq ▸ h.holds
  length_lt := h.length_lt
  run := by
    rw [hsq, hlog]
    exact h.run
  fault := hfault ▸ h.fault

theorem silent (h : Inv size l s) (he : e.onChannel = none) (hsq : s'.sq = s.sq) (hlog : s'.log = s.log ++ [e])
    (hfault : s'.fault = s.fault) : Inv size l s' where
  maxSize_eq := hsq ▸ h.maxSize_eq
  holds := hsq ▸ h.holds
  length_lt := h.length_lt
  run := by
    have hhist : history [e] = [] := by
      rw [history, List.filterMap_cons_none he, List.filterMap_nil]
    rw [hsq, hlog, history_append, hhist, List.append_nil]
    exact h.run
  fault := hfault ▸ h.fault

theorem step {c : Channel.Event (Option α)} (h : Inv size l s) (he : e.onChannel = some c)
    (hs : Channel.Step (capacity size) ⟨l.map Prod.snd, s.sq.term⟩ c ⟨l'.map Prod.snd, s'.sq.term⟩)
    (hmax : s'.sq.maxSize = s.sq.maxSize) (hholds : s'.sq.queue.Holds l') (hlt : l'.length < 2 ^ 31)
    (hlog : s'.log = s.log ++ [e]) (hfault : s'.fault = none) : Inv size l' s' where
  maxSize_eq := hmax.trans h.maxSize_eq
  holds := hholds
  length_lt := hlt
  run := by
    rw [history_split hlog he]
    exact h.run.concat hs
  fault e' h' := by
    rw [hfault] at h'
    exact absurd h' nofun

theorem room (h : Inv size l s) (hfull : s.sq.isFull = false) :
    ((l.map Prod.snd).length : ℕ∞) < capacity size ∧ (0 < size.toInt → l.length + 1 < 2 ^ 31) := by
  rw [SyncQueue.isFull, h.maxSize_eq, h.holds.size_eq, Bool.and_eq_false_iff, decide_eq_false_iff_not,
    decide_eq_false_iff_not] at hfull
  have hsize := size.toInt_lt
  rw [List.length_map, capacity]
  split_ifs with hpos
  · have hlt : (l.length : ℤ) < size.toInt := not_le.mp (hfull.resolve_left (not_not.mpr hpos))
    refine ⟨?_, fun _ ↦ by omega⟩
    exact_mod_cast (Int.lt_toNat.mpr hlt)
  · exact ⟨ENat.natCast_lt_top _, fun h ↦ absurd h hpos⟩

theorem pushLoop {mem : Option ℕ} (h : Inv size l s) (hf : s.fault = none) (hmem : s.mayAllocate mem = true)
    (item : Option α) : ∃ l', Inv size l' (s.pushLoop t item mem) := by
  rw [State.pushLoop]
  rcases hfull : s.sq.isFull with _ | _
  · obtain ⟨hroom, hcount⟩ := h.room hfull
    rw [if_neg Bool.false_ne_true]
    rcases mem with _ | a
    · exact ⟨l, h.silent (e := .dropped t item) rfl rfl rfl rfl⟩
    · have ha : s.sq.queue.eles a = none := Option.isNone_iff_eq_none.mp hmem
      by_cases hlt : l.length + 1 < 2 ^ 31
      · obtain ⟨q, hq, hholds⟩ := h.holds.push ha item hlt
        refine ⟨l ++ [(a, item)], ?_⟩
        rw [hq]
        refine h.step (e := .accepted t item) rfl ?_ rfl hholds ?_ rfl hf
        · rw [List.map_append, List.map_singleton]
          exact .put hroom
        · rwa [List.length_append, List.length_singleton]
      · -- The counter is at its end, which takes a queue without a maximum.
        rw [h.holds.push_eq_error ha item (not_lt.mp hlt)]
        have hlen := h.length_lt
        refine ⟨l, h.maxSize_eq, h.holds, hlen, h.run, fun e he ↦ ⟨(Option.some.inj he).symm, ?_, by omega⟩⟩
        exact not_lt.mp fun hpos ↦ hlt (hcount hpos)
  · rw [if_pos rfl]
    exact ⟨l, h.wait rfl rfl rfl⟩

theorem push {mem : Option ℕ} (h : Inv size l s) (hf : s.fault = none) (hmem : s.mayAllocate mem = true)
    (item : Option α) : ∃ l', Inv size l' (s.push t item mem) := by
  rw [State.push]
  split_ifs with hterm
  · exact ⟨l, h.silent (e := .refused t item) rfl rfl rfl rfl⟩
  · exact h.pushLoop hf hmem item

theorem eq_nil (h : Inv size l s) (h0 : s.sq.queue.size = 0) : l = [] := h.holds.elemNum_eq_zero_iff.mp h0

theorem exists_cons (h : Inv size l s) (h0 : s.sq.queue.size ≠ 0) : ∃ a x rest, l = (a, x) :: rest := by
  rcases l with _ | ⟨⟨a, x⟩, rest⟩
  · exact absurd (h.holds.elemNum_eq_zero_iff.mpr rfl) h0
  · exact ⟨a, x, rest, rfl⟩

theorem pop (h : Inv size l s) (hf : s.fault = none) : ∃ l', Inv size l' (s.pop t) := by
  rw [State.pop]
  split_ifs with h0 hterm
  · obtain rfl := h.eq_nil h0
    refine ⟨[], h.step (e := .ended t) rfl ?_ rfl h.holds h.length_lt rfl hf⟩
    show Channel.Step _ ⟨[], s.sq.term⟩ _ ⟨[], s.sq.term⟩
    rw [hterm]
    exact .stop
  · exact ⟨l, h.wait rfl rfl rfl⟩
  · obtain ⟨a, x, rest, rfl⟩ := h.exists_cons h0
    obtain ⟨q, hq, hholds⟩ := h.holds.pop
    rw [hq]
    exact ⟨rest, h.step (e := .popped t x) rfl .take rfl hholds (Nat.lt_of_succ_lt h.length_lt) rfl hf⟩

theorem getTop (h : Inv size l s) (hf : s.fault = none) : ∃ l', Inv size l' (s.getTop t) := by
  rw [State.getTop]
  split_ifs with h0 hterm
  · obtain rfl := h.eq_nil h0
    refine ⟨[], h.step (e := .unseen t) rfl ?_ rfl h.holds h.length_lt rfl hf⟩
    show Channel.Step _ ⟨[], s.sq.term⟩ _ ⟨[], s.sq.term⟩
    rw [hterm]
    exact .stop
  · exact ⟨l, h.wait rfl rfl rfl⟩
  · obtain ⟨a, x, rest, rfl⟩ := h.exists_cons h0
    rw [h.holds.top]
    exact ⟨_, h.silent (e := .seen t x) rfl rfl rfl rfl⟩

theorem term (h : Inv size l s) (hf : s.fault = none) : ∃ l', Inv size l' (s.term t) :=
  ⟨l, h.step (e := .terminated t) rfl .close rfl h.holds h.length_lt rfl hf⟩

theorem find (h : Inv size l s) {hit : Option α → Bool} {dup : Option (α → α)} {fuel : ℕ}
    (hs : s.find t hit dup fuel = some s') : ∃ l', Inv size l' s' := by
  obtain ⟨r, hr, rfl⟩ := Option.map_eq_some_iff.mp hs
  obtain rfl := h.holds.eq_of_find hr
  exact ⟨l, h.silent rfl rfl rfl rfl⟩

theorem call (h : Inv size l s) (hf : s.fault = none) {lab : Label α} (hs : s.call lab = some s') :
    ∃ l', Inv size l' s' := by
  rcases lab with ⟨t, item, mem⟩ | t | t | t | ⟨t, hit, dup, fuel⟩ | ⟨t, mem⟩ | t
  · rw [State.call] at hs
    split_ifs at hs with hmem
    obtain rfl := Option.some.inj hs
    exact h.push hf hmem item
  · obtain rfl := Option.some.inj hs
    exact h.pop hf
  · obtain rfl := Option.some.inj hs
    exact h.getTop hf
  · obtain rfl := Option.some.inj hs
    exact h.term hf
  · exact h.find hs
  · obtain ⟨item, -, hmem, rfl⟩ | rfl | rfl := State.goOn_cases hs
    · exact h.pushLoop hf hmem item
    · exact h.pop hf
    · exact h.getTop hf
  · obtain rfl := Option.some.inj hs
    exact ⟨l, h.wait rfl rfl rfl⟩

/-- **One step.** -/
theorem next (h : Inv size l s) {lab : Label α} (hs : (system α size).next s lab = some s') : ∃ l', Inv size l' s' := by
  change (if _ then _ else _) = _ at hs
  split_ifs at hs with hcan
  exact h.call hcan.1 hs

end Inv

/-- **Every run.** -/
theorem exists_inv {size : Int32} {s : State α} (h : (system α size).Reachable s) : ∃ l, Inv size l s := by
  refine System.Reachable.invariant (P := fun s ↦ ∃ l, Inv size l s) ?_ ?_ h
  · rintro s rfl
    exact ⟨[], .init⟩
  · rintro s lab s' ⟨l, hl⟩ hs
    exact hl.next hs

/-! ## What the threads can rely on -/

def Event.popReturns : Event α → Option (Option α)
  | .popped _ item => some item
  | .ended _ => some none
  | _ => none

theorem Event.eq_of_popReturns {e : Event α} (h : e.popReturns = some none) :
    ∃ t, e = .popped t none ∨ e = .ended t := by
  rcases e with _ | _ | _ | ⟨t, item⟩ | t | _ | _ | _ | _
  all_goals simp only [popReturns, Option.some_inj, reduceCtorEq] at h
  · exact ⟨t, .inl (h ▸ rfl)⟩
  · exact ⟨t, .inr rfl⟩

/-- What holds of a queue for at most `size` items, for any number if `size` is not positive. -/
structure HandsOver (size : Int32) (s : State α) : Prop where
  /-- The items are popped in the order in which they were accepted. -/
  popped_prefix : popped s.log <+: accepted s.log
  /-- From `first` on, the links lead to the items that are still to be popped; `last` is the last one, and
  `elem_num` their number. -/
  consistent : ∃ l, Linked.Listed s.sq.queue.eles s.sq.queue.first s.sq.queue.last l ∧
    s.sq.queue.elemNum = l.length ∧ accepted s.log = popped s.log ++ l.map Prod.snd
  bounded : 0 < size.toInt → s.sq.queue.elemNum ≤ size.toInt
  /-- When a pop returns a null pointer, and none was pushed, the queue had been terminated and all items accepted
  before had been popped. -/
  drained : ∀ pre e post, s.log = pre ++ e :: post → e.popReturns = some none → none ∉ accepted pre →
    (∃ t, .terminated t ∈ pre) ∧ popped pre = accepted pre
  /-- Nothing undefined happens, but for the push to a queue without a maximum that holds as many items as an `int`
  can count. -/
  defined : ∀ e, s.fault = some e → e = .overflow ∧ size.toInt ≤ 0 ∧ s.sq.queue.elemNum = 2 ^ 31 - 1

theorem exists_terminated {log : List (Event α)} (h : .close ∈ history log) : ∃ t, .terminated t ∈ log := by
  obtain ⟨e, he, hclose⟩ := List.mem_filterMap.mp h
  rcases e with _ | _ | _ | _ | _ | _ | _ | _ | t
  all_goals first | exact ⟨t, he⟩ | exact absurd hclose nofun

theorem mem_accepted_of_popped {size : Int32} {l : List (ℕ × Option α)} {s : State α} (h : Inv size l s)
    {pre post : List (Event α)} {t : ℕ} {item : Option α} (hlog : s.log = pre ++ .popped t item :: post) :
    item ∈ accepted pre := by
  have hrun : Channel.Run (capacity size) (history pre ++ .take item :: history post) _ := history_split hlog rfl ▸ h.run
  obtain ⟨c, c', hc, hs⟩ := hrun.step
  rcases hs with _ | _ | _ | _
  rw [← puts_history, hc.puts_eq]
  exact List.mem_append_right _ List.mem_cons_self

/-- **The hand-off.** In every run of any number of producers and consumers. -/
theorem handsOver_of_reachable (size : Int32) {s : State α} (h : (system α size).Reachable s) : HandsOver size s := by
  obtain ⟨l, hl⟩ := exists_inv h
  have hputs := hl.run.puts_eq
  rw [puts_history, takes_history] at hputs
  refine ⟨?_, ⟨l, hl.holds.listed, hl.holds.elemNum_eq, hputs⟩, fun hpos ↦ ?_, ?_, fun e he ↦ ?_⟩
  · rw [← puts_history, ← takes_history]
    exact hl.run.takes_prefix
  · have hle := hl.run.length_le
    rw [capacity, if_pos hpos, List.length_map, Nat.cast_le] at hle
    rw [hl.holds.elemNum_eq]
    omega
  · intro pre e post hlog hret hnull
    obtain ⟨t, rfl | rfl⟩ := Event.eq_of_popReturns hret
    · -- A null pointer that was popped had been accepted.
      exact absurd (mem_accepted_of_popped hl hlog) hnull
    · have hrun : Channel.Run (capacity size) (history pre ++ .stop :: history post) _ := history_split hlog rfl ▸ hl.run
      obtain ⟨hclose, heq⟩ := hrun.stop
      rw [puts_history, takes_history] at heq
      exact ⟨exists_terminated hclose, heq⟩
  · obtain ⟨rfl, hsize, hlen⟩ := hl.fault e he
    rw [hl.holds.elemNum_eq]
    exact ⟨rfl, hsize, by omega⟩

/-- Two producers and a consumer on a queue for one item: the second producer is still waiting for room when the queue
is terminated. -/
theorem handsOver_waitingProducer :
    ∃ s, (system Char 1).Reachable s ∧ popped s.log = [some 'a', some 'b'] ∧ HandsOver 1 s := by
  let labels : List (Label Char) := [.push 0 (some 'a') (some 7), .push 1 (some 'b') (some 8), .pop 2, .term 0,
    .goOn 1 (some 8), .pop 2, .pop 2]
  have hrun : ((system Char 1).run ⟨.new 1, fun _ ↦ .running, [], none⟩ labels).any
      (fun s ↦ popped s.log == [some 'a', some 'b']) = true := by decide
  obtain ⟨s, hs, hpopped⟩ := System.Reachable.exists_of_run (.init rfl) labels hrun
  exact ⟨s, hs, beq_iff_eq.mp hpopped, handsOver_of_reachable 1 hs⟩

end UniDedup.Node.Sync
