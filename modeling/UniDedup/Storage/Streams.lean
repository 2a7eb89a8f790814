import UniDedup.Lib.Fold
import UniDedup.Lib.GF256
import UniDedup.Lib.Slices

/-!
# Packets on their way

A client hands the packets of a file to its agent through lists of the local redis server, one list for each
packet number. The agent's threads pass packets on through queues, write them to objects and read them back
from there in packets.

A thread that waits for a packet that never comes waits forever, which is `none`. The queues have no bound, and
no thread that fills a queue waits for the one that empties it: what a thread takes does not depend on how
the threads interleave, and each is run after those that fill its queues.
-/

namespace UniDedup.Storage

open Fold Slices

/-- The data of a packet. -/
abbrev Packet := List GF256

/-- The lists whose keys are one key base with a number. -/
abbrev Cache := ℕ → List Packet

namespace Cache

variable (r : Cache)

def rpush (key : ℕ) (pkt : Packet) : Cache := Function.update r key (r key ++ [pkt])

def blpop (key : ℕ) : Option (Packet × Cache) :=
  match r key with
  | [] => none
  | pkt :: rest => some (pkt, Function.update r key rest)

/-- Push packets under the numbers from `startidx` on. -/
def pushAll (startidx : ℕ) (pkts : List Packet) : Cache :=
  (List.range pkts.length).foldl (fun r i ↦ r.rpush (startidx + i) (pkts.getD i [])) r

/-- Pop one packet for every number of a list. -/
def popAll (keys : List ℕ) : Option (List Packet × Cache) :=
  keys.foldlM (fun s key ↦ (s.2.blpop key).map fun x ↦ (s.1 ++ [x.1], x.2)) ([], r)

variable {r}

theorem pushAll_apply (startidx : ℕ) (pkts : List Packet) (key : ℕ) : r.pushAll startidx pkts key =
    if startidx ≤ key ∧ key < startidx + pkts.length then r key ++ [pkts.getD (key - startidx) []] else r key := by
  rw [pushAll]
  suffices h : ∀ n, (List.range n).foldl (fun r i ↦ r.rpush (startidx + i) (pkts.getD i [])) r key =
      if startidx ≤ key ∧ key < startidx + n then r key ++ [pkts.getD (key - startidx) []] else r key from h _
  intro n
  induction n with
  | zero => rw [if_neg (by omega)]; rfl
  | succ n ih =>
    rw [List.range_succ, List.foldl_append, List.foldl_cons, List.foldl_nil, rpush]
    by_cases hkey : key = startidx + n
    · subst hkey
      rw [Function.update_self, ih, if_neg (by omega), if_pos (by omega), Nat.add_sub_cancel_left]
    · rw [Function.update_of_ne hkey, ih]
      exact if_congr (by omega) rfl rfl

theorem blpop_of_cons {key : ℕ} {pkt : Packet} {rest : List Packet} (h : r key = pkt :: rest) :
    r.blpop key = some (pkt, Function.update r key rest) := by
  rw [blpop, h]

theorem blpop_of_nil {key : ℕ} (h : r key = []) : r.blpop key = none := by
  rw [blpop, h]

/-- What popping gives: the first packet of every list, if there is one in each. -/
theorem popAll_eq {keys : List ℕ} (hkeys : keys.Nodup) : r.popAll keys =
    if ∀ key ∈ keys, r key ≠ [] then
      some (keys.map fun key ↦ (r key).headD [], fun key ↦ if key ∈ keys then (r key).tail else r key)
    else none := by
  induction keys using List.reverseRecOn with
  | nil => simp [popAll]
  | append_singleton keys key ih =>
    obtain ⟨hnodup, -, hdisj⟩ := List.nodup_append.mp hkeys
    have hnot : key ∉ keys := fun hmem ↦ hdisj key hmem key List.mem_cons_self rfl
    rw [popAll, List.foldlM_append]
    change (r.popAll keys).bind _ = _
    rw [ih hnodup]
    by_cases hall : ∀ key ∈ keys, r key ≠ []
    · rw [if_pos hall, Option.bind_some, List.foldlM_cons]
      have hold : (fun key ↦ if key ∈ keys then (r key).tail else r key) key = r key := if_neg hnot
      cases hkey : r key with
      | nil =>
        rw [blpop_of_nil (hold.trans hkey), if_neg]
        · rfl
        · exact fun h ↦ h key (List.mem_append_right _ List.mem_cons_self) hkey
      | cons pkt rest =>
        rw [blpop_of_cons (hold.trans hkey), if_pos]
        · refine congrArg some (Prod.ext ?_ (funext fun key' ↦ ?_))
          · simp [hkey]
          · by_cases heq : key' = key
            · subst heq
              simp [hkey]
            · simp [heq]
        · intro key' hkey'
          rw [List.mem_append, List.mem_singleton] at hkey'
          rcases hkey' with hmem | rfl
          · exact hall key' hmem
          · rw [hkey]
            exact List.cons_ne_nil _ _
    · rw [if_neg hall, if_neg fun h ↦ hall fun key' hmem ↦ h key' (List.mem_append_left _ hmem)]
      rfl

end Cache

/-! ## The threads -/

/-- `loadWorker`: packets from the lists of the client, and a packet of zeros if there is one short. -/
def loadWorker (pktSize : ℕ) (r : Cache) (startid step round : ℕ) (zeropadding : Bool) :
    Option (List Packet × Cache) :=
  (r.popAll ((List.range round).map fun i ↦ startid + i * step)).map fun s ↦
    (if zeropadding then s.1 ++ [List.replicate pktSize 0] else s.1, s.2)

/-- `cacheWorker`: packets from a queue to the lists of the client. -/
def cacheWorker (queue : List Packet) (startidx num : ℕ) (r : Cache) : Option Cache :=
  if num ≤ queue.length then some (r.pushAll startidx (queue.take num)) else none

/-- `FSObjOutputStream::writeObj`: what the object holds. -/
def writeObj (queue : List Packet) (totalPktNum : ℕ) : Option (List GF256) :=
  if totalPktNum ≤ queue.length then some (queue.take totalPktNum).flatten else none

/-- `FSObjInputStream::exist`. An empty object does not count. -/
def exist (obj : List GF256) : Bool := !obj.isEmpty

def readObj (pktSize : ℕ) (obj : List GF256) : List Packet := slices pktSize obj

/-! ## The client -/

/-- The packets an `OECOutputStream` writes. -/
def OECOutputStream.write (pkts : List Packet) (r : Cache) : Cache := r.pushAll 0 pkts

def OECInputStream.readWorker (pktSize filesizeMB : ℕ) (r : Cache) : Option (List Packet × Cache) :=
  r.popAll (List.range (filesizeMB / pktSize))

/-- `OECInputStream::output2file`, which stops at an empty packet. -/
def OECInputStream.output2file (readQueue : List Packet) : List GF256 :=
  (readQueue.takeWhile (!·.isEmpty)).flatten

end UniDedup.Storage
