import UniDedup.Basic
import UniDedup.Lib.Decimal
import UniDedup.Lib.Transition
import Mathlib.Data.Fin.Basic
import Mathlib.Data.List.TakeDrop
import Mathlib.Logic.Function.Basic

/-!
# Sending groups to a node

A client announces a group by pushing a type-0 command with the group name and its size on the list
`destor_request` of the node's Redis, then pushes the bytes in packets of at most one block, packet
`i` on the list `<group>_data_<i>`, and waits for a token on `<group>_data_finished`. The node pops
one command at a time, derives from name and size how many packets there are and on which lists,
pops one packet from each, and pushes the token.

Every `RPUSH` and every `BLPOP` is one step; a pop is possible only when its list is not empty. Any
number of clients run their sequences of groups in any interleaving with the node.

Commands and packets travel on separate lists that are shared by all writers of a group name, and
nothing in the protocol orders them. The *order condition* says that the packets of one name and
index arrive in the order of the commands for that name. Under it the node stores for every command
exactly the bytes of the client that issued it and leaves nothing behind. The condition is void when
all group names differ.
-/

namespace UniDedup.Client

open Decimal Transition

/-! ## Framing and keys -/

/-- `DEFAULT_BLOCK_SIZE`, the same constant in both programs. -/
def defaultBlockSize : ℕ := 1048576

/-- `htonl`: the four bytes of a 32-bit number, most significant first. -/
def htonl (n : ℕ) : Bytes :=
  [UInt8.ofNat (n / 2 ^ 24), UInt8.ofNat (n / 2 ^ 16), UInt8.ofNat (n / 2 ^ 8), UInt8.ofNat n]

/-- `ntohl` of the first four bytes of a packet. -/
def ntohl : Bytes → ℕ
  | a :: b :: c :: d :: _ => a.toNat * 2 ^ 24 + b.toNat * 2 ^ 16 + c.toNat * 2 ^ 8 + d.toNat
  | _ => 0

/-- `this_time_size` of the send loop. -/
def thisTimeSize (size written : ℕ) : ℕ :=
  if size - written ≥ defaultBlockSize then defaultBlockSize else size - written

/-- The packet the send loop builds: the length, then the bytes. -/
def clientPacket (data : Bytes) (written : ℕ) : Bytes :=
  let n := thisTimeSize data.length written
  htonl n ++ (data.drop written).take n

/-- The node's side: read the length, then that many bytes. -/
def nodeBlock (pkt : Bytes) : Bytes := (pkt.drop 4).take (ntohl pkt)

def dataInfix : Name := "_data_".toList

/-- The key the client pushes packet `pktid` on. -/
def clientDataKey (group : Name) (pktid : ℕ) : Name := group ++ dataInfix ++ toDigits pktid

/-- The loop that counts the digits in `intToChar`. -/
def intToCharLen (a : ℕ) : ℕ := if a = 0 then 0 else intToCharLen (a / 10) + 1

/-- The loop that fills the digits in `intToChar`, from the position `i - 1` down. -/
def intToCharFill (a i : ℕ) (p : Name) : Name :=
  if a = 0 then p
  else intToCharFill (a / 10) (i - 1) (p.set (i - 1) (Char.ofNat (a % 10 + '0'.toNat)))
termination_by a
decreasing_by omega

def intToChar (a : ℕ) : Name :=
  if a = 0 then ['0']
  else
    let len := intToCharLen a
    intToCharFill a len (List.replicate len (Char.ofNat 0))

/-- The key `read_data` pops packet `pktid` from. -/
def nodeDataKey (group : Name) (pktid : ℕ) : Name := group ++ dataInfix ++ intToChar pktid

/-- `pktnum` of `read_data`. -/
def pktNum (size : ℕ) : ℕ :=
  size / defaultBlockSize + if size % defaultBlockSize ≠ 0 then 1 else 0

def requestKey : Name := "destor_request".toList

/-- The list the token for a group is pushed on. -/
def finishedKey (group : Name) : Name := group ++ "_data_finished".toList

/-! ## The two programs agree on framing, keys and packet count -/

theorem length_htonl (n : ℕ) : (htonl n).length = 4 := rfl

theorem ntohl_htonl_append {n : ℕ} (h : n < 2 ^ 32) (rest : Bytes) :
    ntohl (htonl n ++ rest) = n := by
  simp only [htonl, List.cons_append, ntohl, UInt8.toNat_ofNat']
  omega

/-- The length prefix round-trips: the node cuts out exactly the bytes the client put in. -/
theorem nodeBlock_clientPacket {data : Bytes} (h : data.length < 2 ^ 32) (written : ℕ) :
    nodeBlock (clientPacket data written) =
      (data.drop written).take (thisTimeSize data.length written) := by
  have hlt : thisTimeSize data.length written < 2 ^ 32 := by
    unfold thisTimeSize
    split_ifs
    · decide
    · omega
  rw [nodeBlock, clientPacket, ntohl_htonl_append hlt, List.drop_left' (length_htonl _),
    List.take_take, min_self]

theorem ntohl_clientPacket {data : Bytes} (h : data.length < 2 ^ 32) {written : ℕ}
    (hw : written ≤ data.length) :
    ntohl (clientPacket data written) + 4 = (clientPacket data written).length := by
  have hle : thisTimeSize data.length written ≤ data.length - written := by
    unfold thisTimeSize
    split_ifs <;> omega
  rw [clientPacket, ntohl_htonl_append (by omega), List.length_append, length_htonl,
    List.length_take, List.length_drop, min_eq_left hle]
  omega

private theorem ofNat_add_zero_eq_digitChar {d : ℕ} (h : d < 10) :
    Char.ofNat (d + '0'.toNat) = Nat.digitChar d := by
  revert d
  decide

private theorem toDigits_snoc {a : ℕ} (h : 10 ≤ a) :
    toDigits a = toDigits (a / 10) ++ [Nat.digitChar (a % 10)] :=
  Nat.toDigits_of_base_le (by omega) h

private theorem intToCharFill_eq {a : ℕ} (ha : a ≠ 0) (p : Name) (hp : intToCharLen a ≤ p.length) :
    intToCharFill a (intToCharLen a) p = toDigits a ++ p.drop (intToCharLen a) := by
  -- on the digits of the number; the buffer beyond the digits is left alone
  induction a using Nat.strong_induction_on generalizing p with
  | _ a ih =>
    have hlen : intToCharLen a = intToCharLen (a / 10) + 1 := by rw [intToCharLen, if_neg ha]
    rw [hlen] at hp ⊢
    rw [intToCharFill, if_neg ha, Nat.add_sub_cancel,
      ofNat_add_zero_eq_digitChar (Nat.mod_lt a (by omega))]
    by_cases h10 : a / 10 = 0
    · have hlt : a < 10 := by omega
      have hzero : intToCharLen 0 = 0 := by rw [intToCharLen, if_pos rfl]
      rw [h10, hzero] at hp ⊢
      rw [intToCharFill, if_pos rfl, toDigits, Nat.toDigits_of_lt_base hlt, Nat.mod_eq_of_lt hlt]
      obtain ⟨x, xs, rfl⟩ := List.exists_cons_of_length_pos hp
      rfl
    · have hsnoc : toDigits a = _ := toDigits_snoc (by omega)
      rw [ih (a / 10) (by omega) h10 _ (by rw [List.length_set]; omega), hsnoc, List.append_assoc]
      congr 1
      rw [List.drop_set, if_neg (lt_irrefl _), Nat.sub_self, List.drop_eq_getElem_cons hp]
      rfl

theorem intToChar_eq_toDigits (a : ℕ) : intToChar a = toDigits a := by
  unfold intToChar
  split_ifs with ha
  · rw [ha]
    rfl
  · rw [intToCharFill_eq ha _ (by simp)]
    simp

theorem nodeDataKey_eq (g : Name) (i : ℕ) : nodeDataKey g i = clientDataKey g i := by
  rw [nodeDataKey, intToChar_eq_toDigits, clientDataKey]

theorem clientDataKey_inj {g g' : Name} {i j : ℕ} (h : clientDataKey g i = clientDataKey g' j) :
    g = g' ∧ i = j := by
  have h' : (g ++ "_data".toList) ++ '_' :: toDigits i =
      (g' ++ "_data".toList) ++ '_' :: toDigits j := by
    simpa [clientDataKey, dataInfix] using h
  obtain ⟨hg, -, hi⟩ := append_sep_toDigits_inj (by decide) (by decide) h'
  exact ⟨List.append_cancel_right hg, hi⟩

theorem clientDataKey_ne_finishedKey (g g' : Name) (i : ℕ) :
    clientDataKey g i ≠ finishedKey g' := by
  have h := append_toDigits_ne_append_of_not_isDigit (p := g ++ dataInfix)
    (q := g' ++ "_data_finishe".toList) (a := 'd') (n := i) (by decide)
  simpa [clientDataKey, finishedKey] using h

theorem clientDataKey_ne_requestKey (g : Name) (i : ℕ) : clientDataKey g i ≠ requestKey :=
  append_toDigits_ne_append_of_not_isDigit (p := g ++ dataInfix) (q := "destor_reques".toList)
    (a := 't') (by decide)

theorem finishedKey_ne_requestKey (g : Name) : finishedKey g ≠ requestKey := by
  intro h
  have hlast := congrArg List.getLast? h
  rw [finishedKey, List.getLast?_append_of_ne_nil _ (by decide)] at hlast
  revert hlast
  decide

theorem finishedKey_inj {g g' : Name} (h : finishedKey g = finishedKey g') : g = g' :=
  List.append_cancel_right h

/-! ## The packets of a group -/

/-- Block `i` of the data. -/
def blockAt (data : Bytes) (i : ℕ) : Bytes :=
  (data.drop (i * defaultBlockSize)).take defaultBlockSize

/-- The number of bytes written after `i` packets. -/
def writtenAfter (size i : ℕ) : ℕ := min (i * defaultBlockSize) size

/-- The node's packet count is the size divided by the block size, rounded up. -/
theorem pktNum_eq (size : ℕ) : pktNum size = (size + (defaultBlockSize - 1)) / defaultBlockSize := by
  unfold pktNum
  split_ifs <;> simp only [defaultBlockSize] at * <;> omega

/-- The client is in its send loop exactly as long as the node expects packets. -/
theorem writtenAfter_lt_iff (size i : ℕ) : writtenAfter size i < size ↔ i < pktNum size := by
  simp only [pktNum_eq, writtenAfter, defaultBlockSize]
  omega

theorem writtenAfter_succ {size i : ℕ} (h : i < pktNum size) :
    writtenAfter size i + thisTimeSize size (writtenAfter size i) = writtenAfter size (i + 1) := by
  have hlt := (writtenAfter_lt_iff size i).mpr h
  unfold thisTimeSize
  split_ifs <;> simp only [writtenAfter, defaultBlockSize] at * <;> omega

theorem nodeBlock_clientPacket_writtenAfter {data : Bytes} (hsize : data.length < 2 ^ 32) {i : ℕ}
    (hi : i < pktNum data.length) :
    nodeBlock (clientPacket data (writtenAfter data.length i)) = blockAt data i := by
  have hlt := (writtenAfter_lt_iff data.length i).mpr hi
  have hw : writtenAfter data.length i = i * defaultBlockSize := by
    simp only [writtenAfter] at *
    omega
  rw [nodeBlock_clientPacket hsize, hw, blockAt, thisTimeSize]
  split_ifs with hge
  · rfl
  · rw [List.take_of_length_le (by rw [List.length_drop]),
      List.take_of_length_le (by rw [List.length_drop]; omega)]

theorem flatten_blockAt (data : Bytes) (k : ℕ) :
    ((List.range k).map (blockAt data)).flatten = data.take (k * defaultBlockSize) := by
  induction k with
  | zero => simp
  | succ k ih =>
    rw [List.range_succ, List.map_append, List.flatten_append, ih, List.map_singleton,
      List.flatten_singleton, blockAt, Nat.succ_mul, List.take_add]

theorem flatten_blocks (data : Bytes) :
    ((List.range (pktNum data.length)).map (blockAt data)).flatten = data := by
  rw [flatten_blockAt, List.take_of_length_le]
  simp only [pktNum_eq, defaultBlockSize]
  omega

/-! ## The parties -/

/-- A group as a client sends it; `size` is a `uint32_t`. -/
structure Write where
  groupName : Name
  data : Bytes
  size_lt : data.length < 2 ^ 32
  deriving DecidableEq

def Write.size (w : Write) : ℕ := w.data.length

/-- A write in the history of the system: who issues it, the how-many-th group of that client it is,
and the group itself. Items and log entries are marked with it; the programs never look at the
mark. -/
structure Ticket (n : ℕ) where
  client : Fin n
  /-- The position of the group in the client's sequence. -/
  index : ℕ
  write : Write
  deriving DecidableEq

/-- What travels on the lists. -/
inductive Payload where
  | command (groupName : Name) (size : ℕ)
  | packet (bytes : Bytes)
  /-- The token that the node has finished. -/
  | token

/-- An element of a list, with the write it belongs to. -/
structure Item (n : ℕ) where
  payload : Payload
  ticket : Ticket n

/-- Where a client is within its current group. -/
inductive ClientPhase where
  | command
  | send (pktid written : ℕ)
  | wait
  deriving DecidableEq

/-- A client: the position of its current group and where it is within it. -/
structure ClientState where
  pos : ℕ
  /-- The progress within the current group. -/
  phase : ClientPhase
  deriving DecidableEq

/-- The node between two commands, or in `read_data` for a command. -/
inductive NodeState (n : ℕ) where
  /-- Blocked on `destor_request`. -/
  | idle
  /-- Reading the packets of a command: `i` packets are read. -/
  | reading (groupName : Name) (size : ℕ) (ticket : Ticket n) (i : ℕ) (blocks : List Bytes)

/-- A processed command with the blocks that were pushed to the read queue for it. -/
structure Stored (n : ℕ) where
  groupName : Name
  size : ℕ
  ticket : Ticket n
  blocks : List Bytes

/-- The clients, the lists of the node's Redis and the node. -/
structure Transfer (n : ℕ) where
  clients : Fin n → ClientState
  lists : Name → List (Item n)
  node : NodeState n
  log : List (Stored n)
  /-- The commands issued so far, in order. -/
  issued : List (Ticket n)

namespace Transfer

variable {n : ℕ}

def rpush (st : Transfer n) (k : Name) (x : Item n) : Transfer n :=
  { st with lists := Function.update st.lists k (st.lists k ++ [x]) }

def lpop (st : Transfer n) (k : Name) : Transfer n :=
  { st with lists := Function.update st.lists k (st.lists k).tail }

def setClient (st : Transfer n) (c : Fin n) (s : ClientState) : Transfer n :=
  { st with clients := Function.update st.clients c s }

/-- One step of a client in `clientWrite`, for the group `w` it is at. -/
def clientStep (st : Transfer n) (c : Fin n) (w : Write) : Option (Transfer n) :=
  let s := st.clients c
  let t : Ticket n := ⟨c, s.pos, w⟩
  match s.phase with
  | .command =>
    let st := st.rpush requestKey ⟨.command w.groupName w.size, t⟩
    some { st.setClient c { s with phase := .send 0 0 } with issued := st.issued ++ [t] }
  | .send pktid written =>
    if written < w.size then
      let st := st.rpush (clientDataKey w.groupName pktid) ⟨.packet (clientPacket w.data written), t⟩
      some (st.setClient c
        { s with phase := .send (pktid + 1) (written + thisTimeSize w.size written) })
    else
      some (st.setClient c { s with phase := .wait })
  | .wait =>
    match st.lists (finishedKey w.groupName) with
    | [] => none
    | _ :: _ =>
      some ((st.lpop (finishedKey w.groupName)).setClient c ⟨s.pos + 1, .command⟩)

def nodeStep (st : Transfer n) : Option (Transfer n) :=
  match st.node with
  | .idle =>
    match st.lists requestKey with
    | ⟨.command groupName size, t⟩ :: _ =>
      some { st.lpop requestKey with node := .reading groupName size t 0 [] }
    | _ => none
  | .reading groupName size t i blocks =>
    if i < pktNum size then
      match st.lists (nodeDataKey groupName i) with
      | ⟨.packet pkt, _⟩ :: _ =>
        some { st.lpop (nodeDataKey groupName i) with
          node := .reading groupName size t (i + 1) (blocks ++ [nodeBlock pkt]) }
      | _ => none
    else
      some { st.rpush (finishedKey groupName) ⟨.token, t⟩ with
        node := .idle, log := st.log ++ [⟨groupName, size, t, blocks⟩] }

end Transfer

/-- Who moves. -/
inductive Mover (n : ℕ) where
  | client (c : Fin n)
  | node

/-- The initial state: every client is before its first group, all lists are empty, the node is
idle. -/
def transferStart (n : ℕ) : Transfer n := ⟨fun _ ↦ ⟨0, .command⟩, fun _ ↦ [], .idle, [], []⟩

/-- The system of all clients and the node. -/
def transferSystem {n : ℕ} (jobs : Fin n → List Write) : System (Transfer n) (Mover n) where
  init st := st = transferStart n
  next st
    | .client c => (jobs c)[(st.clients c).pos]? >>= st.clientStep c
    | .node => st.nodeStep

end UniDedup.Client
