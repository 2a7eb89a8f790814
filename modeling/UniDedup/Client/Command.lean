import UniDedup.Basic
import UniDedup.Lib.Outcome
import UniDedup.Lib.Word

/-!
# The commands of the node

A client asks a node to store or to return a group by pushing a command on the list `destor_request`:
the type, the length of a name, the name, and a 32-bit number, which is the size of the group for
type 0 and the address of the client for type 1. Integers are in network order.

The encoder exists twice, in the class `destorCommand` of the client and in the functions
`build_destor_command_type0` and `build_destor_command_type1` of the node, each over a buffer of
`MAX_COMMAND_LEN` bytes; the decoder considered here is the node's `destor_cmd_init_with_reqstr`.

The two encoders agree on type 1. On type 0 the node's encoder writes the field `_size` of the record
instead of its argument and never assigns the field, so the two agree exactly when the field held the
size before.
-/

namespace UniDedup

open Outcome

/-- `MAX_COMMAND_LEN`, the same constant in both programs. -/
def maxCommandLen : ℕ := 4096

/-- The ways in which building or reading a command leaves the memory it may touch. -/
inductive CommandFault
  /-- A `memcpy` past the end of the buffer. -/
  | overflow
  /-- A read past the end of the request. -/
  | overrun
  /-- The length of a string is negative or the largest `int`. -/
  | length
deriving DecidableEq

/-! ## The buffer -/

/-- `_destorCmd` and `_cmLen`. -/
structure CommandBuffer where
  destorCmd : Bytes
  cmLen : ℕ

/-- The `int` a length is stored in. -/
@[irreducible] def intOfLength (n : ℕ) : ℤ := Int.bmod n (2 ^ 32)

theorem intOfLength_eq {n : ℕ} (h : n ≤ maxCommandLen) : intOfLength n = n := by
  unfold maxCommandLen at h
  unfold intOfLength
  exact Int.bmod_eq_of_le_mul_two (by omega) (by omega)

namespace CommandBuffer

/-- A new buffer: `calloc(MAX_COMMAND_LEN, sizeof(char))`. -/
def calloc : CommandBuffer := ⟨List.replicate maxCommandLen 0, 0⟩

/-- What is sent: the first `_cmLen` bytes. -/
def written (b : CommandBuffer) : Bytes := b.destorCmd.take b.cmLen

/-- `memcpy(_destorCmd + _cmLen, bs, n); _cmLen += n`. -/
def copyIn (b : CommandBuffer) (bs : Bytes) : Except CommandFault CommandBuffer := do
  check (b.cmLen + bs.length ≤ b.destorCmd.length) .overflow
  return ⟨b.destorCmd.take b.cmLen ++ (bs ++ b.destorCmd.drop (b.cmLen + bs.length)),
    b.cmLen + bs.length⟩

/-- `memcpy(out, _destorCmd + _cmLen, n); _cmLen += n`. -/
def copyOut (b : CommandBuffer) (n : ℕ) : Except CommandFault (Bytes × CommandBuffer) := do
  check (b.cmLen + n ≤ b.destorCmd.length) .overrun
  return ((b.destorCmd.drop b.cmLen).take n, { b with cmLen := b.cmLen + n })

/-- A string: its length as an `int` in network order, then that many bytes. -/
def copyString (b : CommandBuffer) (s : Bytes) : Except CommandFault CommandBuffer := do
  let slen := intOfLength s.length
  let b ← b.copyIn (Word.be 4 slen)
  check (0 ≤ slen) .overflow
  b.copyIn (s.take slen.toNat)

end CommandBuffer

/-! ## The client's encoder -/

namespace Client

/-- The class `destorCommand`. -/
structure DestorCommand where
  /-- `_destorCmd` and `_cmLen`. -/
  cmd : CommandBuffer
  type : ℤ
  groupName : Bytes
  size : UInt32
  filename : Bytes
  localIp : UInt32

namespace DestorCommand

/-- `destorCommand()`: a new buffer; the other members are not initialised. -/
def new (c : DestorCommand) : DestorCommand := { c with cmd := .calloc }

def writeInt (c : DestorCommand) (value : ℤ) : Except CommandFault DestorCommand := do
  return { c with cmd := ← c.cmd.copyIn (Word.be 4 value) }

def writeUInt (c : DestorCommand) (value : UInt32) : Except CommandFault DestorCommand := do
  return { c with cmd := ← c.cmd.copyIn (Word.be 4 value.toNat) }

def writeString (c : DestorCommand) (s : Bytes) : Except CommandFault DestorCommand := do
  return { c with cmd := ← c.cmd.copyString s }

def buildType0 (c : DestorCommand) (type : ℤ) (groupName : Bytes) (size : UInt32) :
    Except CommandFault DestorCommand := do
  let c := { c with type := type, groupName := groupName, size := size }
  let c ← c.writeInt c.type
  let c ← c.writeString c.groupName
  c.writeUInt size

def buildType1 (c : DestorCommand) (type : ℤ) (filename : Bytes) (ip : UInt32) :
    Except CommandFault DestorCommand := do
  let c := { c with type := type, filename := filename, localIp := ip }
  let c ← c.writeInt c.type
  let c ← c.writeString c.filename
  c.writeUInt c.localIp

end DestorCommand

end Client

/-! ## The node's encoder and decoder -/

namespace Node

/-- `struct destor_cmd`. -/
structure DestorCmd where
  /-- `_destorCmd` and `_cmLen`. -/
  cmd : CommandBuffer
  type : ℤ
  groupName : Bytes
  size : UInt32
  toReadFilename : Bytes
  clientIp : UInt32

namespace DestorCmd

/-- `destor_cmd_init`: a new buffer; the other fields stay as they are. -/
def init (c : DestorCmd) : DestorCmd := { c with cmd := .calloc }

/-- `destor_cmd_write_int`. -/
def writeInt (c : DestorCmd) (value : ℤ) : Except CommandFault DestorCmd := do
  return { c with cmd := ← c.cmd.copyIn (Word.be 4 value) }

/-- `destor_cmd_write_uint`. -/
def writeUint (c : DestorCmd) (value : UInt32) : Except CommandFault DestorCmd := do
  return { c with cmd := ← c.cmd.copyIn (Word.be 4 value.toNat) }

/-- `destor_cmd_write_string`. -/
def writeString (c : DestorCmd) (s : Bytes) : Except CommandFault DestorCmd := do
  return { c with cmd := ← c.cmd.copyString (cString s) }

def buildDestorCommandType0 (c : DestorCmd) (type : ℤ) (groupName : Bytes) (_size : UInt32) :
    Except CommandFault DestorCmd := do
  let c := { c with type := type, groupName := cString groupName }
  let c ← c.writeInt c.type
  let c ← c.writeString c.groupName
  -- the field of the record, which nothing has assigned, not the argument
  c.writeUint c.size

def buildDestorCommandType1 (c : DestorCmd) (type : ℤ) (filename : Bytes) (clientIp : UInt32) :
    Except CommandFault DestorCmd := do
  let c := { c with type := type, toReadFilename := cString filename, clientIp := clientIp }
  let c ← c.writeInt c.type
  let c ← c.writeString c.toReadFilename
  c.writeUint c.clientIp

/-- `destor_cmd_read_int`. -/
def readInt (c : DestorCmd) : Except CommandFault (ℤ × DestorCmd) := do
  let (bs, cmd) ← c.cmd.copyOut 4
  return (Word.signed bs.reverse, { c with cmd := cmd })

/-- `destor_cmd_read_uint`. -/
def readUint (c : DestorCmd) : Except CommandFault (UInt32 × DestorCmd) := do
  let (bs, cmd) ← c.cmd.copyOut 4
  return (UInt32.ofNat (Word.unsigned bs.reverse), { c with cmd := cmd })

/-- `destor_cmd_read_string`: the result is used as a C string. -/
def readString (c : DestorCmd) : Except CommandFault (Bytes × DestorCmd) := do
  let (slen, c) ← c.readInt
  check (0 ≤ slen ∧ slen + 1 < 2 ^ 31) .length
  let (bs, cmd) ← c.cmd.copyOut slen.toNat
  return (cString bs, { c with cmd := cmd })

def resolveDestorCommandType0 (c : DestorCmd) : Except CommandFault DestorCmd := do
  let (name, c) ← c.readString
  let (size, c) ← c.readUint
  return { c with groupName := name, size := size }

def resolveDestorCommandType1 (c : DestorCmd) : Except CommandFault DestorCmd := do
  let (name, c) ← c.readString
  let (ip, c) ← c.readUint
  return { c with toReadFilename := name, clientIp := ip }

/-- `destor_cmd_init_with_reqstr` on a request that is followed by the bytes it is followed by. -/
def initWithReqstr (c : DestorCmd) (reqstr : Bytes) : Except CommandFault DestorCmd := do
  let (type, c) ← { c with cmd := ⟨reqstr, 0⟩ }.readInt
  let c := { c with type := type }
  let c ←
    if type = 0 then c.resolveDestorCommandType0
    else if type = 1 then c.resolveDestorCommandType1
    else pure c
  return { c with cmd := ⟨[], 0⟩ }

end DestorCmd

end Node
/-! ## What the encoders write -/

def frame (type : ℤ) (name : Bytes) (value : UInt32) : Bytes :=
  Word.be 4 type ++ (Word.be 4 name.length ++ (name ++ Word.be 4 value.toNat))

namespace CommandBuffer

/-- A buffer of the full size whose first bytes are `ws`. -/
structure Holding (b : CommandBuffer) (ws : Bytes) : Prop where
  size : b.destorCmd.length = maxCommandLen
  cmLen : b.cmLen = ws.length
  written : b.written = ws

theorem holding_calloc : Holding calloc [] := ⟨List.length_replicate, rfl, rfl⟩

variable {b : CommandBuffer} {ws bs s : Bytes}

theorem Holding.copyIn (h : b.Holding ws) (hfit : ws.length + bs.length ≤ maxCommandLen) :
    ∃ b', b.copyIn bs = .ok b' ∧ b'.Holding (ws ++ bs) := by
  have hroom : b.cmLen + bs.length ≤ b.destorCmd.length := by rw [h.cmLen, h.size]; exact hfit
  refine ⟨_, bind_eq_ok.mpr ⟨⟨⟩, check_eq_ok.mpr hroom, rfl⟩, ?_, ?_, ?_⟩
  · simp only [List.length_append, List.length_take, List.length_drop]
    rw [← h.size]
    omega
  · rw [List.length_append, h.cmLen]
  · have hws := h.written
    rw [CommandBuffer.written] at hws
    rw [CommandBuffer.written, hws, ← List.append_assoc, h.cmLen, ← List.length_append,
      List.take_left]

theorem Holding.copyString (h : b.Holding ws) (hfit : ws.length + (s.length + 4) ≤ maxCommandLen) :
    ∃ b', b.copyString s = .ok b' ∧ b'.Holding (ws ++ (Word.be 4 s.length ++ s)) := by
  have hlen : intOfLength s.length = s.length := intOfLength_eq (by omega)
  have hfit₁ : ws.length + (Word.be 4 s.length).length ≤ maxCommandLen := by
    rw [Word.length_be]
    omega
  obtain ⟨b₁, hb₁, h₁⟩ := h.copyIn hfit₁
  have hfit₂ : (ws ++ Word.be 4 s.length).length + s.length ≤ maxCommandLen := by
    rw [List.length_append, Word.length_be]
    omega
  obtain ⟨b₂, hb₂, h₂⟩ := h₁.copyIn hfit₂
  refine ⟨b₂, ?_, by rwa [List.append_assoc] at h₂⟩
  rw [CommandBuffer.copyString, hlen]
  refine bind_eq_ok.mpr ⟨b₁, hb₁, bind_eq_ok.mpr ⟨⟨⟩, check_eq_ok.mpr (by omega), ?_⟩⟩
  rwa [Int.toNat_natCast, List.take_length]

theorem exists_frame {type : ℤ} {name : Bytes} {value : UInt32}
    (hfit : name.length + 12 ≤ maxCommandLen) :
    ∃ b₁ b₂ b₃, calloc.copyIn (Word.be 4 type) = .ok b₁ ∧ b₁.copyString name = .ok b₂ ∧
      b₂.copyIn (Word.be 4 value.toNat) = .ok b₃ ∧ b₃.Holding (frame type name value) := by
  have hfit₁ : ([] : Bytes).length + (Word.be 4 type).length ≤ maxCommandLen := by
    rw [Word.length_be, List.length_nil]
    omega
  obtain ⟨b₁, hb₁, h₁⟩ := holding_calloc.copyIn hfit₁
  rw [List.nil_append] at h₁
  have hfit₂ : (Word.be 4 type).length + (name.length + 4) ≤ maxCommandLen := by
    rw [Word.length_be]
    omega
  obtain ⟨b₂, hb₂, h₂⟩ := h₁.copyString hfit₂
  have hfit₃ : (Word.be 4 type ++ (Word.be 4 name.length ++ name)).length +
      (Word.be 4 value.toNat).length ≤ maxCommandLen := by
    simp only [List.length_append, Word.length_be]
    omega
  obtain ⟨b₃, hb₃, h₃⟩ := h₂.copyIn hfit₃
  refine ⟨b₁, b₂, b₃, hb₁, hb₂, hb₃, ?_⟩
  rwa [List.append_assoc, List.append_assoc] at h₃

end CommandBuffer

section Encoders

variable {name : Bytes} (c : Client.DestorCommand) (d : Node.DestorCmd) (type : ℤ) (value : UInt32)

theorem Client.DestorCommand.written_buildType0 (hfit : name.length + 12 ≤ maxCommandLen) :
    ∃ c', c.new.buildType0 type name value = .ok c' ∧ c'.cmd.written = frame type name value := by
  obtain ⟨b₁, b₂, b₃, h₁, h₂, h₃, hframe⟩ := CommandBuffer.exists_frame hfit
  exact ⟨_, bind_eq_ok.mpr ⟨_, bind_eq_ok.mpr ⟨b₁, h₁, rfl⟩, bind_eq_ok.mpr
    ⟨_, bind_eq_ok.mpr ⟨b₂, h₂, rfl⟩, bind_eq_ok.mpr ⟨b₃, h₃, rfl⟩⟩⟩, hframe.written⟩

theorem Client.DestorCommand.written_buildType1 (hfit : name.length + 12 ≤ maxCommandLen) :
    ∃ c', c.new.buildType1 type name value = .ok c' ∧ c'.cmd.written = frame type name value := by
  obtain ⟨b₁, b₂, b₃, h₁, h₂, h₃, hframe⟩ := CommandBuffer.exists_frame hfit
  exact ⟨_, bind_eq_ok.mpr ⟨_, bind_eq_ok.mpr ⟨b₁, h₁, rfl⟩, bind_eq_ok.mpr
    ⟨_, bind_eq_ok.mpr ⟨b₂, h₂, rfl⟩, bind_eq_ok.mpr ⟨b₃, h₃, rfl⟩⟩⟩, hframe.written⟩

theorem Node.DestorCmd.written_buildDestorCommandType0 (hnul : 0 ∉ name)
    (hfit : name.length + 12 ≤ maxCommandLen) :
    ∃ d', d.init.buildDestorCommandType0 type name value = .ok d' ∧
      d'.cmd.written = frame type name d.size := by
  obtain ⟨b₁, b₂, b₃, h₁, h₂, h₃, hframe⟩ := CommandBuffer.exists_frame hfit
  rw [Node.DestorCmd.buildDestorCommandType0, cString_eq hnul]
  rw [← cString_eq hnul] at h₂
  exact ⟨_, bind_eq_ok.mpr ⟨_, bind_eq_ok.mpr ⟨b₁, h₁, rfl⟩, bind_eq_ok.mpr
    ⟨_, bind_eq_ok.mpr ⟨b₂, h₂, rfl⟩, bind_eq_ok.mpr ⟨b₃, h₃, rfl⟩⟩⟩, hframe.written⟩

theorem Node.DestorCmd.written_buildDestorCommandType1 (hnul : 0 ∉ name)
    (hfit : name.length + 12 ≤ maxCommandLen) :
    ∃ d', d.init.buildDestorCommandType1 type name value = .ok d' ∧
      d'.cmd.written = frame type name value := by
  obtain ⟨b₁, b₂, b₃, h₁, h₂, h₃, hframe⟩ := CommandBuffer.exists_frame hfit
  rw [Node.DestorCmd.buildDestorCommandType1, cString_eq hnul]
  rw [← cString_eq hnul] at h₂
  exact ⟨_, bind_eq_ok.mpr ⟨_, bind_eq_ok.mpr ⟨b₁, h₁, rfl⟩, bind_eq_ok.mpr
    ⟨_, bind_eq_ok.mpr ⟨b₂, h₂, rfl⟩, bind_eq_ok.mpr ⟨b₃, h₃, rfl⟩⟩⟩, hframe.written⟩

end Encoders

/-! ## What the decoder reads -/

/-- The bytes `rest` are what is left to read. -/
def CommandBuffer.Ahead (b : CommandBuffer) (rest : Bytes) : Prop :=
  ∃ consumed, b.destorCmd = consumed ++ rest ∧ b.cmLen = consumed.length

theorem CommandBuffer.Ahead.copyOut {b : CommandBuffer} {bs rest : Bytes} (h : b.Ahead (bs ++ rest)) :
    ∃ b', b.copyOut bs.length = .ok (bs, b') ∧ b'.Ahead rest := by
  obtain ⟨consumed, hmem, hlen⟩ := h
  have hroom : b.cmLen + bs.length ≤ b.destorCmd.length := by
    rw [hmem, hlen, List.length_append, List.length_append]
    omega
  refine ⟨{ b with cmLen := b.cmLen + bs.length }, ?_, consumed ++ bs, ?_, ?_⟩
  · refine bind_eq_ok.mpr ⟨⟨⟩, check_eq_ok.mpr hroom, ?_⟩
    rw [hmem, hlen, List.drop_left, List.take_left]
    rfl
  · rw [List.append_assoc]
    exact hmem
  · rw [List.length_append, ← hlen]

namespace Node.DestorCmd

variable {c : DestorCmd} {name rest : Bytes} {value : UInt32}

theorem readInt_of_ahead {x : ℤ} (hx : -2 ^ 31 ≤ x) (hx' : x < 2 ^ 31)
    (h : c.cmd.Ahead (Word.be 4 x ++ rest)) :
    ∃ b, c.readInt = .ok (x, { c with cmd := b }) ∧ b.Ahead rest := by
  obtain ⟨b, hb, hrest⟩ := h.copyOut
  rw [Word.length_be] at hb
  refine ⟨b, bind_eq_ok.mpr ⟨_, hb, ?_⟩, hrest⟩
  dsimp only
  rw [Word.signed_be (by omega) (by omega)]
  rfl

theorem readUint_of_ahead (h : c.cmd.Ahead (Word.be 4 value.toNat ++ rest)) :
    ∃ b, c.readUint = .ok (value, { c with cmd := b }) ∧ b.Ahead rest := by
  obtain ⟨b, hb, hrest⟩ := h.copyOut
  rw [Word.length_be] at hb
  refine ⟨b, bind_eq_ok.mpr ⟨_, hb, ?_⟩, hrest⟩
  dsimp only
  rw [Word.unsigned_be_of_lt value.toNat_lt, UInt32.ofNat_toNat]
  rfl

theorem readString_of_ahead (hnul : 0 ∉ name) (hlen : name.length + 1 < 2 ^ 31)
    (h : c.cmd.Ahead (Word.be 4 name.length ++ (name ++ rest))) :
    ∃ b, c.readString = .ok (name, { c with cmd := b }) ∧ b.Ahead rest := by
  obtain ⟨b₁, hb₁, h₁⟩ := readInt_of_ahead (by omega) (by omega) h
  obtain ⟨b₂, hb₂, h₂⟩ := h₁.copyOut
  refine ⟨b₂, bind_eq_ok.mpr ⟨_, hb₁, bind_eq_ok.mpr ⟨⟨⟩, check_eq_ok.mpr (by omega), ?_⟩⟩, h₂⟩
  refine bind_eq_ok.mpr ⟨_, hb₂, ?_⟩
  dsimp only
  rw [cString_eq hnul]
  rfl

variable (c) in
theorem reads_frame (type : ℤ) (hnul : 0 ∉ name) (hfit : name.length + 12 ≤ maxCommandLen)
    (htype : -2 ^ 31 ≤ type) (htype' : type < 2 ^ 31) :
    ∃ b₁ b₂ b₃,
      { c with cmd := ⟨frame type name value ++ rest, 0⟩ }.readInt = .ok (type, { c with cmd := b₁ }) ∧
      { c with cmd := b₁, type := type }.readString = .ok (name, { c with cmd := b₂, type := type }) ∧
      { c with cmd := b₂, type := type }.readUint = .ok (value, { c with cmd := b₃, type := type }) := by
  have hstart : CommandBuffer.Ahead ⟨frame type name value ++ rest, 0⟩ (Word.be 4 type ++
      (Word.be 4 name.length ++ (name ++ (Word.be 4 value.toNat ++ rest)))) := by
    refine ⟨[], ?_, rfl⟩
    simp only [frame, List.append_assoc, List.nil_append]
  have hlen : name.length + 1 < 2 ^ 31 := by
    unfold maxCommandLen at hfit
    omega
  obtain ⟨b₁, hb₁, h₁⟩ :=
    readInt_of_ahead (c := { c with cmd := ⟨frame type name value ++ rest, 0⟩ }) htype htype' hstart
  obtain ⟨b₂, hb₂, h₂⟩ :=
    readString_of_ahead (c := { c with cmd := b₁, type := type }) hnul hlen h₁
  obtain ⟨b₃, hb₃, -⟩ := readUint_of_ahead (c := { c with cmd := b₂, type := type }) h₂
  exact ⟨b₁, b₂, b₃, hb₁, hb₂, hb₃⟩

variable (c) in
/-- **The decoder gives back the fields of a type-0 command.** -/
theorem initWithReqstr_frame_zero (hnul : 0 ∉ name) (hfit : name.length + 12 ≤ maxCommandLen) :
    ∃ c', c.initWithReqstr (frame 0 name value ++ rest) = .ok c' ∧ c'.type = 0 ∧
      c'.groupName = name ∧ c'.size = value := by
  obtain ⟨b₁, b₂, b₃, h₁, h₂, h₃⟩ := reads_frame c 0 hnul hfit (by decide) (by decide)
  have hresolve : { c with cmd := b₁, type := 0 }.resolveDestorCommandType0 =
      .ok { c with cmd := b₃, type := 0, groupName := name, size := value } :=
    bind_eq_ok.mpr ⟨_, h₂, bind_eq_ok.mpr ⟨_, h₃, rfl⟩⟩
  refine ⟨{ c with cmd := ⟨[], 0⟩, type := 0, groupName := name, size := value },
    bind_eq_ok.mpr ⟨_, h₁, ?_⟩, rfl, rfl, rfl⟩
  dsimp only
  rw [if_pos rfl]
  exact bind_eq_ok.mpr ⟨_, hresolve, rfl⟩

variable (c) in
/-- **The decoder gives back the fields of a type-1 command.** -/
theorem initWithReqstr_frame_one (hnul : 0 ∉ name) (hfit : name.length + 12 ≤ maxCommandLen) :
    ∃ c', c.initWithReqstr (frame 1 name value ++ rest) = .ok c' ∧ c'.type = 1 ∧
      c'.toReadFilename = name ∧ c'.clientIp = value := by
  obtain ⟨b₁, b₂, b₃, h₁, h₂, h₃⟩ := reads_frame c 1 hnul hfit (by decide) (by decide)
  have hresolve : { c with cmd := b₁, type := 1 }.resolveDestorCommandType1 =
      .ok { c with cmd := b₃, type := 1, toReadFilename := name, clientIp := value } :=
    bind_eq_ok.mpr ⟨_, h₂, bind_eq_ok.mpr ⟨_, h₃, rfl⟩⟩
  refine ⟨{ c with cmd := ⟨[], 0⟩, type := 1, toReadFilename := name, clientIp := value },
    bind_eq_ok.mpr ⟨_, h₁, ?_⟩, rfl, rfl, rfl⟩
  dsimp only
  rw [if_neg (by decide), if_pos rfl]
  exact bind_eq_ok.mpr ⟨_, hresolve, rfl⟩

end Node.DestorCmd

/-! ## The two encoders compared -/

section Agreement

variable (c : Client.DestorCommand) (d : Node.DestorCmd) (name : Bytes) (size ip : UInt32)

/-- Type 0: both encoders write the same bytes, from which the decoder gets type, name and size. -/
def Agree0 : Prop :=
  ∃ c' d', c.new.buildType0 0 name size = .ok c' ∧ d.init.buildDestorCommandType0 0 name size = .ok d' ∧
    c'.cmd.written = d'.cmd.written ∧
    ∀ req ∈ [c'.cmd.written, d'.cmd.written], ∀ (e : Node.DestorCmd) rest,
      ∃ e', e.initWithReqstr (req ++ rest) = .ok e' ∧ e'.type = 0 ∧ e'.groupName = name ∧ e'.size = size

/-- Type 1: both encoders write the same bytes, from which the decoder gets type, name and address. -/
def Agree1 : Prop :=
  ∃ c' d', c.new.buildType1 1 name ip = .ok c' ∧ d.init.buildDestorCommandType1 1 name ip = .ok d' ∧
    c'.cmd.written = d'.cmd.written ∧
    ∀ req ∈ [c'.cmd.written, d'.cmd.written], ∀ (e : Node.DestorCmd) rest,
      ∃ e', e.initWithReqstr (req ++ rest) = .ok e' ∧ e'.type = 1 ∧ e'.toReadFilename = name ∧
        e'.clientIp = ip

variable {name size ip}

theorem frame_injective {type : ℤ} {value value' : UInt32}
    (h : frame type name value = frame type name value') : value = value' := by
  have hbytes : Word.be 4 value.toNat = Word.be 4 value'.toNat :=
    List.append_cancel_left (List.append_cancel_left (List.append_cancel_left h))
  have hnat := congrArg (fun bs ↦ Word.unsigned bs.reverse) hbytes
  rw [Word.unsigned_be_of_lt value.toNat_lt, Word.unsigned_be_of_lt value'.toNat_lt] at hnat
  exact UInt32.toNat_inj.mp hnat

theorem agree0_iff (hnul : 0 ∉ name) (hfit : name.length + 12 ≤ maxCommandLen) :
    Agree0 c d name size ↔ d.size = size := by
  obtain ⟨c', hc, hcw⟩ := c.written_buildType0 0 size hfit
  obtain ⟨d', hd, hdw⟩ := d.written_buildDestorCommandType0 0 size hnul hfit
  constructor
  · rintro ⟨c'', d'', hc'', hd'', heq, -⟩
    obtain rfl : c' = c'' := Except.ok.inj (hc.symm.trans hc'')
    obtain rfl : d' = d'' := Except.ok.inj (hd.symm.trans hd'')
    rw [hcw, hdw] at heq
    exact (frame_injective heq).symm
  · intro hsize
    rw [hsize] at hdw
    refine ⟨c', d', hc, hd, hcw.trans hdw.symm, ?_⟩
    intro req hreq e rest
    obtain rfl : req = frame 0 name size := by
      rcases List.mem_pair.mp hreq with rfl | rfl
      · exact hcw
      · exact hdw
    exact e.initWithReqstr_frame_zero hnul hfit

theorem agree1 (hnul : 0 ∉ name) (hfit : name.length + 12 ≤ maxCommandLen) : Agree1 c d name ip := by
  obtain ⟨c', hc, hcw⟩ := c.written_buildType1 1 ip hfit
  obtain ⟨d', hd, hdw⟩ := d.written_buildDestorCommandType1 1 ip hnul hfit
  refine ⟨c', d', hc, hd, hcw.trans hdw.symm, ?_⟩
  intro req hreq e rest
  obtain rfl : req = frame 1 name ip := by
    rcases List.mem_pair.mp hreq with rfl | rfl
    · exact hcw
    · exact hdw
  exact e.initWithReqstr_frame_one hnul hfit

/-- **The two programs agree on the commands of a name that fits exactly when the size was in the
record of the node's type-0 encoder already.** -/
theorem commands_agree_iff (hnul : 0 ∉ name) (hfit : name.length + 12 ≤ maxCommandLen) :
    Agree0 c d name size ∧ Agree1 c d name ip ↔ d.size = size := by
  rw [agree0_iff c d hnul hfit]
  exact and_iff_left (agree1 c d hnul hfit)

end Agreement

/-- The client's command before it is built. -/
def emptyCommand : Client.DestorCommand := ⟨.calloc, 0, [], 0, [], 0⟩

/-- The node's record as `calloc` returns it. -/
def emptyCmd : Node.DestorCmd := ⟨.calloc, 0, [], 0, [], 0⟩

/-- The name `g`, a record that has the size 7, the address 127.0.0.1. -/
theorem commands_agree_g :
    Agree0 emptyCommand { emptyCmd with size := 7 } [103] 7 ∧
      Agree1 emptyCommand { emptyCmd with size := 7 } [103] 2130706433 :=
  (commands_agree_iff emptyCommand { emptyCmd with size := 7 } (by decide) (by decide)).mpr rfl

/-- A new record and the size 1: the node's encoder writes the size 0. -/
theorem not_agree0_g : ¬Agree0 emptyCommand emptyCmd [103] 1 := by
  rw [agree0_iff emptyCommand emptyCmd (by decide) (by decide)]
  decide

end UniDedup
