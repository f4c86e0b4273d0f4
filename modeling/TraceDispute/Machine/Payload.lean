import TraceDispute.Machine.Basic

/-!
# Proof payloads

The two byte strings submitted with a one-step proof: the state that the next
step starts from (`StepProof`), and the whole side buffer.  Numbers are
little-endian of fixed width, an instruction is a four-byte kind followed by its
operand, an optional word is a one-byte tag followed by the word, and the buffer
is its length followed by its slots.

Each layout has a reader beside its writer.
-/

namespace TraceDispute

/-- The state that a one-step proof starts from. -/
structure StepProof where
  pc : UInt64
  register : UInt64
  inboxPosition : UInt64
  instruction : Instruction
  bufferHash : Word
  /-- Digest of the message that the step consumes, if it reads one. -/
  message : Option Word
deriving DecidableEq

/-- Why a machine has no step to prove. -/
structure PayloadError where
  /-- Where the machine stands. -/
  pc : UInt64
deriving DecidableEq, Repr

/-- The text of a missing step. -/
def PayloadError.message (e : PayloadError) : String :=
  s!"failed to marshal machine proof: machine halted at pc {e.pc}, no step to prove"

/-! ## Writing -/

namespace Instruction

/-- The number of an instruction's kind. -/
def kind : Instruction → Nat
  | .add _ => 0
  | .mul _ => 1
  | .readInbox => 2
  | .send => 3
  | .log => 4
  | .bufferWrite _ => 5
  | .halt => 6

/-- The operand of an instruction: eight bytes, two bytes or none. -/
def operand : Instruction → Bytes
  | .add value => Bytes.littleEndian 8 value.toNat
  | .mul value => Bytes.littleEndian 8 value.toNat
  | .bufferWrite slot => Bytes.littleEndian 2 slot.toNat
  | .readInbox | .send | .log | .halt => []

/-- The kind of an instruction followed by its operand. -/
def encode (i : Instruction) : Bytes := Bytes.littleEndian 4 i.kind ++ i.operand

end Instruction

namespace StepProof

/-- A tag byte, then the word if there is one. -/
def encodeOption : Option Word → Bytes
  | none => [0]
  | some w => 1 :: w.bytes

/-- The fields in order. -/
def encode (p : StepProof) : Bytes :=
  Bytes.littleEndian 8 p.pc.toNat ++ Bytes.littleEndian 8 p.register.toNat ++
    Bytes.littleEndian 8 p.inboxPosition.toNat ++ p.instruction.encode ++ p.bufferHash.bytes ++
    encodeOption p.message

end StepProof

namespace Machine

/-- The digest of the message that carrying out `i` would consume. -/
def consumed? (m : Machine) : Instruction → Option Word
  | .readInbox => m.message?.map keccak
  | _ => none

/-- What the next step starts from, when there is a next step. -/
def stepProof (m : Machine) : Except PayloadError StepProof :=
  match m.next? with
  | some i =>
    if m.halted then .error ⟨m.pc⟩
    else .ok
      { pc := m.pc
        register := m.register
        inboxPosition := m.inboxPosition
        instruction := i
        bufferHash := m.bufferHash
        message := m.consumed? i }
  | none => .error ⟨m.pc⟩

/-- The payload that proves the next step. -/
def machinePayload (m : Machine) : Except PayloadError Bytes :=
  m.stepProof.map StepProof.encode

/-- The payload that opens the side buffer. -/
def bufferPayload (m : Machine) : Bytes :=
  Bytes.littleEndian 8 m.buffer.length ++
    m.buffer.flatMap fun slot => Bytes.littleEndian 8 slot.toNat

end Machine

/-! ## Reading -/

namespace Bytes

/-- Splits off exactly `n` bytes. -/
def take? (n : Nat) (bytes : Bytes) : Option (Bytes × Bytes) :=
  if n ≤ bytes.length then some (bytes.take n, bytes.drop n) else none

/-- Reads a little-endian number of `width` bytes. -/
def readNat? (width : Nat) (bytes : Bytes) : Option (Nat × Bytes) :=
  (bytes.take? width).map fun (field, rest) => (ofLittleEndian field, rest)

/-- Reads a little-endian counter. -/
def readUInt64? (bytes : Bytes) : Option (UInt64 × Bytes) :=
  (readNat? 8 bytes).map fun (n, rest) => (UInt64.ofNat n, rest)

/-- Reads a word. -/
def readWord? (bytes : Bytes) : Option (Word × Bytes) :=
  match bytes.take? 32 with
  | some (field, rest) => (Word.ofBytes? field).map fun w => (w, rest)
  | none => none

end Bytes

/-- Reads an instruction. -/
def Instruction.read? (bytes : Bytes) : Option (Instruction × Bytes) :=
  match Bytes.readNat? 4 bytes with
  | some (0, rest) => (Bytes.readUInt64? rest).map fun (v, rest) => (.add v, rest)
  | some (1, rest) => (Bytes.readUInt64? rest).map fun (v, rest) => (.mul v, rest)
  | some (2, rest) => some (.readInbox, rest)
  | some (3, rest) => some (.send, rest)
  | some (4, rest) => some (.log, rest)
  | some (5, rest) =>
    (Bytes.readNat? 2 rest).map fun (n, rest) => (.bufferWrite (UInt16.ofNat n), rest)
  | some (6, rest) => some (.halt, rest)
  | _ => none

namespace StepProof

/-- Reads an optional word. -/
def readOption? : Bytes → Option (Option Word × Bytes)
  | 0 :: rest => some (none, rest)
  | 1 :: rest => (Bytes.readWord? rest).map fun (w, rest) => (some w, rest)
  | _ => none

/-- Reads a payload that holds one step proof and nothing more. -/
def decode? (bytes : Bytes) : Option StepProof := do
  let (pc, rest) ← Bytes.readUInt64? bytes
  let (register, rest) ← Bytes.readUInt64? rest
  let (inboxPosition, rest) ← Bytes.readUInt64? rest
  let (instruction, rest) ← Instruction.read? rest
  let (bufferHash, rest) ← Bytes.readWord? rest
  let (message, rest) ← readOption? rest
  if rest.isEmpty then
    some { pc, register, inboxPosition, instruction, bufferHash, message }
  else none

end StepProof

/-- Reads `n` slots and nothing more. -/
def readSlots? : Nat → Bytes → Option (List UInt64)
  | 0, bytes => if bytes.isEmpty then some [] else none
  | n + 1, bytes => do
    let (slot, rest) ← Bytes.readUInt64? bytes
    let slots ← readSlots? n rest
    return slot :: slots

/-- Reads a payload that holds one side buffer and nothing more. -/
def decodeBuffer? (bytes : Bytes) : Option (List UInt64) := do
  let (n, rest) ← Bytes.readNat? 8 bytes
  readSlots? n rest

end TraceDispute
