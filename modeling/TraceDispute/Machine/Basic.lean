import TraceDispute.Machine.Instruction
import TraceDispute.Outcome
import TraceDispute.Word

/-!
# The machine

A deterministic machine with one register, an inbox it reads from front to back
and a side buffer of at most 1024 slots.  `Machine.hash` commits to the state
and leaves out the program and the inbox, which are fixed for a dispute.

Positions in the program and in the inbox are 64-bit words, so both lists are
shorter than `UInt64.size`; a position that names an entry can always be advanced.
The length of the side buffer is a word, too.
-/

namespace TraceDispute

theorem emptyBuffer_lt : ([] : List UInt64).length < UInt64.size := by decide

theorem emptyInbox_lt : ([] : List Bytes).length < UInt64.size := by decide

/-- A machine: its program and inbox, and the state they drive. -/
structure Machine where
  program : List Instruction
  inbox : List Bytes
  /-- Position of the next instruction. -/
  pc : UInt64 := 0
  register : UInt64 := 0
  /-- Position of the next inbox message. -/
  inboxPosition : UInt64 := 0
  /-- The side buffer, as long as the highest slot written so far needs. -/
  buffer : List UInt64 := []
  halted : Bool := false
  program_lt : program.length < UInt64.size
  inbox_lt : inbox.length < UInt64.size
  buffer_lt : buffer.length < UInt64.size := by exact emptyBuffer_lt
deriving DecidableEq

namespace Machine

/-- Upper bound on the number of slots of the side buffer. -/
def maxBufferSlots : Nat := 1024

/-- A machine at the start of `program`, if both lists can be indexed. -/
def start? (program : List Instruction) (inbox : List Bytes) : Option Machine :=
  if h : program.length < UInt64.size ∧ inbox.length < UInt64.size then
    some { program, inbox, program_lt := h.1, inbox_lt := h.2 }
  else none

/-- The instruction at the current position, if the program has one there. -/
def next? (m : Machine) : Option Instruction := m.program[m.pc.toNat]?

/-- The message that the next read consumes, if one is left. -/
def message? (m : Machine) : Option Bytes := m.inbox[m.inboxPosition.toNat]?

/-- The gas of every instruction of the program together. -/
def totalGas (m : Machine) : Checked UInt64 :=
  m.program.foldlM (fun gas i => Checked.add gas i.gasCost) 0

/-! ## Commitments -/

/-- The words of the buffer's slots, one after the other. -/
def packBuffer (buffer : List UInt64) : Bytes :=
  buffer.flatMap fun slot => (Word.ofUInt64 slot).bytes

/-- The commitment to a side buffer, its length included. -/
def bufferHash (m : Machine) : Word := keccak (packBuffer m.buffer)

/-- What `hash` is taken over: three words, the buffer's commitment, one flag. -/
def pack (pc register inboxPosition : UInt64) (bufferHash : Word) (halted : Bool) : Bytes :=
  (Word.ofUInt64 pc).bytes ++ (Word.ofUInt64 register).bytes ++
    (Word.ofUInt64 inboxPosition).bytes ++ bufferHash.bytes ++ [if halted then 1 else 0]

/-- The commitment to the state of the machine. -/
def hash (m : Machine) : Word :=
  keccak (pack m.pc m.register m.inboxPosition m.bufferHash m.halted)

end Machine

end TraceDispute
