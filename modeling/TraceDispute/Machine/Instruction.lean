/-!
# Instructions

The instruction set of the disputed machine, with its gas schedule.
-/

namespace TraceDispute

/-- An instruction of the machine. -/
inductive Instruction where
  /-- Adds a constant to the register, modulo `2 ^ 64`. -/
  | add (value : UInt64)
  /-- Multiplies the register by a constant, modulo `2 ^ 64`. -/
  | mul (value : UInt64)
  /-- Mixes the next inbox message into the register. -/
  | readInbox
  /-- Sends the register as an outgoing message. -/
  | send
  /-- Emits the register as a log entry. -/
  | log
  /-- Stores the register in a slot of the side buffer. -/
  | bufferWrite (slot : UInt16)
  /-- Stops the machine. -/
  | halt
deriving DecidableEq, Repr

/-- The gas charged for an instruction that completes. -/
def Instruction.gasCost : Instruction → UInt64
  | .add _ => 1
  | .mul _ => 3
  | .readInbox => 10
  | .send => 5
  | .log => 2
  | .bufferWrite _ => 4
  | .halt => 0

end TraceDispute
