import TraceDispute.Progress

/-!
# Cuts

A cut commits to the state of an execution at one offset.  The contract stores
only its hash, and cuts are compared by nothing else.
-/

namespace TraceDispute

/-- The commitment to an execution at one offset. -/
structure Cut where
  gasUsed : UInt64
  /-- Digest of the messages not read yet. -/
  inboxDelta : Word
  /-- Hash of the machine at this point. -/
  machineState : Word
  sendAcc : Word
  sendCount : UInt64
  logAcc : Word
  logCount : UInt64
deriving DecidableEq

namespace Cut

/-- The cut of a replay that made progress `p`, with the digest of what its
machine has not read. -/
def ofProgress (p : Progress) (inboxDelta : Word) : Cut where
  gasUsed := p.gasUsed
  inboxDelta := inboxDelta
  machineState := p.machineHash
  sendAcc := p.sendAcc
  sendCount := p.sendCount
  logAcc := p.logAcc
  logCount := p.logCount

/-- Everything but the gas, side by side. -/
def packRest (c : Cut) : Bytes :=
  c.inboxDelta.bytes ++ c.machineState.bytes ++ c.sendAcc.bytes ++
    (Word.ofUInt64 c.sendCount).bytes ++ c.logAcc.bytes ++ (Word.ofUInt64 c.logCount).bytes

/-- The hash of everything but the gas. -/
def restHash (c : Cut) : Word := keccak c.packRest

/-- The hash by which cuts are compared. -/
def hash (c : Cut) : Word := keccakPair (Word.ofUInt64 c.gasUsed) c.restHash

end Cut

end TraceDispute
