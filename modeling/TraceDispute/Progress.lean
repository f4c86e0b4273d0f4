import TraceDispute.Machine.Execute

/-!
# Cursors and progress

A cursor names a machine by its hash, with the totals used up before it.
Progress is what a replay reports at one offset, relative to the cursor it
started from: counters, two accumulators over what was sent and logged, and the
hash of the machine reached.
-/

namespace TraceDispute

/-- What a replay has used and produced since its cursor. -/
structure Progress where
  gasUsed : UInt64
  messagesRead : UInt64
  sendCount : UInt64
  logCount : UInt64
  /-- Running hash over the messages sent. -/
  sendAcc : Word
  /-- Running hash over the log entries. -/
  logAcc : Word
  /-- The machine reached. -/
  machineHash : Word
deriving DecidableEq

namespace Progress

/-- Progress at the cursor itself: nothing used, nothing produced. -/
def start (machineHash : Word) : Progress where
  gasUsed := 0
  messagesRead := 0
  sendCount := 0
  logCount := 0
  sendAcc := .zero
  logAcc := .zero
  machineHash := machineHash

/-- An accumulator after one more item. -/
def accumulate (acc : Word) (item : Bytes) : Word := keccakPair acc (keccak item)

/-- Folds the effects of a run into the running totals; `machineHash` is the
machine that the run ended in. -/
def apply (p : Progress) (e : Effects) (machineHash : Word) : Checked Progress := do
  let gasUsed ← Checked.add p.gasUsed e.gasUsed
  let messagesRead ← Checked.add p.messagesRead e.messagesRead
  let sendCount ← Checked.add p.sendCount (UInt64.ofNat e.sends.size)
  let logCount ← Checked.add p.logCount (UInt64.ofNat e.logs.size)
  return {
    gasUsed, messagesRead, sendCount, logCount
    sendAcc := e.sends.toList.foldl accumulate p.sendAcc
    logAcc := e.logs.toList.foldl accumulate p.logAcc
    machineHash }

end Progress

/-- A point of a claimed execution from which a replay can resume. -/
structure Cursor where
  /-- The machine it points at. -/
  machineHash : Word
  totalGas : UInt64 := 0
  totalMessagesRead : UInt64 := 0
  totalSendCount : UInt64 := 0
  totalLogCount : UInt64 := 0
deriving DecidableEq

/-- The cursor reached by making this progress. -/
def Cursor.advance (c : Cursor) (p : Progress) : Checked Cursor := do
  let totalGas ← Checked.add c.totalGas p.gasUsed
  let totalMessagesRead ← Checked.add c.totalMessagesRead p.messagesRead
  let totalSendCount ← Checked.add c.totalSendCount p.sendCount
  let totalLogCount ← Checked.add c.totalLogCount p.logCount
  return {
    machineHash := p.machineHash
    totalGas, totalMessagesRead, totalSendCount, totalLogCount }

end TraceDispute
