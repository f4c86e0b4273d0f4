import TraceDispute.Replay.Session
import TraceDispute.Segment

/-!
# Events

What the parties and the ledger report while they work, each with the level and
the source it is logged under.
-/

namespace TraceDispute

/-- How important an event is, the least important first. -/
inductive Level where
  | debug
  | info
  | warn
deriving DecidableEq, Repr

/-- The name of a level in a log line. -/
def Level.name : Level → String
  | .debug => "DEBUG"
  | .info => "INFO"
  | .warn => "WARN"

/-- The level that a setting asks for, the middle one if it names none. -/
def Level.ofName : Option String → Level
  | some "debug" => .debug
  | some "warn" => .warn
  | _ => .info

/-- The rank of a level. -/
def Level.rank : Level → Nat
  | .debug => 0
  | .info => 1
  | .warn => 2

/-- Something worth a line in the log. -/
inductive Event where
  /-- A session ran its machine. -/
  | replayed (replay : Replay)
  /-- A claimed cut is not the one replayed. -/
  | diverged (index : Nat) (offset : UInt64)
  /-- The cut at the start of a segment, which has to be agreed, is wrong. -/
  | firstCutWrong (offset : Option UInt64)
  /-- A party has found the segment it disagrees with. -/
  | disputing (party : String) (cut : Nat) (offset : UInt64) (index : Nat) (segment : Segment)
  /-- A division is about to be submitted. -/
  | bisecting (index : Nat) (segment : Segment) (parts : Nat)
  /-- A one-step proof is about to be submitted. -/
  | proving (index : Nat) (offset : UInt64)
  /-- The ledger has recorded a division. -/
  | recordedBisection (index : Nat) (segment : Segment) (parts : Nat) (transaction : Word)
  /-- The ledger has recorded a one-step proof. -/
  | recordedProof (index machineBytes bufferBytes : Nat) (transaction : Word)
  /-- A node has taken a transaction. -/
  | sent (transaction : Word)
  /-- A party stopped waiting for a receipt. -/
  | stoppedWaiting (transaction : Word)
  /-- A line of the simulation itself. -/
  | note (text : String)
deriving DecidableEq

namespace Event

/-- The level an event is logged at. -/
def level : Event → Level
  | .replayed .. | .diverged .. => .debug
  | .firstCutWrong .. | .stoppedWaiting .. => .warn
  | .disputing .. | .bisecting .. | .proving .. | .recordedBisection .. | .recordedProof ..
  | .sent .. | .note .. => .info

/-- The source an event is logged under. -/
def source : Event → String
  | .replayed .. => "xlayer_dispute_core::tracker"
  | .diverged .. | .firstCutWrong .. | .bisecting .. | .proving .. =>
    "xlayer_dispute_host::challenge"
  | .disputing .. => "xlayer_dispute_host::challenger"
  | .recordedBisection .. | .recordedProof .. => "xlayer_dispute_host::ledger"
  | .sent .. | .stoppedWaiting .. => "xlayer_dispute_host::rpc"
  | .note .. => "challenger"

/-- An offset that may be missing. -/
def optionalOffset : Option UInt64 → String
  | some offset => s!"Some({offset})"
  | none => "None"

/-- The range of a segment whose end is known to fit. -/
def range (s : Segment) : String := s!"[{s.start}, {s.start + s.length})"

/-- The text of an event. -/
def message : Event → String
  | .replayed r => s!"Replayed {r.gas} gas to offset {r.offset} (total {r.total})"
  | .diverged index offset => s!"Claimed cut {index} at offset {offset} diverges"
  | .firstCutWrong offset => s!"First cut at offset {optionalOffset offset} already wrong"
  | .disputing party cut offset index segment =>
    s!"[{party}] Disagree with cut {cut} at offset {offset}, disputing segment {index} {range segment}"
  | .bisecting index segment parts =>
    s!"Bisecting segment {index} {range segment} into {parts} parts"
  | .proving index offset =>
    s!"Submitting one-step proof for segment {index} at offset {offset}"
  | .recordedBisection index segment parts transaction =>
    s!"Ledger: segment {index} at {segment.start} (length {segment.length}) " ++
      s!"bisected into {parts} parts, tx={transaction.toHex}"
  | .recordedProof index machineBytes bufferBytes transaction =>
    s!"Ledger: one-step proof for segment {index} " ++
      s!"({machineBytes} + {bufferBytes} proof bytes), tx={transaction.toHex}"
  | .sent transaction => s!"  tx_hash: {transaction.toHex}"
  | .stoppedWaiting transaction => s!"Stopped waiting for receipt of {transaction.toHex}"
  | .note text => text

/-- The log line of an event, without a time stamp. -/
def line (e : Event) : String := s!"{e.level.name} {e.source}: {e.message}"

end Event

end TraceDispute
