import TraceDispute.Machine.Payload

/-!
# Replay errors
-/

namespace TraceDispute

/-- Why a replay has no answer. -/
inductive ReplayError where
  /-- No machine is stored under this hash. -/
  | unknownCursor (machineHash : Word)
  /-- Another machine is stored under this hash. -/
  | checkpointConflict (machineHash : Word)
  /-- The machine stops before the offset. -/
  | beyondTrace (offset reached : UInt64)
  /-- Offsets went backwards. -/
  | outOfOrder (offset previous : UInt64)
  /-- The session was not opened for this offset. -/
  | notRequested (offset : UInt64)
  /-- The machine at the offset has no step to prove. -/
  | payload (cause : PayloadError)
deriving DecidableEq

/-- The text of a replay error. -/
def ReplayError.message : ReplayError → String
  | .unknownCursor h => s!"no checkpoint stored for machine {h.toHex}"
  | .checkpointConflict h => s!"checkpoint {h.toHex} already holds a different machine"
  | .beyondTrace offset reached =>
    s!"offset {offset} is beyond the trace, execution halted at {reached}"
  | .outOfOrder offset previous => s!"offset {offset} requested after offset {previous}"
  | .notRequested offset => s!"offset {offset} was not requested when the session was opened"
  | .payload cause => cause.message

end TraceDispute
