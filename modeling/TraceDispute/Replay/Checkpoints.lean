import TraceDispute.Replay.Session

/-!
# Checkpoints

Machines stored under their hashes.  A cursor keeps resolving to the machine it
was issued for: another machine with the same hash is refused, and storing the
same machine again changes nothing.
-/

namespace TraceDispute

/-- Stored machines, each under its hash. -/
structure Checkpoints where
  entries : List (Word × Machine) := []
deriving DecidableEq

namespace Checkpoints

/-- No machine stored. -/
def empty : Checkpoints := {}

/-- The machine stored under a hash. -/
def find? (c : Checkpoints) (machineHash : Word) : Option Machine :=
  c.entries.lookup machineHash

/-- Stores a machine and issues the cursor that points at it. -/
def insert (c : Checkpoints) (machine : Machine) : Except ReplayError (Cursor × Checkpoints) :=
  match c.find? machine.hash with
  | some stored =>
    if stored = machine then .ok ({ machineHash := machine.hash }, c)
    else .error (.checkpointConflict machine.hash)
  | none =>
    .ok ({ machineHash := machine.hash }, ⟨(machine.hash, machine) :: c.entries⟩)

/-- Opens a session on the machine that a cursor points at. -/
def openSession (c : Checkpoints) (cursor : Cursor) (overshoot : Bool) (offsets : List UInt64) :
    Except ReplayError Session :=
  match c.find? cursor.machineHash with
  | some machine => Session.start machine overshoot offsets
  | none => .error (.unknownCursor cursor.machineHash)

end Checkpoints

end TraceDispute
