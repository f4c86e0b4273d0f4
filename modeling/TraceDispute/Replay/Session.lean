import TraceDispute.Progress
import TraceDispute.Replay.Error

/-!
# Replay sessions

A session replays one machine forward through a sorted list of offsets.  What it
answers is remembered, so asking again for the same offset runs nothing.
Requests only move forward, so the machine always stands at the latest one.

An operation returns the session it leaves behind together with its answer: a
refused request can still have moved the machine.
-/

namespace TraceDispute

/-- One run of the machine on behalf of a request. -/
structure Replay where
  /-- Gas used by this run. -/
  gas : UInt64
  /-- The offset asked for. -/
  offset : UInt64
  /-- Gas used since the cursor. -/
  total : UInt64
deriving DecidableEq, Repr

/-- A replay in progress. -/
structure Session where
  machine : Machine
  /-- Progress at the machine's present position. -/
  progress : Progress
  /-- Whether the instruction that crosses an offset is carried out. -/
  overshoot : Bool
  /-- The offsets that the session was opened for. -/
  offsets : List UInt64
  /-- Answers so far, latest first. -/
  answers : List (UInt64 × Progress) := []
  /-- The latest request that was in order. -/
  last : Option UInt64 := none
  /-- The runs so far, latest first. -/
  replays : List Replay := []
deriving DecidableEq

namespace Session

/-- The first two neighbours of a list that are out of order. -/
def firstDescent : List UInt64 → Option (UInt64 × UInt64)
  | x :: y :: rest => if y < x then some (x, y) else firstDescent (y :: rest)
  | _ => none

/-- Opens a session on a machine; the offsets have to be sorted. -/
def start (machine : Machine) (overshoot : Bool) (offsets : List UInt64) :
    Except ReplayError Session :=
  match firstDescent offsets with
  | some (previous, offset) => .error (.outOfOrder offset previous)
  | none => .ok { machine, progress := .start machine.hash, overshoot, offsets }

/-- The number of offsets answered so far. -/
def answered (s : Session) : Nat := s.answers.length

/-- The answer kept for an offset.  The latest answer comes first and offsets only
grow, so there is none past the first earlier offset. -/
def kept? (offset : UInt64) : List (UInt64 × Progress) → Option Progress
  | [] => none
  | (earlier, progress) :: rest =>
    if earlier = offset then some progress
    else if earlier < offset then none
    else kept? offset rest

/-- Keeps the present progress as the answer at `offset`. -/
def remember (s : Session) (offset : UInt64) : Session :=
  { s with answers := (offset, s.progress) :: s.answers }

/-- Runs the machine from its present position up to `offset`. -/
def replay (s : Session) (offset : UInt64) : Checked Session := do
  let (machine, effects) ← s.machine.execute (offset - s.progress.gasUsed) s.overshoot
  let progress ← s.progress.apply effects machine.hash
  return { s with
    machine, progress
    replays := ⟨effects.gasUsed, offset, progress.gasUsed⟩ :: s.replays }

/-- The answer at an offset that has none yet. -/
def answer (s : Session) (offset : UInt64) : Outcome ReplayError Progress × Session :=
  -- With overshoot the machine may already stand past the offset.
  if s.progress.gasUsed < offset then
    match s.replay offset with
    | .error f => (.error (.fault f), s)
    | .ok s' =>
      if s'.progress.gasUsed < offset ∧ s'.machine.halted then
        (.refuse (.beyondTrace offset s'.progress.gasUsed), s')
      else (.ok s'.progress, s'.remember offset)
  else (.ok s.progress, s.remember offset)

/-- The progress after replaying `offset` gas from the cursor. -/
def progressAt (s : Session) (offset : UInt64) : Outcome ReplayError Progress × Session :=
  match s.last.filter (offset < ·) with
  | some previous => (.refuse (.outOfOrder offset previous), s)
  | none =>
    let s := { s with last := some offset }
    match kept? offset s.answers with
    | some progress => (.ok progress, s)
    | none => s.answer offset

/-- The machine at `offset`, which has to be one of the session's offsets. -/
def machineAt (s : Session) (offset : UInt64) : Outcome ReplayError Machine × Session :=
  if offset ∈ s.offsets then
    match s.progressAt offset with
    | (.ok _, s') => (.ok s'.machine, s')
    | (.error e, s') => (.error e, s')
  else (.refuse (.notRequested offset), s)

/-- Progress and machine at one offset, asked for one after the other. -/
def snapshotAt (s : Session) (offset : UInt64) :
    Outcome ReplayError (Progress × Machine) × Session :=
  match s.progressAt offset with
  | (.error e, s') => (.error e, s')
  | (.ok progress, s') =>
    match s'.machineAt offset with
    | (.error e, s'') => (.error e, s'')
    | (.ok machine, s'') => (.ok (progress, machine), s'')

end Session

end TraceDispute
