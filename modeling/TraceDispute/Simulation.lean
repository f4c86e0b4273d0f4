import TraceDispute.Game
import TraceDispute.Settings

/-!
# A simulated dispute

Plays a whole dispute on a local ledger: an honest challenger against an
asserter whose program differs from the right one in a single instruction.  The
asserter claims the whole execution in one segment, and the two then answer each
other until one of them proves a step.
-/

namespace TraceDispute.Simulation

/-! ## The programs -/

/-- The inbox of both parties. -/
def inbox : List Bytes := [0, 1, 2].map fun byte => List.replicate 64 byte

/-- The instruction at position `i` of the trace, in a pattern of six. -/
def instructionAt (i : Nat) : Instruction :=
  match i % 6 with
  | 0 => .add (UInt64.ofNat i)
  | 1 => .mul 5
  | 2 => .bufferWrite (UInt16.ofNat (i % 32))
  | 3 => .log
  | 4 => .add (UInt64.ofNat (i / 2))
  | _ => .send

/-- The right program: it reads every message and then runs through the trace. -/
def program (steps : UInt64) : List Instruction :=
  List.replicate inbox.length .readInbox ++ (List.range steps.toNat).map instructionAt

/-- An instruction of the same cost with another effect on the register.  An odd
factor stays odd, so that no later multiplication hides the difference. -/
def tamper : Instruction → Checked (Option Instruction)
  | .add value => .ok (some (.add (value ^^^ 0xdead)))
  | .mul value => (Checked.add value 2).map fun v => some (.mul v)
  | _ => .ok none

/-- The first instruction that can be tampered with, and what it becomes; the
first of these has position `index`. -/
def findFault (index : Nat) : List Instruction → Checked (Option (Nat × Instruction))
  | [] => .ok none
  | i :: rest => do
    match ← tamper i with
    | some tampered => return some (index, tampered)
    | none => findFault (index + 1) rest

/-- The instruction that the asserter gets wrong: the first that can be tampered
with from a step of the trace on. -/
def selectFault (program : List Instruction) (faultStep : UInt64) :
    Checked (Option (Nat × Instruction)) := do
  let first ← Checked.add (UInt64.ofNat inbox.length) faultStep
  findFault first.toNat (program.drop first.toNat)

/-- An instruction as it appears in the log. -/
def describe : Instruction → String
  | .add value => s!"Add({value})"
  | .mul value => s!"Mul({value})"
  | .readInbox => "ReadInbox"
  | .send => "Send"
  | .log => "Log"
  | .bufferWrite slot => s!"BufferWrite({slot})"
  | .halt => "Halt"

/-! ## Setting up -/

/-- Tells lines of the simulation. -/
def notes (lines : List String) : Report String Unit := .tell (lines.map .note)

/-- The lines that a run starts with. -/
def banner (s : Settings) : List String :=
  [ "╔═══════════════════════════════════════════════╗",
    "║   xlayer-dispute Execution Challenge (local)  ║",
    "╚═══════════════════════════════════════════════╝",
    "",
    "Configuration:",
    s!"  Trace steps:      {s.traceSteps}",
    s!"  Faulty step:      {s.faultStep}",
    s!"  Bisection degree: {s.degree}",
    s!"  Go over gas:      {s.overshoot}",
    "" ]

/-- The machine that runs a program on the common inbox. -/
def machine (program : List Instruction) : Report String Machine :=
  match Machine.start? program inbox with
  | some m => .of (.ok m)
  | none => .refuse "program too long"

/-- A party that replays a machine of its own. -/
def party (name : String) (m : Machine) (s : Settings) : Report String Party := do
  let (cursor, checkpoints) ←
    .of ((Outcome.ofExcept (Checkpoints.empty.insert m)).mapRefusal ReplayError.message)
  let challenge : Challenge :=
    { checkpoints, cursor, inbox := .ofMessages inbox, overshoot := s.overshoot }
  return .ofDegree name challenge s.degree.toNat

/-- A dispute ready to be played. -/
structure Setup where
  challenger : Party
  asserter : Party
  /-- The ledger on which the asserter's claim is open. -/
  docket : Docket

/-- Picks the fault, builds both parties and opens the asserter's claim. -/
def setUp (s : Settings) : Report String Setup := do
  notes (banner s)
  let honest := program s.traceSteps
  let fault ← .of (.ofChecked (selectFault honest s.faultStep))
  match fault with
  | none => .refuse s!"SIM_FAULT_STEP {s.faultStep} outside the trace"
  | some (index, tampered) =>
    notes [s!"Asserter executes {describe tampered} at instruction {index}"]
    let honestMachine ← machine honest
    let totalGas ← .of (.ofChecked honestMachine.totalGas)
    let challenger ← party "challenger" honestMachine s
    let asserter ← party "asserter" (← machine (honest.set index tampered)) s
    let segment : Segment := ⟨0, totalGas⟩
    let boundaries ← .of ((segment.boundaries 1).mapRefusal SegmentError.message)
    let claimed ← (asserter.challenge.cutsAt boundaries).mapRefusal ChallengeError.message
    notes [s!"Asserter claimed {totalGas} gas of execution, challenge opened"]
    return { challenger, asserter, docket := { ledger := .ofBisection ⟨segment, claimed⟩ } }

/-! ## Playing -/

/-- Upper bound on the number of moves. -/
def maxRounds : Nat := 128

/-- The rounds of a dispute; the challenger answers in even ones. -/
def Setup.play (setup : Setup) : List Turn × Docket :=
  TraceDispute.play (fun round => if round % 2 = 0 then setup.challenger else setup.asserter)
    maxRounds 0 setup.docket

/-- Tells the rounds of a dispute, the first of them with this number. -/
def narrate (round : Nat) : List Turn → Report String Unit
  | [] => .refuse s!"Challenge did not reach a one-step proof in {maxRounds} rounds"
  | .noBisection :: _ => .refuse "No bisection on the ledger"
  | .answered party report docket :: rest => do
    match ← report.mapRefusal ChallengeError.message with
    | .bisected _ segment _ =>
      notes [s!"Round {round + 1}: bisected {Event.range segment}"]
      narrate (round + 1) rest
    | .proved _ segment transaction =>
      notes
        [ s!"Round {round + 1}: {party.name} proved step at offset {segment.start}",
          s!"  ✓ One-step proof submitted: {transaction.toHex}",
          s!"Game finished after {docket.ledger.nonce} submissions" ]

/-- A whole run.  A refusal carries the text of the error. -/
def run (s : Settings) : Report String Unit := do
  let setup ← setUp s
  narrate 0 setup.play.1

/-! ## What a run shows -/

/-- The log lines of a run, from a level on. -/
def logLines (lowest : Level) (r : Report String Unit) : List String :=
  (r.events.filter fun e => lowest.rank ≤ e.level.rank).map Event.line

/-- The error lines of a run. -/
def errorLines (r : Report String Unit) : List String :=
  match r.outcome with
  | .error (.refusal text) => [s!"Error: {text}"]
  | .error (.fault _) | .ok _ => []

/-- The exit code of a run. -/
def exitCode (r : Report String Unit) : UInt32 :=
  match r.outcome with
  | .ok _ => 0
  | .error (.refusal _) => 1
  | .error (.fault _) => 101

end TraceDispute.Simulation
