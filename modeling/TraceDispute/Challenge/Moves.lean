import TraceDispute.Challenge.Basic

/-!
# Moves of a challenge

The two answers to a bisection, a finer division of one part
(`Bisection.divide`) and the proof of a single step (`Challenge.buildProof`),
and how they are handed to a client.

Everything that can fail happens before the client is called, so a move that
cannot be built leaves no trace with the contract.
-/

namespace TraceDispute

/-! ## Building a move -/

/-- A segment has to lie within the part of the bisection it is given for. -/
def Bisection.requireWithin (b : Bisection) (index : Nat) (segment : Segment) :
    Outcome ChallengeError Unit := do
  let expected ← (b.subSegment index).mapRefusal .ofSegment
  if segment.start < expected.start then
    .refuse (.violation (.segmentMismatch index expected segment))
  else do
    let stop ← (Outcome.ofExcept segment.stop).mapRefusal .ofSegment
    let limit ← (Outcome.ofExcept expected.stop).mapRefusal .ofSegment
    if limit < stop then .refuse (.violation (.segmentMismatch index expected segment))
    else return ()

/-- The move that divides a part of a bisection. -/
def Bisection.divide (b : Bisection) (index : Nat) (segment : Segment) (cuts : List Cut) :
    Outcome ChallengeError Submission := do
  b.requireWithin index segment
  return .bisection { previous := b, index, segment, cuts }

namespace Challenge

/-- The move that proves the step at the start of a segment.  Progress, machine
and digest all come from one session. -/
def buildProof (c : Challenge) (b : Bisection) (index : Nat) (segment : Segment) :
    Report ChallengeError Submission := do
  .of (b.requireWithin index segment)
  let offset := segment.start
  let s ← .of (c.openSession [offset])
  let (snapshot, s') := s.snapshotAt offset
  tellReplays s'
  let (progress, machine) ← .of (snapshot.mapRefusal (.replay offset))
  let machineProof ← .of
    ((Outcome.ofExcept machine.machinePayload).mapRefusal fun e => .replay offset (.payload e))
  let inboxDelta ← .of (c.digestFor offset progress)
  return .proof
    { previous := b, index, progress, inboxDelta, machineProof
      bufferProof := machine.bufferPayload }

end Challenge

/-! ## Handing a move to a client -/

/-- What is told before a move about `segment` is handed to a client. -/
def Submission.announcement (segment : Segment) : Submission → Event
  | .bisection move => .bisecting move.index segment (move.cuts.length - 1)
  | .proof move => .proving move.index segment.start

namespace Client

variable {σ : Type}

/-- Hands a move to the client, unless the party has been asked to stop. -/
def put (client : Client σ) (segment : Segment) (move : Submission) (state : σ) :
    Report ChallengeError Word × σ :=
  if client.cancelled state then (.refuse .cancelled, state)
  else
    let (report, state') := client.submit move state
    (do
      .tell [move.announcement segment]
      report.mapRefusal (.submission move.index),
      state')

/-- Hands over a move once it has been built; a failure to build it does not
reach the client. -/
def putBuilt (client : Client σ) (segment : Segment) (move : Report ChallengeError Submission)
    (state : σ) : Report ChallengeError Word × σ :=
  match move.outcome with
  | .error e => (⟨.error e, move.events⟩, state)
  | .ok built =>
    let (report, state') := client.put segment built state
    (⟨report.outcome, move.events ++ report.events⟩, state')

/-- Submits a finer division of a part of a bisection. -/
def bisect (client : Client σ) (b : Bisection) (index : Nat) (segment : Segment)
    (cuts : List Cut) (state : σ) : Report ChallengeError Word × σ :=
  client.putBuilt segment (.of (b.divide index segment cuts)) state

/-- Submits the proof of the step at the start of a segment. -/
def prove (client : Client σ) (c : Challenge) (b : Bisection) (index : Nat) (segment : Segment)
    (state : σ) : Report ChallengeError Word × σ :=
  client.putBuilt segment (c.buildProof b index segment) state

end Client

end TraceDispute
