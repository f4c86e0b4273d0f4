import TraceDispute.Challenge.Moves

/-!
# Parties

A party answers the opponent's latest bisection: it finds the first cut it
disagrees with and either divides the part before that cut or, when the part is
one step wide, proves it.
-/

namespace TraceDispute

/-- A party to the dispute. -/
structure Party where
  /-- The name used in events. -/
  name : String
  challenge : Challenge
  /-- The number of parts that a segment is divided into. -/
  degree : Nat
  two_le_degree : 2 ≤ degree

/-- A move that was accepted. -/
inductive Move where
  | bisected (index : Nat) (segment : Segment) (transaction : Word)
  | proved (index : Nat) (segment : Segment) (transaction : Word)
deriving DecidableEq

/-- A submission about `segment` as a move, once its transaction is known. -/
def Submission.accepted (segment : Segment) (transaction : Word) : Submission → Move
  | .bisection move => .bisected move.index segment transaction
  | .proof move => .proved move.index segment transaction

namespace Party

/-- A party that divides segments into `degree` parts, at least two. -/
def ofDegree (name : String) (challenge : Challenge) (degree : Nat) : Party :=
  { name, challenge, degree := max 2 degree, two_le_degree := by omega }

/-- The segment in dispute and the party's answer to a bisection. -/
def plan (p : Party) (b : Bisection) : Report ChallengeError (Segment × Submission) := do
  let offsets ← .of (b.offsets.mapRefusal .ofSegment)
  let divergence ← p.challenge.firstDivergence offsets b.cuts
  let index ← .of (.ofChecked (Checked.sub divergence 1))
  let segment ← .of ((b.subSegment index).mapRefusal .ofSegment)
  let offset ← .of (.ofChecked (Checked.get offsets divergence))
  let _ ← .of ((Outcome.ofExcept segment.stop).mapRefusal .ofSegment)
  .tell [.disputing p.name divergence offset index segment]
  if segment.isOneStep then
    let move ← p.challenge.buildProof b index segment
    return (segment, move)
  else
    let boundaries ← .of ((segment.boundaries p.degree).mapRefusal .ofSegment)
    let cuts ← p.challenge.cutsAt boundaries
    let move ← .of (b.divide index segment cuts)
    return (segment, move)

/-- Answers a bisection through a client. -/
def respond {σ : Type} (p : Party) (client : Client σ) (b : Bisection) (state : σ) :
    Report ChallengeError Move × σ :=
  let plan := p.plan b
  match plan.outcome with
  | .error e => (⟨.error e, plan.events⟩, state)
  | .ok (segment, move) =>
    let (report, state') := client.put segment move state
    (⟨report.outcome.map fun transaction => move.accepted segment transaction,
      plan.events ++ report.events⟩, state')

end Party

end TraceDispute
