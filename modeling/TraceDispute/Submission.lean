import TraceDispute.Bisection
import TraceDispute.Report

/-!
# Submissions

A move against the contract is either a finer division of one part of the
current bisection or the proof of a part that is one step wide.  A client puts
moves before the contract; it has a state of its own, which may change also when
a move is not accepted.
-/

namespace TraceDispute

/-- A finer division of one part of a bisection. -/
structure BisectionMove where
  /-- The bisection answered. -/
  previous : Bisection
  /-- Which part of it is disputed. -/
  index : Nat
  segment : Segment
  /-- A cut for every boundary of the new division. -/
  cuts : List Cut
deriving DecidableEq

/-- A proof of a part that is one step wide. -/
structure ProofMove where
  /-- The bisection answered. -/
  previous : Bisection
  /-- Which part of it is proved. -/
  index : Nat
  /-- Progress at the start of the step. -/
  progress : Progress
  /-- Inbox digest at the start of the step. -/
  inboxDelta : Word
  machineProof : Bytes
  bufferProof : Bytes
deriving DecidableEq

/-- A move against the contract. -/
inductive Submission where
  | bisection (move : BisectionMove)
  | proof (move : ProofMove)
deriving DecidableEq

/-- The part of the previous bisection that a move is about. -/
def Submission.index : Submission → Nat
  | .bisection move => move.index
  | .proof move => move.index

/-- What kept a node from being heard or understood. -/
inductive TransportError where
  /-- No connection, or an answer that is not JSON. -/
  | http
  /-- The node answered, but not with what was asked for. -/
  | reply (text : String)
deriving DecidableEq, Repr

/-- Why a move was not accepted. -/
inductive SubmissionError where
  | cancelled
  | rejected (reason : String)
  | transport (cause : TransportError)
deriving DecidableEq, Repr

/-- The text of a failed submission. -/
def SubmissionError.message : SubmissionError → String
  | .cancelled => "submission cancelled"
  | .rejected reason => s!"transaction rejected: {reason}"
  | .transport .http => "transport error"
  | .transport (.reply text) => s!"transport error: {text}"

/-- A way to put moves before the contract, over a state of its own. -/
structure Client (σ : Type) where
  /-- Whether the party has been asked to stop. -/
  cancelled : σ → Bool
  /-- Puts a move before the contract and waits until it is accepted; the answer
  is the hash of the transaction. -/
  submit : Submission → σ → Report SubmissionError Word × σ

end TraceDispute
