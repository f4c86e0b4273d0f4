import TraceDispute.Submission

/-!
# The ledger

A local copy of the contract's side of a dispute.  A move is accepted at once
and gets the hash of its kind and number as its transaction; the next move can
be made to fail by a pending rejection.
-/

namespace TraceDispute

/-- What the ledger has recorded. -/
structure Ledger where
  /-- The bisection to be answered next. -/
  current : Option Bisection := none
  /-- Accepted divisions, oldest first. -/
  bisections : List BisectionMove := []
  /-- Accepted proofs, oldest first. -/
  proofs : List ProofMove := []
  /-- The number of accepted moves. -/
  nonce : UInt64 := 0
  /-- Why the next move is to be rejected. -/
  rejection : Option String := none
deriving DecidableEq

namespace Submission

/-- The bytes that a move's transaction hash starts from: `bisect` or `one-step`. -/
def tag : Submission → Bytes
  | .bisection _ => [98, 105, 115, 101, 99, 116]
  | .proof _ => [111, 110, 101, 45, 115, 116, 101, 112]

/-- What is told once a move is recorded under a transaction. -/
def recorded (transaction : Word) : Submission → Event
  | .bisection move =>
    .recordedBisection move.index move.segment (move.cuts.length - 1) transaction
  | .proof move =>
    .recordedProof move.index move.machineProof.length move.bufferProof.length transaction

end Submission

namespace Ledger

/-- A ledger on which `bisection` is open to be answered. -/
def ofBisection (bisection : Bisection) : Ledger := { current := some bisection }

/-- Makes the next move fail. -/
def rejectNext (l : Ledger) (reason : String) : Ledger := { l with rejection := some reason }

/-- The transaction of the move with this tag and number. -/
def transaction (tag : Bytes) (nonce : UInt64) : Word :=
  keccak (tag ++ (Word.ofUInt64 nonce).bytes)

/-- Enters an accepted move; only a division changes what is to be answered. -/
def enter (l : Ledger) : Submission → Ledger
  | .bisection move =>
    { l with
      current := some ⟨move.segment, move.cuts⟩
      bisections := l.bisections ++ [move] }
  | .proof move => { l with proofs := l.proofs ++ [move] }

/-- Records a move, or uses up the pending rejection. -/
def record (l : Ledger) (move : Submission) : Report SubmissionError Word × Ledger :=
  match l.rejection with
  | some reason => (.refuse (.rejected reason), { l with rejection := none })
  | none =>
    match Checked.add l.nonce 1 with
    | .error f => (.of (.error (.fault f)), l)
    | .ok nonce =>
      let tx := transaction move.tag nonce
      (⟨.ok tx, [move.recorded tx]⟩, { l with nonce }.enter move)

end Ledger

/-- A ledger as one party reaches it: with a flag that asks the party to stop. -/
structure Docket where
  ledger : Ledger
  cancelled : Bool := false
deriving DecidableEq

/-- The client that records moves on a ledger. -/
def Docket.client : Client Docket where
  cancelled d := d.cancelled
  submit move d :=
    if d.cancelled then (.refuse .cancelled, d)
    else
      let (report, ledger) := d.ledger.record move
      (report, { d with ledger })

end TraceDispute
