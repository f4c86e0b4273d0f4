import TraceDispute.Ledger
import TraceDispute.Party

/-!
# The game

Parties answer the ledger's bisection in turn.  A game goes on for as long as
the answers are divisions, up to a number of rounds.
-/

namespace TraceDispute

/-- What happened in one round. -/
inductive Turn where
  /-- The ledger has nothing to answer. -/
  | noBisection
  /-- A party answered; `docket` is the ledger after it. -/
  | answered (party : Party) (report : Report ChallengeError Move) (docket : Docket)

/-- Plays rounds, `turn` naming the party of each: at most `left` of them, the
first with this number.  The last answer is the only one that may be something
else than a division. -/
def play (turn : Nat → Party) : (left round : Nat) → Docket → List Turn × Docket
  | 0, _, docket => ([], docket)
  | left + 1, round, docket =>
    match docket.ledger.current with
    | none => ([.noBisection], docket)
    | some bisection =>
      let (report, next) := (turn round).respond Docket.client bisection docket
      match report.outcome with
      | .ok (.bisected ..) =>
        let (turns, last) := play turn left (round + 1) next
        (.answered (turn round) report next :: turns, last)
      | _ => ([.answered (turn round) report next], next)

end TraceDispute
