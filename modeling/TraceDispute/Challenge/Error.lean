import TraceDispute.Inbox
import TraceDispute.Replay.Error
import TraceDispute.Submission

/-!
# Failures of a challenge
-/

namespace TraceDispute

/-- A rule of the protocol that the given bisection or segment breaks. -/
inductive Violation where
  /-- The cut at the start of the segment is wrong. -/
  | firstCutMismatch
  /-- Every claimed cut is the one replayed. -/
  | noDivergence (checked : Nat)
  /-- There are not as many cuts as offsets. -/
  | lengthMismatch (offsets cuts : Nat)
  /-- There is no part with this index. -/
  | segmentOutOfRange (index count : Nat)
  /-- The end of a segment is not a 64-bit word. -/
  | segmentOverflow (start length : UInt64)
  /-- The segment does not lie in the part it was given for. -/
  | segmentMismatch (index : Nat) (expected claimed : Segment)
deriving DecidableEq, Repr

/-- A segment error as a broken rule. -/
def Violation.ofSegment : SegmentError → Violation
  | .overflow start length => .segmentOverflow start length
  | .outOfRange index count => .segmentOutOfRange index count

/-- The text of a broken rule. -/
def Violation.message : Violation → String
  | .firstCutMismatch => "first cut of the segment disagrees with the pre-agreed commitment"
  | .noDivergence checked => s!"no divergence found across {checked} checkpoints"
  | .lengthMismatch offsets cuts => s!"{offsets} offsets but {cuts} claimed cuts"
  | .segmentOutOfRange index count =>
    s!"segment {index} does not exist in a bisection of {count} segments"
  | .segmentOverflow start length =>
    s!"segment starting at {start} with length {length} overflows"
  | .segmentMismatch index expected claimed =>
    s!"{claimed.describe} is not within segment {index} {expected.describe}"

/-- Why a challenge operation failed. -/
inductive ChallengeError where
  | replay (offset : UInt64) (cause : ReplayError)
  | inboxBounds (offset : UInt64) (cause : InboxBoundsError)
  | violation (cause : Violation)
  | submission (index : Nat) (cause : SubmissionError)
  | cancelled
deriving DecidableEq

namespace ChallengeError

/-- A segment error as a failure of the challenge. -/
def ofSegment (e : SegmentError) : ChallengeError := .violation (.ofSegment e)

/-- The text of a failure. -/
def message : ChallengeError → String
  | .replay offset cause => s!"replay failed at offset {offset}: {cause.message}"
  | .inboxBounds offset cause => s!"inbox delta lookup failed at offset {offset}: {cause.message}"
  | .violation cause => s!"protocol invariant violated: {cause.message}"
  | .submission index cause => s!"submission failed for segment {index}: {cause.message}"
  | .cancelled => "challenge move cancelled"

end ChallengeError

end TraceDispute
