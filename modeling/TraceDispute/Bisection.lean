import TraceDispute.Cut
import TraceDispute.Segment

/-!
# Bisections

The contract's record of the latest division of a segment: the segment and one
cut per boundary.  The offsets of the cuts are not stored; they are derived from
the number of cuts.
-/

namespace TraceDispute

/-- A segment and the cuts claimed at the boundaries of its parts. -/
structure Bisection where
  segment : Segment
  cuts : List Cut
deriving DecidableEq

namespace Bisection

/-- The number of parts: one less than the number of cuts. -/
def segmentCount (b : Bisection) : Nat := b.cuts.length - 1

/-- The offsets that the cuts were taken at. -/
def offsets (b : Bisection) : Outcome SegmentError (List UInt64) :=
  b.segment.boundaries b.segmentCount

/-- The part with this index. -/
def subSegment (b : Bisection) (index : Nat) : Outcome SegmentError Segment :=
  if b.segmentCount ≤ index then .refuse (.outOfRange index b.segmentCount)
  else do
    let chunks ← b.segment.split b.segmentCount
    match chunks[index]? with
    | some s => return s
    | none => .refuse (.outOfRange index b.segmentCount)

/-- The hashes that the contract stores, in boundary order. -/
def cutHashes (b : Bisection) : List Word := b.cuts.map Cut.hash

end Bisection

end TraceDispute
