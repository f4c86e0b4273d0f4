import TraceDispute.Outcome

/-!
# Segments

A segment is a half-open range `[start, start + length)` of offsets under
dispute.  Segments come from the opponent, so a segment whose end is not a
64-bit word is refused before anything is derived from it.

`Segment.split` divides a segment into consecutive chunks: as many as asked for,
but at most one per offset and at least one.  The first chunk takes what does
not divide evenly.  Two parties derive these chunks independently, so the
offsets between them have to be the same for both.
-/

namespace TraceDispute

/-- A range of offsets under dispute. -/
structure Segment where
  start : UInt64
  length : UInt64
deriving DecidableEq, Repr

/-- Why a segment, or a part of one, does not exist. -/
inductive SegmentError where
  /-- The end is not a 64-bit word. -/
  | overflow (start length : UInt64)
  /-- There is no part with this index. -/
  | outOfRange (index count : Nat)
deriving DecidableEq, Repr

/-- The text of a segment error. -/
def SegmentError.message : SegmentError → String
  | .overflow start length => s!"segment [{start}, {start} + {length}) overflows"
  | .outOfRange index count =>
    s!"segment index {index} out of range, bisection has {count} segments"

namespace Segment

/-- The first offset past the segment. -/
def stop (s : Segment) : Except SegmentError UInt64 :=
  if s.start.toNat + s.length.toNat < UInt64.size then .ok (s.start + s.length)
  else .error (.overflow s.start s.length)

/-- The segment cannot be divided any further. -/
def isOneStep (s : Segment) : Bool := s.length == 1

/-- The number of chunks that a split into `degree` parts really has. -/
def parts (s : Segment) (degree : Nat) : Nat := max 1 (min degree s.length.toNat)

/-- The number of chunks that are too many for a list: a chunk takes sixteen
bytes, and a list has to end in the lower half of what 64 bits address. -/
def chunkLimit : Nat := UInt64.size / 2 / 16

/-- `n` chunks of the same width, one after the other. -/
def chunks (width : UInt64) : (n : Nat) → (start : UInt64) → Checked (List Segment)
  | 0, _ => .ok []
  | n + 1, start => do
    let next ← Checked.add start width
    let rest ← chunks width n next
    return ⟨start, width⟩ :: rest

/-- Room for this many chunks. -/
def reserve (count : Nat) : Checked Unit :=
  if count < chunkLimit then .ok () else .error .capacityOverflow

/-- The consecutive chunks of a segment, the first one the widest. -/
def split (s : Segment) (degree : Nat) : Outcome SegmentError (List Segment) := do
  let _ ← Outcome.ofExcept s.stop
  Outcome.ofChecked (reserve (s.parts degree))
  let count := UInt64.ofNat (s.parts degree)
  let width := s.length / count
  let first ← Outcome.ofChecked (Checked.add width (s.length % count))
  let next ← Outcome.ofChecked (Checked.add s.start first)
  let rest ← Outcome.ofChecked (chunks width (s.parts degree - 1) next)
  return ⟨s.start, first⟩ :: rest

/-- Where the chunks of a split start, and where the last one ends. -/
def boundaries (s : Segment) (degree : Nat) : Outcome SegmentError (List UInt64) := do
  let chunks ← s.split degree
  let stop ← Outcome.ofExcept s.stop
  return chunks.map Segment.start ++ [stop]

/-- The segment as it appears in the texts of errors. -/
def describe (s : Segment) : String :=
  s!"ChallengeSegment \x7b start: {s.start}, length: {s.length} \x7d"

theorem parts_pos (s : Segment) (degree : Nat) : 0 < s.parts degree := by
  unfold parts; omega

theorem parts_le (s : Segment) (degree : Nat) : s.parts degree ≤ max 1 s.length.toNat := by
  unfold parts; omega

end Segment

end TraceDispute
