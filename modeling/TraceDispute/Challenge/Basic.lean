import TraceDispute.Challenge.Error
import TraceDispute.Replay.Checkpoints

/-!
# Challenges

One party's view of a challenged execution.  It replays cuts of its own
(`Challenge.cutsAt`) and compares them with the cuts claimed by the opponent
(`Challenge.locate`), which goes no further than the first wrong one.
-/

namespace TraceDispute

/-- What one party knows of a challenged execution. -/
structure Challenge where
  /-- The machines that cursors resolve to. -/
  checkpoints : Checkpoints
  /-- Where the challenged execution starts; all offsets are relative to it. -/
  cursor : Cursor
  /-- Digests of the inbox by the number of messages read. -/
  inbox : InboxTable
  /-- Whether the instruction that crosses an offset is carried out. -/
  overshoot : Bool := true
deriving DecidableEq

/-- How claimed cuts compare with replayed ones. -/
inductive Divergence where
  /-- The cut with this index is the first wrong one, and it is not the first. -/
  | found (index : Nat)
  /-- The first cut is wrong already. -/
  | firstCutMismatch
  /-- No cut is wrong. -/
  | noDivergence
deriving DecidableEq, Repr

namespace Challenge

/-! ## Cuts -/

/-- Opens a session at the challenge's cursor. -/
def openSession (c : Challenge) (offsets : List UInt64) : Outcome ChallengeError Session :=
  (Outcome.ofExcept (c.checkpoints.openSession c.cursor c.overshoot offsets)).mapRefusal
    (.replay (offsets.headD 0))

/-- The inbox digest that goes with some progress at `offset`. -/
def digestFor (c : Challenge) (offset : UInt64) (p : Progress) : Outcome ChallengeError Word :=
  (Outcome.ofExcept (c.inbox.digestAt p.messagesRead)).mapRefusal (.inboxBounds offset)

/-- The cut at an offset, and the session it leaves behind. -/
def cutAt (c : Challenge) (s : Session) (offset : UInt64) :
    Outcome ChallengeError Cut × Session :=
  let (progress, s') := s.progressAt offset
  (do
    let p ← progress.mapRefusal (.replay offset)
    let inboxDelta ← c.digestFor offset p
    return Cut.ofProgress p inboxDelta,
    s')

/-- The cuts at some offsets, in order, from one session. -/
def cutsFrom (c : Challenge) :
    Session → List UInt64 → Outcome ChallengeError (List Cut) × Session
  | s, [] => (.ok [], s)
  | s, offset :: offsets =>
    match c.cutAt s offset with
    | (.error e, s') => (.error e, s')
    | (.ok cut, s') =>
      match cutsFrom c s' offsets with
      | (.error e, s'') => (.error e, s'')
      | (.ok cuts, s'') => (.ok (cut :: cuts), s'')

/-- Tells the runs of a session, oldest first. -/
def tellReplays (s : Session) : Report ChallengeError Unit :=
  .tell (s.replays.reverse.map .replayed)

/-- The party's own cuts at some offsets, from a session of their own. -/
def cutsAt (c : Challenge) (offsets : List UInt64) : Report ChallengeError (List Cut) := do
  let s ← .of (c.openSession offsets)
  let (cuts, s') := c.cutsFrom s offsets
  tellReplays s'
  .of cuts

/-! ## Divergence -/

/-- Compares claimed cuts, the first of which has this index, by their hashes;
the replay goes no further than the first wrong one. -/
def compareFrom (c : Challenge) :
    Session → Nat → List (UInt64 × Cut) → Outcome ChallengeError Divergence × Session
  | s, _, [] => (.ok .noDivergence, s)
  | s, index, (offset, claimed) :: rest =>
    match c.cutAt s offset with
    | (.error e, s') => (.error e, s')
    | (.ok cut, s') =>
      if cut.hash = claimed.hash then compareFrom c s' (index + 1) rest
      else (.ok (if index = 0 then .firstCutMismatch else .found index), s')

/-- What is told about a comparison over these offsets. -/
def divergenceEvents (offsets : List UInt64) : Divergence → List Event
  | .found index => offsets[index]?.toList.map (.diverged index)
  | .firstCutMismatch => offsets.head?.toList.map (.diverged 0)
  | .noDivergence => []

/-- Compares the cuts claimed at some offsets with the party's own. -/
def locate (c : Challenge) (offsets : List UInt64) (claimed : List Cut) :
    Report ChallengeError Divergence :=
  if offsets.length ≠ claimed.length then
    .refuse (.violation (.lengthMismatch offsets.length claimed.length))
  else do
    let s ← .of (c.openSession offsets)
    let (divergence, s') := c.compareFrom s 0 (offsets.zip claimed)
    tellReplays s'
    let divergence ← .of divergence
    .tell (divergenceEvents offsets divergence)
    return divergence

/-- The index of the first wrong cut.  It is a broken rule if that is the first
cut of all, or if there is none. -/
def firstDivergence (c : Challenge) (offsets : List UInt64) (claimed : List Cut) :
    Report ChallengeError Nat := do
  match ← c.locate offsets claimed with
  | .found index => return index
  | .firstCutMismatch =>
    .tell [.firstCutWrong offsets.head?]
    .refuse (.violation .firstCutMismatch)
  | .noDivergence => .refuse (.violation (.noDivergence offsets.length))

end Challenge

end TraceDispute
