import TraceDispute.Challenge.Moves
import TraceDispute.Proofs.Challenge.Cuts
import TraceDispute.Proofs.Segment

/-!
# Moves against a bisection

The parts of a bisection are derived again from the number of its cuts.  In a
*proper* bisection that number is one the segment can be divided into, so the
offsets and the parts come out as the ones the cuts were taken at, and a part is
always within itself.

`Challenge.ownProof` is the proof of a step read off the trace of the machine;
`buildProof_cases` says that the one built from a session is the same.
-/

namespace TraceDispute

namespace Bisection

variable {b : Bisection} {index : Nat}

/-- The segment can be divided into as many parts as the number of cuts asks for. -/
structure Proper (b : Bisection) : Prop where
  bounded : b.segment.Bounded
  roomy : b.segment.Roomy b.segmentCount
  parts_eq : b.segment.parts b.segmentCount = b.segmentCount

namespace Proper

theorem pos (h : b.Proper) : 0 < b.segmentCount :=
  h.parts_eq ▸ b.segment.parts_pos b.segmentCount

theorem length_cuts (h : b.Proper) : b.cuts.length = b.segmentCount + 1 := by
  have hpos := h.pos
  unfold segmentCount at hpos ⊢
  omega

theorem offsets_eq (h : b.Proper) : b.offsets = .ok (b.segment.marks b.segmentCount) := by
  rw [offsets, Segment.boundaries_eq h.bounded h.roomy, h.parts_eq]

theorem subSegment_eq (h : b.Proper) (hi : index < b.segmentCount) :
    b.subSegment index = .ok (b.segment.chunk b.segmentCount index) := by
  rw [subSegment, if_neg (by omega), Segment.split_eq h.bounded h.roomy, h.parts_eq]
  simp [bind, Except.bind, hi, pure, Except.pure]

theorem requireWithin (h : b.Proper) (hi : index < b.segmentCount) :
    b.requireWithin index (b.segment.chunk b.segmentCount index) = .ok () := by
  have hstop := Segment.stop_chunk h.bounded h.pos hi
  simp only [Bisection.requireWithin, h.subSegment_eq hi, hstop, Outcome.ofExcept_ok,
    Outcome.mapRefusal_ok, bind, Except.bind, UInt64.lt_irrefl, if_false]
  rfl

theorem divide (h : b.Proper) (hi : index < b.segmentCount) (cuts : List Cut) :
    b.divide index (b.segment.chunk b.segmentCount index) cuts =
      .ok (.bisection ⟨b, index, b.segment.chunk b.segmentCount index, cuts⟩) := by
  simp [Bisection.divide, h.requireWithin hi, bind, Except.bind, pure, Except.pure]

end Proper

theorem proper_of_length {offsets : List UInt64} (hoffsets : b.offsets = .ok offsets)
    (hlength : offsets.length = b.cuts.length) :
    b.Proper ∧ offsets = b.segment.marks b.segmentCount := by
  obtain ⟨hbounded, hroom⟩ := Segment.bounded_of_boundaries hoffsets
  have heq := hoffsets
  rw [Bisection.offsets, Segment.boundaries_eq hbounded hroom] at heq
  obtain rfl := Except.ok.inj heq
  -- capping the number of parts would lose offsets, so it is not capped
  have hparts : b.segment.parts b.segmentCount = b.segmentCount := by
    rw [Segment.length_marks] at hlength
    simp only [segmentCount] at hlength ⊢
    omega
  exact ⟨⟨hbounded, hroom, hparts⟩, by rw [hparts]⟩

/-- Cuts at the boundaries of a segment make a proper bisection. -/
theorem proper_of_boundaries {s : Segment} {degree : Nat} {cuts : List Cut}
    (hbounded : s.Bounded) (hroom : s.Roomy degree) (hlength : cuts.length = s.parts degree + 1) :
    (Bisection.mk s cuts).Proper ∧ (Bisection.mk s cuts).segmentCount = s.parts degree := by
  have hcount : (Bisection.mk s cuts).segmentCount = s.parts degree := by
    simp [segmentCount, hlength]
  refine ⟨⟨hbounded, ?_, ?_⟩, hcount⟩
  · rw [hcount, Segment.Roomy, Segment.parts_parts]
    exact hroom
  · rw [hcount, Segment.parts_parts]

/-- Two cuts are claims about the whole of a segment. -/
theorem proper_pair {s : Segment} (hbounded : s.Bounded) (first last : Cut) :
    (Bisection.mk s [first, last]).Proper := by
  refine ⟨hbounded, ?_, s.parts_one⟩
  change s.parts 1 < Segment.chunkLimit
  rw [s.parts_one]
  decide

/-- The offsets of a bisection are derived again from the number of its cuts: they are
the ones that the cuts were taken at. -/
theorem offsets_of_boundaries {s : Segment} {degree : Nat} {offsets : List UInt64}
    {cuts : List Cut} (h : s.boundaries degree = .ok offsets)
    (hlength : cuts.length = offsets.length) : (Bisection.mk s cuts).offsets = .ok offsets := by
  obtain ⟨hbounded, hroom⟩ := Segment.bounded_of_boundaries h
  rw [Segment.boundaries_eq hbounded hroom] at h
  obtain rfl := Except.ok.inj h
  rw [Segment.length_marks] at hlength
  obtain ⟨hproper, hcount⟩ := proper_of_boundaries hbounded hroom hlength
  rw [hproper.offsets_eq, hcount]

/-- A segment that is not within a part breaks a rule; nothing else is refused. -/
theorem within_requireWithin_of {refusals : ChallengeError → Prop} {faults : Fault → Prop}
    (hpart : (b.subSegment index).Within (fun _ => True) faults)
    (hrules : ∀ cause, refusals (.violation cause)) (segment : Segment) :
    (b.requireWithin index segment).Within refusals faults := by
  have hstop : ∀ s : Segment,
      ((Outcome.ofExcept s.stop).mapRefusal ChallengeError.ofSegment).Within refusals faults :=
    fun s => .mapRefusal_ofExcept (fun cause => hrules _) s.stop
  unfold requireWithin
  refine (hpart.mapRefusal fun cause _ => hrules _).bind fun expected _ => ?_
  split
  · exact hrules _
  · refine (hstop _).bind fun stop _ => (hstop _).bind fun limit _ => ?_
    split
    · exact hrules _
    · trivial

end Bisection

namespace Challenge

variable {c : Challenge} {m : Machine} {b : Bisection} {index : Nat} {offset : UInt64}

/-- The proof of the step that the trace of `m` makes at an offset. -/
def ownProof (c : Challenge) (m : Machine) (b : Bisection) (index : Nat) (offset : UInt64) :
    Outcome ChallengeError Submission := do
  let p ← (Outcome.ofExcept (m.pointAt c.overshoot offset)).mapRefusal (.replay offset)
  let machineProof ←
    (Outcome.ofExcept p.machine.machinePayload).mapRefusal fun e => .replay offset (.payload e)
  let inboxDelta ← c.digestFor offset p.progress
  return .proof
    { previous := b, index, progress := p.progress, inboxDelta, machineProof
      bufferProof := p.machine.bufferPayload }

theorem ownProof_eq_ok_iff {move : Submission} :
    c.ownProof m b index offset = .ok move ↔
      ∃ p payload digest, m.pointAt c.overshoot offset = .ok p ∧
        p.machine.machinePayload = .ok payload ∧
        c.inbox.digestAt p.progress.messagesRead = .ok digest ∧
        move = .proof ⟨b, index, p.progress, digest, payload, p.machine.bufferPayload⟩ := by
  unfold ownProof digestFor
  simp only [Outcome.bind_eq_ok_iff, Outcome.mapRefusal_eq_ok_iff, Outcome.ofExcept_eq_ok_iff]
  constructor
  · rintro ⟨p, hp, payload, hpayload, digest, hdigest, hmove⟩
    exact ⟨p, payload, digest, hp, hpayload, hdigest, (Except.ok.inj hmove).symm⟩
  · rintro ⟨p, payload, digest, hp, hpayload, hdigest, rfl⟩
    exact ⟨p, hp, payload, hpayload, digest, hdigest, rfl⟩

/-- A proof built from a session is the one read off the trace, unless a sum of gas
does not fit. -/
theorem buildProof_cases {segment : Segment} (hm : c.machine? = some m)
    (hwithin : b.requireWithin index segment = .ok ()) :
    (c.buildProof b index segment).outcome = c.ownProof m b index segment.start ∨
      ((c.buildProof b index segment).outcome = .error (.fault .addOverflow) ∧
        ¬ c.Counts m segment.start) := by
  obtain ⟨s, hstart⟩ := Session.exists_start m c.overshoot (List.pairwise_singleton _ segment.start)
  obtain ⟨hsound, hlast, hover, hoffsets⟩ := Session.sound_start hstart
  have hsnapshot := Session.snapshotAt_of_inOrder hsound (Session.inOrder_of_last hlast)
    (by simp [hoffsets] : segment.start ∈ s.offsets)
  rw [hover] at hsnapshot
  simp only [buildProof, tellReplays, Report.outcome_bind, Report.outcome_of, Report.outcome_tell,
    Report.outcome_pure, hwithin, (openSession_eq_ok_iff hm).mpr hstart]
  -- a fresh session stands before every offset, so it finds the point of the trace there
  rcases hsnapshot with heq | ⟨hfault, hcount⟩
  · left
    simp only [bind, Except.bind, heq, ownProof]
    cases m.pointAt c.overshoot segment.start <;> rfl
  · right
    simp only [bind, Except.bind, hfault]
    exact ⟨rfl, hcount⟩

/-- A proof can fail only where the part, the session and the proof read off the trace can,
unless a sum of gas does not fit. -/
theorem within_buildProof_of {refusals : ChallengeError → Prop} {faults : Fault → Prop}
    {segment : Segment} (hrequire : (b.requireWithin index segment).Within refusals faults)
    (hopen : (c.openSession [segment.start]).Within refusals faults)
    (hown : ∀ m, c.machine? = some m →
      (c.ownProof m b index segment.start).Within refusals faults)
    (hsum : ∀ m, c.machine? = some m → ¬ c.Counts m segment.start → faults .addOverflow) :
    (c.buildProof b index segment).outcome.Within refusals faults := by
  -- it ends at a part that is not in the bisection, at its own cursor, or with its own proof
  rcases hwithin : b.requireWithin index segment with e | ⟨⟩
  · rw [hwithin] at hrequire
    simp only [buildProof, Report.outcome_bind, Report.outcome_of, hwithin, Outcome.error_bind]
    exact hrequire.error
  · cases hs : c.openSession [segment.start] with
    | error e =>
        rw [hs] at hopen
        simp only [buildProof, Report.outcome_bind, Report.outcome_of, hwithin, hs,
          Outcome.ok_bind, Outcome.error_bind]
        exact hopen.error
    | ok s =>
        obtain ⟨m, hm⟩ := machine?_of_openSession hs
        rcases buildProof_cases hm hwithin with heq | ⟨hfault, hnot⟩
        · rw [heq]
          exact hown m hm
        · rw [hfault]
          exact hsum m hm hnot

/-- Everything that the proof of a step is made of. -/
theorem buildProof_eq_ok_iff {segment : Segment} {move : Submission} :
    (c.buildProof b index segment).outcome = .ok move ↔
      b.requireWithin index segment = .ok () ∧
        ∃ s progress snapshot payload digest, c.openSession [segment.start] = .ok s ∧
          (s.snapshotAt segment.start).1 = .ok (progress, snapshot) ∧
          snapshot.machinePayload = .ok payload ∧
          c.inbox.digestAt progress.messagesRead = .ok digest ∧
          move = .proof ⟨b, index, progress, digest, payload, snapshot.bufferPayload⟩ := by
  simp only [buildProof, digestFor, tellReplays, Report.outcome_bind, Report.outcome_of,
    Report.outcome_tell, Report.outcome_pure, Outcome.bind_eq_ok_iff, Outcome.mapRefusal_eq_ok_iff,
    Outcome.ofExcept_eq_ok_iff]
  constructor
  · rintro ⟨⟨⟩, hwithin, s, hs, -, -, ⟨progress, snapshot⟩, hsnapshot, payload, hpayload, digest,
      hdigest, hmove⟩
    exact ⟨hwithin, s, progress, snapshot, payload, digest, hs, hsnapshot, hpayload, hdigest,
      (Except.ok.inj hmove).symm⟩
  · rintro ⟨hwithin, s, progress, snapshot, payload, digest, hs, hsnapshot, hpayload, hdigest, rfl⟩
    exact ⟨(), hwithin, s, hs, (), trivial, (progress, snapshot), hsnapshot, payload, hpayload,
      digest, hdigest, rfl⟩

/-- Progress and machine of a proof that was built are those of a point of the trace. -/
theorem point_of_snapshotAt {s : Session} {progress : Progress} {snapshot : Machine}
    (hm : c.machine? = some m) (hs : c.openSession [offset] = .ok s)
    (h : (s.snapshotAt offset).1 = .ok (progress, snapshot)) :
    ∃ p, m.pointAt c.overshoot offset = .ok p ∧ progress = p.progress ∧
      snapshot = p.machine := by
  obtain ⟨hsound, hlast, hover, hoffsets⟩ :=
    Session.sound_start ((openSession_eq_ok_iff hm).mp hs)
  have hfound := Session.snapshotAt_of_inOrder hsound (Session.inOrder_of_last hlast)
    (by simp [hoffsets] : offset ∈ s.offsets)
  rw [hover, h] at hfound
  rcases hfound with heq | ⟨hfault, -⟩
  · cases hpoint : m.pointAt c.overshoot offset with
    | error e => simp [hpoint, Except.map] at heq
    | ok p =>
        obtain ⟨rfl, rfl⟩ : progress = p.progress ∧ snapshot = p.machine := by
          simpa [hpoint, Except.map] using heq
        exact ⟨p, rfl, rfl, rfl⟩
  · cases hfault

/-- A proof that was built has formed every sum of gas on the way to its step. -/
theorem counts_of_buildProof {segment : Segment} {move : Submission} (hm : c.machine? = some m)
    (h : (c.buildProof b index segment).outcome = .ok move) : c.Counts m segment.start := by
  obtain ⟨-, s, progress, snapshot, -, -, hs, hsnapshot, -⟩ := buildProof_eq_ok_iff.mp h
  rw [openSession_eq_ok_iff hm] at hs
  refine Session.countable_of_start hs fun hfault => ?_
  simp [Session.snapshotAt_of_failed hfault] at hsnapshot

end Challenge

end TraceDispute
