import TraceDispute.Proofs.Answer.Atomicity
import TraceDispute.Proofs.Partition

/-!
# What the guard before a submission lets through

A segment is checked against the part of the bisection it is given for before the
client is called.  The check compares words one after the other and forms two
sums that may overflow; `Bisection.Contains` is what it comes to over the natural
numbers, and `Bisection.Excludes` is the rule it names when a segment is refused:

  the index is not below the number of cuts less one   segment out of range
  the bisection's segment has no end                    segment overflow
  the division has no part with this index              segment out of range
  the segment starts before the part                    segment mismatch
  the segment has no end                                segment overflow
  the segment ends after the part                       segment mismatch

`requireWithin_cases` says that there is no further case but the room that a list
of chunks takes.  What reaches the client is read off a client that keeps
everything it is handed (`Client.logged`).
-/

namespace TraceDispute

namespace Bisection

variable {b : Bisection} {index : Nat} {segment : Segment} {cause : Violation}

/-! ## Containment over the natural numbers -/

/-- The division that the cuts ask for has a part with this index.  The second bound is not
implied by the first: without two cuts there is no part, though a segment divides into one
part at least. -/
structure HasPart (b : Bisection) (index : Nat) : Prop where
  bounded : b.segment.Bounded
  index_lt_parts : index < b.segment.parts b.segmentCount
  index_lt : index < b.segmentCount

/-- The boundary with this index of the division that the cuts ask for. -/
def boundary (b : Bisection) (i : Nat) : Nat :=
  b.segment.boundary (b.segment.parts b.segmentCount) i

/-- The part with this index, if the division has one. -/
def part (b : Bisection) (index : Nat) : Segment :=
  b.segment.chunk (b.segment.parts b.segmentCount) index

/-- The segment lies between the two boundaries of the part with this index. -/
structure Contains (b : Bisection) (index : Nat) (segment : Segment) : Prop
    extends b.HasPart index where
  start_le : b.boundary index ≤ segment.start.toNat
  stop_le : segment.start.toNat + segment.length.toNat ≤ b.boundary (index + 1)

/-- The rule that a segment breaks which is not contained in a part; of several, the one
that is checked first. -/
inductive Excludes (b : Bisection) (index : Nat) (segment : Segment) : Violation → Prop where
  | noCut (h : b.segmentCount ≤ index) :
      Excludes b index segment (.segmentOutOfRange index b.segmentCount)
  | noEnd (hi : index < b.segmentCount) (h : ¬ b.segment.Bounded) :
      Excludes b index segment (.segmentOverflow b.segment.start b.segment.length)
  | noPart (hi : index < b.segmentCount) (hs : b.segment.Bounded)
      (h : b.segment.parts b.segmentCount ≤ index) :
      Excludes b index segment (.segmentOutOfRange index b.segmentCount)
  | early (hpart : b.HasPart index) (h : segment.start.toNat < b.boundary index) :
      Excludes b index segment (.segmentMismatch index (b.part index) segment)
  | endless (hpart : b.HasPart index) (hstart : b.boundary index ≤ segment.start.toNat)
      (h : ¬ segment.Bounded) :
      Excludes b index segment (.segmentOverflow segment.start segment.length)
  | late (hpart : b.HasPart index) (hstart : b.boundary index ≤ segment.start.toNat)
      (hend : segment.Bounded)
      (h : b.boundary (index + 1) < segment.start.toNat + segment.length.toNat) :
      Excludes b index segment (.segmentMismatch index (b.part index) segment)

theorem HasPart.boundary_lt (h : b.HasPart index) : b.boundary (index + 1) < UInt64.size :=
  Segment.boundary_lt h.bounded (b.segment.parts_pos _) h.index_lt_parts

/-- A segment that lies within a part has an end itself. -/
theorem Contains.bounded_segment (h : b.Contains index segment) : segment.Bounded :=
  h.stop_le.trans_lt h.toHasPart.boundary_lt

/-- A segment breaks a rule or is contained, and not both. -/
theorem exists_excludes_iff : (∃ cause, b.Excludes index segment cause) ↔
    ¬ b.Contains index segment := by
  constructor
  · rintro ⟨cause, hcause⟩ hcontains
    cases hcause with
    | noCut h => exact absurd hcontains.index_lt (not_lt.mpr h)
    | noEnd _ h => exact h hcontains.bounded
    | noPart _ _ h => exact absurd hcontains.index_lt_parts (not_lt.mpr h)
    | early _ h => exact absurd hcontains.start_le (not_le.mpr h)
    | endless _ _ h => exact h hcontains.bounded_segment
    | late _ _ _ h => exact absurd hcontains.stop_le (not_le.mpr h)
  · intro hnot
    -- in the order of the checks, so that a later cause comes with the earlier ones excluded
    by_cases hi : index < b.segmentCount
    · by_cases hs : b.segment.Bounded
      · by_cases hparts : index < b.segment.parts b.segmentCount
        · have hpart : b.HasPart index := ⟨hs, hparts, hi⟩
          rcases lt_or_ge segment.start.toNat (b.boundary index) with hlt | hle
          · exact ⟨_, .early hpart hlt⟩
          · by_cases hend : segment.Bounded
            · exact ⟨_, .late hpart hle hend (not_le.mp fun h => hnot ⟨hpart, hle, h⟩)⟩
            · exact ⟨_, .endless hpart hle hend⟩
        · exact ⟨_, .noPart hi hs (not_lt.mp hparts)⟩
      · exact ⟨_, .noEnd hi hs⟩
    · exact ⟨_, .noCut (not_lt.mp hi)⟩

/-- The boundaries of a part are the offsets of the cuts on either side of it. -/
theorem contains_iff_of_offsets {offsets : List UInt64} (h : b.offsets = .ok offsets) :
    b.Contains index segment ↔ index < b.segmentCount ∧ ∃ first last : UInt64,
      offsets[index]? = some first ∧ offsets[index + 1]? = some last ∧
        first.toNat ≤ segment.start.toNat ∧
        segment.start.toNat + segment.length.toNat ≤ last.toNat := by
  obtain ⟨hs, hroom⟩ := Segment.bounded_of_boundaries h
  have hpos := b.segment.parts_pos b.segmentCount
  rw [Bisection.offsets, Segment.boundaries_eq hs hroom] at h
  obtain rfl := Except.ok.inj h
  constructor
  · intro hcontains
    have hlt := hcontains.index_lt_parts
    refine ⟨hcontains.index_lt, _, _, Segment.getElem?_marks hlt.le, Segment.getElem?_marks hlt,
      ?_, ?_⟩
    · rw [Segment.toNat_mark hs hpos hlt.le]
      exact hcontains.start_le
    · rw [Segment.toNat_mark hs hpos hlt]
      exact hcontains.stop_le
  · rintro ⟨hi, first, last, hfirst, hlast, hstart, hstop⟩
    -- there may be fewer parts than cuts ask for, but the index of an end is that of a part
    have hlt : index < b.segment.parts b.segmentCount := by
      have hlength := (List.getElem?_eq_some_iff.mp hlast).1
      rw [Segment.length_marks] at hlength
      omega
    rw [Segment.getElem?_marks hlt.le] at hfirst
    rw [Segment.getElem?_marks hlt] at hlast
    obtain rfl := Option.some.inj hfirst
    obtain rfl := Option.some.inj hlast
    rw [Segment.toNat_mark hs hpos hlt.le] at hstart
    rw [Segment.toNat_mark hs hpos hlt] at hstop
    exact ⟨⟨hs, hlt, hi⟩, hstart, hstop⟩

/-! ## The guard -/

theorem subSegment_eq_part (h : b.HasPart index) (hroom : b.segment.Roomy b.segmentCount) :
    b.subSegment index = .ok (b.part index) := by
  rw [subSegment_of_split h.index_lt (Segment.split_eq h.bounded hroom)]
  simp [h.index_lt_parts, part]

theorem requireWithin_of_refuse {cause : SegmentError} (h : b.subSegment index = .refuse cause) :
    b.requireWithin index segment = .refuse (.ofSegment cause) := by
  simp [requireWithin, h]

theorem start_lt_part_iff (h : b.HasPart index) : segment.start < (b.part index).start ↔
    segment.start.toNat < b.boundary index := by
  rw [UInt64.lt_iff_toNat_lt, part, boundary, Segment.start_chunk,
    Segment.toNat_mark h.bounded (b.segment.parts_pos _) h.index_lt_parts.le]

/-- A segment that starts in a part is let through if it has an end, and in the part. -/
theorem requireWithin_of_part (h : b.HasPart index) (hroom : b.segment.Roomy b.segmentCount)
    (hstart : b.boundary index ≤ segment.start.toNat) :
    b.requireWithin index segment = match segment.stop with
      | .error cause => .refuse (.ofSegment cause)
      | .ok last =>
        if b.segment.mark (b.segment.parts b.segmentCount) (index + 1) < last then
          .refuse (.violation (.segmentMismatch index (b.part index) segment))
        else .ok () := by
  have hnot : ¬ segment.start < (b.part index).start := by
    rw [start_lt_part_iff h]
    exact not_lt.mpr hstart
  have hlimit : (b.part index).stop =
      .ok (b.segment.mark (b.segment.parts b.segmentCount) (index + 1)) :=
    Segment.stop_chunk h.bounded (b.segment.parts_pos _) h.index_lt_parts
  rw [requireWithin, subSegment_eq_part h hroom, Outcome.mapRefusal_ok, Outcome.ok_bind,
    if_neg hnot, hlimit]
  cases segment.stop <;> rfl

theorem mark_lt_iff (h : b.HasPart index) {last : UInt64} (hlast : segment.stop = .ok last) :
    b.segment.mark (b.segment.parts b.segmentCount) (index + 1) < last ↔
      b.boundary (index + 1) < segment.start.toNat + segment.length.toNat := by
  rw [UInt64.lt_iff_toNat_lt, boundary, (Segment.stop_eq_ok_iff.mp hlast).2,
    Segment.toNat_mark h.bounded (b.segment.parts_pos _) h.index_lt_parts]

/-- Where there is room for the parts, a contained segment is let through. -/
theorem requireWithin_of_contains (h : b.Contains index segment)
    (hroom : b.segment.Roomy b.segmentCount) : b.requireWithin index segment = .ok () := by
  have hstop : segment.stop = .ok (segment.start + segment.length) := if_pos h.bounded_segment
  rw [requireWithin_of_part h.toHasPart hroom h.start_le, hstop]
  refine if_neg ?_
  rw [mark_lt_iff h.toHasPart hstop]
  exact not_lt.mpr h.stop_le

/-- Where there is room for the parts, the rule that is broken is the answer. -/
theorem requireWithin_of_excludes (h : b.Excludes index segment cause)
    (hroom : b.segment.Roomy b.segmentCount) :
    b.requireWithin index segment = .refuse (.violation cause) := by
  cases h with
  | noCut h => exact requireWithin_of_refuse (subSegment_of_le h)
  | noEnd hi h =>
      exact requireWithin_of_refuse
        (subSegment_of_split_error hi (Segment.split_of_not_bounded h))
  | noPart hi hs h =>
      have hpart : b.subSegment index = .refuse (.outOfRange index b.segmentCount) := by
        rw [subSegment_of_split hi (Segment.split_eq hs hroom)]
        simp [h]
      exact requireWithin_of_refuse hpart
  | early hpart h =>
      rw [requireWithin, subSegment_eq_part hpart hroom, Outcome.mapRefusal_ok, Outcome.ok_bind,
        if_pos ((start_lt_part_iff hpart).mpr h)]
  | endless hpart hstart h =>
      have hstop : segment.stop = .error (.overflow segment.start segment.length) := if_neg h
      rw [requireWithin_of_part hpart hroom hstart, hstop]
      rfl
  | late hpart hstart hend h =>
      have hstop : segment.stop = .ok (segment.start + segment.length) := if_pos hend
      rw [requireWithin_of_part hpart hroom hstart, hstop]
      exact if_pos ((mark_lt_iff hpart hstop).mpr h)

/-- The guard says so if a segment is contained, and names the rule that is broken if it is not. -/
theorem requireWithin_cases (hfull : ¬ b.Overfull) (index : Nat) (segment : Segment) :
    (b.Contains index segment ∧ b.requireWithin index segment = .ok ()) ∨
      ∃ cause, b.Excludes index segment cause ∧
        b.requireWithin index segment = .refuse (.violation cause) := by
  have hroom : b.segment.Roomy b.segmentCount := not_not.mp fun h => hfull (overfull_of_not_roomy h)
  by_cases hcontains : b.Contains index segment
  · exact .inl ⟨hcontains, requireWithin_of_contains hcontains hroom⟩
  · obtain ⟨cause, hcause⟩ := exists_excludes_iff.mpr hcontains
    exact .inr ⟨cause, hcause, requireWithin_of_excludes hcause hroom⟩

/-- A segment is let through only if there was room for the parts. -/
theorem roomy_of_requireWithin (h : b.requireWithin index segment = .ok ()) :
    b.segment.Roomy b.segmentCount := by
  obtain ⟨part, hpart, -⟩ := Outcome.bind_eq_ok_iff.mp h
  rw [Outcome.mapRefusal_eq_ok_iff] at hpart
  have hi : index < b.segmentCount := by
    refine not_le.mp fun hle => ?_
    rw [subSegment_of_le hle] at hpart
    cases hpart
  cases hsplit : b.segment.split b.segmentCount with
  | ok chunks => exact (Segment.bounded_of_split hsplit).2
  | error failure =>
      rw [subSegment_of_split_error hi hsplit] at hpart
      cases hpart

/-- However many cuts there are, only a contained segment is let through. -/
theorem contains_of_requireWithin (h : b.requireWithin index segment = .ok ()) :
    b.Contains index segment := by
  by_contra hnot
  obtain ⟨cause, hcause⟩ := exists_excludes_iff.mpr hnot
  rw [requireWithin_of_excludes hcause (roomy_of_requireWithin h)] at h
  cases h

end Bisection

/-! ## What reaches the client -/

namespace Client

variable {σ : Type} {client : Client σ} {state : σ} {log : List Submission}

/-- The client, with a list of the moves that it has been handed. -/
def logged (client : Client σ) : Client (σ × List Submission) where
  cancelled s := client.cancelled s.1
  submit move s :=
    let (report, state) := client.submit move s.1
    (report, state, s.2 ++ [move])

theorem putBuilt_of_error {built : Report ChallengeError Submission} {e : Failure ChallengeError}
    (h : built.outcome = .error e) (segment : Segment) (state : σ) :
    client.putBuilt segment built state = (⟨.error e, built.events⟩, state) := by
  simp only [putBuilt, h]

/-- Keeping a list of the moves changes nothing else. -/
theorem putBuilt_logged (client : Client σ) (segment : Segment)
    (built : Report ChallengeError Submission) (state : σ) (log : List Submission) :
    (client.logged.putBuilt segment built (state, log)).1 =
        (client.putBuilt segment built state).1 ∧
      (client.logged.putBuilt segment built (state, log)).2.1 =
        (client.putBuilt segment built state).2 := by
  rcases hbuilt : built.outcome with e | move
  · rw [putBuilt_of_error hbuilt, putBuilt_of_error hbuilt]
    exact ⟨rfl, rfl⟩
  · by_cases hstopped : client.cancelled state = true
    · simp [putBuilt, hbuilt, put, logged, hstopped]
    · simp [putBuilt, hbuilt, put, logged, hstopped]

theorem log_putBuilt (hrunning : client.cancelled state = false) (segment : Segment)
    (built : Report ChallengeError Submission) (log : List Submission) :
    (client.logged.putBuilt segment built (state, log)).2.2 =
      match built.outcome with
      | .ok move => log ++ [move]
      | .error _ => log := by
  rcases hbuilt : built.outcome with e | move
  · rw [putBuilt_of_error hbuilt]
  · simp [putBuilt, hbuilt, put, logged, hrunning]

theorem exists_of_log_putBuilt {built : Report ChallengeError Submission} {segment : Segment}
    (h : (client.logged.putBuilt segment built (state, log)).2.2 ≠ log) :
    ∃ move, built.outcome = .ok move := by
  rcases hbuilt : built.outcome with e | move
  · rw [putBuilt_of_error hbuilt] at h
    exact absurd rfl h
  · exact ⟨move, rfl⟩

end Client

namespace Bisection

variable {σ : Type} {client : Client σ} {state : σ} {b : Bisection} {index : Nat}
  {segment : Segment}

theorem divide_of_contains (hfull : ¬ b.Overfull) (h : b.Contains index segment)
    (cuts : List Cut) :
    b.divide index segment cuts = .ok (.bisection ⟨b, index, segment, cuts⟩) := by
  rcases requireWithin_cases hfull index segment with ⟨-, hok⟩ | ⟨cause, hcause, -⟩
  · rw [divide, hok]
    rfl
  · exact absurd h (exists_excludes_iff.mp ⟨cause, hcause⟩)

theorem bisect_of_error {cuts : List Cut} {e : Failure ChallengeError}
    (h : b.divide index segment cuts = .error e) (client : Client σ) (state : σ) :
    client.bisect b index segment cuts state = (⟨.error e, []⟩, state) :=
  Client.putBuilt_of_error h segment state

/-- How the moves about a part of a bisection are kept from a client.  More cuts than a list
has room for chunks are not the contents of any list; with so many the run is abandoned while
the segment is checked. -/
structure Guarded (client : Client σ) (state : σ) (c : Challenge) (b : Bisection) (index : Nat)
    (segment : Segment) (cuts : List Cut) : Prop where
  /-- The boundaries that contain a segment are the offsets of the cuts. -/
  boundaries : ∀ offsets, b.offsets = .ok offsets →
    (b.Contains index segment ↔ index < b.segmentCount ∧ ∃ first last : UInt64,
      offsets[index]? = some first ∧ offsets[index + 1]? = some last ∧
        first.toNat ≤ segment.start.toNat ∧
        segment.start.toNat + segment.length.toNat ≤ last.toNat)
  /-- Keeping a list of the moves changes nothing else. -/
  observed : (client.logged.bisect b index segment cuts (state, [])).1 =
      (client.bisect b index segment cuts state).1 ∧
    (client.logged.bisect b index segment cuts (state, [])).2.1 =
      (client.bisect b index segment cuts state).2
  /-- A contained segment is handed over, once; -/
  handed : ¬ b.Overfull → b.Contains index segment →
    (client.logged.bisect b index segment cuts (state, [])).2.2 =
      [.bisection ⟨b, index, segment, cuts⟩]
  /-- any other is refused, for the rule that it breaks, without a call. -/
  refused : ¬ b.Overfull → ¬ b.Contains index segment → ∃ cause,
    b.Excludes index segment cause ∧
      (client.bisect b index segment cuts state).1.outcome = .refuse (.violation cause) ∧
      (client.logged.bisect b index segment cuts (state, [])).2 = (state, [])
  /-- Neither a division nor a proof reaches the client for a segment that is not contained. -/
  necessary : (client.logged.bisect b index segment cuts (state, [])).2.2 ≠ [] ∨
    (client.logged.prove c b index segment (state, [])).2.2 ≠ [] → b.Contains index segment
  /-- Where the check is abandoned, it is for the room that a list takes. -/
  abandoned : ∀ fault, b.divide index segment cuts = .error (.fault fault) →
    fault = .capacityOverflow ∧ b.Overfull ∧
      (client.logged.bisect b index segment cuts (state, [])).2 = (state, [])

/-- Only a segment contained in its part, counted over the natural numbers, gets through to
the client. -/
theorem guard_accepts_contained (hrunning : client.cancelled state = false) (c : Challenge)
    (b : Bisection) (index : Nat) (segment : Segment) (cuts : List Cut) :
    b.Guarded client state c index segment cuts where
  boundaries := fun offsets => contains_iff_of_offsets
  observed := Client.putBuilt_logged client segment _ state []
  handed := fun hfull hcontains => by
    rw [Client.bisect, Client.log_putBuilt hrunning, Report.outcome_of,
      divide_of_contains hfull hcontains]
    rfl
  refused := fun hfull hnot => by
    rcases requireWithin_cases hfull index segment with ⟨hcontains, -⟩ | ⟨cause, hcause, hrefuse⟩
    · exact absurd hcontains hnot
    · have hdivide : b.divide index segment cuts = .refuse (.violation cause) := by
        rw [divide, hrefuse, Outcome.error_bind]
      exact ⟨cause, hcause, by rw [bisect_of_error hdivide], by rw [bisect_of_error hdivide]⟩
  necessary := by
    -- a call that reached the client was built, and what was built has passed the check
    rintro (hcalled | hcalled)
    · obtain ⟨move, hmove⟩ := Client.exists_of_log_putBuilt hcalled
      obtain ⟨⟨⟩, hwithin, -⟩ := Outcome.bind_eq_ok_iff.mp hmove
      exact contains_of_requireWithin hwithin
    · obtain ⟨move, hmove⟩ := Client.exists_of_log_putBuilt hcalled
      exact contains_of_requireWithin (Challenge.buildProof_eq_ok_iff.mp hmove).1
  abandoned := fun fault hfault => by
    have hwithin := b.within_divide index segment cuts
    rw [hfault] at hwithin
    exact ⟨hwithin.1, hwithin.2, by rw [bisect_of_error hfault]⟩

/-- Three parts at the upper end of what a word can count, with boundaries ten, six, three
and none below the last offset. -/
def lastOffsets : Bisection :=
  ⟨⟨18446744073709551605, 10⟩, List.replicate 4 (Player.sumCut 0 0)⟩

theorem docket_accepts_last_part :
    Docket.client.cancelled { ledger := {} } = false ∧
      (Docket.client.logged.bisect lastOffsets 2 ⟨18446744073709551612, 3⟩ []
          ({ ledger := {} }, [])).2.2 =
        [.bisection ⟨lastOffsets, 2, ⟨18446744073709551612, 3⟩, []⟩] ∧
      ∃ cause, (Docket.client.bisect lastOffsets 2 ⟨18446744073709551612, 4⟩ []
          { ledger := {} }).1.outcome = .refuse (.violation cause) := by
  have hrunning : Docket.client.cancelled { ledger := {} } = false := rfl
  have hfull : ¬ lastOffsets.Overfull := by
    unfold Overfull
    decide
  have hcontains : lastOffsets.Contains 2 ⟨18446744073709551612, 3⟩ :=
    ⟨⟨show _ < _ by decide, by decide, by decide⟩, by decide, by decide⟩
  have hlonger : ¬ lastOffsets.Contains 2 ⟨18446744073709551612, 4⟩ :=
    fun h => absurd h.stop_le (by decide)
  refine ⟨hrunning, ?_, ?_⟩
  · exact (guard_accepts_contained hrunning (Player.adder 2).party.challenge lastOffsets 2 _
      []).handed hfull hcontains
  · obtain ⟨cause, -, houtcome, -⟩ := (guard_accepts_contained hrunning
      (Player.adder 2).party.challenge lastOffsets 2 _ []).refused hfull hlonger
    exact ⟨cause, houtcome⟩

end Bisection

end TraceDispute
