import TraceDispute.Proofs.Challenge.Independence
import TraceDispute.Proofs.Game.Player
import TraceDispute.Proofs.Replay.Sums

/-!
# A party always answers

Nothing that an opponent puts on the ledger makes a party abandon its run.  The
segments are checked before offsets are derived from them, the numbers of offsets
and cuts before one is looked up by the other's index, and the order of the
offsets before a session is opened, each in another place; `respond_returns` says
that together these checks suffice.

The bound of a whole answer (`Outcome.Within`) is put together from those of its
parts: own cuts, the search, proofs and divisions.

What remains is the memory that a list takes.  A list of `2 ^ 59` chunks cannot be
addressed, and a party that was set up to divide into so many parts asks for one
if its own trace uses as much gas (`Party.Overextended`).  No instruction costs more
than ten gas, so that party holds a program of more than `2 ^ 55` instructions; the
opponent alone cannot bring it about with less than `2 ^ 59` cuts.
-/

namespace TraceDispute

/-! ## Refusals -/

namespace ChallengeError

/-- A refusal that only a slip of the party itself brings about: its session went
back or was asked for an offset that it was not opened for, or the part that it
answers about is not there or is another one. -/
def IsSlip : ChallengeError → Prop
  | .replay _ (.outOfOrder ..) => True
  | .replay _ (.notRequested _) => True
  | .violation (.segmentOutOfRange ..) => True
  | .violation (.segmentMismatch ..) => True
  | _ => False

/-- The reason that the contract gave for rejecting a move. -/
def rejection? : ChallengeError → Option String
  | .submission _ (.rejected reason) => some reason
  | _ => none

/-- A refusal that a party's own work on a bisection can end in. -/
def IsFinding (e : ChallengeError) : Prop := ¬ e.IsSlip ∧ e.rejection? = none

end ChallengeError

/-! ## Offsets that a machine reaches -/

namespace Machine

variable {m : Machine} {overshoot : Bool} {offset : UInt64} {p : Point}

/-- A machine that can be replayed to an offset has a program of at least as much gas. -/
theorem le_gasSum_of_pointAt (h : m.pointAt overshoot offset = .ok p) :
    offset.toNat ≤ gasSum m.program := by
  obtain ⟨rfl, hrun⟩ := pointAt_eq_ok_iff.mp h
  have hspent := Point.gas_add_left_le overshoot m offset.toNat
  simp only at hspent
  by_cases hgas : offset.toNat ≤ (m.restAt overshoot offset.toNat).gas
  · omega
  · -- the machine stands before an instruction that would take it past the offset
    rw [not_le] at hgas
    obtain ⟨hhalted, hex⟩ := hrun hgas
    have hcrossing : ∃ i, (m.restAt overshoot offset.toNat).machine.next? = some i ∧
        offset.toNat < (m.restAt overshoot offset.toNat).gas + i.gasCost.toNat := by
      cases hnext : (m.restAt overshoot offset.toNat).next? with
      | none =>
          by_contra hnone
          push Not at hnone
          exact hex ⟨hgas, hnext, fun i hi => .inr (hnone i hi)⟩
      | some q =>
          obtain ⟨-, i, hi, -, rfl⟩ := Point.next?_eq_some_iff.mp hnext
          refine ⟨i, hi, ?_⟩
          cases overshoot with
          | true => exact absurd (Point.le_gas_settle_of_next? hnext) (not_le.mpr hgas)
          | false => exact Point.lt_gas_of_next?_settle hnext
    obtain ⟨i, hi, hlt⟩ := hcrossing
    rw [drop_pc hi, gasSum_cons] at hspent
    omega

end Machine

/-! ## The parts of an answer -/

namespace Challenge

variable {c : Challenge} {offsets : List UInt64} {index : Nat} {faults : Fault → Prop}

theorem within_pointAt (m : Machine) (overshoot : Bool) (offset : UInt64) :
    ((Outcome.ofExcept (m.pointAt overshoot offset)).mapRefusal (.replay offset)).Within
      ChallengeError.IsFinding faults := by
  rcases Session.pointAt_cases m overshoot offset with ⟨p, hp⟩ | ⟨reached, hp⟩ <;> rw [hp]
  · trivial
  · exact ⟨id, rfl⟩

theorem within_digestFor (c : Challenge) (offset : UInt64) (p : Progress) :
    (c.digestFor offset p).Within ChallengeError.IsFinding faults :=
  .mapRefusal_ofExcept (fun _ => ⟨id, rfl⟩) _

theorem within_ownCut (c : Challenge) (m : Machine) (offset : UInt64) :
    (c.ownCut m offset).Within ChallengeError.IsFinding faults := by
  refine .bind ?_ fun p _ => (within_digestFor c offset p).bind fun _ _ => trivial
  rcases Session.pointAt_cases m c.overshoot offset with ⟨p, hp⟩ | ⟨reached, hp⟩ <;> rw [hp]
  · trivial
  · exact ⟨id, rfl⟩

theorem within_ownProof (c : Challenge) (m : Machine) (b : Bisection) (index : Nat)
    (offset : UInt64) :
    (c.ownProof m b index offset).Within ChallengeError.IsFinding faults := by
  refine (within_pointAt m c.overshoot offset).bind fun p _ => .bind ?_ fun payload _ => ?_
  · exact .mapRefusal_ofExcept (fun _ => ⟨id, rfl⟩) _
  · exact (within_digestFor c offset p.progress).bind fun _ _ => trivial

section Countable

variable (hcount : ∀ m, c.machine? = some m → ∀ o, c.Counts m o)
include hcount

/-- A search over sorted offsets finds a wrong cut or says why there is none to be found. -/
theorem within_firstDivergence (hsorted : offsets.Pairwise (· ≤ ·)) (claimed : List Cut) :
    (c.firstDivergence offsets claimed).outcome.Within ChallengeError.IsFinding faults := by
  have hopen : (c.openSession offsets).Within ChallengeError.IsFinding faults := by
    cases hm : c.machine? with
    | none =>
        have hnone : c.checkpoints.find? c.cursor.machineHash = none := hm
        simp only [openSession, Checkpoints.openSession, hnone]
        exact ⟨id, rfl⟩
    | some m =>
        obtain ⟨s, hstart⟩ := Session.exists_start m c.overshoot hsorted
        rw [(openSession_eq_ok_iff hm).mpr hstart]
        trivial
  refine within_firstDivergence_of ?_ ⟨id, rfl⟩ fun _ => ⟨id, rfl⟩
  exact within_locate (fun _ _ => ⟨id, rfl⟩) hopen (fun m _ => within_ownCut c m)
    (fun m hm o hnot => absurd (hcount m hm o) hnot) claimed

end Countable

end Challenge

namespace Bisection

variable {b : Bisection} {offsets : List UInt64}

/-- The bisection has more cuts than a list has room for chunks. -/
def Overfull (b : Bisection) : Prop := Segment.chunkLimit < b.cuts.length

theorem overfull_of_not_roomy (h : ¬ b.segment.Roomy b.segmentCount) : b.Overfull := by
  have hone : 1 < Segment.chunkLimit := by decide
  unfold Segment.Roomy Segment.parts segmentCount at h
  unfold Overfull
  omega

theorem within_split (b : Bisection) :
    (b.segment.split b.segmentCount).Within (· = .overflow b.segment.start b.segment.length)
      (fun fault => fault = .capacityOverflow ∧ b.Overfull) := by
  by_cases hbounded : b.segment.Bounded
  · by_cases hroom : b.segment.Roomy b.segmentCount
    · rw [Segment.split_eq hbounded hroom]
      trivial
    · rw [Segment.split_of_not_roomy hbounded hroom]
      exact ⟨rfl, overfull_of_not_roomy hroom⟩
  · rw [Segment.split_of_not_bounded hbounded]
    rfl

theorem within_offsets (b : Bisection) :
    (b.offsets.mapRefusal ChallengeError.ofSegment).Within ChallengeError.IsFinding
      (fun fault => fault = .capacityOverflow ∧ b.Overfull) := by
  refine Outcome.Within.mapRefusal (b.within_split.bind fun chunks hchunks => ?_) ?_
  · -- a segment that was split has an end
    obtain ⟨hbounded, -⟩ := Segment.bounded_of_split hchunks
    rw [Segment.stop_eq_mark hbounded Nat.one_pos]
    trivial
  · rintro cause rfl
    exact ⟨id, rfl⟩

theorem pairwise_offsets (h : b.offsets = .ok offsets) : offsets.Pairwise (· ≤ ·) := by
  obtain ⟨hbounded, hroom⟩ := Segment.bounded_of_boundaries h
  rw [Bisection.offsets, Segment.boundaries_eq hbounded hroom] at h
  obtain rfl := Except.ok.inj h
  exact Segment.pairwise_marks hbounded (b.segment.parts_pos _)

/-- A cut that a search finds wrong has a part of the bisection before it. -/
theorem part_of_firstDivergence {c : Challenge} {k : Nat} (hoffsets : b.offsets = .ok offsets)
    (hfound : (c.firstDivergence offsets b.cuts).outcome = .ok k) :
    0 < k ∧ k < offsets.length ∧ ∃ segment, b.subSegment (k - 1) = .ok segment := by
  obtain ⟨m, -, hwrong⟩ := Challenge.firstWrong_of_firstDivergence hfound
  obtain ⟨hproper, rfl⟩ := proper_of_length hoffsets hwrong.length_eq
  have hlt := hwrong.lt_length
  have hpos := hwrong.pos
  rw [Segment.length_marks] at hlt
  exact ⟨hpos, hwrong.lt_length, _, hproper.subSegment_eq (by omega)⟩

end Bisection

/-! ## Whole answers -/

namespace Party

variable {p : Party} {b : Bisection} {m : Machine} {k : Nat}

/-- A list of chunks would have to be longer than a list can be: for the cuts of the
bisection, or for the degree of a party whose own trace is as long. -/
def Overextended (p : Party) (b : Bisection) : Prop :=
  b.Overfull ∨ Segment.chunkLimit ≤ p.degree ∧
    ∃ m, p.challenge.machine? = some m ∧ Segment.chunkLimit ≤ gasSum m.program

/-- Work on a bisection that answers it or says what keeps the party from answering. -/
def Finds {α : Type} (p : Party) (b : Bisection) (outcome : Outcome ChallengeError α) : Prop :=
  outcome.Within ChallengeError.IsFinding
    (fun fault => fault = .capacityOverflow ∧ p.Overextended b)

/-- A part that cannot be divided for lack of room is as wide as the limit, and the party
has replayed its own trace to the end of it. -/
theorem overextended_of_not_roomy (hm : p.challenge.machine? = some m) (hb : b.Proper)
    (hfirst : p.challenge.FirstWrong m (b.segment.marks b.segmentCount) b.cuts (k + 1))
    (hroom : ¬ (b.segment.chunk b.segmentCount k).Roomy p.degree) : p.Overextended b := by
  have hk := hfirst.lt_of_marks
  obtain ⟨o, claim, ho, -, own, hown, -⟩ := hfirst.differs
  rw [Segment.getElem?_marks hk] at ho
  obtain rfl := Option.some.inj ho
  obtain ⟨q, -, hq, -⟩ := Challenge.ownCut_eq_ok_iff.mp hown
  have hreach := Machine.le_gasSum_of_pointAt hq
  rw [Segment.toNat_mark hb.bounded hb.pos hk, Segment.boundary_succ] at hreach
  have hlength := b.segment.toNat_length_chunk hb.pos k
  have hone : 1 < Segment.chunkLimit := by decide
  unfold Segment.Roomy Segment.parts at hroom
  exact .inr ⟨by omega, m, hm, by omega⟩

theorem finds_answerPart (hm : p.challenge.machine? = some m)
    (hcount : ∀ o, p.challenge.Counts m o) (hb : b.Proper)
    (hfirst : p.challenge.FirstWrong m (b.segment.marks b.segmentCount) b.cuts (k + 1)) :
    p.Finds b (p.answerPart b k (b.segment.chunk b.segmentCount k)) := by
  have hk := hfirst.lt_of_marks
  by_cases hone : b.segment.width b.segmentCount k = 1
  · rcases answerPart_of_oneStep hm hb hk hone with heq | ⟨-, hnot⟩
    · rw [heq]
      exact Challenge.within_ownProof ..
    · exact absurd (hcount _) hnot
  · by_cases hroom : (b.segment.chunk b.segmentCount k).Roomy p.degree
    · have hsorted := Segment.pairwise_marks (Segment.bounded_chunk hb.bounded hb.pos hk)
        ((b.segment.chunk b.segmentCount k).parts_pos p.degree)
      rw [answerPart_of_wide hb hk hone hroom,
        Challenge.cutsAt_of_countable hm hsorted fun o _ => hcount o]
      refine (Outcome.Within.mapM fun o _ => ?_).bind fun cuts _ => trivial
      exact Challenge.within_ownCut ..
    · rw [answerPart_of_not_roomy hb hk hone hroom]
      exact ⟨rfl, overextended_of_not_roomy hm hb hfirst hroom⟩

section Gas

variable (hgas : ∀ m, p.challenge.machine? = some m → gasSum m.program < UInt64.size)
include hgas

theorem counts_of_gasSum : ∀ m, p.challenge.machine? = some m → ∀ o, p.challenge.Counts m o :=
  fun m hm _ => Point.countable_of_gasSum (hgas m hm) _

theorem finds_plan (b : Bisection) : p.Finds b (p.plan b).outcome := by
  have hoffsets := b.within_offsets
  cases hb : b.offsets with
  | error e =>
      rw [hb] at hoffsets
      rw [outcome_plan, hb]
      rcases e with fault | cause
      · exact hoffsets.imp_right .inl
      · exact hoffsets
  | ok offsets =>
      have hsearch : (p.challenge.firstDivergence offsets b.cuts).outcome.Within
          ChallengeError.IsFinding (fun _ => False) :=
        Challenge.within_firstDivergence (counts_of_gasSum hgas) (Bisection.pairwise_offsets hb)
          b.cuts
      cases hfound : (p.challenge.firstDivergence offsets b.cuts).outcome with
      | error e =>
          rw [hfound] at hsearch
          rw [outcome_plan, hb, Outcome.mapRefusal_ok, Outcome.ok_bind, hfound]
          rcases e with fault | cause
          · exact hsearch.elim
          · exact hsearch
      | ok k =>
          -- the search has found a wrong cut, and the part before it is answered
          obtain ⟨m, hm, hwrong⟩ := Challenge.firstWrong_of_firstDivergence hfound
          obtain ⟨hproper, rfl⟩ := Bisection.proper_of_length hb hwrong.length_eq
          obtain ⟨j, rfl⟩ := Nat.exists_eq_add_one.mpr hwrong.pos
          have hcount := counts_of_gasSum hgas m hm
          rw [plan_of_firstWrong hm hproper (fun o _ => hcount o) hwrong]
          exact (finds_answerPart hm hcount hproper hwrong).bind fun move _ => trivial

end Gas

end Party

namespace Client

variable {σ : Type} {client : Client σ} {state : σ} {refusals : ChallengeError → Prop}
  {faults : Fault → Prop}

/-- Whatever is put before it in this state, the client returns. -/
def Returns (client : Client σ) (state : σ) : Prop :=
  ∀ move fault, (client.submit move state).1.outcome ≠ .error (.fault fault)

theorem Returns.within_put (h : client.Returns state) (hcancelled : refusals .cancelled)
    (hsubmission : ∀ index cause, refusals (.submission index cause)) (segment : Segment)
    (move : Submission) : (client.put segment move state).1.outcome.Within refusals faults := by
  cases hstop : client.cancelled state with
  | true =>
      simp only [put, hstop, if_true, Report.outcome_refuse]
      exact hcancelled
  | false =>
      simp only [put, hstop, Bool.false_eq_true, if_false, Report.outcome_bind,
        Report.outcome_tell, Outcome.ok_bind, Report.outcome_mapRefusal]
      rcases hsubmit : (client.submit move state).1.outcome with (fault | cause) | transaction
      · exact absurd hsubmit (h move fault)
      · exact hsubmission _ cause
      · trivial

end Client

theorem Docket.returns {d : Docket} (h : d.ledger.nonce.toNat + 1 < UInt64.size) :
    Docket.client.Returns d := by
  intro move fault
  have hnonce : Checked.add d.ledger.nonce 1 = .ok (d.ledger.nonce + 1) := Checked.add_of_lt h
  cases hcancelled : d.cancelled with
  | true => simp [Docket.client, hcancelled]
  | false =>
      cases hrejection : d.ledger.rejection with
      | some reason => simp [Docket.client, hcancelled, Ledger.record, hrejection]
      | none => simp [Docket.client, hcancelled, Ledger.record, hrejection, hnonce]

namespace Party

variable {p : Party} {b : Bisection} {σ : Type} {client : Client σ} {state : σ}

/-- The party returns: with an answer, or with a refusal that is no slip of its own. -/
def Returns {α : Type} (p : Party) (b : Bisection) (outcome : Outcome ChallengeError α) : Prop :=
  (∃ answer, outcome = .ok answer) ∨ (∃ e, outcome = .refuse e ∧ ¬ e.IsSlip) ∨
    outcome = .error (.fault .capacityOverflow) ∧ p.Overextended b

theorem returns_of_within {α : Type} {outcome : Outcome ChallengeError α}
    (h : outcome.Within (¬ ChallengeError.IsSlip ·)
      (fun fault => fault = .capacityOverflow ∧ p.Overextended b)) : p.Returns b outcome := by
  rcases outcome with (fault | cause) | answer
  · obtain ⟨rfl, hover⟩ := h
    exact .inr (.inr ⟨rfl, hover⟩)
  · exact .inr (.inl ⟨cause, rfl, h⟩)
  · exact .inl ⟨answer, rfl⟩

theorem returns_respond (hplan : p.Finds b (p.plan b).outcome) (hclient : client.Returns state) :
    p.Returns b (p.respond client b state).1.outcome := by
  apply returns_of_within
  unfold respond
  -- a plan that fails is bounded by what it finds, and one that succeeds by what the client returns
  rcases hmove : (p.plan b).outcome with (fault | cause) | ⟨segment, move⟩
  · rw [hmove] at hplan
    simp only [hmove]
    exact hplan
  · rw [hmove] at hplan
    simp only [hmove]
    exact hplan.1
  · simp only [hmove]
    have hput : (client.put segment move state).1.outcome.Within (¬ ChallengeError.IsSlip ·)
        (fun fault => fault = .capacityOverflow ∧ p.Overextended b) :=
      hclient.within_put id (fun _ _ => id) segment move
    rcases houtcome : (client.put segment move state).1.outcome with (fault | cause) | transaction
    · rw [houtcome] at hput
      exact hput
    · rw [houtcome] at hput
      exact hput
    · trivial

end Party

/-- A party given a bisection comes back with an answer or a refusal, and nothing that it does on
the way fails. -/
structure Party.Dependable (p : Party) (b : Bisection) : Prop where
  ledger : ∀ d : Docket, d.ledger.nonce.toNat + 1 < UInt64.size →
    p.Returns b (p.respond Docket.client b d).1.outcome
  client : ∀ {σ : Type} (client : Client σ) (state : σ), client.Returns state →
    p.Returns b (p.respond client b state).1.outcome
  /-- What a search finds has a part of the bisection before it. -/
  found : ∀ offsets k, b.offsets = .ok offsets →
    (p.challenge.firstDivergence offsets b.cuts).outcome = .ok k →
    0 < k ∧ k < offsets.length ∧ ∃ segment, b.subSegment (k - 1) = .ok segment
  /-- No sum and no difference of a replay wraps. -/
  sums : ∀ (s : Session) (offset : UInt64), s.progress.gasUsed < offset →
    s.replayChecked offset = s.replay offset
  /-- What a session answers can be looked up. -/
  kept : ∀ (s : Session) (offset : UInt64) progress, (s.progressAt offset).1 = .ok progress →
    Session.kept? offset (s.progressAt offset).2.answers = some progress

/-- Whatever bisection it is given, a party whose program's gas can be counted returns, on a
ledger with a number left for the move and through every client that returns.  What a search
finds can be looked up, and no sum or difference of a replay wraps. -/
theorem respond_returns {p : Party}
    (hgas : ∀ m, p.challenge.machine? = some m → gasSum m.program < UInt64.size) (b : Bisection) :
    p.Dependable b := by
  have hplan := Party.finds_plan hgas b
  refine ⟨?_, ?_, ?_, ?_, ?_⟩
  · intro d hnonce
    exact Party.returns_respond hplan (Docket.returns hnonce)
  · intro σ client state hclient
    exact Party.returns_respond hplan hclient
  · intro offsets k hoffsets hfound
    exact Bisection.part_of_firstDivergence hoffsets hfound
  · intro s offset hahead
    exact Session.replayChecked_eq hahead
  · intro s offset progress hanswer
    exact Session.kept?_progressAt hanswer

/-- Claims about a segment that ends past the last offset. -/
def endlessClaim : Bisection :=
  ⟨⟨18446744073709551614, 10⟩, [Player.sumCut 0 0, Player.sumCut 1 1, Player.sumCut 2 4]⟩

/-- The gas of what the first adder runs can be counted. -/
theorem Player.gasSum_adder_lt : ∀ m, (Player.adder 2).party.challenge.machine? = some m →
    gasSum m.program < UInt64.size := by
  intro m hm
  obtain rfl := Option.some.inj ((Player.adder 2).resolves.symm.trans hm)
  decide

theorem adder_returns_on_endlessClaim :
    (∀ m, (Player.adder 2).party.challenge.machine? = some m →
        gasSum m.program < UInt64.size) ∧
      ∃ e, ((Player.adder 2).party.respond Docket.client endlessClaim
        { ledger := {} }).1.outcome = .refuse e ∧ ¬ e.IsSlip := by
  have hgas := Player.gasSum_adder_lt
  have hnonce : ({} : Ledger).nonce.toNat + 1 < UInt64.size := by decide
  refine ⟨hgas, ?_⟩
  rcases (respond_returns hgas endlessClaim).ledger { ledger := {} } hnonce with
    ⟨answer, hanswer⟩ | hrefused | ⟨hfault, -⟩
  · cases hanswer
  · exact hrefused
  · cases hfault

end TraceDispute
