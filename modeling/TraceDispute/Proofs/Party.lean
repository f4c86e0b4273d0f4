import TraceDispute.Game
import TraceDispute.Proofs.Challenge.Moves
import TraceDispute.Proofs.Challenge.Taken

/-!
# What a party answers

A party's answer to a bisection is fixed by the first cut it disagrees with:
`plan_of_firstWrong` reduces the whole plan to the part before that cut, and
`plan_cases` is the inversion: an answer that was found divides that part
(`Party.Divides`) or proves it (`Party.Proves`).  `disputes_of_plan` says the same
of the search in terms of cuts that the party takes (`Challenge.Disputes`).

`respond_cases` says what becomes of it on a ledger: the answer is entered, or
the bisection stays the one to be answered.
-/

namespace TraceDispute

/-- The docket once a move has been entered under a number. -/
def Docket.entered (d : Docket) (nonce : UInt64) (move : Submission) : Docket :=
  { d with ledger := Ledger.enter { d.ledger with nonce } move }

theorem Challenge.FirstWrong.lt_of_marks {c : Challenge} {m : Machine} {s : Segment}
    {claimed : List Cut} {n k : Nat} (h : c.FirstWrong m (s.marks n) claimed (k + 1)) : k < n := by
  have hlt := h.lt_length
  rw [Segment.length_marks] at hlt
  omega

/-- Part `index` of a bisection is `segment`, and the party disputes it: every claim up
to its start has the hash of the party's own cut, and the claim at its end has not. -/
structure Challenge.Disputes (c : Challenge) (b : Bisection) (offsets : List UInt64) (index : Nat)
    (segment : Segment) : Prop where
  offsets_eq : b.offsets = .ok offsets
  start_eq : offsets[index]? = some segment.start
  stop_eq : ∃ stop, offsets[index + 1]? = some stop ∧ segment.stop = .ok stop
  agreed : ∀ j ≤ index, ∃ o claim own, offsets[j]? = some o ∧ b.cuts[j]? = some claim ∧
    c.Takes o own ∧ own.hash = claim.hash
  wrong : ∃ o claim own, offsets[index + 1]? = some o ∧ b.cuts[index + 1]? = some claim ∧
    c.Takes o own ∧ own.hash ≠ claim.hash

namespace Party

variable {p : Party} {b : Bisection} {m : Machine} {index k : Nat}
  {segment : Segment} {move : Submission}

/-- The answer of a party that has found the part in dispute. -/
def answerPart (p : Party) (b : Bisection) (index : Nat) (segment : Segment) :
    Outcome ChallengeError Submission :=
  if segment.isOneStep then (p.challenge.buildProof b index segment).outcome
  else do
    let boundaries ← (segment.boundaries p.degree).mapRefusal .ofSegment
    let cuts ← (p.challenge.cutsAt boundaries).outcome
    b.divide index segment cuts

theorem outcome_plan (p : Party) (b : Bisection) :
    (p.plan b).outcome = (do
      let offsets ← b.offsets.mapRefusal .ofSegment
      let divergence ← (p.challenge.firstDivergence offsets b.cuts).outcome
      let index ← Outcome.ofChecked (Checked.sub divergence 1)
      let segment ← (b.subSegment index).mapRefusal .ofSegment
      let _ ← Outcome.ofChecked (Checked.get offsets divergence)
      let _ ← (Outcome.ofExcept segment.stop).mapRefusal .ofSegment
      let move ← p.answerPart b index segment
      return (segment, move)) := by
  simp only [plan, Report.outcome_bind, Report.outcome_of, Report.outcome_tell]
  refine congrArg _ (funext fun offsets => congrArg _ (funext fun divergence =>
    congrArg _ (funext fun index => congrArg _ (funext fun segment => congrArg _
      (funext fun offset => congrArg _ (funext fun _ => ?_))))))
  cases hone : segment.isOneStep with
  | true =>
      simp only [answerPart, hone, if_true, Report.outcome_bind, Outcome.ok_bind]
      rfl
  | false =>
      simp only [answerPart, hone, Bool.false_eq_true, if_false, Report.outcome_bind,
        Outcome.ok_bind, bind_assoc]
      rfl

/-- Where a first wrong cut exists, the part before it is answered. -/
theorem plan_of_firstWrong (hm : p.challenge.machine? = some m) (hb : b.Proper)
    (hcount : ∀ o ∈ b.segment.marks b.segmentCount, p.challenge.Counts m o)
    (hfirst : p.challenge.FirstWrong m (b.segment.marks b.segmentCount) b.cuts (k + 1)) :
    (p.plan b).outcome = (do
      let move ← p.answerPart b k (b.segment.chunk b.segmentCount k)
      return (b.segment.chunk b.segmentCount k, move)) := by
  have hk := hfirst.lt_of_marks
  have hfound := Challenge.firstDivergence_of_firstWrong hm
    (Segment.pairwise_marks hb.bounded hb.pos) hcount hfirst
  have hget : Checked.get (b.segment.marks b.segmentCount) (k + 1) =
      .ok (b.segment.mark b.segmentCount (k + 1)) := by
    simp [Checked.get, Segment.getElem?_marks (Nat.succ_le_of_lt hk)]
  have hsub : Checked.sub (k + 1) 1 = .ok k := Checked.sub_of_le (Nat.le_add_left 1 k)
  simp only [outcome_plan, hb.offsets_eq, hfound, hsub, hb.subSegment_eq hk, hget,
    Segment.stop_chunk hb.bounded hb.pos hk, Outcome.mapRefusal_ok, Outcome.ofChecked_ok,
    Outcome.ofExcept_ok, Outcome.ok_bind]

/-- An answer is about the part before the cut that the search found. -/
theorem firstDivergence_of_plan (h : (p.plan b).outcome = .ok (segment, move)) :
    b.Proper ∧ ∃ k, k < b.segmentCount ∧
      (p.challenge.firstDivergence (b.segment.marks b.segmentCount) b.cuts).outcome =
        .ok (k + 1) ∧
      segment = b.segment.chunk b.segmentCount k ∧ p.answerPart b k segment = .ok move := by
  simp only [outcome_plan, Outcome.bind_eq_ok_iff, Outcome.mapRefusal_eq_ok_iff,
    Outcome.ofChecked_eq_ok_iff] at h
  obtain ⟨offsets, hoffsets, divergence, hfound, index, hindex, segment', hsub, -, -, -, -,
    move', hmove, hpair⟩ := h
  obtain ⟨rfl, rfl⟩ : segment' = segment ∧ move' = move := by
    simpa [pure, Except.pure] using hpair
  -- a search that answers has compared offsets with as many cuts, so the bisection is proper
  obtain ⟨m, -, hwrong⟩ := Challenge.firstWrong_of_firstDivergence hfound
  obtain ⟨hb, rfl⟩ := Bisection.proper_of_length hoffsets hwrong.length_eq
  obtain ⟨k, rfl⟩ := Nat.exists_eq_add_one.mpr hwrong.pos
  obtain rfl : k = index := by
    rw [Checked.sub_of_le (Nat.le_add_left 1 k)] at hindex
    exact Except.ok.inj hindex
  have hk := hwrong.lt_of_marks
  rw [hb.subSegment_eq hk] at hsub
  exact ⟨hb, k, hk, hfound, (Except.ok.inj hsub).symm, hmove⟩

/-- An answer is about the part before the first wrong cut. -/
theorem firstWrong_of_plan (h : (p.plan b).outcome = .ok (segment, move)) :
    b.Proper ∧ ∃ m k, p.challenge.machine? = some m ∧ k < b.segmentCount ∧
      p.challenge.FirstWrong m (b.segment.marks b.segmentCount) b.cuts (k + 1) ∧
      segment = b.segment.chunk b.segmentCount k ∧ p.answerPart b k segment = .ok move := by
  obtain ⟨hb, k, hk, hfound, hsegment, hmove⟩ := firstDivergence_of_plan h
  obtain ⟨m, hm, hwrong⟩ := Challenge.firstWrong_of_firstDivergence hfound
  exact ⟨hb, m, k, hm, hk, hwrong, hsegment, hmove⟩

/-! ## The part in dispute -/

theorem answerPart_of_oneStep (hm : p.challenge.machine? = some m) (hb : b.Proper)
    (hk : k < b.segmentCount) (hone : b.segment.width b.segmentCount k = 1) :
    p.answerPart b k (b.segment.chunk b.segmentCount k) =
        p.challenge.ownProof m b k (b.segment.mark b.segmentCount k) ∨
      (p.answerPart b k (b.segment.chunk b.segmentCount k) = .error (.fault .addOverflow) ∧
        ¬ p.challenge.Counts m (b.segment.mark b.segmentCount k)) := by
  have hstep : (b.segment.chunk b.segmentCount k).isOneStep = true := by
    simp [Segment.isOneStep, Segment.chunk, hone]
  rw [answerPart, if_pos hstep]
  exact Challenge.buildProof_cases hm (hb.requireWithin hk)

theorem isOneStep_chunk (hb : b.Proper) :
    (b.segment.chunk b.segmentCount k).isOneStep = true ↔
      b.segment.width b.segmentCount k = 1 := by
  rw [Segment.isOneStep, beq_iff_eq, ← UInt64.toNat_inj, Segment.toNat_length_chunk _ hb.pos]
  rfl

theorem answerPart_of_wide (hb : b.Proper) (hk : k < b.segmentCount)
    (hwide : b.segment.width b.segmentCount k ≠ 1)
    (hroom : (b.segment.chunk b.segmentCount k).Roomy p.degree) :
    let segment := b.segment.chunk b.segmentCount k
    p.answerPart b k segment = (do
      let cuts ← (p.challenge.cutsAt (segment.marks (segment.parts p.degree))).outcome
      return .bisection ⟨b, k, segment, cuts⟩) := by
  have hstep : ¬ (b.segment.chunk b.segmentCount k).isOneStep = true :=
    fun h => hwide ((isOneStep_chunk hb).mp h)
  simp only [answerPart, if_neg hstep, Outcome.mapRefusal_ok, Outcome.ok_bind, hb.divide hk,
    Segment.boundaries_eq (Segment.bounded_chunk hb.bounded hb.pos hk) hroom]
  rfl

theorem answerPart_of_not_roomy (hb : b.Proper) (hk : k < b.segmentCount)
    (hwide : b.segment.width b.segmentCount k ≠ 1)
    (hroom : ¬ (b.segment.chunk b.segmentCount k).Roomy p.degree) :
    p.answerPart b k (b.segment.chunk b.segmentCount k) = .error (.fault .capacityOverflow) := by
  have hstep : ¬ (b.segment.chunk b.segmentCount k).isOneStep = true :=
    fun h => hwide ((isOneStep_chunk hb).mp h)
  have hsplit := Segment.split_of_not_roomy (Segment.bounded_chunk hb.bounded hb.pos hk) hroom
  simp only [answerPart, if_neg hstep, Segment.boundaries, hsplit, Outcome.error_bind,
    Outcome.mapRefusal_fault]

/-- The answer that divides part `index` of a bisection, with its cuts. -/
structure Divides (p : Party) (m : Machine) (b : Bisection) (index : Nat) (cuts : List Cut) :
    Prop where
  proper : b.Proper
  lt : index < b.segmentCount
  first : p.challenge.FirstWrong m (b.segment.marks b.segmentCount) b.cuts (index + 1)
  wide : b.segment.width b.segmentCount index ≠ 1
  roomy : (b.segment.chunk b.segmentCount index).Roomy p.degree
  own : List.Forall₂ (fun o cut => p.challenge.ownCut m o = .ok cut)
    ((b.segment.chunk b.segmentCount index).marks
      ((b.segment.chunk b.segmentCount index).parts p.degree)) cuts
  fits : ∀ o ∈ (b.segment.chunk b.segmentCount index).marks
    ((b.segment.chunk b.segmentCount index).parts p.degree), p.challenge.Fits m o

/-- The answer that proves part `index` of a bisection, a single step. -/
structure Proves (p : Party) (m : Machine) (b : Bisection) (index : Nat) (move : ProofMove) :
    Prop where
  proper : b.Proper
  lt : index < b.segmentCount
  first : p.challenge.FirstWrong m (b.segment.marks b.segmentCount) b.cuts (index + 1)
  one : b.segment.width b.segmentCount index = 1
  own : p.challenge.ownProof m b index (b.segment.mark b.segmentCount index) = .ok (.proof move)
  fits : p.challenge.Fits m (b.segment.mark b.segmentCount index)

/-- An answer divides or proves the part it is about. -/
theorem plan_cases (h : (p.plan b).outcome = .ok (segment, move)) :
    ∃ m index, p.challenge.machine? = some m ∧ segment = b.segment.chunk b.segmentCount index ∧
      ((∃ cuts, move = .bisection ⟨b, index, segment, cuts⟩ ∧ p.Divides m b index cuts) ∨
        ∃ proof, move = .proof proof ∧ proof.index = index ∧ p.Proves m b index proof) := by
  obtain ⟨hb, m, k, hm, hk, hfirst, rfl, hmove⟩ := firstWrong_of_plan h
  refine ⟨m, k, hm, rfl, ?_⟩
  -- a part of one step is proved and a wider one is divided; both come from the own trace
  by_cases hone : b.segment.width b.segmentCount k = 1
  · right
    have hcounts : p.challenge.Counts m (b.segment.mark b.segmentCount k) := by
      have hbuilt := hmove
      rw [answerPart, if_pos ((isOneStep_chunk hb).mpr hone)] at hbuilt
      exact Challenge.counts_of_buildProof hm hbuilt
    rcases answerPart_of_oneStep hm hb hk hone with heq | ⟨hfault, -⟩
    · rw [hmove] at heq
      obtain ⟨q, payload, digest, -, -, -, rfl⟩ := Challenge.ownProof_eq_ok_iff.mp heq.symm
      exact ⟨_, rfl, rfl, hb, hk, hfirst, hone, heq.symm, hcounts.fits⟩
    · simp [hmove] at hfault
  · left
    by_cases hroom : (b.segment.chunk b.segmentCount k).Roomy p.degree
    · rw [answerPart_of_wide hb hk hone hroom, Outcome.bind_eq_ok_iff] at hmove
      obtain ⟨cuts, hcuts, hmove⟩ := hmove
      exact ⟨cuts, (Except.ok.inj hmove).symm, hb, hk, hfirst, hone, hroom,
        Challenge.ownCut_of_cutsAt hm hcuts, Challenge.fits_of_cutsAt hm hcuts⟩
    · simp [answerPart_of_not_roomy hb hk hone hroom] at hmove

/-! ## The dispute behind an answer -/

/-- An answer that was worked out divides its part at own cuts, or proves its step. -/
theorem answerPart_cases (h : p.answerPart b k segment = .ok move) :
    (∃ bounds cuts, segment.boundaries p.degree = .ok bounds ∧
        (p.challenge.cutsAt bounds).outcome = .ok cuts ∧ move = .bisection ⟨b, k, segment, cuts⟩) ∨
      (segment.isOneStep = true ∧ ∃ proof, move = .proof proof ∧ proof.index = k ∧
        (p.challenge.buildProof b k segment).outcome = .ok (.proof proof)) := by
  unfold answerPart at h
  split at h
  · rename_i hone
    obtain ⟨-, s, progress, snapshot, payload, digest, -, -, -, -, rfl⟩ :=
      Challenge.buildProof_eq_ok_iff.mp h
    exact .inr ⟨hone, _, rfl, rfl, h⟩
  · simp only [Bisection.divide, Outcome.bind_eq_ok_iff, Outcome.mapRefusal_eq_ok_iff] at h
    obtain ⟨bounds, hbounds, cuts, hcuts, -, -, hmove⟩ := h
    exact .inl ⟨bounds, cuts, hbounds, hcuts, (Except.ok.inj hmove).symm⟩

theorem disputes_of_plan (h : (p.plan b).outcome = .ok (segment, move)) :
    ∃ index, p.challenge.Disputes b (b.segment.marks b.segmentCount) index segment ∧
      p.answerPart b index segment = .ok move := by
  obtain ⟨hb, k, hk, hfound, rfl, hmove⟩ := firstDivergence_of_plan h
  obtain ⟨hagreed, hwrong⟩ := Challenge.takes_of_found hfound
  refine ⟨k, ⟨hb.offsets_eq, Segment.getElem?_marks hk.le, ?_, ?_, hwrong⟩, hmove⟩
  · exact ⟨_, Segment.getElem?_marks hk, Segment.stop_chunk hb.bounded hb.pos hk⟩
  · exact fun j hj => hagreed j (Nat.lt_succ_of_le hj)

/-! ## Answers through a client -/

/-- The party answers a bisection with `move`: it was planned, put before the contract
and accepted, and nothing else was. -/
structure Submits {σ : Type} (p : Party) (client : Client σ) (b : Bisection) (state : σ)
    (segment : Segment) (move : Submission) (transaction : Word) : Prop where
  planned : (p.plan b).outcome = .ok (segment, move)
  accepted : (client.submit move state).1.outcome = .ok transaction
  state_eq : (p.respond client b state).2 = (client.submit move state).2

theorem respond_eq_ok {σ : Type} {client : Client σ} {state : σ} {answer : Move}
    (h : (p.respond client b state).1.outcome = .ok answer) :
    ∃ segment move transaction, p.Submits client b state segment move transaction ∧
      answer = move.accepted segment transaction := by
  unfold respond at h
  -- each stage passes its failure on, so that an answer went through all of them
  cases hplan : (p.plan b).outcome with
  | error e => simp [hplan] at h
  | ok planned =>
      obtain ⟨segment, move⟩ := planned
      cases hcancelled : client.cancelled state with
      | true => simp [hplan, Client.put, hcancelled, Except.map] at h
      | false =>
          simp only [hplan, Client.put, hcancelled, Bool.false_eq_true, if_false,
            Report.outcome_bind, Report.outcome_tell, Outcome.ok_bind,
            Report.outcome_mapRefusal] at h
          cases hsubmit : (client.submit move state).1.outcome with
          | error e => rcases e with f | e <;> simp [hsubmit, Except.map] at h
          | ok transaction =>
              simp only [hsubmit, Outcome.mapRefusal_ok, Except.map, Except.ok.injEq] at h
              refine ⟨segment, move, transaction, ⟨hplan, hsubmit, ?_⟩, h.symm⟩
              simp [respond, hplan, Client.put, hcancelled]

/-! ## Answers on a ledger -/

variable {d : Docket} {nonce : UInt64}

/-- A move that a ledger accepts is entered. -/
theorem entered_of_submit {transaction : Word}
    (h : (Docket.client.submit move d).1.outcome = .ok transaction) :
    ∃ nonce, (Docket.client.submit move d).2 = d.entered nonce move := by
  unfold Docket.client at h ⊢
  cases hcancelled : d.cancelled with
  | true => simp [hcancelled] at h
  | false =>
      cases hrejection : d.ledger.rejection with
      | some reason => simp [hcancelled, Ledger.record, hrejection] at h
      | none =>
          cases hnonce : Checked.add d.ledger.nonce 1 with
          | error f => simp [hcancelled, Ledger.record, hrejection, hnonce] at h
          | ok nonce =>
              refine ⟨nonce, ?_⟩
              simp [hcancelled, Ledger.record, hrejection, hnonce, Docket.entered]

theorem respond_of_error {e : Failure ChallengeError} (h : (p.plan b).outcome = .error e) :
    (p.respond Docket.client b d).1.outcome = .error e ∧
      (p.respond Docket.client b d).2 = d := by
  simp [respond, h]

/-- With nothing in its way, an answer is entered under the next number. -/
theorem respond_of_plan (hplan : (p.plan b).outcome = .ok (segment, move))
    (hcancelled : d.cancelled = false) (hrejection : d.ledger.rejection = none)
    (hnonce : Checked.add d.ledger.nonce 1 = .ok nonce) :
    (p.respond Docket.client b d).1.outcome =
        .ok (move.accepted segment (Ledger.transaction move.tag nonce)) ∧
      (p.respond Docket.client b d).2 = d.entered nonce move := by
  simp [respond, hplan, Client.put, Docket.client, hcancelled, Ledger.record, hrejection, hnonce,
    Except.map, Docket.entered]

/-- On an empty ledger an answer that was planned is accepted. -/
theorem respond_of_plan_empty (hplan : (p.plan b).outcome = .ok (segment, move)) :
    ∃ transaction, (p.respond Docket.client b { ledger := {} }).1.outcome =
      .ok (move.accepted segment transaction) := by
  have hnonce : Checked.add 0 1 = .ok 1 := rfl
  obtain ⟨hanswer, -⟩ := respond_of_plan (d := { ledger := {} }) hplan rfl rfl hnonce
  exact ⟨_, hanswer⟩

theorem respond_of_refused {answer : Segment × Submission} (hplan : (p.plan b).outcome = .ok answer)
    (h : ¬ (d.cancelled = false ∧ d.ledger.rejection = none ∧
      ∃ nonce, Checked.add d.ledger.nonce 1 = .ok nonce)) :
    (∃ e, (p.respond Docket.client b d).1.outcome = .error e) ∧
      (p.respond Docket.client b d).2.ledger.current = d.ledger.current := by
  cases hcancelled : d.cancelled with
  | true => simp [respond, hplan, Client.put, Docket.client, hcancelled, Except.map]
  | false =>
      cases hrejection : d.ledger.rejection with
      | some reason =>
          simp [respond, hplan, Client.put, Docket.client, hcancelled, Ledger.record, hrejection,
            Except.map]
      | none =>
          cases hnonce : Checked.add d.ledger.nonce 1 with
          | error f =>
              simp [respond, hplan, Client.put, Docket.client, hcancelled, Ledger.record,
                hrejection, hnonce, Except.map]
          | ok nonce => exact absurd ⟨hcancelled, hrejection, nonce, hnonce⟩ h

/-- Everything that an answer can do to the ledger. -/
theorem respond_cases (p : Party) (b : Bisection) (d : Docket) :
    (∃ m index cuts nonce transaction, p.challenge.machine? = some m ∧ p.Divides m b index cuts ∧
        (p.respond Docket.client b d).1.outcome =
          .ok (.bisected index (b.segment.chunk b.segmentCount index) transaction) ∧
        (p.respond Docket.client b d).2 =
          d.entered nonce
            (.bisection ⟨b, index, b.segment.chunk b.segmentCount index, cuts⟩)) ∨
      (∃ m index move nonce transaction, p.challenge.machine? = some m ∧
        p.Proves m b index move ∧
        (p.respond Docket.client b d).1.outcome =
          .ok (.proved index (b.segment.chunk b.segmentCount index) transaction) ∧
        (p.respond Docket.client b d).2 = d.entered nonce (.proof move)) ∨
      (∃ e, (p.respond Docket.client b d).1.outcome = .error e) ∧
        (p.respond Docket.client b d).2.ledger.current = d.ledger.current := by
  cases hplan : (p.plan b).outcome with
  | error e =>
      obtain ⟨houtcome, hdocket⟩ := respond_of_error (d := d) hplan
      exact .inr (.inr ⟨⟨e, houtcome⟩, by rw [hdocket]⟩)
  | ok answer =>
      -- the ledger takes the move unless the run is cancelled, a rejection is pending or it is full
      by_cases hfree : d.cancelled = false ∧ d.ledger.rejection = none ∧
          ∃ nonce, Checked.add d.ledger.nonce 1 = .ok nonce
      · obtain ⟨hcancelled, hrejection, nonce, hnonce⟩ := hfree
        obtain ⟨houtcome, hdocket⟩ := respond_of_plan hplan hcancelled hrejection hnonce
        obtain ⟨m, index, hm, hsegment, ⟨cuts, hmove, hdivides⟩ | ⟨move, hmove, rfl, hproves⟩⟩ :=
          plan_cases hplan
        · rw [hmove, hsegment] at houtcome hdocket
          exact .inl ⟨m, index, cuts, nonce, _, hm, hdivides, houtcome, hdocket⟩
        · rw [hmove, hsegment] at houtcome
          rw [hmove] at hdocket
          exact .inr (.inl ⟨m, move.index, move, nonce, _, hm, hproves, houtcome, hdocket⟩)
      · exact .inr (.inr (respond_of_refused hplan hfree))

end Party

end TraceDispute
