import TraceDispute.Proofs.Game.Player

/-!
# Divisions as answers

Whatever bisection an opponent puts on the ledger, a party that answers it with a
division has compared every claim up to the part it divides, and divides it at
cuts of its own (`division_answers_bisection`).

The boundaries of a part are derived three times: from the number of claimed
cuts when the part is found, from the party's degree when it is divided, and from
the number of recorded cuts when the next player answers.  All three agree, so
the contract already knows the first of the new hashes, which is not sent with
the call, and the last one contradicts the claim in dispute.
-/

namespace TraceDispute

variable {p : Party} {b : Bisection} {d : Docket} {index : Nat} {segment : Segment}
  {offsets bounds : List UInt64} {cuts : List Cut}

namespace Challenge.Disputes

variable {c : Challenge}

/-- The party's own cut at the start of the part has the hash that was claimed there. -/
theorem exists_start (h : c.Disputes b offsets index segment) :
    ∃ own, c.Takes segment.start own ∧ b.cutHashes[index]? = some own.hash := by
  obtain ⟨o, claim, own, ho, hclaim, htakes, heq⟩ := h.agreed index le_rfl
  obtain rfl : segment.start = o := by simpa [h.start_eq] using ho
  refine ⟨own, htakes, ?_⟩
  rw [Bisection.cutHashes, List.getElem?_map, hclaim, heq]
  rfl

/-- Its own cut at the end of the part has another hash than the one claimed there. -/
theorem exists_stop (h : c.Disputes b offsets index segment) :
    ∃ stop own claimed, segment.stop = .ok stop ∧ c.Takes stop own ∧
      b.cutHashes[index + 1]? = some claimed ∧ own.hash ≠ claimed := by
  obtain ⟨o, claim, own, ho, hclaim, htakes, hne⟩ := h.wrong
  obtain ⟨stop, hget, hstop⟩ := h.stop_eq
  obtain rfl : stop = o := by simpa [hget] using ho
  refine ⟨stop, own, claim.hash, hstop, htakes, ?_, hne⟩
  rw [Bisection.cutHashes, List.getElem?_map, hclaim]
  rfl

end Challenge.Disputes

/-- A party divides part `index` of a bisection: it disputes that part and records its
own cuts at the part's boundaries. -/
structure Party.Refines (p : Party) (b : Bisection) (index : Nat) (segment : Segment)
    (offsets bounds : List UInt64) (cuts : List Cut) : Prop where
  disputes : p.challenge.Disputes b offsets index segment
  boundaries_eq : segment.boundaries p.degree = .ok bounds
  cuts_eq : (p.challenge.cutsAt bounds).outcome = .ok cuts

namespace Party.Refines

/-- The next player derives the offsets that the cuts were taken at. -/
theorem offsets_eq (h : p.Refines b index segment offsets bounds cuts) :
    (Bisection.mk segment cuts).offsets = .ok bounds := by
  obtain ⟨m, hm, -⟩ := Challenge.machine?_of_cutsAt h.cuts_eq
  exact Bisection.offsets_of_boundaries h.boundaries_eq
    (Challenge.ownCut_of_cutsAt hm h.cuts_eq).length_eq.symm

/-- The first new hash is the one claimed at the start of the part. -/
theorem cutHashes_eq (h : p.Refines b index segment offsets bounds cuts) :
    ∃ agreed, b.cutHashes[index]? = some agreed ∧
      (Bisection.mk segment cuts).cutHashes = agreed :: (cuts.map Cut.hash).tail := by
  obtain ⟨hfirst, -⟩ := Segment.ends_of_boundaries h.boundaries_eq
  obtain ⟨own, hown, htakes⟩ := Challenge.takes_of_cutsAt h.cuts_eq hfirst
  obtain ⟨own', htakes', hagreed⟩ := h.disputes.exists_start
  obtain rfl := htakes.unique htakes'
  refine ⟨own.hash, hagreed, ?_⟩
  cases cuts with
  | nil => simp at hown
  | cons cut rest =>
      obtain rfl : cut = own := by simpa using hown
      rfl

/-- The last new hash is not the one claimed at the end of the part. -/
theorem getLast?_cutHashes (h : p.Refines b index segment offsets bounds cuts) :
    ∃ own claimed, (Bisection.mk segment cuts).cutHashes.getLast? = some own ∧
      b.cutHashes[index + 1]? = some claimed ∧ own ≠ claimed := by
  obtain ⟨m, hm, -⟩ := Challenge.machine?_of_cutsAt h.cuts_eq
  have hlength := (Challenge.ownCut_of_cutsAt hm h.cuts_eq).length_eq
  obtain ⟨-, stop, hstop, hlast⟩ := Segment.ends_of_boundaries h.boundaries_eq
  obtain ⟨own, hown, htakes⟩ := Challenge.takes_of_cutsAt h.cuts_eq hlast
  obtain ⟨stop', own', claimed, hstop', htakes', hclaimed, hne⟩ := h.disputes.exists_stop
  obtain rfl : stop = stop' := Except.ok.inj (hstop.symm.trans hstop')
  obtain rfl := htakes.unique htakes'
  refine ⟨own.hash, claimed, ?_, hclaimed, hne⟩
  rw [Bisection.cutHashes, List.getLast?_map, List.getLast?_eq_getElem?, ← hlength, hown]
  rfl

end Party.Refines

/-- An answer that divides part `i` of a bisection, whoever claimed its cuts, is about the
first claim that is not the party's own, and what it enters on the ledger is drawn from the
party's own cuts. -/
theorem division_answers_bisection {i : Nat} {transaction : Word}
    (h : (p.respond Docket.client b d).1.outcome = .ok (.bisected i segment transaction)) :
    ∃ offsets bounds cuts, p.Refines b i segment offsets bounds cuts ∧
      (p.respond Docket.client b d).2.ledger.bisections =
        d.ledger.bisections ++ [⟨b, i, segment, cuts⟩] ∧
      (p.respond Docket.client b d).2.ledger.current = some ⟨segment, cuts⟩ ∧
      (Bisection.mk segment cuts).offsets = .ok bounds ∧
      (∃ agreed, b.cutHashes[i]? = some agreed ∧
        (Bisection.mk segment cuts).cutHashes = agreed :: (cuts.map Cut.hash).tail) ∧
      ∃ own claimed, (Bisection.mk segment cuts).cutHashes.getLast? = some own ∧
        b.cutHashes[i + 1]? = some claimed ∧ own ≠ claimed := by
  obtain ⟨segment', move, tx, hsubmits, hanswer⟩ := Party.respond_eq_ok h
  obtain ⟨index, hdisputes, hmove⟩ := Party.disputes_of_plan hsubmits.planned
  obtain ⟨nonce, hentered⟩ := Party.entered_of_submit hsubmits.accepted
  -- the answer says that the part was divided, so it was not proved
  rcases Party.answerPart_cases hmove with ⟨bounds, cuts, hbounds, hcuts, rfl⟩ |
    ⟨-, proof, rfl, -⟩
  · obtain ⟨rfl, rfl, rfl⟩ : i = index ∧ segment = segment' ∧ transaction = tx := by
      simpa [Submission.accepted] using hanswer
    have hrefines : p.Refines b i segment _ bounds cuts := ⟨hdisputes, hbounds, hcuts⟩
    rw [hsubmits.state_eq, hentered]
    exact ⟨_, bounds, cuts, hrefines, rfl, rfl, hrefines.offsets_eq, hrefines.cutHashes_eq,
      hrefines.getLast?_cutHashes⟩
  · simp [Submission.accepted] at hanswer

/-- The claim that adding one and two makes four. -/
def falseSum : Bisection := ⟨⟨0, 2⟩, [Player.sumCut 0 0, Player.sumCut 2 (1 + 3)]⟩

theorem exists_respond_falseSum :
    ∃ transaction, ((Player.adder 2).party.respond Docket.client falseSum
      { ledger := {} }).1.outcome = .ok (.bisected 0 ⟨0, 2⟩ transaction) := by
  obtain ⟨hzero, hone, htwo⟩ := Player.adder_owns (.inl rfl)
  have hstop : (Segment.mk 0 2).stop = .ok 2 := rfl
  have hbounds : (Segment.mk 0 2).boundaries (Player.adder 2).party.degree = .ok [0, 1, 2] := rfl
  have hcuts := Player.cutsAt_of_owns (by decide) (.cons hzero (.cons hone (.cons htwo .nil)))
  have hwithin : falseSum.requireWithin 0 ⟨0, 2⟩ = .ok () := by decide
  have hpart : (Player.adder 2).party.answerPart falseSum 0 ⟨0, 2⟩ =
      .ok (.bisection ⟨falseSum, 0, ⟨0, 2⟩,
        [Player.sumCut 0 0, Player.sumCut 1 1, Player.sumCut 2 (1 + 2)]⟩) := by
    simp only [Party.answerPart, show (Segment.mk 0 2).isOneStep = false from rfl,
      Bool.false_eq_true, if_false, hbounds, Outcome.mapRefusal_ok, Outcome.ok_bind, hcuts,
      Bisection.divide, hwithin]
    rfl
  have hplan : ((Player.adder 2).party.plan falseSum).outcome = .ok (⟨0, 2⟩, _) :=
    Player.plan_of_owns hstop hzero htwo rfl Player.hash_sumCut_ne hpart
  exact Party.respond_of_plan_empty hplan

theorem adder_divides_falseSum :
    ∃ transaction offsets bounds cuts,
      ((Player.adder 2).party.respond Docket.client falseSum { ledger := {} }).1.outcome =
        .ok (.bisected 0 ⟨0, 2⟩ transaction) ∧
      (Player.adder 2).party.Refines falseSum 0 ⟨0, 2⟩ offsets bounds cuts ∧
      ((Player.adder 2).party.respond Docket.client falseSum { ledger := {} }).2.ledger.current =
        some ⟨⟨0, 2⟩, cuts⟩ := by
  obtain ⟨transaction, hanswer⟩ := exists_respond_falseSum
  obtain ⟨offsets, bounds, cuts, hrefines, -, hcurrent, -⟩ := division_answers_bisection hanswer
  exact ⟨transaction, offsets, bounds, cuts, hanswer, hrefines, hcurrent⟩

end TraceDispute
