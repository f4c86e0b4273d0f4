import TraceDispute.Proofs.Answer.Division
import TraceDispute.Proofs.Answer.Return

/-!
# Moves are all or nothing

A division, a proof and an answer to a bisection all end in one call of the
client, and whatever can fail comes before it.  So a move that succeeds adds one
entry to the ledger, and a move that fails leaves the ledger as it was.  The one
exception is wanted: a pending rejection is used up by the move that it rejects,
and by nothing else.

`Docket.Atomic` states this of the outcome of one move.  It holds as soon as
nothing reaches the client (`Docket.atomic_of_error`) and when a single
submission does (`Docket.atomic_of_put`); each of the three operations is one of
these two cases.
-/

namespace TraceDispute

/-- The ledger becomes `after` by accepting one move: it is counted and entered in the list
of its kind, and only a division changes what is to be answered. -/
structure Ledger.Accepts (l : Ledger) (move : Submission) (after : Ledger) : Prop where
  nonce_eq : after.nonce.toNat = l.nonce.toNat + 1
  rejection_eq : l.rejection = none ∧ after.rejection = none
  entry :
    (∃ division, move = .bisection division ∧ after.bisections = l.bisections ++ [division] ∧
      after.proofs = l.proofs ∧ after.current = some ⟨division.segment, division.cuts⟩) ∨
    ∃ proof, move = .proof proof ∧ after.proofs = l.proofs ++ [proof] ∧
      after.bisections = l.bisections ∧ after.current = l.current

namespace Docket

variable {d : Docket} {segment : Segment} {move : Submission} {α : Type} {outOfRoom : Prop}
  {answers : α → Submission → Prop} {result : Report ChallengeError α × Docket}

/-- The docket once its pending rejection has been used up. -/
def cleared (d : Docket) : Docket := { d with ledger := { d.ledger with rejection := none } }

/-- The result of a move that either was accepted, once, or changed nothing, a rejection that
it met apart.  `answers` ties what is returned to the move that was accepted, and `outOfRoom`
is what it takes for the run to be abandoned. -/
structure Atomic (d : Docket) (outOfRoom : Prop) (answers : α → Submission → Prop)
    (result : Report ChallengeError α × Docket) : Prop where
  accepted : ∀ answer, result.1.outcome = .ok answer →
    ∃ move ledger, answers answer move ∧ d.ledger.Accepts move ledger ∧
      result.2 = { d with ledger }
  refused : ∀ e, result.1.outcome = .refuse e →
    (e.rejection? = none ∧ result.2 = d) ∨
      ∃ reason, e.rejection? = some reason ∧ d.ledger.rejection = some reason ∧
        result.2 = d.cleared
  faulted : ∀ fault, result.1.outcome = .error (.fault fault) →
    fault = .capacityOverflow ∧ outOfRoom ∧ result.2 = d
  stopped : d.cancelled = true → (∃ e, result.1.outcome = .error e) ∧ result.2 = d

/-! ## One submission -/

theorem accepts_entered (hrejection : d.ledger.rejection = none)
    (hnonce : d.ledger.nonce.toNat + 1 < UInt64.size) (move : Submission) :
    d.ledger.Accepts move (d.entered (d.ledger.nonce + 1) move).ledger := by
  have hnext : (d.ledger.nonce + 1).toNat = d.ledger.nonce.toNat + 1 := by
    rw [UInt64.toNat_add]
    exact Nat.mod_eq_of_lt hnonce
  cases move with
  | bisection division =>
      exact ⟨hnext, ⟨hrejection, hrejection⟩, .inl ⟨division, rfl, rfl, rfl, rfl⟩⟩
  | proof proof => exact ⟨hnext, ⟨hrejection, hrejection⟩, .inr ⟨proof, rfl, rfl, rfl, rfl⟩⟩

theorem put_of_cancelled (h : d.cancelled = true) (segment : Segment) (move : Submission) :
    Docket.client.put segment move d = (.refuse .cancelled, d) := by
  simp [Client.put, Docket.client, h]

theorem put_of_rejection {reason : String} (hrunning : d.cancelled = false)
    (hrejection : d.ledger.rejection = some reason) (segment : Segment) (move : Submission) :
    (Docket.client.put segment move d).1.outcome =
        .refuse (.submission move.index (.rejected reason)) ∧
      (Docket.client.put segment move d).2 = d.cleared := by
  simp [Client.put, Docket.client, hrunning, Ledger.record, hrejection, cleared]

theorem put_of_free (hrunning : d.cancelled = false) (hrejection : d.ledger.rejection = none)
    (hnonce : d.ledger.nonce.toNat + 1 < UInt64.size) (segment : Segment) (move : Submission) :
    (Docket.client.put segment move d).1.outcome =
        .ok (Ledger.transaction move.tag (d.ledger.nonce + 1)) ∧
      (Docket.client.put segment move d).2 = d.entered (d.ledger.nonce + 1) move := by
  have hadd : Checked.add d.ledger.nonce 1 = .ok (d.ledger.nonce + 1) := Checked.add_of_lt hnonce
  simp [Client.put, Docket.client, hrunning, Ledger.record, hrejection, hadd, entered]

/-! ## Results that come from at most one submission -/

theorem atomic_of_error {e : Failure ChallengeError} (houtcome : result.1.outcome = .error e)
    (hafter : result.2 = d)
    (hwithin : result.1.outcome.Within (fun e => e.rejection? = none)
      (fun fault => fault = .capacityOverflow ∧ outOfRoom)) :
    d.Atomic outOfRoom answers result := by
  rw [houtcome] at hwithin
  constructor
  case accepted =>
    intro answer hanswer
    cases houtcome.symm.trans hanswer
  case refused =>
    intro cause hcause
    obtain rfl := Except.error.inj (houtcome.symm.trans hcause)
    exact .inl ⟨hwithin, hafter⟩
  case faulted =>
    intro fault hfault
    obtain rfl := Except.error.inj (houtcome.symm.trans hfault)
    exact ⟨hwithin.1, hwithin.2, hafter⟩
  case stopped => exact fun _ => ⟨⟨e, houtcome⟩, hafter⟩

theorem atomic_of_rejection {reason : String} {index : Nat} (hrunning : d.cancelled = false)
    (hrejection : d.ledger.rejection = some reason)
    (houtcome : result.1.outcome = .refuse (.submission index (.rejected reason)))
    (hafter : result.2 = d.cleared) : d.Atomic outOfRoom answers result := by
  constructor
  case accepted =>
    intro answer hanswer
    cases houtcome.symm.trans hanswer
  case refused =>
    intro e he
    obtain rfl := Failure.refusal.inj (Except.error.inj (houtcome.symm.trans he))
    exact .inr ⟨reason, rfl, hrejection, hafter⟩
  case faulted =>
    intro fault hfault
    cases houtcome.symm.trans hfault
  case stopped =>
    intro hstopped
    cases hrunning.symm.trans hstopped

theorem atomic_of_accepted {answer : α} {ledger : Ledger} (hrunning : d.cancelled = false)
    (haccepts : d.ledger.Accepts move ledger) (hanswer : answers answer move)
    (houtcome : result.1.outcome = .ok answer) (hafter : result.2 = { d with ledger }) :
    d.Atomic outOfRoom answers result := by
  constructor
  case accepted =>
    intro other hother
    obtain rfl := Except.ok.inj (houtcome.symm.trans hother)
    exact ⟨move, ledger, hanswer, haccepts, hafter⟩
  case refused =>
    intro e he
    cases houtcome.symm.trans he
  case faulted =>
    intro fault hfault
    cases houtcome.symm.trans hfault
  case stopped =>
    intro hstopped
    cases hrunning.symm.trans hstopped

theorem atomic_of_put (hnonce : d.ledger.nonce.toNat + 1 < UInt64.size) (answer : Word → α)
    (hanswer : ∀ transaction, answers (answer transaction) move)
    (houtcome : result.1.outcome = (Docket.client.put segment move d).1.outcome.map answer)
    (hafter : result.2 = (Docket.client.put segment move d).2) :
    d.Atomic outOfRoom answers result := by
  -- in the order in which the ledger looks: cancelled, a rejection pending, the move accepted
  cases hcancelled : d.cancelled with
  | true =>
      rw [put_of_cancelled hcancelled] at houtcome hafter
      have hrefuse : result.1.outcome = .refuse .cancelled := houtcome
      refine atomic_of_error hrefuse hafter ?_
      rw [hrefuse]
      rfl
  | false =>
      cases hrejection : d.ledger.rejection with
      | some reason =>
          obtain ⟨hput, hstate⟩ := put_of_rejection hcancelled hrejection segment move
          rw [hput] at houtcome
          exact atomic_of_rejection hcancelled hrejection houtcome (hafter.trans hstate)
      | none =>
          obtain ⟨hput, hstate⟩ := put_of_free hcancelled hrejection hnonce segment move
          rw [hput] at houtcome
          exact atomic_of_accepted hcancelled (accepts_entered hrejection hnonce move) (hanswer _)
            houtcome (hafter.trans hstate)

theorem atomic_putBuilt (hnonce : d.ledger.nonce.toNat + 1 < UInt64.size)
    {built : Report ChallengeError Submission} {moves : Submission → Prop}
    (hwithin : built.outcome.Within (fun e => e.rejection? = none)
      (fun fault => fault = .capacityOverflow ∧ outOfRoom))
    (hmoves : ∀ move, built.outcome = .ok move → moves move) (segment : Segment) :
    d.Atomic outOfRoom (fun _ move => moves move) (Docket.client.putBuilt segment built d) := by
  unfold Client.putBuilt
  cases hbuilt : built.outcome with
  | error e =>
      refine atomic_of_error rfl rfl ?_
      rw [hbuilt] at hwithin
      rcases e with fault | cause
      · exact hwithin
      · exact hwithin
  | ok move =>
      refine atomic_of_put hnonce id (fun _ => hmoves move hbuilt) ?_ rfl
      rw [Except.map_id]
      rfl

end Docket

/-! ## What can fail before the client is called -/

namespace Bisection

theorem within_subSegment (b : Bisection) (index : Nat) :
    (b.subSegment index).Within (fun _ => True)
      (fun fault => fault = .capacityOverflow ∧ b.Overfull) := by
  unfold subSegment
  split
  · trivial
  · refine (b.within_split.imp fun _ _ => trivial).bind fun chunks _ => ?_
    split
    · trivial
    · trivial

theorem within_requireWithin (b : Bisection) (index : Nat) (segment : Segment) :
    (b.requireWithin index segment).Within (fun e => e.rejection? = none)
      (fun fault => fault = .capacityOverflow ∧ b.Overfull) :=
  within_requireWithin_of (b.within_subSegment index) (fun _ => rfl) segment

theorem within_divide (b : Bisection) (index : Nat) (segment : Segment) (cuts : List Cut) :
    (b.divide index segment cuts).Within (fun e => e.rejection? = none)
      (fun fault => fault = .capacityOverflow ∧ b.Overfull) :=
  (b.within_requireWithin index segment).bind fun _ _ => trivial

theorem eq_of_divide {b : Bisection} {index : Nat} {segment : Segment} {cuts : List Cut}
    {move : Submission} (h : b.divide index segment cuts = .ok move) :
    move = .bisection ⟨b, index, segment, cuts⟩ := by
  obtain ⟨-, -, hmove⟩ := Outcome.bind_eq_ok_iff.mp h
  exact (Except.ok.inj hmove).symm

end Bisection

namespace Challenge

variable {c : Challenge} {b : Bisection} {index : Nat} {segment : Segment}

theorem within_buildProof (hcount : ∀ m, c.machine? = some m → ∀ o, c.Counts m o) (b : Bisection)
    (index : Nat) (segment : Segment) :
    (c.buildProof b index segment).outcome.Within (fun e => e.rejection? = none)
      (fun fault => fault = .capacityOverflow ∧ b.Overfull) := by
  refine within_buildProof_of (b.within_requireWithin index segment) ?_ ?_ ?_
  · exact c.within_openSession fun _ => rfl
  · exact fun m _ => (within_ownProof c m b index segment.start).imp fun _ h => h.2
  · exact fun m hm hnot => absurd (hcount m hm _) hnot

theorem exists_of_buildProof {move : Submission}
    (h : (c.buildProof b index segment).outcome = .ok move) :
    ∃ proof, move = .proof proof ∧ proof.previous = b ∧ proof.index = index := by
  obtain ⟨-, s, progress, snapshot, payload, digest, -, -, -, -, rfl⟩ :=
    buildProof_eq_ok_iff.mp h
  exact ⟨_, rfl, rfl, rfl⟩

end Challenge

theorem Party.atomic_respond {p : Party} {b : Bisection} {d : Docket}
    (hnonce : d.ledger.nonce.toNat + 1 < UInt64.size) (hplan : p.Finds b (p.plan b).outcome) :
    d.Atomic (p.Overextended b)
      (fun answer move => ∃ segment transaction, (p.plan b).outcome = .ok (segment, move) ∧
        answer = move.accepted segment transaction)
      (p.respond Docket.client b d) := by
  -- a party without a move leaves the docket alone, and one with a move submits it
  rcases hmove : (p.plan b).outcome with e | ⟨segment, move⟩
  · obtain ⟨houtcome, hafter⟩ := respond_of_error hmove
    refine Docket.atomic_of_error houtcome hafter ?_
    rw [hmove] at hplan
    rw [houtcome]
    rcases e with fault | cause
    · exact hplan
    · exact hplan.2
  · have houtcome : (p.respond Docket.client b d).1.outcome =
        (Docket.client.put segment move d).1.outcome.map fun transaction =>
          move.accepted segment transaction := by
      simp only [respond, hmove]
    have hafter : (p.respond Docket.client b d).2 = (Docket.client.put segment move d).2 := by
      simp only [respond, hmove]
    exact Docket.atomic_of_put hnonce _ (fun transaction => ⟨segment, transaction, rfl, rfl⟩)
      houtcome hafter

/-- On a ledger with a number left, a division, a proof and an answer of a party whose
program's gas can be counted are each accepted exactly once or change nothing. -/
theorem moves_are_atomic {d : Docket} (hnonce : d.ledger.nonce.toNat + 1 < UInt64.size) {p : Party}
    (hgas : ∀ m, p.challenge.machine? = some m → gasSum m.program < UInt64.size) (b : Bisection)
    (index : Nat) (segment : Segment) (cuts : List Cut) :
    d.Atomic b.Overfull (fun _ move => move = .bisection ⟨b, index, segment, cuts⟩)
        (Docket.client.bisect b index segment cuts d) ∧
      d.Atomic b.Overfull
        (fun _ move => ∃ proof, move = .proof proof ∧ proof.previous = b ∧ proof.index = index)
        (Docket.client.prove p.challenge b index segment d) ∧
      d.Atomic (p.Overextended b)
        (fun answer move => ∃ segment transaction, (p.plan b).outcome = .ok (segment, move) ∧
          answer = move.accepted segment transaction)
        (p.respond Docket.client b d) := by
  have hcount := Party.counts_of_gasSum hgas
  refine ⟨?_, ?_, ?_⟩
  · exact Docket.atomic_putBuilt hnonce (b.within_divide index segment cuts)
      (fun move => Bisection.eq_of_divide) segment
  · exact Docket.atomic_putBuilt hnonce (Challenge.within_buildProof hcount b index segment)
      (fun move => Challenge.exists_of_buildProof) segment
  · exact Party.atomic_respond hnonce (Party.finds_plan hgas b)

theorem adder_moves_are_atomic :
    (∀ m, (Player.adder 2).party.challenge.machine? = some m →
        gasSum m.program < UInt64.size) ∧
      (∃ move ledger, ({} : Ledger).Accepts move ledger ∧
        ((Player.adder 2).party.respond Docket.client falseSum { ledger := {} }).2 =
          { ledger }) ∧
      (Docket.client.bisect falseSum 0 ⟨0, 2⟩ []
        { ledger := { nonce := 6, rejection := some "late" } }).2 =
          { ledger := { nonce := 6 } } := by
  have hgas := Player.gasSum_adder_lt
  refine ⟨hgas, ?_, ?_⟩
  · have hnonce : ({} : Ledger).nonce.toNat + 1 < UInt64.size := by decide
    obtain ⟨transaction, hanswer⟩ := exists_respond_falseSum
    obtain ⟨-, -, hrespond⟩ :=
      moves_are_atomic (d := { ledger := {} }) hnonce hgas falseSum 0 ⟨0, 2⟩ []
    obtain ⟨move, ledger, -, haccepts, hafter⟩ := hrespond.accepted _ hanswer
    exact ⟨move, ledger, haccepts, hafter⟩
  · -- a move that is wrong as well is not looked at before the rejection
    let d : Docket := { ledger := { nonce := 6, rejection := some "late" } }
    have hnonce : d.ledger.nonce.toNat + 1 < UInt64.size := by decide
    have hrefused : (Docket.client.bisect falseSum 0 ⟨0, 2⟩ [] d).1.outcome =
        .refuse (.submission 0 (.rejected "late")) := by rfl
    obtain ⟨hbisect, -, -⟩ := moves_are_atomic hnonce hgas falseSum 0 ⟨0, 2⟩ []
    rcases hbisect.refused _ hrefused with ⟨hnone, -⟩ | ⟨reason, -, -, hafter⟩
    · cases hnone
    · exact hafter

end TraceDispute
