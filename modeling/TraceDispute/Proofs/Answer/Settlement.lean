import TraceDispute.Proofs.Answer.Opening
import TraceDispute.Proofs.Machine.Step

/-!
# What a submitted proof settles

A verifier that accepts a proof carries out one instruction of the machine that
it opens.  `Challenge.cutAfterStep` is the cut that this leads to, to be compared
with the claim at the end of the part in dispute.

Offsets count gas, and an instruction may cost more than one unit of it.  The
party's own cuts at the two ends of a part of length one differ at one unit of an
instruction only: the first one with overshoot, the last one without.  There the
step of the proof leads to the party's own cut at the end of the part
(`proof_settles_step`).  At every other unit the two cuts are the same.  The
machine that the proof opens then stands after the instruction already, or still
before it, and its step leads to another cut, unless digests collide.

So a proof need not settle the dispute: an opponent that claims the cut which the
step leads to is proved right by the party itself (`proof_concedes_claim`).
-/

namespace TraceDispute

variable {p : Party} {b : Bisection} {segment : Segment} {σ : Type} {client : Client σ} {state : σ}
  {transaction : Word}

theorem Progress.apply_eq_ok {progress progress' : Progress} {e : Effects} {machineHash : Word}
    (h : progress.apply e machineHash = .ok progress') :
    Checked.add progress.gasUsed e.gasUsed = .ok progress'.gasUsed ∧
      progress'.machineHash = machineHash := by
  cases hgas : Checked.add progress.gasUsed e.gasUsed with
  | error f => simp [apply, hgas, bind, Except.bind] at h
  | ok gas =>
      simp only [apply, hgas, bind, Except.bind] at h
      split at h
      · cases h
      split at h
      · cases h
      split at h
      · cases h
      obtain rfl := Except.ok.inj h
      exact ⟨rfl, rfl⟩

/-- One instruction of the machine at a point leads to the next point, with its progress. -/
theorem Point.execute_one {q r : Point} (hnext : q.next? = some r) (hgas : r.gas < UInt64.size)
    (hbehind : r.Behind) :
    ∃ effects, q.machine.execute 1 true = .ok (r.machine, effects) ∧
      q.progress.apply effects r.machine.hash = .ok r.progress := by
  obtain ⟨hrunning, i, hi, ha, rfl⟩ := next?_eq_some_iff.mp hnext
  have hjoin : q.join ((start q.machine).after i) = q.after i := by
    simp [join, after, start]
  refine ⟨(q.machine.stepped i).2, Machine.execute_one hrunning hi, ?_⟩
  rw [Machine.effects_stepped ha, progress, apply_effects (hjoin ▸ hgas) (hjoin ▸ hbehind), hjoin]
  rfl

namespace Challenge

variable {c : Challenge} {m snapshot : Machine} {progress : Progress} {digest : Word}
  {offset next : UInt64} {own stepped : Cut}

/-- The cut that one more instruction leads to, from a machine and the progress made on
the way to it. -/
def cutAfterStep (c : Challenge) (offset : UInt64) (progress : Progress) (machine : Machine) :
    Outcome ChallengeError Cut := do
  let (machine', effects) ← .ofChecked (machine.execute 1 true)
  let progress' ← .ofChecked (progress.apply effects machine'.hash)
  let inboxDelta ← c.digestFor offset progress'
  return Cut.ofProgress progress' inboxDelta

theorem cutAfterStep_of_next? {q r : Point} (hnext : q.next? = some r)
    (hgas : r.gas < UInt64.size) (hbehind : r.Behind)
    (hdigest : c.inbox.digestAt r.progress.messagesRead = .ok digest) :
    c.cutAfterStep offset q.progress q.machine = .ok (Cut.ofProgress r.progress digest) := by
  obtain ⟨effects, hrun, happly⟩ := Point.execute_one hnext hgas hbehind
  simp [cutAfterStep, hrun, happly, digestFor, hdigest, bind, Except.bind, pure, Except.pure]

/-- A machine that has a step to make does not stay what it is: where the step leads has
another hash, unless digests collide. -/
theorem collide_of_cutAfterStep {i : Instruction} (hrunning : snapshot.halted = false)
    (hi : snapshot.next? = some i) (hmachine : progress.machineHash = snapshot.hash)
    (hstep : c.cutAfterStep offset progress snapshot = .ok stepped)
    (hhash : stepped.hash = (Cut.ofProgress progress digest).hash) :
    Collide stepped.pack (Cut.ofProgress progress digest).pack ∨
      Collide stepped.packRest (Cut.ofProgress progress digest).packRest ∨
      Collide snapshot.stop.packState snapshot.packState := by
  by_cases hpack : Collide stepped.pack (Cut.ofProgress progress digest).pack
  · exact .inl hpack
  by_cases hrest : Collide stepped.packRest (Cut.ofProgress progress digest).packRest
  · exact .inr (.inl hrest)
  have hsame := Cut.eq_of_hash_eq hhash hpack hrest
  simp only [cutAfterStep, Machine.execute_one hrunning hi, Outcome.ofChecked_ok, Outcome.ok_bind,
    Outcome.bind_eq_ok_iff, Outcome.ofChecked_eq_ok_iff] at hstep
  obtain ⟨progress', happly, digest', -, hstepped⟩ := hstep
  obtain rfl := Except.ok.inj hstepped
  simp only [Cut.ofProgress, Cut.mk.injEq] at hsame
  obtain ⟨hused, -, hstate, -⟩ := hsame
  obtain ⟨hsum, hmachine'⟩ := Progress.apply_eq_ok happly
  cases ha : (snapshot.perform {} i).1.halted with
  | false =>
      -- an instruction that completes uses gas
      have hpos := Machine.gasCost_pos ha
      have htotal := Checked.toNat_of_add_eq_ok hsum
      simp only [Machine.stepped, ha, Bool.false_eq_true, if_false, hused] at htotal
      omega
  | true =>
      -- one that stops the machine changes the flag in what is hashed
      refine .inr (.inr ⟨fun heq => ?_, ?_⟩)
      · obtain ⟨-, -, -, -, hflag⟩ := Machine.packState_inj heq
        simp [Machine.stop, hrunning] at hflag
      · have hstop : (snapshot.stepped i).1 = snapshot.stop := by
          rw [Machine.stepped, Machine.perform_of_halted hrunning ha]
        calc keccak snapshot.stop.packState
            = progress'.machineHash := by rw [hmachine', hstop]; rfl
          _ = progress.machineHash := hstate
          _ = keccak snapshot.packState := hmachine

/-- A party's own cut one offset after a proof is the one that the proof starts from, or
it counts more gas and is where the step of the proof leads. -/
theorem Snapshots.step_cases {move : ProofMove} (h : c.Snapshots offset move snapshot)
    (hm : c.machine? = some m) (hnext : next.toNat = offset.toNat + 1) (hown : c.Takes next own) :
    own = Cut.ofProgress move.progress move.inboxDelta ∨
      (own.gasUsed ≠ move.progress.gasUsed ∧
        c.cutAfterStep next move.progress snapshot = .ok own) := by
  obtain ⟨q, hq, hprogress, rfl⟩ := h.exists_point hm
  obtain ⟨r, digest, hr, hdigest, rfl⟩ := ownCut_eq_ok_iff.mp (hown.ownCut_eq hm)
  have hdelta := h.inboxDelta_eq
  have hfits := hown.fits hm
  obtain ⟨rfl, -⟩ := Machine.pointAt_eq_ok_iff.mp hq
  obtain ⟨rfl, -⟩ := Machine.pointAt_eq_ok_iff.mp hr
  rw [hprogress] at hdelta ⊢
  rw [Fits, hnext] at hfits
  rw [hnext] at hdigest ⊢
  -- one unit of gas further the trace rests where it did, or one instruction later
  rcases m.restAt_succ_cases c.overshoot offset.toNat with heq | hstep
  · left
    rw [heq] at hdigest ⊢
    rw [Except.ok.inj (hdigest.symm.trans hdelta)]
  · right
    refine ⟨fun hgas => ?_, cutAfterStep_of_next? hstep hfits (m.behind_restAt ..) hdigest⟩
    have hlt := Point.gas_lt_of_next? hstep
    have hsame : (m.restAt c.overshoot (offset.toNat + 1)).progress.gasUsed.toNat = _ :=
      congrArg UInt64.toNat hgas
    rw [Point.toNat_gasUsed_progress hfits, Point.toNat_gasUsed_progress (hlt.trans hfits)] at hsame
    omega

end Challenge

/-- The step of a proof that a party submits leads to the party's own cut at the end of the
part in dispute, if that cut counts other gas than the proof does.  Otherwise it is the cut
that the proof starts from, and the step does not lead back to it unless digests collide. -/
theorem proof_settles_step {i : Nat}
    (h : (p.respond client b state).1.outcome = .ok (.proved i segment transaction)) :
    ∃ move snapshot own, p.Submits client b state segment (.proof move) transaction ∧
      p.challenge.Snapshots segment.start move snapshot ∧
      p.challenge.Takes (segment.start + 1) own ∧
      (own.gasUsed ≠ move.progress.gasUsed →
        p.challenge.cutAfterStep (segment.start + 1) move.progress snapshot = .ok own) ∧
      (own.gasUsed = move.progress.gasUsed →
        own = Cut.ofProgress move.progress move.inboxDelta ∧
        ∀ stepped, p.challenge.cutAfterStep (segment.start + 1) move.progress snapshot =
            .ok stepped → stepped.hash = own.hash →
          Collide stepped.pack own.pack ∨ Collide stepped.packRest own.packRest ∨
            Collide snapshot.stop.packState snapshot.packState) := by
  obtain ⟨move, snapshot, offsets, hsubmits, -, -, hone, hdisputes, hsnapshots⟩ :=
    Party.proof_of_respond h
  obtain ⟨stop, own, -, hstop, hown, -⟩ := hdisputes.exists_stop
  obtain ⟨m, hm⟩ := hown.resolves
  have hlength : segment.length = 1 := by simpa [Segment.isOneStep] using hone
  obtain ⟨-, hnext⟩ := Segment.stop_eq_ok_iff.mp hstop
  rw [hlength] at hnext
  obtain rfl : stop = segment.start + 1 := by
    have hlt := stop.toNat_lt
    rw [← UInt64.toNat_inj, UInt64.toNat_add, hnext, Nat.mod_eq_of_lt (hnext ▸ hlt)]
  refine ⟨move, snapshot, own, hsubmits, hsnapshots, hown, ?_⟩
  -- where both own cuts are one, the step of the proof goes past it or stops the machine
  rcases hsnapshots.step_cases hm hnext hown with rfl | ⟨hne, hstep⟩
  · refine ⟨fun hgas => absurd rfl hgas, fun _ => ⟨rfl, fun stepped => ?_⟩⟩
    obtain ⟨proof, -, hproof⟩ := Machine.decode?_machinePayload hsnapshots.machineProof_eq
    obtain ⟨hrunning, i, hi, -⟩ := Machine.stepProof_eq_ok_iff.mp hproof
    exact Challenge.collide_of_cutAfterStep hrunning hi (hsnapshots.machineHash_eq hm)
  · exact ⟨fun _ => hstep, fun hgas => absurd hgas hne⟩

theorem adder_settles_falseStep :
    ∃ transaction move snapshot own,
      ((Player.adder 2).party.respond Docket.client falseStep { ledger := {} }).1.outcome =
        .ok (.proved 0 ⟨1, 1⟩ transaction) ∧
      (Player.adder 2).party.challenge.Snapshots 1 move snapshot ∧
      own.gasUsed ≠ move.progress.gasUsed ∧
      (Player.adder 2).party.challenge.Takes 2 own ∧
      (Player.adder 2).party.challenge.cutAfterStep 2 move.progress snapshot = .ok own := by
  obtain ⟨proof, transaction, hplan, hused, hanswer⟩ := exists_respond_falseStep
  obtain ⟨move, snapshot, own, hsubmits, hsnapshots, hown, hsettles, -⟩ :=
    proof_settles_step hanswer
  obtain rfl : move = proof := by simpa [hsubmits.planned] using hplan
  have htwo := Player.takes_of_owns (Player.adder_owns (.inl rfl)).2.2
  have hgas : own.gasUsed ≠ move.progress.gasUsed := by
    rw [hused, hown.unique htwo]
    decide
  exact ⟨transaction, move, snapshot, own, hanswer, hsnapshots, hgas, hown, hsettles hgas⟩

/-! ## Proofs that settle nothing -/

/-- Against a claim about one unit of gas the party submits a proof whose step leads to
the claim, and not to the party's own cut. -/
def Party.ProvesClaim (p : Party) (o : UInt64) (agreed claim : Cut) : Prop :=
  ∃ transaction move snapshot own,
    (p.respond Docket.client ⟨⟨o, 1⟩, [agreed, claim]⟩ { ledger := {} }).1.outcome =
      .ok (.proved 0 ⟨o, 1⟩ transaction) ∧
    p.Submits Docket.client ⟨⟨o, 1⟩, [agreed, claim]⟩ { ledger := {} } ⟨o, 1⟩ (.proof move)
      transaction ∧
    p.challenge.Snapshots o move snapshot ∧ p.challenge.Takes (o + 1) own ∧
    p.challenge.cutAfterStep (o + 1) move.progress snapshot = .ok claim ∧ own.hash ≠ claim.hash

namespace Player

theorem provesClaim {X : Player} {o : UInt64} {agreed own claim : Cut} {snapshot : Machine}
    {move : ProofMove} (hstop : (Segment.mk o 1).stop = .ok (o + 1))
    (hfirst : X.party.Owns o agreed) (hlast : X.party.Owns (o + 1) own)
    (hne : own.hash ≠ claim.hash) (hprevious : move.previous = ⟨⟨o, 1⟩, [agreed, claim]⟩)
    (hindex : move.index = 0) (hsnapshots : X.party.challenge.Snapshots o move snapshot)
    (hstep : X.party.challenge.cutAfterStep (o + 1) move.progress snapshot = .ok claim) :
    X.party.ProvesClaim o agreed claim := by
  have hplan := plan_of_snapshots hstop hfirst hlast rfl hne hprevious hindex hsnapshots
  obtain ⟨transaction, hanswer⟩ := Party.respond_of_plan_empty hplan
  obtain ⟨segment, submission, transaction', hsubmits, haccepted⟩ := Party.respond_eq_ok hanswer
  obtain ⟨rfl, rfl⟩ : segment = ⟨o, 1⟩ ∧ submission = .proof move := by
    simpa [hsubmits.planned] using hplan
  obtain rfl : transaction = transaction' := by
    simpa [Submission.accepted] using haccepted
  rw [Submission.accepted, hindex] at hanswer
  exact ⟨transaction, move, snapshot, own, hanswer, hsubmits, hsnapshots, takes_of_owns hlast,
    hstep, hne⟩

/-- A player that doubles its register, for three units of gas, and then adds one. -/
def doubler (overshoot : Bool) : Player :=
  let X := solo [.mul 2, .add 1] (by decide)
  { party := { X.party with challenge := { X.party.challenge with overshoot } }
    machine := X.machine
    resolves := X.resolves }

/-- The cut of a machine of `doubler` that has used this gas. -/
def doublerCut (gas pc register : UInt64) : Cut :=
  { sumCut gas register with
    machineState := keccak (Machine.pack pc register 0 (keccak []) false) }

/-- With overshoot, the machine stands after the multiplication at offsets 1 and 2;
without it, the machine stands before. -/
theorem doubler_owns :
    (doubler true).party.Owns 1 (doublerCut 3 1 0) ∧
      (doubler true).party.Owns 2 (doublerCut 3 1 0) ∧
      (doubler false).party.Owns 1 (doublerCut 0 0 0) ∧
      (doubler false).party.Owns 2 (doublerCut 0 0 0) :=
  ⟨owns_of_cutAt rfl, owns_of_cutAt rfl, owns_of_cutAt rfl, owns_of_cutAt rfl⟩

theorem hash_doublerCut_ne :
    (doublerCut 3 1 0).hash ≠ (doublerCut 4 2 1).hash ∧
      (doublerCut 0 0 0).hash ≠ (doublerCut 3 1 0).hash := by
  decide +kernel

/-- The second unit of the multiplication is no step of its own.  The player's proof about
it shows the addition, or the whole multiplication, and proves the claim that it disputes. -/
theorem proof_concedes_claim :
    (doubler true).party.ProvesClaim 1 (doublerCut 3 1 0) (doublerCut 4 2 1) ∧
      (doubler false).party.ProvesClaim 1 (doublerCut 0 0 0) (doublerCut 3 1 0) := by
  obtain ⟨hone, htwo, hone', htwo'⟩ := doubler_owns
  obtain ⟨hne, hne'⟩ := hash_doublerCut_ne
  have hsnapshots : (doubler true).party.challenge.Snapshots 1
      ⟨⟨⟨1, 1⟩, [doublerCut 3 1 0, doublerCut 4 2 1]⟩, 0, _, _, _, _⟩ _ :=
    ⟨⟨_, openSession_eq .., rfl⟩, rfl, rfl, rfl⟩
  have hsnapshots' : (doubler false).party.challenge.Snapshots 1
      ⟨⟨⟨1, 1⟩, [doublerCut 0 0 0, doublerCut 3 1 0]⟩, 0, _, _, _, _⟩ _ :=
    ⟨⟨_, openSession_eq .., rfl⟩, rfl, rfl, rfl⟩
  exact ⟨provesClaim rfl hone htwo hne rfl rfl hsnapshots rfl,
    provesClaim rfl hone' htwo' hne' rfl rfl hsnapshots' rfl⟩

end Player

end TraceDispute
