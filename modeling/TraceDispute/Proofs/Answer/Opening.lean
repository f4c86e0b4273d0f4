import TraceDispute.Proofs.Answer.Division
import TraceDispute.Proofs.Machine.Payload

/-!
# What a submitted proof opens

A proof of a step carries numbers, a digest and two payloads, and the contract
holds nothing but hashes.  `ProofMove.Opens` is the chain that ties the one to
the other: the agreed hash of the previous bisection is that of a cut, the cut
names a machine by its hash, that hash is over the fields of the first payload,
and one of these fields is the hash of the slots in the second.

Progress, machine and digest are taken by a session of their own, after the
claims were compared in another.  `proof_opens_commitment` says that they meet:
whatever the opponent claimed, a proof that a party submits opens the hash that
was claimed at the start of the step.
-/

namespace TraceDispute

variable {p : Party} {b : Bisection} {segment : Segment} {σ : Type} {client : Client σ} {state : σ}
  {transaction : Word}

namespace ProofMove

variable {move : ProofMove} {hashes : List Word}

/-- The hash that a bisection holds at the start of a step, opened down to the fields of
the machine and the slots of its side buffer. -/
structure Opens (move : ProofMove) (hashes : List Word) (proof : StepProof)
    (slots : List UInt64) : Prop where
  cut_eq : hashes[move.index]? = some (Cut.ofProgress move.progress move.inboxDelta).hash
  decode_eq : StepProof.decode? move.machineProof = some proof
  machine_eq : keccak (Machine.pack proof.pc proof.register proof.inboxPosition proof.bufferHash
    false) = move.progress.machineHash
  decodeBuffer_eq : decodeBuffer? move.bufferProof = some slots
  buffer_eq : keccak (Machine.packBuffer slots) = proof.bufferHash

/-- The check of a verifier that sees a move and the hashes of the bisection it answers. -/
def verify (move : ProofMove) (hashes : List Word) : Bool :=
  match StepProof.decode? move.machineProof, decodeBuffer? move.bufferProof with
  | some proof, some slots =>
    hashes[move.index]? = some (Cut.ofProgress move.progress move.inboxDelta).hash &&
      keccak (Machine.pack proof.pc proof.register proof.inboxPosition proof.bufferHash false) =
        move.progress.machineHash &&
      keccak (Machine.packBuffer slots) = proof.bufferHash
  | _, _ => false

theorem verify_iff : move.verify hashes = true ↔ ∃ proof slots, move.Opens hashes proof slots := by
  unfold verify
  constructor
  · intro h
    split at h
    · rename_i proof slots hproof hslots
      simp only [Bool.and_eq_true, decide_eq_true_eq] at h
      exact ⟨proof, slots, h.1.1, hproof, h.1.2, hslots, h.2⟩
    · cases h
  · rintro ⟨proof, slots, hcut, hproof, hmachine, hslots, hbuffer⟩
    simp [hproof, hslots, hcut, hmachine, hbuffer]

end ProofMove

namespace Challenge

variable {c : Challenge} {m : Machine} {offset : UInt64} {move : ProofMove} {snapshot : Machine}

/-- `snapshot` is the machine behind a proof: a session at `offset` finds it together with
the progress, and both payloads are its own. -/
structure Snapshots (c : Challenge) (offset : UInt64) (move : ProofMove) (snapshot : Machine) :
    Prop where
  session : ∃ s, c.openSession [offset] = .ok s ∧
    (s.snapshotAt offset).1 = .ok (move.progress, snapshot)
  machineProof_eq : snapshot.machinePayload = .ok move.machineProof
  bufferProof_eq : snapshot.bufferPayload = move.bufferProof
  inboxDelta_eq : c.inbox.digestAt move.progress.messagesRead = .ok move.inboxDelta

theorem Snapshots.exists_point (h : c.Snapshots offset move snapshot) (hm : c.machine? = some m) :
    ∃ q, m.pointAt c.overshoot offset = .ok q ∧ move.progress = q.progress ∧
      snapshot = q.machine := by
  obtain ⟨s, hs, hsnapshot⟩ := h.session
  exact point_of_snapshotAt hm hs hsnapshot

/-- The cut made of a proof is the party's own at its offset. -/
theorem Snapshots.ownCut_eq (h : c.Snapshots offset move snapshot) (hm : c.machine? = some m) :
    c.ownCut m offset = .ok (Cut.ofProgress move.progress move.inboxDelta) := by
  obtain ⟨q, hq, hprogress, -⟩ := h.exists_point hm
  have hdelta := h.inboxDelta_eq
  rw [hprogress] at hdelta ⊢
  exact ownCut_eq_ok_iff.mpr ⟨q, _, hq, hdelta, rfl⟩

/-- The progress of a proof names its machine. -/
theorem Snapshots.machineHash_eq (h : c.Snapshots offset move snapshot)
    (hm : c.machine? = some m) : move.progress.machineHash = snapshot.hash := by
  obtain ⟨q, -, hprogress, hmachine⟩ := h.exists_point hm
  rw [hprogress, hmachine]
  rfl

/-- The payloads of a proof open the hash of its machine. -/
theorem Snapshots.opens {hashes : List Word} (h : c.Snapshots offset move snapshot)
    (hm : c.machine? = some m)
    (hcut : hashes[move.index]? = some (Cut.ofProgress move.progress move.inboxDelta).hash) :
    ∃ proof slots, move.Opens hashes proof slots := by
  obtain ⟨proof, hread, hproof⟩ := Machine.decode?_machinePayload h.machineProof_eq
  obtain ⟨hrunning, i, -, rfl⟩ := Machine.stepProof_eq_ok_iff.mp hproof
  refine ⟨_, snapshot.buffer, hcut, hread, ?_, ?_, rfl⟩
  · -- a machine that has a step to prove is not halted, which is the flag that is hashed
    rw [h.machineHash_eq hm, Machine.hash, hrunning]
  · rw [← h.bufferProof_eq, Machine.decodeBuffer?_bufferPayload]

end Challenge

/-- A party that proves a step has disputed the part that the step is all of, and submits
what a session at its start finds. -/
theorem Party.proof_of_respond {i : Nat}
    (h : (p.respond client b state).1.outcome = .ok (.proved i segment transaction)) :
    ∃ move snapshot offsets, p.Submits client b state segment (.proof move) transaction ∧
      move.previous = b ∧ move.index = i ∧ segment.isOneStep = true ∧
      p.challenge.Disputes b offsets i segment ∧
      p.challenge.Snapshots segment.start move snapshot := by
  obtain ⟨segment', move, tx, hsubmits, hanswer⟩ := respond_eq_ok h
  obtain ⟨index, hdisputes, hmove⟩ := disputes_of_plan hsubmits.planned
  rcases answerPart_cases hmove with ⟨bounds, cuts, -, -, rfl⟩ | ⟨hone, proof, rfl, -, hbuilt⟩
  · simp [Submission.accepted] at hanswer
  · obtain ⟨-, s, progress, snapshot, payload, digest, hs, hsnapshot, hpayload, hdigest, hproof⟩ :=
      Challenge.buildProof_eq_ok_iff.mp hbuilt
    obtain rfl := Submission.proof.inj hproof
    obtain ⟨rfl, rfl, rfl⟩ : i = index ∧ segment = segment' ∧ transaction = tx := by
      simpa [Submission.accepted] using hanswer
    exact ⟨_, snapshot, _, hsubmits, rfl, rfl, hone, hdisputes,
      ⟨s, hs, hsnapshot⟩, hpayload, rfl, hdigest⟩

/-- A proof that a party submits opens the hash claimed at the start of the step, and a
verifier that sees no more than the move and the claimed hashes can tell. -/
theorem proof_opens_commitment {i : Nat}
    (h : (p.respond client b state).1.outcome = .ok (.proved i segment transaction)) :
    ∃ move proof slots, p.Submits client b state segment (.proof move) transaction ∧
      move.previous = b ∧ move.index = i ∧ move.Opens b.cutHashes proof slots ∧
      move.verify b.cutHashes = true := by
  obtain ⟨move, snapshot, offsets, hsubmits, hprevious, rfl, -, hdisputes, hsnapshots⟩ :=
    Party.proof_of_respond h
  obtain ⟨own, htakes, hagreed⟩ := hdisputes.exists_start
  obtain ⟨m, hm⟩ := htakes.resolves
  -- the session of the proof and the session of the search find the same cut
  have hown : own = Cut.ofProgress move.progress move.inboxDelta := by
    have hcut := htakes.ownCut_eq hm
    rw [hsnapshots.ownCut_eq hm] at hcut
    exact (Except.ok.inj hcut).symm
  rw [hown] at hagreed
  obtain ⟨proof, slots, hopens⟩ := hsnapshots.opens hm hagreed
  exact ⟨move, proof, slots, hsubmits, hprevious, rfl, hopens,
    ProofMove.verify_iff.mpr ⟨proof, slots, hopens⟩⟩

/-! ## A step of a small program -/

namespace Player

variable {X : Player} {o stop : UInt64} {a a' claim claim' : Cut} {snapshot : Machine}
  {move : ProofMove}

/-- A part of one step is answered with what a session at its start finds. -/
theorem answerPart_of_snapshots {b : Bisection} {index : Nat}
    (hwithin : b.requireWithin index ⟨o, 1⟩ = .ok ()) (hprevious : move.previous = b)
    (hindex : move.index = index) (hsnapshots : X.party.challenge.Snapshots o move snapshot) :
    X.party.answerPart b index ⟨o, 1⟩ = .ok (.proof move) := by
  obtain ⟨⟨s, hs, hsnapshot⟩, hpayload, hbuffer, hdigest⟩ := hsnapshots
  have hone : (Segment.mk o 1).isOneStep = true := rfl
  rw [Party.answerPart, if_pos hone, Challenge.buildProof_eq_ok_iff]
  refine ⟨hwithin, s, move.progress, snapshot, move.machineProof, move.inboxDelta, hs, hsnapshot,
    hpayload, hdigest, ?_⟩
  rw [← hprevious, ← hindex, hbuffer]

/-- A player that agrees with the claim before a step and not with the one after it
proves the step. -/
theorem plan_of_snapshots (hstop : (Segment.mk o 1).stop = .ok stop)
    (hfirst : X.party.Owns o a) (hlast : X.party.Owns stop a') (heq : a.hash = claim.hash)
    (hne : a'.hash ≠ claim'.hash) (hprevious : move.previous = ⟨⟨o, 1⟩, [claim, claim']⟩)
    (hindex : move.index = 0) (hsnapshots : X.party.challenge.Snapshots o move snapshot) :
    (X.party.plan ⟨⟨o, 1⟩, [claim, claim']⟩).outcome = .ok (⟨o, 1⟩, .proof move) := by
  obtain ⟨hbounded, -⟩ := Segment.stop_eq_ok_iff.mp hstop
  have hwithin : (Bisection.mk ⟨o, 1⟩ [claim, claim']).requireWithin 0
      ((Segment.mk o 1).chunk 1 0) = .ok () :=
    (Bisection.proper_pair hbounded claim claim').requireWithin Nat.one_pos
  rw [Segment.chunk_one] at hwithin
  exact plan_of_owns hstop hfirst hlast heq hne
    (answerPart_of_snapshots hwithin hprevious hindex hsnapshots)

end Player

/-- The claim that adding two to one makes four. -/
def falseStep : Bisection := ⟨⟨1, 1⟩, [Player.sumCut 1 1, Player.sumCut 2 (1 + 3)]⟩

theorem exists_respond_falseStep :
    ∃ move transaction,
      ((Player.adder 2).party.plan falseStep).outcome = .ok (⟨1, 1⟩, .proof move) ∧
      move.progress.gasUsed = 1 ∧
      ((Player.adder 2).party.respond Docket.client falseStep { ledger := {} }).1.outcome =
        .ok (.proved 0 ⟨1, 1⟩ transaction) := by
  obtain ⟨-, hone, htwo⟩ := Player.adder_owns (.inl rfl)
  have hstop : (Segment.mk 1 1).stop = .ok 2 := rfl
  have hsnapshots : (Player.adder 2).party.challenge.Snapshots 1 ⟨falseStep, 0, _, _, _, _⟩ _ :=
    ⟨⟨_, Player.openSession_eq .., rfl⟩, rfl, rfl, rfl⟩
  have hplan : ((Player.adder 2).party.plan falseStep).outcome = .ok (⟨1, 1⟩, .proof _) :=
    Player.plan_of_snapshots hstop hone htwo rfl Player.hash_sumCut_ne rfl rfl hsnapshots
  obtain ⟨transaction, hanswer⟩ := Party.respond_of_plan_empty hplan
  exact ⟨_, transaction, hplan, rfl, hanswer⟩

theorem adder_opens_falseStep :
    ∃ transaction move proof slots,
      ((Player.adder 2).party.respond Docket.client falseStep { ledger := {} }).1.outcome =
        .ok (.proved 0 ⟨1, 1⟩ transaction) ∧
      (Player.adder 2).party.Submits Docket.client falseStep { ledger := {} } ⟨1, 1⟩ (.proof move)
        transaction ∧
      move.Opens falseStep.cutHashes proof slots := by
  obtain ⟨-, transaction, -, -, hanswer⟩ := exists_respond_falseStep
  obtain ⟨move, proof, slots, hsubmits, -, -, hopens, -⟩ := proof_opens_commitment hanswer
  exact ⟨transaction, move, proof, slots, hanswer, hsubmits, hopens⟩

end TraceDispute
