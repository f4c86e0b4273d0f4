import TraceDispute.Proofs.Game.Completeness
import TraceDispute.Proofs.Machine.Payload
import TraceDispute.Proofs.Machine.Twin

/-!
# The proved step is one the programs disagree about

Two players whose machines differ in their programs only, and who replay in the
same way, agree at an offset and disagree at the next.  Then their machines at
that offset are twins (`Opponents.twin_point`), because agreeing hashes determine
the state, and at most one instruction separates each of them from the next
offset.  If both came to the same instruction they would still agree; so the
programs hold different instructions at the position that the proof names
(`Opponents.differAt`).

That a game gets there at all is not needed: `exists_of_getLast?_alternate` takes
the last round of any game of two players and finds the bisection it answered,
which one of them has drawn.
-/

namespace TraceDispute

/-- Players whose machines differ in their programs only, and who replay them in the
same way. -/
structure Opponents (X Y : Player) : Prop where
  twin : X.machine.Twin Y.machine
  inbox_eq : X.party.challenge.inbox = Y.party.challenge.inbox
  overshoot_eq : X.party.challenge.overshoot = Y.party.challenge.overshoot

/-- Nothing that the parties hash at an offset collides: neither their cuts, nor the
rests of the cuts, nor their machines, nor the buffers of these. -/
structure Distinct (c d : Challenge) (m n : Machine) (offset : UInt64) : Prop where
  cut : ∀ x y, c.ownCut m offset = .ok x → d.ownCut n offset = .ok y → ¬ Collide x.pack y.pack
  rest : ∀ x y, c.ownCut m offset = .ok x → d.ownCut n offset = .ok y →
    ¬ Collide x.packRest y.packRest
  machine : ∀ p q, m.pointAt c.overshoot offset = .ok p → n.pointAt d.overshoot offset = .ok q →
    ¬ Collide p.machine.packState q.machine.packState
  buffer : ∀ p q, m.pointAt c.overshoot offset = .ok p → n.pointAt d.overshoot offset = .ok q →
    ¬ Collide (Machine.packBuffer p.machine.buffer) (Machine.packBuffer q.machine.buffer)

/-- Programs that hold different instructions at a position. -/
def Machine.DifferAt (m n : Machine) (pc : Nat) : Prop :=
  ∃ i j, m.program[pc]? = some i ∧ n.program[pc]? = some j ∧ i ≠ j

theorem Machine.DifferAt.symm {m n : Machine} {pc : Nat} (h : m.DifferAt n pc) :
    n.DifferAt m pc := by
  obtain ⟨i, j, hi, hj, hne⟩ := h
  exact ⟨j, i, hj, hi, hne.symm⟩

variable {X Y : Player} {offset next : UInt64}

/-- The players can be told apart by their hashes at an offset. -/
def Player.Distinct (X Y : Player) (offset : UInt64) : Prop :=
  TraceDispute.Distinct X.party.challenge Y.party.challenge X.machine Y.machine offset

/-- The point at which a player's trace settles. -/
def Player.point (X : Player) (offset : UInt64) : Point :=
  X.machine.restAt X.party.challenge.overshoot offset.toNat

theorem Player.program_point (X : Player) (offset : UInt64) :
    (X.point offset).machine.program = X.machine.program :=
  Machine.program_restAt ..

theorem Player.point_succ (X : Player) (hnext : next.toNat = offset.toNat + 1) :
    X.point next =
      (X.point offset).settle X.party.challenge.overshoot (offset.toNat + 1) := by
  unfold point
  rw [hnext]
  exact (Point.settle_settle (Nat.le_succ _)).symm

theorem Player.cut_eq_ok {x : Cut} (h : X.cut offset = .ok x) :
    X.machine.pointAt X.party.challenge.overshoot offset = .ok (X.point offset) ∧
      ∃ digest, X.party.challenge.inbox.digestAt (X.point offset).progress.messagesRead =
        .ok digest ∧ x = Cut.ofProgress (X.point offset).progress digest := by
  obtain ⟨p, digest, hp, hdigest, hcut⟩ := Challenge.ownCut_eq_ok_iff.mp h
  obtain ⟨rfl, -⟩ := Machine.pointAt_eq_ok_iff.mp hp
  exact ⟨hp, digest, hdigest, hcut⟩

theorem Distinct.symm {c d : Challenge} {m n : Machine} (h : Distinct c d m n offset) :
    Distinct d c n m offset := by
  refine ⟨?_, ?_, ?_, ?_⟩
  · exact fun y x hy hx hcollide => h.cut x y hx hy hcollide.symm
  · exact fun y x hy hx hcollide => h.rest x y hx hy hcollide.symm
  · exact fun q p hq hp hcollide => h.machine p q hp hq hcollide.symm
  · exact fun q p hq hp hcollide => h.buffer p q hp hq hcollide.symm

namespace Opponents

theorem symm (h : Opponents X Y) : Opponents Y X :=
  ⟨h.twin.symm, h.inbox_eq.symm, h.overshoot_eq.symm⟩

/-- Where the players agree, their machines are twins. -/
theorem twin_point (h : Opponents X Y) (hdistinct : X.Distinct Y offset)
    (hconcur : X.Concur Y offset) (hX : X.party.challenge.Fits X.machine offset)
    (hY : Y.party.challenge.Fits Y.machine offset) :
    (X.point offset).Twin (Y.point offset) := by
  obtain ⟨x, y, hx, hy, hhash⟩ := hconcur
  have hcut := Cut.eq_of_hash_eq hhash (hdistinct.cut x y hx hy) (hdistinct.rest x y hx hy)
  obtain ⟨hp, digest, -, rfl⟩ := Player.cut_eq_ok hx
  obtain ⟨hq, digest', -, rfl⟩ := Player.cut_eq_ok hy
  simp only [Cut.ofProgress, Cut.mk.injEq] at hcut
  obtain ⟨hgas, -, hstate, hsendAcc, hsends, hlogAcc, hlogs⟩ := hcut
  -- equal cuts name machines with one hash, which are in one state
  obtain ⟨hpc, hregister, hposition, hslots, hhalted⟩ :=
    Machine.SameState.of_hash_eq hstate (hdistinct.machine _ _ hp hq) (hdistinct.buffer _ _ hp hq)
  -- the same position in the same inbox, from the same start, after as many reads
  have hreads : (X.point offset).reads = (Y.point offset).reads := by
    have hreadX := X.machine.inboxPosition_restAt X.party.challenge.overshoot offset.toNat
    have hreadY := Y.machine.inboxPosition_restAt Y.party.challenge.overshoot offset.toNat
    have hstart := congrArg UInt64.toNat h.twin.inboxPosition_eq
    have hend := congrArg UInt64.toNat hposition
    unfold Player.point at hend ⊢
    omega
  refine ⟨⟨?_, hpc, hregister, hposition, hslots, hhalted⟩, ?_, ?_⟩
  · exact (Machine.inbox_restAt ..).trans
      (h.twin.inbox_eq.trans (Machine.inbox_restAt ..).symm)
  · calc (X.point offset).gas
        = (X.point offset).progress.gasUsed.toNat := (Point.toNat_gasUsed_progress hX).symm
      _ = (Y.point offset).progress.gasUsed.toNat := congrArg UInt64.toNat hgas
      _ = (Y.point offset).gas := Point.toNat_gasUsed_progress hY
  · simp only [Point.progress, Point.report, Progress.mk.injEq]
    exact ⟨hgas, congrArg UInt64.ofNat hreads, hsends, hlogs, hsendAcc, hlogAcc, hstate⟩

theorem cut_eq_of_twin {x y : Cut} (h : Opponents X Y)
    (htwin : (X.point offset).Twin (Y.point offset)) (hx : X.cut offset = .ok x)
    (hy : Y.cut offset = .ok y) : x = y := by
  obtain ⟨-, digest, hdigest, rfl⟩ := Player.cut_eq_ok hx
  obtain ⟨-, digest', hdigest', rfl⟩ := Player.cut_eq_ok hy
  rw [h.inbox_eq, htwin.progress_eq, hdigest'] at hdigest
  rw [htwin.progress_eq, Except.ok.inj hdigest]

/-- Twins hash the same things, so nothing collides. -/
theorem distinct_of_twin (h : Opponents X Y) (htwin : (X.point offset).Twin (Y.point offset)) :
    X.Distinct Y offset := by
  refine ⟨fun x y hx hy => ?_, fun x y hx hy => ?_, fun p q hp hq => ?_, fun p q hp hq => ?_⟩
  · rw [h.cut_eq_of_twin htwin hx hy]
    exact not_collide_self _
  · rw [h.cut_eq_of_twin htwin hx hy]
    exact not_collide_self _
  · obtain ⟨rfl, -⟩ := Machine.pointAt_eq_ok_iff.mp hp
    obtain ⟨rfl, -⟩ := Machine.pointAt_eq_ok_iff.mp hq
    exact fun hcollide => hcollide.1 htwin.machine.packState_eq
  · obtain ⟨rfl, -⟩ := Machine.pointAt_eq_ok_iff.mp hp
    obtain ⟨rfl, -⟩ := Machine.pointAt_eq_ok_iff.mp hq
    exact fun hcollide => hcollide.1 (congrArg Machine.packBuffer htwin.machine.buffer_eq)

/-- Players who agree at an offset and disagree at the next come to different
instructions there. -/
theorem differAt (h : Opponents X Y) (hdistinct : X.Distinct Y offset)
    (hnext : next.toNat = offset.toNat + 1) (hconcur : X.Concur Y offset)
    (hclash : X.Clash Y next) (hX : X.party.challenge.Fits X.machine offset)
    (hY : Y.party.challenge.Fits Y.machine offset) :
    X.machine.DifferAt Y.machine (X.point offset).machine.pc.toNat := by
  have htwin := h.twin_point hdistinct hconcur hX hY
  obtain ⟨x, y, hx, hy, -⟩ := hconcur
  obtain ⟨x', y', hx', hy', hne⟩ := hclash
  have hpoint := (Player.cut_eq_ok hx).1
  have hpoint' := (Player.cut_eq_ok hy).1
  -- with the same instruction, or past the offset, the players would still be twins
  have hstep : ¬ ((X.point offset).gas ≤ offset.toNat →
      (X.point offset).machine.next? = (Y.point offset).machine.next?) := by
    intro hsame
    have hsettled : (Y.point offset).settle X.party.challenge.overshoot offset.toNat =
        Y.point offset := by
      rw [h.overshoot_eq]
      exact Point.settle_settle le_rfl
    have htwin' := htwin.settle_succ (Point.settle_settle le_rfl) hsettled hsame
    rw [← X.point_succ hnext, h.overshoot_eq, ← Y.point_succ hnext] at htwin'
    exact hne (congrArg Cut.hash (h.cut_eq_of_twin htwin' hx' hy'))
  rw [Classical.not_imp] at hstep
  obtain ⟨hgas, hdiffer⟩ := hstep
  obtain ⟨-, i, hi⟩ := Machine.next?_of_pointAt hnext hpoint hgas (Player.cut_eq_ok hx').1
  obtain ⟨-, j, hj⟩ := Machine.next?_of_pointAt hnext hpoint' (htwin.gas_eq ▸ hgas)
    (Player.cut_eq_ok hy').1
  refine ⟨i, j, ?_, ?_, fun hij => hdiffer (by rw [hi, hj, hij])⟩
  · rw [← hi, Machine.next?, X.program_point]
  · rw [← hj, htwin.machine.pc_eq, Machine.next?, Y.program_point]

end Opponents

/-! ## The last round of a game -/

/-- The last round answered a bisection of which everything is true that every division
preserves. -/
theorem exists_of_getLast?_play {turn : Nat → Party} {I : Bisection → Prop}
    (hstep : ∀ r b d, I b → isDivision ((turn r).respond Docket.client b d).1 = true →
      ∃ b', ((turn r).respond Docket.client b d).2.ledger.current = some b' ∧ I b')
    {left round : Nat} {d : Docket} {b : Bisection} (hcurrent : d.ledger.current = some b)
    (hb : I b) {t : Turn} (ht : (play turn left round d).1.getLast? = some t) :
    ∃ r b' d', I b' ∧ t = .answered (turn r) ((turn r).respond Docket.client b' d').1
      ((turn r).respond Docket.client b' d').2 := by
  -- on the rounds left; a division hands the invariant on to the next of them
  induction left generalizing round d b with
  | zero => simp [play] at ht
  | succ left ih =>
      cases hdivision : isDivision ((turn round).respond Docket.client b d).1 with
      | false =>
          rw [play_of_final hcurrent hdivision] at ht
          exact ⟨round, b, d, hb, (Option.some.inj ht).symm⟩
      | true =>
          rw [play_of_division hcurrent hdivision, List.getLast?_cons] at ht
          obtain ⟨b', hcurrent', hb'⟩ := hstep round b d hb hdivision
          cases hrest : (play turn left (round + 1)
              ((turn round).respond Docket.client b d).2).1.getLast? with
          | none =>
              rw [hrest] at ht
              exact ⟨round, b, d, hb, (Option.some.inj ht).symm⟩
          | some last =>
              rw [hrest] at ht
              obtain rfl := Option.some.inj ht
              exact ih hcurrent' hb' hrest

namespace Player

theorem drew_of_isDivision {b : Bisection} {d : Docket}
    (h : isDivision (X.party.respond Docket.client b d).1 = true) :
    ∃ b', (X.party.respond Docket.client b d).2.ledger.current = some b' ∧ X.Drew b' := by
  rcases X.party.respond_cases b d with ⟨m, index, cuts, nonce, tx, hm, hdivides, -, hdocket⟩ |
    ⟨m, index, move, nonce, tx, -, -, houtcome, -⟩ | ⟨⟨e, houtcome⟩, -⟩
  · obtain rfl : X.machine = m := Option.some.inj (X.resolves.symm.trans hm)
    exact ⟨_, by rw [hdocket]; rfl, drew_of_divides hdivides⟩
  · simp [isDivision, houtcome] at h
  · simp [isDivision, houtcome] at h

/-- The last round of a game of two players answers a bisection that one of them has drawn. -/
theorem exists_of_getLast?_alternate {left round : Nat} {d : Docket} {b : Bisection} {t : Turn}
    (hcurrent : d.ledger.current = some b) (hb : X.Drew b ∨ Y.Drew b)
    (ht : (play (alternate X.party Y.party) left round d).1.getLast? = some t) :
    ∃ (Z : Player) (b : Bisection) (d : Docket), (Z = X ∨ Z = Y) ∧ (X.Drew b ∨ Y.Drew b) ∧
      t = .answered Z.party (Z.party.respond Docket.client b d).1
        (Z.party.respond Docket.client b d).2 := by
  have hmover : ∀ r, ∃ Z : Player, (Z = X ∨ Z = Y) ∧ alternate X.party Y.party r = Z.party := by
    intro r
    unfold alternate
    split
    · exact ⟨X, .inl rfl, rfl⟩
    · exact ⟨Y, .inr rfl, rfl⟩
  have hstep : ∀ r b d, X.Drew b ∨ Y.Drew b →
      isDivision ((alternate X.party Y.party r).respond Docket.client b d).1 = true →
      ∃ b', ((alternate X.party Y.party r).respond Docket.client b d).2.ledger.current = some b' ∧
        (X.Drew b' ∨ Y.Drew b') := by
    intro r b d _ hdivision
    obtain ⟨Z, hZ, hr⟩ := hmover r
    rw [hr] at hdivision ⊢
    obtain ⟨b', hcurrent', hb'⟩ := Z.drew_of_isDivision hdivision
    refine ⟨b', hcurrent', ?_⟩
    rcases hZ with rfl | rfl
    · exact .inl hb'
    · exact .inr hb'
  -- the invariant of the game: its bisection holds the cuts of one of the players
  obtain ⟨r, b', d', hb', hturn⟩ := exists_of_getLast?_play hstep hcurrent hb ht
  obtain ⟨Z, hZ, hr⟩ := hmover r
  exact ⟨Z, b', d', hZ, hb', hr ▸ hturn⟩

theorem proves_of_respond {b : Bisection} {d : Docket} {index : Nat} {step : Segment} {tx : Word}
    (h : (X.party.respond Docket.client b d).1.outcome = .ok (.proved index step tx)) :
    ∃ move, X.party.Proves X.machine b index move ∧
      step.start = b.segment.mark b.segmentCount index ∧
      (X.party.respond Docket.client b d).2.ledger.proofs.getLast? = some move := by
  rcases X.party.respond_cases b d with ⟨m, index', cuts, nonce, tx', -, -, houtcome, -⟩ |
    ⟨m, index', move, nonce, tx', hm, hproves, houtcome, hdocket⟩ | ⟨⟨e, houtcome⟩, -⟩
  · simp [houtcome] at h
  · obtain rfl : X.machine = m := Option.some.inj (X.resolves.symm.trans hm)
    rw [houtcome] at h
    simp only [Except.ok.injEq, Move.proved.injEq] at h
    obtain ⟨rfl, rfl, -⟩ := h
    refine ⟨move, hproves, rfl, ?_⟩
    rw [hdocket]
    simp [Docket.entered, Ledger.enter]
  · simp [houtcome] at h

end Player

/-- Whoever proves a step disputes cuts of the other player. -/
theorem Player.drew_of_proves {b : Bisection} {index : Nat} {move : ProofMove}
    (hproves : X.party.Proves X.machine b index move) (hdrew : X.Drew b ∨ Y.Drew b) :
    Y.Drew b := by
  rcases hdrew with hdrew | hdrew
  · obtain ⟨-, -, hclash⟩ := (Player.firstWrong_iff hdrew).mp hproves.first
    exact absurd hclash (X.not_clash_self _)
  · exact hdrew

namespace Opponents

/-- A proof against cuts of the other player names an instruction that the two programs
disagree about. -/
theorem differAt_of_proves {b : Bisection} {index : Nat} {move : ProofMove}
    (h : Opponents X Y) (hdrew : Y.Drew b) (hproves : X.party.Proves X.machine b index move)
    (hdistinct : X.Distinct Y (b.segment.mark b.segmentCount index)) :
    ∃ proof, StepProof.decode? move.machineProof = some proof ∧
      X.machine.DifferAt Y.machine proof.pc.toNat := by
  have hproper := hproves.proper
  obtain ⟨-, hconcur, hclash⟩ := (Player.firstWrong_iff hdrew).mp hproves.first
  -- the part that was proved is one step wide, so the clash is right after its start
  have hnext : (b.segment.mark b.segmentCount (index + 1)).toNat =
      (b.segment.mark b.segmentCount index).toNat + 1 := by
    rw [Segment.toNat_mark hproper.bounded hproper.pos hproves.lt,
      Segment.toNat_mark hproper.bounded hproper.pos hproves.lt.le, Segment.boundary_succ,
      hproves.one]
  have hfits := hdrew.fits _ (Segment.mem_marks.mpr ⟨index, hproves.lt.le, rfl⟩)
  have hdiffer := h.differAt hdistinct hnext (hconcur index le_rfl) hclash hproves.fits hfits
  obtain ⟨p, payload, digest, hp, hpayload, -, hmove⟩ :=
    Challenge.ownProof_eq_ok_iff.mp hproves.own
  obtain ⟨rfl, -⟩ := Machine.pointAt_eq_ok_iff.mp hp
  obtain ⟨proof, hdecode, hstep⟩ := Machine.decode?_machinePayload hpayload
  obtain rfl := Submission.proof.inj hmove
  have hpc := (Machine.stepProof_eq_ok hstep).1
  exact ⟨proof, hdecode, hpc ▸ hdiffer⟩

/-- So does the proof that an answer leaves on the ledger. -/
theorem differAt_of_respond {b : Bisection} {d : Docket} {index : Nat} {step : Segment} {tx : Word}
    (h : Opponents X Y) (hdrew : X.Drew b ∨ Y.Drew b)
    (hproved : (X.party.respond Docket.client b d).1.outcome = .ok (.proved index step tx))
    (hdistinct : X.Distinct Y step.start) :
    ∃ move proof, (X.party.respond Docket.client b d).2.ledger.proofs.getLast? = some move ∧
      StepProof.decode? move.machineProof = some proof ∧
      X.machine.DifferAt Y.machine proof.pc.toNat := by
  obtain ⟨move, hproves, hstart, hlast⟩ := Player.proves_of_respond hproved
  rw [hstart] at hdistinct
  obtain ⟨proof, hdecode, hdiffer⟩ :=
    h.differAt_of_proves (Player.drew_of_proves hproves hdrew) hproves hdistinct
  exact ⟨move, proof, hlast, hdecode, hdiffer⟩

/-- So does the proof that ends a game of the two players, whoever has answered last. -/
theorem differAt_of_getLast? {left round : Nat} {d final : Docket} {b : Bisection}
    {party : Party} {report : Report ChallengeError Move} {index : Nat} {step : Segment}
    {tx : Word} (h : Opponents X Y) (hcurrent : d.ledger.current = some b)
    (hdrew : X.Drew b ∨ Y.Drew b)
    (hlast : (play (alternate X.party Y.party) left round d).1.getLast? =
      some (.answered party report final))
    (hproved : report.outcome = .ok (.proved index step tx))
    (hdistinct : X.Distinct Y step.start) :
    ∃ move proof, final.ledger.proofs.getLast? = some move ∧
      StepProof.decode? move.machineProof = some proof ∧
      X.machine.DifferAt Y.machine proof.pc.toNat := by
  obtain ⟨Z, b', d', hZ, hdrew', hturn⟩ := Player.exists_of_getLast?_alternate hcurrent hdrew hlast
  obtain ⟨-, rfl, rfl⟩ := Turn.answered.inj hturn
  -- either player may have made the last move, and the claim is symmetric
  rcases hZ with rfl | rfl
  · exact h.differAt_of_respond hdrew' hproved hdistinct
  · obtain ⟨move, proof, hmove, hdecode, hdiffer⟩ :=
      h.symm.differAt_of_respond hdrew'.symm hproved hdistinct.symm
    exact ⟨move, proof, hmove, hdecode, hdiffer.symm⟩

end Opponents

/-! ## The instruction in dispute -/

/-- Where a game of two parties that differ in their programs only ends in a proof, the
step proved is one at which the programs hold different instructions. -/
theorem proof_names_disputed_instruction {A B owner : Party} {a b : Machine}
    (hA : A.challenge.machine? = some a) (hB : B.challenge.machine? = some b) (htwin : a.Twin b)
    (hinbox : A.challenge.inbox = B.challenge.inbox)
    (hovershoot : A.challenge.overshoot = B.challenge.overshoot)
    {segment : Segment} {n : Nat} {offsets : List UInt64} {cuts : List Cut}
    (howner : owner = A ∨ owner = B) (hoffsets : segment.boundaries n = .ok offsets)
    (hcuts : (owner.challenge.cutsAt offsets).outcome = .ok cuts)
    {docket : Docket} (hcurrent : docket.ledger.current = some ⟨segment, cuts⟩)
    {left round : Nat} {party : Party} {report : Report ChallengeError Move} {final : Docket}
    (hlast : (play (alternate A B) left round docket).1.getLast? =
      some (.answered party report final))
    {index : Nat} {step : Segment} {tx : Word}
    (hproved : report.outcome = .ok (.proved index step tx))
    (hdistinct : Distinct A.challenge B.challenge a b step.start) :
    ∃ move proof, final.ledger.proofs.getLast? = some move ∧
      StepProof.decode? move.machineProof = some proof ∧ a.DifferAt b proof.pc.toNat ∧
      ∀ f, (∀ k, k ≠ f → a.program[k]? = b.program[k]?) → proof.pc.toNat = f := by
  let X : Player := ⟨A, a, hA⟩
  let Y : Player := ⟨B, b, hB⟩
  have h : Opponents X Y := ⟨htwin, hinbox, hovershoot⟩
  have hdrew : X.Drew ⟨segment, cuts⟩ ∨ Y.Drew ⟨segment, cuts⟩ := by
    rcases howner with rfl | rfl
    · exact .inl (X.drew_of_cutsAt hoffsets hcuts)
    · exact .inr (Y.drew_of_cutsAt hoffsets hcuts)
  obtain ⟨move, proof, hmove, hdecode, hdiffer⟩ :=
    h.differAt_of_getLast? hcurrent hdrew hlast hproved hdistinct
  refine ⟨move, proof, hmove, hdecode, hdiffer, ?_⟩
  -- the programs differ where the proof stands, which leaves `f` if they differ nowhere else
  intro f hf
  obtain ⟨i, j, hi, hj, hne⟩ := hdiffer
  by_contra hpc
  rw [hf _ hpc, hj] at hi
  exact hne (Option.some.inj hi).symm

/-- Adders come to the same instruction first, and are twins after it. -/
theorem adders_twin (j k : UInt64) :
    ((Player.adder j).point 1).Twin ((Player.adder k).point 1) := by
  have htwin : (Point.start (Player.adder j).machine).Twin (.start (Player.adder k).machine) :=
    ⟨⟨rfl, rfl, rfl, rfl, rfl, rfl⟩, rfl, rfl⟩
  have hpoint : ∀ i, (Player.adder i).point 1 =
      (Point.start (Player.adder i).machine).settle true (0 + 1) := fun i => rfl
  rw [hpoint, hpoint]
  exact htwin.settle_succ (Point.settle_of_le le_rfl) (Point.settle_of_le le_rfl) fun _ => rfl

/-- Adders whose second instructions differ dispute the second instruction. -/
theorem adders_dispute_second_instruction :
    let A := (Player.adder 2).party
    let B := (Player.adder 3).party
    ∃ cuts party report final move proof, (B.challenge.cutsAt [0, 2]).outcome = .ok cuts ∧
      (play (alternate A B) 128 0 { ledger := .ofBisection ⟨⟨0, 2⟩, cuts⟩ }).1.getLast? =
        some (.answered party report final) ∧
      final.ledger.proofs.getLast? = some move ∧
      StepProof.decode? move.machineProof = some proof ∧ proof.pc.toNat = 1 := by
  intro A B
  obtain ⟨hx₀, hx₁, hx₂⟩ := Player.adder_owns (.inl rfl)
  obtain ⟨hy₀, hy₁, hy₂⟩ := Player.adder_owns (.inr rfl)
  have hconcur : (Player.adder 2).Concur (.adder 3) 0 :=
    ⟨_, _, (Player.owns_iff.mp hx₀).2, (Player.owns_iff.mp hy₀).2, rfl⟩
  have hclash : (Player.adder 2).Clash (.adder 3) 2 :=
    ⟨_, _, (Player.owns_iff.mp hx₂).2, (Player.owns_iff.mp hy₂).2, Player.hash_sumCut_ne⟩
  have hstop : (Segment.mk 0 2).stop = .ok 2 := rfl
  have hoffsets : (Segment.mk 0 2).boundaries 1 = .ok [0, 2] := rfl
  obtain ⟨cuts, hcuts, hcontested⟩ := adders_rivals.exists_contested hstop hoffsets hconcur hclash
  obtain ⟨turns, last, -, hlength, hplay, hlast⟩ := hcontested.endsIn_ofBisection adders_rivals
  obtain ⟨party, report, final, index, offset, tx, rfl, hproved, -, hlt, -, x, y, hx, hy, hne⟩ :=
    hlast.resolve_right fun ⟨_, _, _, _, _, _, hlength⟩ => absurd hlength (by decide)
  have hgetLast :
      (play (alternate A B) 128 0 { ledger := .ofBisection ⟨⟨0, 2⟩, cuts⟩ }).1.getLast? =
        some (.answered party report final) := by
    rw [hplay, List.take_of_length_le (by simp; omega), List.getLast?_concat]
  -- the adders agree after the first instruction, so it is not the one proved
  obtain rfl : offset = 1 := by
    have hzero : offset ≠ 0 := by
      rintro rfl
      rw [hx.unique hx₁, hy.unique hy₁] at hne
      exact hne rfl
    rw [UInt64.lt_iff_toNat_lt] at hlt
    rw [ne_eq, ← UInt64.toNat_inj] at hzero
    apply UInt64.toNat_inj.mp
    change offset.toNat < 2 at hlt
    change ¬ offset.toNat = 0 at hzero
    change offset.toNat = 1
    omega
  have hopponents : Opponents (.adder 2) (.adder 3) := ⟨⟨rfl, rfl, rfl, rfl, rfl, rfl⟩, rfl, rfl⟩
  obtain ⟨move, proof, hmove, hdecode, -, hpc⟩ := proof_names_disputed_instruction
    (Player.adder 2).resolves (Player.adder 3).resolves hopponents.twin rfl rfl (.inr rfl) hoffsets
    hcuts rfl hgetLast hproved (hopponents.distinct_of_twin (adders_twin 2 3))
  refine ⟨cuts, party, report, final, move, proof, hcuts, hgetLast, hmove, hdecode, hpc 1 ?_⟩
  intro k hk
  match k with
  | 0 => rfl
  | k + 2 => rfl

end TraceDispute
