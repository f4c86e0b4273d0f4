import TraceDispute.Proofs.Challenge.Unread
import TraceDispute.Proofs.Game.Disagreement
import TraceDispute.Proofs.Simulation.Program

/-!
# A run exposes the fault

The challenger and the asserter of a run replay machines that differ in a single
instruction of the same price (`Faulty`).  Up to that instruction the machines are
twins; at the end of the trace their registers differ, whatever came in between.
So the parties agree at the start of the asserter's claim and disagree at its end
(`Faulty.concur_zero`, `Faulty.clash_end`), and the game that follows ends in the
proof of a step on which they disagree.  There the programs hold different
instructions, and they do so at one position only.

The prices matter as much as the registers: because they are equal, the parties
have used the same gas at every offset (`Faulty.matched`), and the party that comes
to a single step can prove it.
-/

namespace TraceDispute

namespace Simulation

variable {s : Settings} {m n : Machine} {before later : List Instruction} {i j : Instruction}
  {last offset : UInt64} {name name' : String}

/-! ## Machines around a fault -/

/-- Machines in the same state, both with a program that they run to the end of.  The
programs differ in one instruction, which costs the same, and leave different registers. -/
structure Faulty (m n : Machine) (before later : List Instruction) (i j : Instruction) :
    Prop where
  program_eq : m.program = before ++ i :: later
  program_eq' : n.program = before ++ j :: later
  inbox_eq : m.inbox = inbox
  gasCost_eq : i.gasCost = j.gasCost
  twin : m.Twin n
  ready : m.Ready
  ready' : n.Ready
  apart : (m.carryOut m.program).Apart (n.carryOut n.program)

theorem set_fault : (before ++ i :: later).set before.length j = before ++ j :: later := by
  rw [List.set_append_right _ _ le_rfl, Nat.sub_self, List.set_cons_zero]

/-- A mistake in the right program makes for such machines. -/
theorem faulty_of_mistake {steps : UInt64} (hprogram : program steps = before ++ i :: later)
    (hmistake : Mistake i j) (hm : Machine.start? (program steps) inbox = some m)
    (hn : Machine.start? (before ++ j :: later) inbox = some n)
    (hregister : i = .mul 5 → (m.carryOut before).register ≠ 0 ∧
      (m.carryOut before).register ≠ 0x8000000000000000) :
    Faulty m n before later i j := by
  obtain ⟨hcode, hinbox, -⟩ := Machine.start?_eq_some hm
  obtain ⟨hcode', -⟩ := Machine.start?_eq_some hn
  obtain ⟨hi, hj, hstop⟩ := hmistake.ne_of_stops
  -- what the honest program lacks, the altered one lacks too: halts, and reads past the inbox
  have hhalt : .halt ∉ program steps := halt_notMem_program
  have hreads : (program steps).count .readInbox = inbox.length := count_readInbox_program
  rw [hprogram] at hhalt hreads
  have htwin := Machine.twin_of_start? hm hn
  refine ⟨hcode.trans hprogram, hcode', hinbox, hmistake.gasCost_eq, htwin, ?_, ?_, ?_⟩
  · exact Machine.ready_of_start? hm halt_notMem_program count_readInbox_program.le
  · refine Machine.ready_of_start? hn ?_ ?_
    · simp only [List.mem_append, List.mem_cons, not_or] at hhalt ⊢
      exact ⟨hhalt.1, hstop.symm, hhalt.2.2⟩
    · rw [List.count_append, List.count_cons_of_ne hi] at hreads
      rw [List.count_append, List.count_cons_of_ne hj, hreads]
  · have hlater : ∀ k ∈ later, k.Reversible := by
      intro k hk
      have hmem : k ∈ program steps := by simp [hprogram, hk]
      exact reversible_of_mem_program hmem
    rw [hcode, hprogram, hcode', Machine.carryOut_append, Machine.carryOut_append,
      Machine.carryOut_cons, Machine.carryOut_cons]
    exact (hmistake.apart (htwin.carryOut before) hregister).carryOut hlater

namespace Faulty

variable (h : Faulty m n before later i j)
include h

theorem prices_eq :
    m.program.map Instruction.gasCost = n.program.map Instruction.gasCost := by
  simp [h.program_eq, h.program_eq', h.gasCost_eq]

theorem gasSum_eq : gasSum m.program = gasSum n.program := by
  simp [h.program_eq, h.program_eq', h.gasCost_eq]

/-- The programs hold different instructions at one position only. -/
theorem eq_of_differAt {pc : Nat} (hdiffer : m.DifferAt n pc) : pc = before.length := by
  obtain ⟨k, k', hk, hk', hne⟩ := hdiffer
  by_contra hpc
  rw [h.program_eq', ← set_fault (i := i), ← h.program_eq,
    List.getElem?_set_ne (Ne.symm hpc)] at hk'
  exact hne (Option.some.inj (hk.symm.trans hk'))

end Faulty

/-! ## The players of a run -/

/-- The challenge of a party that replays `m`. -/
def challengeOf (m : Machine) (s : Settings) : Challenge where
  checkpoints := ⟨[(m.hash, m)]⟩
  cursor := { machineHash := m.hash }
  inbox := .ofMessages inbox
  overshoot := s.overshoot

/-- A party of a run as a player. -/
def player (name : String) (m : Machine) (s : Settings) : Player where
  party := .ofDegree name (challengeOf m s) s.degree.toNat
  machine := m
  resolves := by simp [Party.ofDegree, challengeOf, Challenge.machine?, Checkpoints.find?]

@[simp] theorem inbox_player (name : String) (m : Machine) (s : Settings) :
    (player name m s).party.challenge.inbox = .ofMessages inbox := rfl

@[simp] theorem overshoot_player (name : String) (m : Machine) (s : Settings) :
    (player name m s).party.challenge.overshoot = s.overshoot := rfl

theorem point_player (name : String) (m : Machine) (s : Settings) (offset : UInt64) :
    (player name m s).point offset = m.restAt s.overshoot offset.toNat := rfl

theorem outcome_party (name : String) (m : Machine) (s : Settings) :
    (party name m s).outcome = .ok (player name m s).party := rfl

/-- A machine that runs to the end of its program has a cut there. -/
theorem player_reaches (hready : m.Ready) (hinbox : m.inbox = inbox)
    (hlast : last.toNat = gasSum m.program) : (player name m s).Reaches last := by
  have hpoint : m.pointAt s.overshoot last = .ok ((Point.start m).through m.program) :=
    hready.pointAt_eq hlast
  obtain ⟨hrest, -⟩ := Machine.pointAt_eq_ok_iff.mp hpoint
  have htable : (player name m s).party.challenge.inbox = .ofMessages m.inbox := by
    rw [inbox_player, hinbox]
  have hdigest := Challenge.digestAt_restAt htable last.toNat
  rw [overshoot_player, ← hrest] at hdigest
  have hcut : (player name m s).cut last =
      .ok (Cut.ofProgress ((Point.start m).through m.program).progress _) :=
    Challenge.ownCut_eq_ok_iff.mpr ⟨_, _, hpoint, hdigest, rfl⟩
  exact ⟨Point.countable_of_gasSum (hlast ▸ last.toNat_lt) _, _, hcut⟩

namespace Faulty

variable (h : Faulty m n before later i j)
include h

theorem left_reaches (hlast : last.toNat = gasSum m.program) :
    (player name m s).Reaches last :=
  player_reaches h.ready h.inbox_eq hlast

theorem right_reaches (hlast : last.toNat = gasSum m.program) :
    (player name n s).Reaches last :=
  player_reaches h.ready' (h.twin.inbox_eq.symm.trans h.inbox_eq) (hlast.trans h.gasSum_eq)

theorem opponents : Opponents (player name m s) (player name' n s) :=
  ⟨h.twin, by rw [inbox_player, inbox_player], by rw [overshoot_player, overshoot_player]⟩

/-- As long as the gas before the fault lasts, the machines are twins. -/
theorem twin_point (hoffset : offset.toNat ≤ gasSum before) :
    ((player name m s).point offset).Twin ((player name' n s).point offset) := by
  have htarget : offset.toNat ≤ (Point.start m).gas + gasSum before := by
    rwa [Point.gas_start, Nat.zero_add]
  rw [point_player, point_player]
  exact (Point.Twin.start h.twin).settle_of_common (h.ready.remaining_eq.trans h.program_eq)
    (h.ready'.remaining_eq.trans h.program_eq') htarget

/-- The players agree at the start of the trace. -/
theorem concur_zero (hlast : last.toNat = gasSum m.program) :
    (player name m s).Concur (player name' n s) 0 := by
  have hX : (player name m s).Reaches last := h.left_reaches hlast
  have hY : (player name' n s).Reaches last := h.right_reaches hlast
  obtain ⟨-, x, hx⟩ := hX.mono UInt64.zero_le
  obtain ⟨-, y, hy⟩ := hY.mono UInt64.zero_le
  exact ⟨x, y, hx, hy, congrArg Cut.hash
    (h.opponents.cut_eq_of_twin (h.twin_point (Nat.zero_le _)) hx hy)⟩

/-- The players have used the same gas at every offset. -/
theorem matched (hlast : last.toNat = gasSum m.program) :
    Matched (player name m s) (player name' n s) 0 last := by
  refine ⟨h.left_reaches hlast, h.right_reaches hlast, fun o x y _ _ hx hy _ => ?_⟩
  have hgas : ((player name m s).point o).gas = ((player name' n s).point o).gas := by
    rw [point_player, point_player]
    exact h.ready.gas_restAt_congr h.ready' h.prices_eq o.toNat
  obtain ⟨-, digest, -, rfl⟩ := Player.cut_eq_ok hx
  obtain ⟨-, digest', -, rfl⟩ := Player.cut_eq_ok hy
  exact congrArg UInt64.ofNat hgas

/-- At the end of the trace the players disagree, unless hashes collide there. -/
theorem clash_end (hlast : last.toNat = gasSum m.program)
    (hdistinct : (player name m s).Distinct (player name' n s) last) :
    (player name m s).Clash (player name' n s) last := by
  have hX : (player name m s).Reaches last := h.left_reaches hlast
  have hY : (player name' n s).Reaches last := h.right_reaches hlast
  obtain ⟨hcounts, x, hx⟩ := hX
  obtain ⟨hcounts', y, hy⟩ := hY
  refine ⟨x, y, hx, hy, fun hhash => h.apart.register_ne ?_⟩
  -- cuts of one hash would make the machines twins, but their registers are apart
  have htwin := h.opponents.twin_point hdistinct ⟨x, y, hx, hy, hhash⟩ hcounts.fits hcounts'.fits
  rw [point_player, point_player, h.ready.restAt_eq hlast,
    h.ready'.restAt_eq (hlast.trans h.gasSum_eq)] at htwin
  have hregister := htwin.machine.register_eq
  rwa [Point.machine_through, Point.machine_through] at hregister

end Faulty

/-! ## The run -/

/-- The last round of a game of divisions tells the end of a run. -/
theorem narrate_of_proved {divisions : List Turn} (h : ∀ t ∈ divisions, t.isDivision = true)
    {party : Party} {report : Report ChallengeError Move} {docket : Docket} {index : Nat}
    {step : Segment} {tx : Word} (hproved : report.outcome = .ok (.proved index step tx))
    (round : Nat) :
    (narrate round (divisions ++ [.answered party report docket])).outcome = .ok () := by
  induction divisions generalizing round with
  | nil => simp [narrate, hproved, notes]
  | cons t divisions ih =>
      obtain ⟨ht, hrest⟩ := List.forall_mem_cons.mp h
      cases t with
      | noBisection => cases ht
      | answered party report docket =>
          obtain ⟨index, segment, tx, houtcome⟩ := isDivision_iff.mp ht
          simpa [narrate, houtcome, notes] using ih hrest (round + 1)

theorem stop_whole (last : UInt64) : (Segment.mk 0 last).stop = .ok last :=
  Segment.stop_eq_ok_iff.mpr ⟨by simpa [Segment.Bounded] using last.toNat_lt, by simp⟩

theorem boundaries_whole (last : UInt64) : (Segment.mk 0 last).boundaries 1 = .ok [0, last] := by
  have hroom : (Segment.mk 0 last).Roomy 1 := by
    rw [Segment.Roomy, Segment.parts_one]
    decide
  rw [Segment.boundaries_eq (Segment.stop_eq_ok_iff.mp (stop_whole last)).1 hroom,
    Segment.parts_one, Segment.marks_one (stop_whole last)]

/-- A run about cuts that the asserter claims at both ends of the trace. -/
def setupOf (m n : Machine) (s : Settings) (last : UInt64) (cuts : List Cut) : Setup where
  challenger := (player "challenger" m s).party
  asserter := (player "asserter" n s).party
  docket := { ledger := .ofBisection ⟨⟨0, last⟩, cuts⟩ }

/-- What a run is set up with, once the asserter has its cuts. -/
theorem outcome_setUp {f : Nat}
    (hfault : selectFault (program s.traceSteps) s.faultStep = .ok (some (f, j)))
    (hm : Machine.start? (program s.traceSteps) inbox = some m)
    (hn : Machine.start? ((program s.traceSteps).set f j) inbox = some n)
    (htotal : m.totalGas = .ok last) :
    (setUp s).outcome = (do
      let cuts ← ((player "asserter" n s).party.challenge.cutsAt [0, last]).outcome.mapRefusal
        ChallengeError.message
      return setupOf m n s last cuts) := by
  simp [setUp, notes, hfault, machine, hm, hn, htotal, outcome_party, boundaries_whole,
    -bind_pure_comp]
  rfl

/-- The game is one of less than `rounds` divisions and then the proof of the instruction
at `pc`, which the ledger has recorded. -/
def Setup.Exposes (setup : Setup) (rounds pc : Nat) : Prop :=
  ∃ divisions party report final index step tx move proof,
    setup.play.1 = divisions ++ [.answered party report final] ∧
    (∀ t ∈ divisions, t.isDivision = true) ∧ divisions.length < rounds ∧
    report.outcome = .ok (.proved index step tx) ∧
    final.ledger.proofs.getLast? = some move ∧
    StepProof.decode? move.machineProof = some proof ∧ proof.pc.toNat = pc

/-- Nothing collides at the two offsets that count: at the end of the trace, where the
parties compare their cuts in the first round, and at the start of the step that is proved,
where the party that proves it has compared them. -/
structure Setup.CollisionFree (setup : Setup) (m n : Machine) : Prop where
  at_end : ∀ last, m.totalGas = .ok last →
    Distinct setup.challenger.challenge setup.asserter.challenge m n last
  at_step : ∀ party report final index step tx,
    setup.play.1.getLast? = some (.answered party report final) →
    report.outcome = .ok (.proved index step tx) →
    Distinct setup.challenger.challenge setup.asserter.challenge m n step.start

namespace Faulty

variable (h : Faulty m n before later i j) {cuts : List Cut}
include h

/-- The asserter has the cuts that it claims. -/
theorem exists_claim (hlast : last.toNat = gasSum m.program) :
    ∃ cuts, ((player "asserter" n s).party.challenge.cutsAt [0, last]).outcome = .ok cuts := by
  have hY : (player "asserter" n s).Reaches last := h.right_reaches hlast
  have hstart : (player "asserter" n s).Reaches 0 := hY.mono UInt64.zero_le
  obtain ⟨hcounts, y, hy⟩ := hY
  obtain ⟨hcounts', y', hy'⟩ := hstart
  refine ⟨[y', y], Player.cutsAt_of_owns (by simp) ?_⟩
  exact .cons (Player.owns_iff.mpr ⟨hcounts', hy'⟩)
    (.cons (Player.owns_iff.mpr ⟨hcounts, hy⟩) .nil)

/-- The asserter's claim puts the challenger to move. -/
theorem contested (htotal : m.totalGas = .ok last)
    (hcuts : ((player "asserter" n s).party.challenge.cutsAt [0, last]).outcome = .ok cuts)
    (hfree : (setupOf m n s last cuts).CollisionFree m n) :
    Contested (player "challenger" m s) (player "asserter" n s) 0 last ⟨⟨0, last⟩, cuts⟩ := by
  have hlast := Machine.toNat_totalGas htotal
  have hmatched : Matched (player "challenger" m s) (player "asserter" n s)
      (Segment.mk 0 last).start last := h.matched hlast
  obtain ⟨cuts', hcuts', hcontested⟩ := hmatched.exists_contested (stop_whole last)
    (boundaries_whole last) (h.concur_zero hlast) (h.clash_end hlast (hfree.at_end last htotal))
  obtain rfl : cuts = cuts' := Except.ok.inj (hcuts.symm.trans hcuts')
  exact hcontested

/-- The game about the asserter's claim ends in the proof of the faulty instruction. -/
theorem exposes (htotal : m.totalGas = .ok last)
    (hroom : gasSum m.program < Segment.chunkLimit)
    (hcuts : ((player "asserter" n s).party.challenge.cutsAt [0, last]).outcome = .ok cuts)
    (hfree : (setupOf m n s last cuts).CollisionFree m n) :
    (setupOf m n s last cuts).Exposes 65 before.length := by
  have hlast := Machine.toNat_totalGas htotal
  have hcontested := h.contested htotal hcuts hfree
  obtain ⟨divisions, final, hdivisions, hlength, hplay, hfinal⟩ :=
    hcontested.endsIn_of_matched (h.matched hlast)
  have hturns : (setupOf m n s last cuts).play.1 = divisions ++ [final] := by
    refine (hplay maxRounds).trans (List.take_of_length_le ?_)
    rw [List.length_append, List.length_singleton, maxRounds]
    omega
  -- the trace is too short for more chunks than can be addressed
  have hproves := hfinal.resolve_right fun ⟨_, _, _, _, _, _, hwide⟩ => by
    rw [UInt64.toNat_zero] at hwide
    omega
  obtain ⟨party, report, docket, index, offset, tx, rfl, hproved, -⟩ := hproves
  have hend : (setupOf m n s last cuts).play.1.getLast? = some (.answered party report docket) := by
    rw [hturns, List.getLast?_concat]
  have hdistinct := hfree.at_step party report docket index ⟨offset, 1⟩ tx hend hproved
  -- the last proof names a step at which the programs differ, and they do at one step only
  obtain ⟨move, proof, hmove, hdecode, hdiffer⟩ := h.opponents.differAt_of_getLast? rfl
    (.inr hcontested.drew) hend hproved hdistinct
  exact ⟨divisions, party, report, docket, index, _, tx, move, proof, hturns, hdivisions,
    Nat.lt_succ_of_le hlength, hproved, hmove, hdecode, h.eq_of_differAt hdiffer⟩

end Faulty

/-! ## A short run

Two instructions of the trace, the second of which is the one that the asserter gets
wrong.  The parties have the same hashes up to it. -/

theorem multiplier_lt (k : UInt64) :
    [Instruction.readInbox, .readInbox, .readInbox, .add 0, .mul k].length < UInt64.size :=
  show 5 < UInt64.size by decide

/-- The machine that reads every message, adds nothing and then multiplies. -/
def multiplier (k : UInt64) : Machine where
  program := [.readInbox, .readInbox, .readInbox, .add 0, .mul k]
  inbox := inbox
  program_lt := multiplier_lt k
  inbox_lt := by decide

theorem register_multiplier : ((multiplier 5).carryOut ((program 2).take 4)).register ≠ 0 ∧
    ((multiplier 5).carryOut ((program 2).take 4)).register ≠ 0x8000000000000000 := by
  decide +kernel

theorem multipliers_faulty : Faulty (multiplier 5) (multiplier 7)
    [.readInbox, .readInbox, .readInbox, .add 0] [] (.mul 5) (.mul 7) := by
  have hprogram : program 2 = [.readInbox, .readInbox, .readInbox, .add 0] ++ [.mul 5] := rfl
  exact faulty_of_mistake hprogram .mul rfl rfl fun _ => register_multiplier

/-- The point at which the machine has multiplied. -/
def product (k : UInt64) : Point := (Point.start (multiplier k)).through (multiplier k).program

/-- The cut at that point, where no message is left. -/
def productCut (k : UInt64) : Cut := Cut.ofProgress (product k).progress .zero

theorem point_multiplier {k : UInt64} (hready : (multiplier k).Ready)
    (hovershoot : s.overshoot = true) (hoffset : 31 < offset.toNat) :
    (player name (multiplier k) s).point offset = product k := by
  have hprogram : (multiplier k).program =
    [.readInbox, .readInbox, .readInbox, .add 0] ++ [.mul k] := rfl
  rw [point_player, hovershoot]
  exact hready.restAt_of_crossing hprogram hoffset

theorem cut_multiplier {k : UInt64} {x : Cut}
    (hpoint : (player name (multiplier k) s).point offset = product k)
    (hx : (player name (multiplier k) s).cut offset = .ok x) : x = productCut k := by
  obtain ⟨-, digest, hdigest, rfl⟩ := Player.cut_eq_ok hx
  rw [hpoint, inbox_player] at hdigest
  rw [hpoint, ← Except.ok.inj hdigest]
  rfl

theorem hash_productCut_ne : (productCut 5).hash ≠ (productCut 7).hash := by decide +kernel

theorem gas_product (k : UInt64) : (product k).gas = 34 := Point.gas_through

theorem report_product (w : Word) : (product 5).report w = (product 7).report w := rfl

theorem restHash_productCut_ne : (productCut 5).restHash ≠ (productCut 7).restHash := by
  intro h
  have hgas : (productCut 5).gasUsed = (productCut 7).gasUsed := by
    simp only [productCut, Cut.ofProgress, Point.progress, Point.report, gas_product]
  exact hash_productCut_ne (by rw [Cut.hash_eq, Cut.hash_eq, Cut.pack, Cut.pack, hgas, h])

theorem hash_product_ne : (product 5).machine.hash ≠ (product 7).machine.hash := by
  intro h
  refine hash_productCut_ne ?_
  rw [productCut, productCut, Point.progress, Point.progress, h, report_product]

theorem multipliers_distinct (hovershoot : s.overshoot = true) :
    (player "challenger" (multiplier 5) s).Distinct (player "asserter" (multiplier 7) s)
      offset := by
  have hfaulty := multipliers_faulty
  -- up to the faulty step the machines are twins; after it their hashes are known
  by_cases hoffset : offset.toNat ≤ 31
  · exact hfaulty.opponents.distinct_of_twin (hfaulty.twin_point hoffset)
  · have hpoint : (player "challenger" (multiplier 5) s).point offset = product 5 :=
      point_multiplier hfaulty.ready hovershoot (not_le.mp hoffset)
    have hpoint' : (player "asserter" (multiplier 7) s).point offset = product 7 :=
      point_multiplier hfaulty.ready' hovershoot (not_le.mp hoffset)
    refine ⟨fun x y hx hy h => ?_, fun x y hx hy h => ?_, fun p q hp hq h => ?_,
      fun p q hp hq h => ?_⟩
    · rw [cut_multiplier hpoint hx, cut_multiplier hpoint' hy] at h
      exact hash_productCut_ne h.2
    · rw [cut_multiplier hpoint hx, cut_multiplier hpoint' hy] at h
      exact restHash_productCut_ne h.2
    · rw [(Machine.pointAt_eq_ok_iff.mp hp).1.trans hpoint,
        (Machine.pointAt_eq_ok_iff.mp hq).1.trans hpoint'] at h
      exact hash_product_ne h.2
    · rw [(Machine.pointAt_eq_ok_iff.mp hp).1.trans hpoint,
        (Machine.pointAt_eq_ok_iff.mp hq).1.trans hpoint'] at h
      exact h.1 rfl

/-! ## Every run -/

/-- If the right program multiplies at `f`, the register before that is not one of the two
values whose products by five and by seven are the same. -/
def RegisterTells (steps : UInt64) (f : Nat) : Prop :=
  ∀ m factor, Machine.start? (program steps) inbox = some m →
    (program steps)[f]? = some (.mul factor) →
    (m.carryOut ((program steps).take f)).register ≠ 0 ∧
      (m.carryOut ((program steps).take f)).register ≠ 0x8000000000000000

/-- The machines that a run sets up for its parties. -/
theorem exists_faulty {f : Nat} (hmemory : FitsInMemory s.traceSteps)
    (hfault : selectFault (program s.traceSteps) s.faultStep = .ok (some (f, j)))
    (hregister : RegisterTells s.traceSteps f) :
    ∃ m n before later i, Machine.start? (program s.traceSteps) inbox = some m ∧
      Machine.start? ((program s.traceSteps).set f j) inbox = some n ∧
      before.length = f ∧ Faulty m n before later i j := by
  obtain ⟨before, i, later, hprogram, rfl, hmistake⟩ := exists_fault hfault
  have hset : (program s.traceSteps).set before.length j = before ++ j :: later :=
    hprogram ▸ set_fault
  have hlength : (program s.traceSteps).length < UInt64.size := by
    unfold FitsInMemory at hmemory
    omega
  have hlength' : ((program s.traceSteps).set before.length j).length < UInt64.size := by
    rwa [List.length_set]
  have hinbox : inbox.length < UInt64.size := by decide
  obtain ⟨m, hm⟩ := Machine.exists_start? hlength hinbox
  obtain ⟨n, hn⟩ := Machine.exists_start? hlength' hinbox
  refine ⟨m, n, before, later, i, hm, hn, rfl, ?_⟩
  refine faulty_of_mistake hprogram hmistake hm (hset ▸ hn) fun hi => ?_
  have h := hregister m 5 hm (by simp [hprogram, hi])
  rwa [hprogram, List.take_left] at h

/-- A run whose game ends in a proof ends well. -/
theorem outcome_run_of_exposes {setup : Setup} {rounds pc : Nat}
    (hsetUp : (setUp s).outcome = .ok setup) (h : setup.Exposes rounds pc) :
    (run s).outcome = .ok () := by
  obtain ⟨divisions, party, report, final, index, step, tx, move, proof, hturns, hdivisions, -,
    hproved, -⟩ := h
  rw [run, Report.outcome_bind, hsetUp, Outcome.ok_bind, hturns]
  exact narrate_of_proved hdivisions hproved 0

end Simulation

end TraceDispute
