import TraceDispute.Proofs.Commitment
import TraceDispute.Proofs.Party

/-!
# Two players of one game

A `Player` is a party together with the machine that it replays.  In a game of
two players every bisection on the ledger holds the cuts of one of them
(`Player.Drew`), and the other compares them with its own.  So what a player
finds wrong is where the two of them really disagree: `firstWrong_iff` turns a
search through claimed cuts into a statement about both players' own cuts.
-/

namespace TraceDispute

/-- A party and the machine that it replays. -/
structure Player where
  party : Party
  machine : Machine
  resolves : party.challenge.machine? = some machine

/-- What a party answers when it is asked for its cut at a single offset. -/
def Party.Owns (p : Party) (offset : UInt64) (cut : Cut) : Prop :=
  (p.challenge.cutsAt [offset]).outcome = .ok [cut]

theorem Party.Owns.unique {p : Party} {offset : UInt64} {cut cut' : Cut} (h : p.Owns offset cut)
    (h' : p.Owns offset cut') : cut = cut' := by
  simpa using Except.ok.inj (h.symm.trans h')

/-- The players of a game in turn, `A` first. -/
def alternate (A B : Party) (round : Nat) : Party := if round % 2 = 0 then A else B

namespace Player

variable {X Y : Player} {b : Bisection} {offset later : UInt64} {claim : Cut} {k : Nat}

/-- The player's own cut at an offset. -/
def cut (X : Player) (offset : UInt64) : Outcome ChallengeError Cut :=
  X.party.challenge.ownCut X.machine offset

/-- The player can count the gas up to an offset. -/
def Counts (X : Player) (offset : UInt64) : Prop :=
  X.party.challenge.Counts X.machine offset

theorem owns_iff : X.party.Owns offset claim ↔ X.Counts offset ∧ X.cut offset = .ok claim := by
  constructor
  · intro h
    refine ⟨Challenge.counts_of_cutsAt X.resolves h, ?_⟩
    obtain ⟨hcut, -⟩ := List.forall₂_cons.mp (Challenge.ownCut_of_cutsAt X.resolves h)
    exact hcut
  · rintro ⟨hcounts, hcut⟩
    unfold Party.Owns
    rw [Challenge.cutsAt_of_countable X.resolves (List.pairwise_singleton _ _) (by simpa)]
    exact Outcome.mapM_eq_ok_iff.mpr (.cons hcut .nil)

theorem exists_of_owns {p : Party} (h : p.Owns offset claim) : ∃ X : Player, X.party = p := by
  obtain ⟨m, hm, -⟩ := Challenge.machine?_of_cutsAt h
  exact ⟨⟨p, m, hm⟩, rfl⟩

/-- The player can take its cuts up to an offset. -/
def Reaches (X : Player) (last : UInt64) : Prop := X.Counts last ∧ ∃ cut, X.cut last = .ok cut

theorem Reaches.mono (h : X.Reaches later) (hle : offset ≤ later) : X.Reaches offset := by
  obtain ⟨hcounts, cut, hcut⟩ := h
  exact ⟨hcounts.mono hle, Challenge.ownCut_of_le hle hcut⟩

/-! ## Agreement -/

/-- The players' cuts at an offset have the same hash. -/
def Concur (X Y : Player) (offset : UInt64) : Prop :=
  ∃ x y, X.cut offset = .ok x ∧ Y.cut offset = .ok y ∧ x.hash = y.hash

/-- The players' cuts at an offset have different hashes. -/
def Clash (X Y : Player) (offset : UInt64) : Prop :=
  ∃ x y, X.cut offset = .ok x ∧ Y.cut offset = .ok y ∧ x.hash ≠ y.hash

theorem Concur.symm (h : X.Concur Y offset) : Y.Concur X offset := by
  obtain ⟨x, y, hx, hy, heq⟩ := h
  exact ⟨y, x, hy, hx, heq.symm⟩

theorem Clash.symm (h : X.Clash Y offset) : Y.Clash X offset := by
  obtain ⟨x, y, hx, hy, hne⟩ := h
  exact ⟨y, x, hy, hx, hne.symm⟩

theorem not_clash_self (X : Player) (offset : UInt64) : ¬ X.Clash X offset := by
  rintro ⟨x, y, hx, hy, hne⟩
  obtain rfl : x = y := by simpa [hx] using hy
  exact hne rfl

theorem agrees_iff_concur (hcut : Y.cut offset = .ok claim) :
    X.party.challenge.Agrees X.machine offset claim ↔ X.Concur Y offset := by
  constructor
  · rintro ⟨own, hown, heq⟩
    exact ⟨own, claim, hown, hcut, heq⟩
  · rintro ⟨x, y, hx, hy, heq⟩
    obtain rfl : claim = y := by simpa [hcut] using hy
    exact ⟨x, hx, heq⟩

theorem differs_iff_clash (hcut : Y.cut offset = .ok claim) :
    X.party.challenge.Differs X.machine offset claim ↔ X.Clash Y offset := by
  constructor
  · rintro ⟨own, hown, hne⟩
    exact ⟨own, claim, hown, hcut, hne⟩
  · rintro ⟨x, y, hx, hy, hne⟩
    obtain rfl : claim = y := by simpa [hcut] using hy
    exact ⟨x, hx, hne⟩

/-! ## Bisections of a player -/

/-- The cuts of a bisection are the player's own, at its boundaries. -/
structure Drew (Y : Player) (b : Bisection) : Prop where
  proper : b.Proper
  own : List.Forall₂ (fun o cut => Y.cut o = .ok cut) (b.segment.marks b.segmentCount) b.cuts
  fits : ∀ o ∈ b.segment.marks b.segmentCount, Y.party.challenge.Fits Y.machine o

theorem Drew.cut_eq (h : Y.Drew b) {i : Nat} (hi : i ≤ b.segmentCount) :
    ∃ cut, b.cuts[i]? = some cut ∧ Y.cut (b.segment.mark b.segmentCount i) = .ok cut := by
  have hlength : i < b.cuts.length := by
    rw [h.proper.length_cuts]
    omega
  have hmark : i < (b.segment.marks b.segmentCount).length := by
    rw [Segment.length_marks]
    omega
  refine ⟨b.cuts[i], List.getElem?_eq_getElem hlength, ?_⟩
  simpa [Segment.marks] using h.own.get hmark hlength

theorem drew_of_cutsAt {s : Segment} {degree : Nat} {offsets : List UInt64} {cuts : List Cut}
    (hoffsets : s.boundaries degree = .ok offsets)
    (hcuts : (Y.party.challenge.cutsAt offsets).outcome = .ok cuts) : Y.Drew ⟨s, cuts⟩ := by
  obtain ⟨hbounded, hroom⟩ := Segment.bounded_of_boundaries hoffsets
  rw [Segment.boundaries_eq hbounded hroom] at hoffsets
  obtain rfl := Except.ok.inj hoffsets
  have hown := Challenge.ownCut_of_cutsAt Y.resolves hcuts
  have hfits := Challenge.fits_of_cutsAt Y.resolves hcuts
  have hlength : cuts.length = s.parts degree + 1 := by
    rw [← hown.length_eq, Segment.length_marks]
  -- the parts are counted again from the cuts, and there are as many
  obtain ⟨hproper, hcount⟩ := Bisection.proper_of_boundaries hbounded hroom hlength
  refine ⟨hproper, ?_, ?_⟩
  · rw [hcount]
    exact hown
  · rw [hcount]
    exact hfits

/-- A player that can take its cuts up to the end of a segment can draw its bisection. -/
theorem drew_of_reaches {s : Segment} {degree : Nat} (hbounded : s.Bounded)
    (hroom : s.Roomy degree) (hreach : ∀ o ∈ s.marks (s.parts degree), Y.Reaches o) :
    ∃ cuts, (Y.party.challenge.cutsAt (s.marks (s.parts degree))).outcome = .ok cuts ∧
      Y.Drew ⟨s, cuts⟩ := by
  obtain ⟨cuts, hmapM⟩ := Outcome.exists_mapM_eq_ok fun o ho => (hreach o ho).2
  have hcuts : (Y.party.challenge.cutsAt (s.marks (s.parts degree))).outcome = .ok cuts := by
    rw [Challenge.cutsAt_of_countable Y.resolves
      (Segment.pairwise_marks hbounded (s.parts_pos degree)) fun o ho => (hreach o ho).1]
    exact hmapM
  exact ⟨cuts, hcuts, drew_of_cutsAt (Segment.boundaries_eq hbounded hroom) hcuts⟩

theorem drew_of_divides {index : Nat} {cuts : List Cut}
    (h : X.party.Divides X.machine b index cuts) :
    X.Drew ⟨b.segment.chunk b.segmentCount index, cuts⟩ := by
  have hlength := h.own.length_eq
  rw [Segment.length_marks] at hlength
  obtain ⟨hproper, hcount⟩ := Bisection.proper_of_boundaries
    (Segment.bounded_chunk h.proper.bounded h.proper.pos h.lt) h.roomy hlength.symm
  refine ⟨hproper, ?_, ?_⟩
  · rw [hcount]
    exact h.own
  · rw [hcount]
    exact h.fits

/-- The first cut that a player finds wrong in another's bisection is the first at
which the two of them clash. -/
theorem firstWrong_iff (h : Y.Drew b) :
    X.party.challenge.FirstWrong X.machine (b.segment.marks b.segmentCount) b.cuts (k + 1) ↔
      k < b.segmentCount ∧ (∀ i ≤ k, X.Concur Y (b.segment.mark b.segmentCount i)) ∧
        X.Clash Y (b.segment.mark b.segmentCount (k + 1)) := by
  -- a claimed cut is the own cut of `Y`, so what `X` compares are the cuts of the two players
  constructor
  · intro hfirst
    have hk := hfirst.lt_of_marks
    refine ⟨hk, fun i hi => ?_, ?_⟩
    · obtain ⟨cut, hget, hcut⟩ := h.cut_eq (i := i) (by omega)
      rw [← agrees_iff_concur hcut]
      exact hfirst.agrees i (by omega) _ _ (Segment.getElem?_marks (by omega)) hget
    · obtain ⟨cut, hget, hcut⟩ := h.cut_eq (i := k + 1) hk
      obtain ⟨o, claim, ho, hclaim, hdiffers⟩ := hfirst.differs
      rw [Segment.getElem?_marks hk] at ho
      obtain rfl := Option.some.inj ho
      obtain rfl : cut = claim := by simpa [hget] using hclaim
      exact (differs_iff_clash hcut).mp hdiffers
  · rintro ⟨hk, hconcur, hclash⟩
    refine ⟨by rw [Segment.length_marks, h.proper.length_cuts], by omega, ?_, ?_⟩
    · intro i hi o claim ho hclaim
      rw [Segment.getElem?_marks (by omega)] at ho
      obtain rfl := Option.some.inj ho
      obtain ⟨cut, hget, hcut⟩ := h.cut_eq (i := i) (by omega)
      obtain rfl : cut = claim := by simpa [hget] using hclaim
      exact (agrees_iff_concur hcut).mpr (hconcur i (by omega))
    · obtain ⟨cut, hget, hcut⟩ := h.cut_eq (i := k + 1) hk
      exact ⟨_, cut, Segment.getElem?_marks hk, hget, (differs_iff_clash hcut).mpr hclash⟩

/-! ## Bisections with two cuts -/

theorem cutsAt_of_owns {offsets : List UInt64} {cuts : List Cut}
    (hsorted : offsets.Pairwise (· ≤ ·)) (h : List.Forall₂ X.party.Owns offsets cuts) :
    (X.party.challenge.cutsAt offsets).outcome = .ok cuts := by
  have hlength := h.length_eq
  rw [Challenge.cutsAt_of_countable X.resolves hsorted]
  · exact Outcome.mapM_eq_ok_iff.mpr (h.imp fun _ _ howns => (owns_iff.mp howns).2)
  · intro o ho
    obtain ⟨i, hi, rfl⟩ := List.getElem_of_mem ho
    exact (owns_iff.mp (h.get hi (hlength ▸ hi))).1

theorem takes_of_owns (h : X.party.Owns offset claim) : X.party.challenge.Takes offset claim :=
  ⟨[offset], [claim], h, List.mem_singleton_self _⟩

/-- A player that agrees with the first claim and not with the second answers the part
between them, whatever is claimed after that. -/
theorem plan_of_first_part {a a' claim' : Cut} {rest : List Cut} {move : Submission}
    (hb : b.Proper) (hcuts : b.cuts = claim :: claim' :: rest)
    (hcounts : ∀ o ∈ b.segment.marks b.segmentCount, X.Counts o)
    (hfirst : X.cut b.segment.start = .ok a)
    (hlast : X.cut (b.segment.mark b.segmentCount 1) = .ok a')
    (heq : a.hash = claim.hash) (hne : a'.hash ≠ claim'.hash)
    (hpart : X.party.answerPart b 0 (b.segment.chunk b.segmentCount 0) = .ok move) :
    (X.party.plan b).outcome = .ok (b.segment.chunk b.segmentCount 0, move) := by
  -- cut 0 is agreed to and cut 1 is not, so part 0 is in dispute
  have hwrong : X.party.challenge.FirstWrong X.machine (b.segment.marks b.segmentCount) b.cuts
      1 := by
    refine ⟨by rw [Segment.length_marks, hb.length_cuts], Nat.one_pos, ?_, _, claim',
      Segment.getElem?_marks hb.pos, by rw [hcuts]; rfl, a', hlast, hne⟩
    intro i hi o claim'' ho hclaim
    obtain rfl : i = 0 := Nat.lt_one_iff.mp hi
    rw [Segment.getElem?_marks (Nat.zero_le _), Segment.mark_zero] at ho
    obtain rfl := Option.some.inj ho
    obtain rfl : claim = claim'' := by simpa [hcuts] using hclaim
    exact ⟨a, hfirst, heq⟩
  rw [Party.plan_of_firstWrong X.resolves hb hcounts hwrong, hpart]
  rfl

/-- A player that agrees with the first of two claimed cuts and not with the other
answers with the whole segment. -/
theorem plan_of_owns {s : Segment} {stop : UInt64} {a a' claim' : Cut} {move : Submission}
    (hstop : s.stop = .ok stop) (hfirst : X.party.Owns s.start a) (hlast : X.party.Owns stop a')
    (heq : a.hash = claim.hash) (hne : a'.hash ≠ claim'.hash)
    (hpart : X.party.answerPart ⟨s, [claim, claim']⟩ 0 s = .ok move) :
    (X.party.plan ⟨s, [claim, claim']⟩).outcome = .ok (s, move) := by
  obtain ⟨hbounded, -⟩ := Segment.stop_eq_ok_iff.mp hstop
  have hmark : s.mark 1 1 = stop := by
    rw [Segment.stop_eq_mark hbounded Nat.one_pos] at hstop
    exact Except.ok.inj hstop
  have hpair : (Bisection.mk s [claim, claim']).segmentCount = 1 := rfl
  have hproper := Bisection.proper_pair hbounded claim claim'
  obtain ⟨hcounts, hcut⟩ := owns_iff.mp hfirst
  obtain ⟨hcounts', hcut'⟩ := owns_iff.mp hlast
  have hcount : ∀ o ∈ s.marks 1, X.Counts o := by
    rw [Segment.marks_one hstop]
    intro o ho
    rcases List.mem_pair.mp ho with rfl | rfl
    · exact hcounts
    · exact hcounts'
  have hwhole : X.party.answerPart ⟨s, [claim, claim']⟩ 0 (s.chunk 1 0) = .ok move := by
    rwa [s.chunk_one]
  rw [← hmark] at hcut'
  have hplan := plan_of_first_part (b := ⟨s, [claim, claim']⟩) (X := X) hproper rfl
    (by rwa [hpair]) hcut (by rwa [hpair]) heq hne (by rw [hpair]; exact hwhole)
  rwa [hpair, s.chunk_one] at hplan

/-! ## Players of small programs -/

theorem openSession_eq (X : Player) (o : UInt64) :
    X.party.challenge.openSession [o] =
      .ok { machine := X.machine, progress := .start X.machine.hash
            overshoot := X.party.challenge.overshoot, offsets := [o] } :=
  (Challenge.openSession_eq_ok_iff X.resolves).mpr
    (Session.start_eq_ok_iff.mpr ⟨List.pairwise_singleton _ o, rfl⟩)

/-- A fresh session is all that an own cut takes. -/
theorem owns_of_cutAt (h : (X.party.challenge.cutAt
      { machine := X.machine, progress := .start X.machine.hash
        overshoot := X.party.challenge.overshoot, offsets := [offset] } offset).1 = .ok claim) :
    X.party.Owns offset claim := by
  rw [Party.Owns, Challenge.outcome_cutsAt, openSession_eq, Outcome.ok_bind,
    Challenge.cutsFrom_cons, h]
  rfl

/-- A player that runs `program` on no messages and divides segments in two. -/
def solo (program : List Instruction) (h : program.length < UInt64.size) : Player :=
  let m : Machine := { program, inbox := [], program_lt := h, inbox_lt := by decide }
  { party := .ofDegree "solo"
      { checkpoints := ⟨[(m.hash, m)]⟩
        cursor := { machineHash := m.hash }
        inbox := .ofMessages [] } 2
    machine := m
    resolves := by simp [Party.ofDegree, Challenge.machine?, Checkpoints.find?] }

/-- The cut of a machine that has added up to `register` in as many steps as it has
used gas. -/
def sumCut (gas register : UInt64) : Cut where
  gasUsed := gas
  inboxDelta := .zero
  machineState := keccak (Machine.pack gas register 0 (keccak []) false)
  sendAcc := .zero
  sendCount := 0
  logAcc := .zero
  logCount := 0

/-- A player that adds one and then `k`. -/
def adder (k : UInt64) : Player :=
  solo [.add 1, .add k] (show 2 < UInt64.size by decide)

theorem adder_owns {k : UInt64} (hk : k = 2 ∨ k = 3) :
    (adder k).party.Owns 0 (sumCut 0 0) ∧ (adder k).party.Owns 1 (sumCut 1 1) ∧
      (adder k).party.Owns 2 (sumCut 2 (1 + k)) := by
  rcases hk with rfl | rfl
  · exact ⟨owns_of_cutAt rfl, owns_of_cutAt rfl, owns_of_cutAt rfl⟩
  · exact ⟨owns_of_cutAt rfl, owns_of_cutAt rfl, owns_of_cutAt rfl⟩

theorem hash_sumCut_ne : (sumCut 2 (1 + 2)).hash ≠ (sumCut 2 (1 + 3)).hash := by decide +kernel

theorem adders_not_collide {o : UInt64} {x y : Cut} (hle : o ≤ 2)
    (hx : (adder 2).party.Owns o x) (hy : (adder 3).party.Owns o y) : ¬ Collide x.pack y.pack := by
  have hcases : o = 0 ∨ o = 1 ∨ o = 2 := by
    rw [UInt64.le_iff_toNat_le] at hle
    simp only [← UInt64.toNat_inj]
    change o.toNat = 0 ∨ o.toNat = 1 ∨ o.toNat = 2
    change o.toNat ≤ 2 at hle
    omega
  obtain ⟨hx₀, hx₁, hx₂⟩ := adder_owns (.inl rfl)
  obtain ⟨hy₀, hy₁, hy₂⟩ := adder_owns (.inr rfl)
  rcases hcases with rfl | rfl | rfl
  · rw [hx.unique hx₀, hy.unique hy₀]
    exact not_collide_self _
  · rw [hx.unique hx₁, hy.unique hy₁]
    exact not_collide_self _
  · rw [hx.unique hx₂, hy.unique hy₂]
    exact fun h => hash_sumCut_ne h.2

end Player

end TraceDispute
