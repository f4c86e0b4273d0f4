import TraceDispute.Proofs.Commitment
import TraceDispute.Proofs.Game.Convergence
import TraceDispute.Proofs.Game.Player
import TraceDispute.Proofs.Machine.Payload

/-!
# A game of two players ends in a proof

Two players who agree at the start of a segment and disagree at its end, and one
of whom has claimed its own cuts, answer each other until one of them proves a
single step.  The invariant of the game is `Contested`: the bisection on the
ledger holds the cuts of the player who is not to move, the players agree at its
start, and they disagree at its end.

`Contested.step` is the step lemma.  Its hard case is the last one: a step can be
proved only if the machine has an instruction to carry out.  That is so because
the players disagree right after it (`Matched.exists_ownProof`): players who stand
past the offset already have the same cuts at the next.
-/

namespace TraceDispute

/-! ## A step to prove -/

namespace Challenge

variable {c : Challenge} {m : Machine} {offset next : UInt64} {a a' : Cut}

theorem gasUsed_of_ownCut (hcounts : c.Counts m offset) (ha : c.ownCut m offset = .ok a) :
    ∃ p, m.pointAt c.overshoot offset = .ok p ∧ a.gasUsed.toNat = p.gas := by
  obtain ⟨p, digest, hp, -, rfl⟩ := ownCut_eq_ok_iff.mp ha
  obtain ⟨rfl, -⟩ := Machine.pointAt_eq_ok_iff.mp hp
  exact ⟨_, hp, Point.toNat_gasUsed_progress hcounts.gas_lt⟩

theorem ownCut_of_past (hcounts : c.Counts m offset) (hnext : next.toNat = offset.toNat + 1)
    (ha : c.ownCut m offset = .ok a) (hpast : offset < a.gasUsed) : c.ownCut m next = .ok a := by
  obtain ⟨p, hp, hgas⟩ := gasUsed_of_ownCut hcounts ha
  rw [UInt64.lt_iff_toNat_lt, hgas] at hpast
  obtain ⟨p', digest, hp', hdigest, rfl⟩ := ownCut_eq_ok_iff.mp ha
  obtain rfl : p = p' := by simpa [hp] using hp'
  exact ownCut_eq_ok_iff.mpr ⟨p, digest, Machine.pointAt_of_past hnext hp hpast, hdigest, rfl⟩

/-- Otherwise there is a step to prove, if there is a cut at the next offset. -/
theorem exists_ownProof (hcounts : c.Counts m offset) (hnext : next.toNat = offset.toNat + 1)
    (ha : c.ownCut m offset = .ok a) (ha' : c.ownCut m next = .ok a') (hle : a.gasUsed ≤ offset)
    (b : Bisection) (index : Nat) : ∃ move, c.ownProof m b index offset = .ok (.proof move) := by
  obtain ⟨p, hp, hgas⟩ := gasUsed_of_ownCut hcounts ha
  rw [UInt64.le_iff_toNat_le, hgas] at hle
  obtain ⟨p', digest, hp', hdigest, -⟩ := ownCut_eq_ok_iff.mp ha
  obtain rfl : p = p' := by simpa [hp] using hp'
  obtain ⟨q, -, hq, -⟩ := ownCut_eq_ok_iff.mp ha'
  obtain ⟨hhalted, i, hi⟩ := Machine.next?_of_pointAt hnext hp hle hq
  obtain ⟨payload, hpayload⟩ := Machine.exists_machinePayload hhalted hi
  exact ⟨_, ownProof_eq_ok_iff.mpr ⟨p, payload, digest, hp, hpayload, hdigest, rfl⟩⟩

end Challenge

/-! ## The invariant -/

theorem eq_add_one_of_toNat {o next : UInt64} (h : next.toNat = o.toNat + 1) :
    next = o + 1 := by
  have hlt := next.toNat_lt
  apply UInt64.toNat_inj.mp
  rw [UInt64.toNat_add, h]
  exact (Nat.mod_eq_of_lt (h ▸ hlt)).symm

/-- Two players who can both replay up to `last`, and whose cuts from `first` on do
not collide. -/
structure Rivals (X Y : Player) (first last : UInt64) : Prop where
  left_reaches : X.Reaches last
  right_reaches : Y.Reaches last
  not_collide : ∀ o x y, first ≤ o → o ≤ last → X.cut o = .ok x → Y.cut o = .ok y →
    ¬ Collide x.pack y.pack

/-- The player to move, `X`, answers cuts of `Y` at whose start they agree and at
whose end they do not. -/
structure Contested (X Y : Player) (first last : UInt64) (b : Bisection) : Prop where
  drew : Y.Drew b
  first_le : first ≤ b.segment.start
  le_last : b.segment.mark b.segmentCount b.segmentCount ≤ last
  concur : X.Concur Y b.segment.start
  clash : X.Clash Y (b.segment.mark b.segmentCount b.segmentCount)

variable {X Y : Player} {first last : UInt64} {b : Bisection}

/-- Two players who can both replay up to `last`, and who have used the same gas wherever
their cuts have the same hash. -/
structure Matched (X Y : Player) (first last : UInt64) : Prop where
  left_reaches : X.Reaches last
  right_reaches : Y.Reaches last
  gasUsed_eq : ∀ o x y, first ≤ o → o ≤ last → X.cut o = .ok x → Y.cut o = .ok y →
    x.hash = y.hash → x.gasUsed = y.gasUsed

theorem Rivals.matched (h : Rivals X Y first last) : Matched X Y first last := by
  refine ⟨h.left_reaches, h.right_reaches, fun o x y hfirst hlast hx hy hhash => ?_⟩
  exact (Cut.pack_inj (eq_of_not_collide (h.not_collide o x y hfirst hlast hx hy) hhash)).1

theorem Matched.symm (h : Matched X Y first last) : Matched Y X first last := by
  refine ⟨h.right_reaches, h.left_reaches, fun o y x hfirst hlast hy hx hhash => ?_⟩
  exact (h.gasUsed_eq o x y hfirst hlast hx hy hhash.symm).symm

/-- The player to move can prove the step between an agreed offset and the next. -/
theorem Matched.exists_ownProof {o next : UInt64} (h : Matched X Y first last) (hfirst : first ≤ o)
    (hlast : next ≤ last) (hnext : next.toNat = o.toNat + 1) (hconcur : X.Concur Y o)
    (hclash : X.Clash Y next) (index : Nat) :
    ∃ move, X.party.challenge.ownProof X.machine b index o = .ok (.proof move) := by
  obtain ⟨x, y, hx, hy, hhash⟩ := hconcur
  obtain ⟨x', y', hx', hy', hne⟩ := hclash
  have hle : o ≤ last := by
    rw [UInt64.le_iff_toNat_le] at hlast ⊢
    omega
  have hgas := h.gasUsed_eq o x y hfirst hle hx hy hhash
  by_cases hpast : o < x.gasUsed
  · -- both players stand past `o`, so neither cut changes up to `next`
    have hsame := Challenge.ownCut_of_past (h.left_reaches.1.mono hle) hnext hx hpast
    have hsame' := Challenge.ownCut_of_past (h.right_reaches.1.mono hle) hnext hy (hgas ▸ hpast)
    obtain rfl : x = x' := Except.ok.inj (hsame.symm.trans hx')
    obtain rfl : y = y' := Except.ok.inj (hsame'.symm.trans hy')
    exact absurd hhash hne
  · exact Challenge.exists_ownProof (h.left_reaches.1.mono hle) hnext hx hx'
      (UInt64.not_lt.mp hpast) b index

/-! ## One move -/

namespace Contested

theorem mark_le (h : Contested X Y first last b) {i : Nat} (hi : i ≤ b.segmentCount) :
    first ≤ b.segment.mark b.segmentCount i ∧ b.segment.mark b.segmentCount i ≤ last := by
  have hproper := h.drew.proper
  constructor
  · have hstart := Segment.mark_mono hproper.bounded hproper.pos (Nat.zero_le i) hi
    rw [Segment.mark_zero] at hstart
    exact UInt64.le_trans h.first_le hstart
  · exact UInt64.le_trans (Segment.mark_mono hproper.bounded hproper.pos hi le_rfl) h.le_last

theorem reaches (h : Contested X Y first last b) (hr : Matched X Y first last) :
    ∀ o ∈ b.segment.marks b.segmentCount, X.Reaches o := by
  intro o ho
  obtain ⟨i, hi, rfl⟩ := Segment.mem_marks.mp ho
  exact hr.left_reaches.mono (h.mark_le hi).2

theorem exists_firstWrong (h : Contested X Y first last b) (hr : Matched X Y first last) :
    ∃ k, X.party.challenge.FirstWrong X.machine (b.segment.marks b.segmentCount) b.cuts
      (k + 1) := by
  have hproper := h.drew.proper
  suffices hsome : ∃ k, X.party.challenge.FirstWrong X.machine
      (b.segment.marks b.segmentCount) b.cuts k by
    obtain ⟨k, hk⟩ := hsome
    obtain ⟨j, rfl⟩ := Nat.exists_eq_add_one.mpr hk.pos
    exact ⟨j, hk⟩
  -- the players agree at the first mark, and clash at the last
  refine Challenge.exists_firstWrong ?_ ?_ ?_ ?_
  · rw [Segment.length_marks, hproper.length_cuts]
  · exact fun o ho => (h.reaches hr o ho).2
  · intro o claim ho hclaim
    obtain ⟨cut, hget, hcut⟩ := h.drew.cut_eq (Nat.zero_le _)
    rw [Segment.getElem?_marks (Nat.zero_le _), Segment.mark_zero] at ho
    rw [Segment.mark_zero] at hcut
    obtain rfl := Option.some.inj ho
    obtain rfl : cut = claim := by simpa [hget] using hclaim
    exact (Player.agrees_iff_concur hcut).mpr h.concur
  · obtain ⟨cut, hget, hcut⟩ := h.drew.cut_eq le_rfl
    exact ⟨_, _, cut, Segment.getElem?_marks le_rfl, hget,
      (Player.differs_iff_clash hcut).mpr h.clash⟩

section Part

variable {k : Nat} (h : Contested X Y first last b) (hr : Matched X Y first last)
  (hfirst : X.party.challenge.FirstWrong X.machine (b.segment.marks b.segmentCount) b.cuts (k + 1))
include h hr hfirst

theorem plan_eq :
    (X.party.plan b).outcome = (do
      let move ← X.party.answerPart b k (b.segment.chunk b.segmentCount k)
      return (b.segment.chunk b.segmentCount k, move)) :=
  Party.plan_of_firstWrong X.resolves h.drew.proper (fun o ho => (h.reaches hr o ho).1) hfirst

/-- A part of a single step is proved. -/
theorem proves (hone : b.segment.width b.segmentCount k = 1) :
    ∃ offset move, (X.party.plan b).outcome = .ok (⟨offset, 1⟩, .proof move) ∧
      first ≤ offset ∧ offset < last ∧ X.Concur Y offset ∧ X.Clash Y (offset + 1) := by
  have hproper := h.drew.proper
  obtain ⟨hk, hconcur, hclash⟩ := (Player.firstWrong_iff h.drew).mp hfirst
  have hstart := (h.mark_le hk.le).1
  have hend := (h.mark_le (Nat.succ_le_of_lt hk)).2
  have hwidth := b.segment.boundary_succ b.segmentCount k
  rw [← Segment.toNat_mark hproper.bounded hproper.pos hk.le,
    ← Segment.toNat_mark hproper.bounded hproper.pos hk, hone] at hwidth
  have hnext : b.segment.mark b.segmentCount (k + 1) = b.segment.mark b.segmentCount k + 1 :=
    eq_add_one_of_toNat hwidth
  have hchunk : b.segment.chunk b.segmentCount k = ⟨b.segment.mark b.segmentCount k, 1⟩ := by
    simp [Segment.chunk, hone]
  obtain ⟨move, hmove⟩ :=
    hr.exists_ownProof (b := b) hstart hend hwidth (hconcur k le_rfl) hclash k
  have hplan := h.plan_eq hr hfirst
  rcases Party.answerPart_of_oneStep X.resolves hproper hk hone with hanswer | ⟨-, hcount⟩
  · rw [hanswer, hmove] at hplan
    refine ⟨_, move, hchunk ▸ hplan, hstart, ?_, hconcur k le_rfl, hnext ▸ hclash⟩
    rw [UInt64.le_iff_toNat_le] at hend
    rw [UInt64.lt_iff_toNat_lt]
    omega
  · exact absurd (hr.left_reaches.mono (h.mark_le hk.le).2).1 hcount

/-- A wider part is divided, and the other player is to move. -/
theorem divides (hwide : b.segment.width b.segmentCount k ≠ 1)
    (hroom : (b.segment.chunk b.segmentCount k).Roomy X.party.degree) :
    ∃ cuts, X.party.Divides X.machine b k cuts ∧
      (X.party.plan b).outcome = .ok (b.segment.chunk b.segmentCount k,
        .bisection ⟨b, k, b.segment.chunk b.segmentCount k, cuts⟩) ∧
      Contested Y X first last ⟨b.segment.chunk b.segmentCount k, cuts⟩ := by
  have hproper := h.drew.proper
  obtain ⟨hk, hconcur, hclash⟩ := (Player.firstWrong_iff h.drew).mp hfirst
  have hend := (h.mark_le (Nat.succ_le_of_lt hk)).2
  have hbounded := Segment.bounded_chunk hproper.bounded hproper.pos hk
  have hparts := (b.segment.chunk b.segmentCount k).parts_pos X.party.degree
  have hmark : (b.segment.chunk b.segmentCount k).mark _ _ =
      b.segment.mark b.segmentCount (k + 1) :=
    Segment.mark_chunk_last hproper.bounded hproper.pos hk hparts
  -- the marks of the part lie between the marks of the whole, where both players can replay
  have hreach : ∀ o ∈ (b.segment.chunk b.segmentCount k).marks
      ((b.segment.chunk b.segmentCount k).parts X.party.degree), X.Reaches o := by
    intro o ho
    obtain ⟨i, hi, rfl⟩ := Segment.mem_marks.mp ho
    have hle := Segment.mark_mono hbounded hparts hi le_rfl
    exact hr.left_reaches.mono (UInt64.le_trans (hmark ▸ hle) hend)
  obtain ⟨cuts, hcuts, hdrew⟩ := Player.drew_of_reaches hbounded hroom hreach
  have hdivides : X.party.Divides X.machine b k cuts :=
    ⟨hproper, hk, hfirst, hwide, hroom, Challenge.ownCut_of_cutsAt X.resolves hcuts,
      Challenge.fits_of_cutsAt X.resolves hcuts⟩
  have hplan := h.plan_eq hr hfirst
  rw [Party.answerPart_of_wide hproper hk hwide hroom, hcuts] at hplan
  have hlast := Segment.mark_chunk_last hproper.bounded hproper.pos hk hdrew.proper.pos
  refine ⟨cuts, hdivides, hplan, hdrew, (h.mark_le hk.le).1, ?_, (hconcur k le_rfl).symm, ?_⟩
  · rw [hlast]
    exact hend
  · rw [hlast]
    exact hclash.symm

/-- Only a part of many units is without room for as many chunks as the degree asks for. -/
theorem plan_of_not_roomy (hwide : b.segment.width b.segmentCount k ≠ 1)
    (hroom : ¬ (b.segment.chunk b.segmentCount k).Roomy X.party.degree) :
    (X.party.plan b).outcome = .error (.fault .capacityOverflow) ∧
      Segment.chunkLimit ≤ X.party.degree ∧
      Segment.chunkLimit ≤ last.toNat - first.toNat := by
  have hproper := h.drew.proper
  have hk := hfirst.lt_of_marks
  have hplan := h.plan_eq hr hfirst
  rw [Party.answerPart_of_not_roomy hproper hk hwide hroom] at hplan
  have hstart := (h.mark_le hk.le).1
  have hend := (h.mark_le (Nat.succ_le_of_lt hk)).2
  -- the part is as wide as the gap between two offsets that lie between `first` and `last`
  have hwidth := b.segment.boundary_succ b.segmentCount k
  rw [← Segment.toNat_mark hproper.bounded hproper.pos hk.le,
    ← Segment.toNat_mark hproper.bounded hproper.pos hk] at hwidth
  have hlimit : Segment.chunkLimit ≤ (b.segment.chunk b.segmentCount k).parts X.party.degree :=
    not_lt.mp hroom
  have hone : 1 < Segment.chunkLimit := by decide
  have hlength := b.segment.toNat_length_chunk hproper.pos k
  rw [UInt64.le_iff_toNat_le] at hstart hend
  unfold Segment.parts at hlimit
  exact ⟨hplan, by omega, by omega⟩

end Part

/-- The part in dispute is divided or proved, or there is no room for its chunks. -/
theorem step (h : Contested X Y first last b) (hr : Matched X Y first last) :
    (∃ index cuts, X.party.Divides X.machine b index cuts ∧
        (X.party.plan b).outcome = .ok (b.segment.chunk b.segmentCount index,
          .bisection ⟨b, index, b.segment.chunk b.segmentCount index, cuts⟩) ∧
        Contested Y X first last ⟨b.segment.chunk b.segmentCount index, cuts⟩) ∨
      (∃ offset move, (X.party.plan b).outcome = .ok (⟨offset, 1⟩, .proof move) ∧
        first ≤ offset ∧ offset < last ∧ X.Concur Y offset ∧ X.Clash Y (offset + 1)) ∨
      ((X.party.plan b).outcome = .error (.fault .capacityOverflow) ∧
        Segment.chunkLimit ≤ X.party.degree ∧
        Segment.chunkLimit ≤ last.toNat - first.toNat) := by
  obtain ⟨k, hfirst⟩ := h.exists_firstWrong hr
  by_cases hone : b.segment.width b.segmentCount k = 1
  · exact .inr (.inl (h.proves hr hfirst hone))
  · by_cases hroom : (b.segment.chunk b.segmentCount k).Roomy X.party.degree
    · exact .inl ⟨k, h.divides hr hfirst hone hroom⟩
    · exact .inr (.inr (h.plan_of_not_roomy hr hfirst hone hroom))

end Contested

/-! ## The whole game -/

/-- The last round of a game: a proof of a single step between `first` and `last`, at
whose start the parties' own cuts agree and right after which they do not. -/
def ProvesClash (A B : Party) (first last : UInt64) (t : Turn) : Prop :=
  ∃ party report docket index offset transaction, t = .answered party report docket ∧
    report.outcome = .ok (.proved index ⟨offset, 1⟩ transaction) ∧
    first ≤ offset ∧ offset < last ∧
    (∃ a b, A.Owns offset a ∧ B.Owns offset b ∧ a.hash = b.hash) ∧
    ∃ a b, A.Owns (offset + 1) a ∧ B.Owns (offset + 1) b ∧ a.hash ≠ b.hash

/-- The last round of a game in which a party asks for more chunks than can be addressed. -/
def OutOfRoom (first last : UInt64) (t : Turn) : Prop :=
  ∃ party report docket, t = .answered party report docket ∧
    report.outcome = .error (.fault .capacityOverflow) ∧
    Segment.chunkLimit ≤ party.degree ∧ Segment.chunkLimit ≤ last.toNat - first.toNat

theorem ProvesClash.symm {A B : Party} {t : Turn} (h : ProvesClash A B first last t) :
    ProvesClash B A first last t := by
  obtain ⟨party, report, docket, index, offset, tx, ht, houtcome, hfirst, hlast,
    ⟨a, b, ha, hb, heq⟩, a', b', ha', hb', hne⟩ := h
  exact ⟨party, report, docket, index, offset, tx, ht, houtcome, hfirst, hlast,
    ⟨b, a, hb, ha, heq.symm⟩, b', a', hb', ha', hne.symm⟩

theorem Matched.provesClash {party : Party} {report : Report ChallengeError Move} {docket : Docket}
    {index : Nat} {offset : UInt64} {tx : Word} (hr : Matched X Y first last)
    (houtcome : report.outcome = .ok (.proved index ⟨offset, 1⟩ tx)) (hfirst : first ≤ offset)
    (hlast : offset < last) (hconcur : X.Concur Y offset) (hclash : X.Clash Y (offset + 1)) :
    ProvesClash X.party Y.party first last (.answered party report docket) := by
  have hnext : offset + 1 ≤ last := by
    rw [UInt64.lt_iff_toNat_lt] at hlast
    have hlt := last.toNat_lt
    rw [UInt64.le_iff_toNat_le, UInt64.toNat_add]
    change (offset.toNat + 1) % 2 ^ 64 ≤ last.toNat
    omega
  have hle : offset ≤ last := UInt64.le_of_lt hlast
  obtain ⟨x, y, hx, hy, heq⟩ := hconcur
  obtain ⟨x', y', hx', hy', hne⟩ := hclash
  refine ⟨party, report, docket, index, offset, tx, rfl, houtcome, hfirst, hlast,
    ⟨x, y, ?_, ?_, heq⟩, x', y', ?_, ?_, hne⟩
  · exact Player.owns_iff.mpr ⟨(hr.left_reaches.mono hle).1, hx⟩
  · exact Player.owns_iff.mpr ⟨(hr.right_reaches.mono hle).1, hy⟩
  · exact Player.owns_iff.mpr ⟨(hr.left_reaches.mono hnext).1, hx'⟩
  · exact Player.owns_iff.mpr ⟨(hr.right_reaches.mono hnext).1, hy'⟩

/-- A docket on which the next `k` moves are entered without fail. -/
structure Docket.Clear (d : Docket) (k : Nat) : Prop where
  not_cancelled : d.cancelled = false
  no_rejection : d.ledger.rejection = none
  nonce_lt : d.ledger.nonce.toNat + k < UInt64.size

theorem Docket.Clear.entered {d : Docket} {k : Nat} (h : d.Clear (k + 1)) :
    ∃ nonce, Checked.add d.ledger.nonce 1 = .ok nonce ∧
      ∀ move : BisectionMove, (d.entered nonce (.bisection move)).Clear k := by
  have hlt : d.ledger.nonce.toNat + (1 : UInt64).toNat < UInt64.size := by
    have := h.nonce_lt
    change d.ledger.nonce.toNat + 1 < UInt64.size
    omega
  refine ⟨d.ledger.nonce + 1, Checked.add_of_lt hlt, fun move =>
    ⟨h.not_cancelled, h.no_rejection, ?_⟩⟩
  have hnonce := Checked.toNat_of_add_eq_ok (Checked.add_of_lt hlt)
  have := h.nonce_lt
  change (d.ledger.nonce + 1).toNat + k < UInt64.size
  rw [hnonce]
  change d.ledger.nonce.toNat + 1 + k < UInt64.size
  omega

/-- However many rounds are allowed, the game is at most `k` divisions and then a last
round, of which `P` is true. -/
def EndsIn (turn : Nat → Party) (round : Nat) (d : Docket) (k : Nat) (P : Turn → Prop) : Prop :=
  ∃ turns final, (∀ t ∈ turns, t.isDivision = true) ∧ turns.length ≤ k ∧
    (∀ left, (play turn left round d).1 = (turns ++ [final]).take left) ∧ P final

namespace EndsIn

variable {turn : Nat → Party} {round k : Nat} {d : Docket} {P : Turn → Prop}

theorem of_final (hcurrent : d.ledger.current = some b)
    (hfinal : isDivision ((turn round).respond Docket.client b d).1 = false)
    (hP : P (.answered (turn round) ((turn round).respond Docket.client b d).1
      ((turn round).respond Docket.client b d).2)) : EndsIn turn round d k P := by
  refine ⟨[], _, by simp, Nat.zero_le k, fun left => ?_, hP⟩
  cases left with
  | zero => rfl
  | succ left =>
      rw [play_of_final hcurrent hfinal]
      simp

theorem of_division (hcurrent : d.ledger.current = some b)
    (hdivision : isDivision ((turn round).respond Docket.client b d).1 = true)
    (hrest : EndsIn turn (round + 1) ((turn round).respond Docket.client b d).2 k P) :
    EndsIn turn round d (k + 1) P := by
  obtain ⟨turns, final, hturns, hlength, hplay, hP⟩ := hrest
  refine ⟨.answered (turn round) ((turn round).respond Docket.client b d).1
    ((turn round).respond Docket.client b d).2 :: turns, final, ?_, ?_, fun left => ?_, hP⟩
  · intro t ht
    rcases List.mem_cons.mp ht with rfl | ht
    · exact hdivision
    · exact hturns t ht
  · exact Nat.succ_le_succ hlength
  · cases left with
    | zero => rfl
    | succ left =>
        rw [play_of_division hcurrent hdivision, hplay]
        simp

theorem imp {Q : Turn → Prop} (h : EndsIn turn round d k P) (hPQ : ∀ t, P t → Q t) :
    EndsIn turn round d k Q := by
  obtain ⟨turns, final, hturns, hlength, hplay, hP⟩ := h
  exact ⟨turns, final, hturns, hlength, hplay, hPQ final hP⟩

end EndsIn

/-- A contested game is played to its end. -/
theorem Contested.endsIn {turn : Nat → Party} {round k : Nat} {d : Docket}
    (h : Contested X Y first last b) (hr : Matched X Y first last) (hk : MayDivide b k)
    (hX : turn round = X.party) (hY : turn (round + 1) = Y.party)
    (hturn : ∀ r, turn (r + 2) = turn r) (hcurrent : d.ledger.current = some b)
    (hclear : d.Clear (k + 1)) :
    EndsIn turn round d k fun t =>
      ProvesClash X.party Y.party first last t ∨ OutOfRoom first last t := by
  -- on the divisions that are left; the players change places with every move
  induction k using Nat.strong_induction_on generalizing X Y b round d with
  | _ k ih =>
      obtain ⟨nonce, hnonce, hentered⟩ := hclear.entered
      rcases h.step hr with ⟨index, cuts, hdivides, hplan, hnext⟩ |
        ⟨offset, move, hplan, hfirst, hle, hconcur, hclash⟩ | ⟨hplan, hdegree, hlength⟩
      · -- a division: the other player goes on from what it leaves behind
        rw [← hX] at hplan
        obtain ⟨houtcome, hdocket⟩ := Party.respond_of_plan hplan hclear.not_cancelled
          hclear.no_rejection hnonce
        obtain ⟨k', rfl, hk'⟩ := hk.divides hdivides
        refine .of_division hcurrent (by simp [isDivision, houtcome, Submission.accepted]) ?_
        rw [hdocket]
        refine (ih k' (Nat.lt_succ_self k') hnext hr.symm hk' hY ((hturn round).trans hX) rfl
          (hentered _)).imp fun t ht => ht.imp_left ProvesClash.symm
      · -- a proof, of a step on which the players disagree
        rw [← hX] at hplan
        obtain ⟨houtcome, -⟩ := Party.respond_of_plan hplan hclear.not_cancelled
          hclear.no_rejection hnonce
        refine .of_final hcurrent (by simp [isDivision, houtcome, Submission.accepted]) (.inl ?_)
        exact hr.provesClash houtcome hfirst hle hconcur hclash
      · -- no room for the cuts: that is the last round too
        rw [← hX] at hplan hdegree
        obtain ⟨houtcome, -⟩ := Party.respond_of_error (d := d) hplan
        refine .of_final hcurrent (by simp [isDivision, houtcome]) (.inr ?_)
        exact ⟨_, _, _, rfl, houtcome, hdegree, hlength⟩

/-- Cuts of one player over a segment at whose start the players agree, and at whose
end they do not, leave the other player to move. -/
theorem Matched.exists_contested {segment : Segment} {n : Nat} {offsets : List UInt64}
    (hr : Matched X Y segment.start last) (hstop : segment.stop = .ok last)
    (hoffsets : segment.boundaries n = .ok offsets) (hconcur : X.Concur Y segment.start)
    (hclash : X.Clash Y last) :
    ∃ cuts, (Y.party.challenge.cutsAt offsets).outcome = .ok cuts ∧
      Contested X Y segment.start last ⟨segment, cuts⟩ := by
  obtain ⟨hbounded, hroom⟩ := Segment.bounded_of_boundaries hoffsets
  rw [Segment.boundaries_eq hbounded hroom] at hoffsets
  obtain rfl := Except.ok.inj hoffsets
  -- the last mark is the end of the segment, whatever the number of parts
  have hmark : ∀ {parts}, 0 < parts → segment.mark parts parts = last := fun hparts =>
    Except.ok.inj ((Segment.stop_eq_mark hbounded hparts).symm.trans hstop)
  have hreach : ∀ o ∈ segment.marks (segment.parts n), Y.Reaches o := by
    intro o ho
    obtain ⟨i, hi, rfl⟩ := Segment.mem_marks.mp ho
    refine hr.right_reaches.mono ?_
    rw [← hmark (segment.parts_pos n)]
    exact Segment.mark_mono hbounded (segment.parts_pos n) hi le_rfl
  obtain ⟨cuts, hcuts, hdrew⟩ := Player.drew_of_reaches hbounded hroom hreach
  have hend := hmark hdrew.proper.pos
  refine ⟨cuts, hcuts, hdrew, UInt64.le_refl _, ?_, hconcur, ?_⟩
  · exact hend ▸ UInt64.le_refl _
  · exact hend.symm ▸ hclash

theorem Rivals.exists_contested {segment : Segment} {n : Nat} {offsets : List UInt64}
    (hr : Rivals X Y segment.start last) (hstop : segment.stop = .ok last)
    (hoffsets : segment.boundaries n = .ok offsets) (hconcur : X.Concur Y segment.start)
    (hclash : X.Clash Y last) :
    ∃ cuts, (Y.party.challenge.cutsAt offsets).outcome = .ok cuts ∧
      Contested X Y segment.start last ⟨segment, cuts⟩ :=
  hr.matched.exists_contested hstop hoffsets hconcur hclash

/-- A contested bisection on a ledger of its own is played to its end within 65 rounds. -/
theorem Contested.endsIn_of_matched (h : Contested X Y first last b)
    (hr : Matched X Y first last) :
    EndsIn (alternate X.party Y.party) 0 { ledger := .ofBisection b } 64 fun t =>
      ProvesClash X.party Y.party first last t ∨ OutOfRoom first last t := by
  refine h.endsIn hr (mayDivide_sixtyFour _) rfl rfl ?_ rfl ?_
  · intro r
    simp [alternate]
  · exact ⟨rfl, rfl, (by decide : (0 : UInt64).toNat + 65 < UInt64.size)⟩

theorem Contested.endsIn_ofBisection (h : Contested X Y first last b)
    (hr : Rivals X Y first last) :
    EndsIn (alternate X.party Y.party) 0 { ledger := .ofBisection b } 64 fun t =>
      ProvesClash X.party Y.party first last t ∨ OutOfRoom first last t :=
  h.endsIn_of_matched hr.matched

/-- Two parties who agree at the start of a segment and disagree at its end answer each
other with divisions until one of them proves a single step on which they disagree.

The game ends without a proof only if a party runs out of room: its degree and the gas
between the first and the last offset are both `2 ^ 59` or more, so that the list of parts
it asks for cannot be addressed (`OutOfRoom`). -/
theorem game_ends_in_proof {A B : Party} {segment : Segment} {last : UInt64} {n : Nat}
    {offsets : List UInt64} {a₀ a₁ b₀ b₁ : Cut} (hstop : segment.stop = .ok last)
    (hoffsets : segment.boundaries n = .ok offsets)
    (ha₀ : A.Owns segment.start a₀) (ha₁ : A.Owns last a₁)
    (hb₀ : B.Owns segment.start b₀) (hb₁ : B.Owns last b₁)
    (hagree : a₀.hash = b₀.hash) (hdiffer : a₁.hash ≠ b₁.hash)
    (hcollide : ∀ o a b, segment.start ≤ o → o ≤ last → A.Owns o a → B.Owns o b →
      ¬ Collide a.pack b.pack) :
    ∃ cuts, (B.challenge.cutsAt offsets).outcome = .ok cuts ∧
      EndsIn (alternate A B) 0 { ledger := .ofBisection ⟨segment, cuts⟩ } 64 fun t =>
        ProvesClash A B segment.start last t ∨ OutOfRoom segment.start last t := by
  obtain ⟨X, rfl⟩ := Player.exists_of_owns ha₀
  obtain ⟨Y, rfl⟩ := Player.exists_of_owns hb₀
  rw [Player.owns_iff] at ha₀ ha₁ hb₀ hb₁
  -- each party is a player, since it owns a cut, and replays as far as the end
  have hr : Rivals X Y segment.start last := by
    refine ⟨⟨ha₁.1, a₁, ha₁.2⟩, ⟨hb₁.1, b₁, hb₁.2⟩, fun o x y hfirst hlast hx hy => ?_⟩
    exact hcollide o x y hfirst hlast (Player.owns_iff.mpr ⟨ha₁.1.mono hlast, hx⟩)
      (Player.owns_iff.mpr ⟨hb₁.1.mono hlast, hy⟩)
  obtain ⟨cuts, hcuts, hcontested⟩ := hr.exists_contested hstop hoffsets
    ⟨a₀, b₀, ha₀.2, hb₀.2, hagree⟩ ⟨a₁, b₁, ha₁.2, hb₁.2, hdiffer⟩
  exact ⟨cuts, hcuts, hcontested.endsIn_ofBisection hr⟩

theorem adders_rivals : Rivals (.adder 2) (.adder 3) 0 2 := by
  obtain ⟨-, -, hx⟩ := Player.adder_owns (.inl rfl)
  obtain ⟨-, -, hy⟩ := Player.adder_owns (.inr rfl)
  rw [Player.owns_iff] at hx hy
  refine ⟨⟨hx.1, _, hx.2⟩, ⟨hy.1, _, hy.2⟩, fun o x y _ hle hxo hyo => ?_⟩
  exact Player.adders_not_collide hle (Player.owns_iff.mpr ⟨hx.1.mono hle, hxo⟩)
    (Player.owns_iff.mpr ⟨hy.1.mono hle, hyo⟩)

/-- Adders whose second instructions differ play to the end. -/
theorem adders_end_in_proof :
    let A := (Player.adder 2).party
    let B := (Player.adder 3).party
    ∃ cuts, (B.challenge.cutsAt [0, 2]).outcome = .ok cuts ∧
      EndsIn (alternate A B) 0 { ledger := .ofBisection ⟨⟨0, 2⟩, cuts⟩ } 64
        (ProvesClash A B 0 2) := by
  intro A B
  have hstop : (Segment.mk 0 2).stop = .ok 2 := rfl
  have hoffsets : (Segment.mk 0 2).boundaries 1 = .ok [0, 2] := rfl
  obtain ⟨ha₀, -, ha₂⟩ := Player.adder_owns (.inl rfl)
  obtain ⟨hb₀, -, hb₂⟩ := Player.adder_owns (.inr rfl)
  obtain ⟨cuts, hcuts, hends⟩ := game_ends_in_proof hstop hoffsets ha₀ ha₂ hb₀ hb₂ rfl
    Player.hash_sumCut_ne fun o a b _ hle => Player.adders_not_collide hle
  refine ⟨cuts, hcuts, hends.imp fun t ht => ht.resolve_right ?_⟩
  rintro ⟨party, report, docket, -, -, -, hlength⟩
  exact absurd hlength (by decide)

end TraceDispute
