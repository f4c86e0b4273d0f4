import TraceDispute.Proofs.Party
import TraceDispute.Simulation

/-!
# Every play converges

Whatever bisection is on the ledger, and whoever answers, only so many answers
can be divisions.  `MayDivide b k` bounds their number by `k`, and one division
uses up one of them (`MayDivide.divides`).

The first division need not shrink anything: a bisection of one part puts the
whole segment in dispute again.  But it leaves behind cuts of the party that
made it, at boundaries of its own (`Drawn`), and from there on every part is at
most half as wide as the last.  An empty segment can be divided once: both cuts
of the result are taken at the same offset, so nobody disagrees with just one.
-/

namespace TraceDispute

/-! ## What a division leaves behind -/

/-- What is known of a bisection that a party has drawn by dividing a segment. -/
structure Drawn (b : Bisection) : Prop where
  two_le : 2 ≤ b.segment.length.toNat → 2 ≤ b.segmentCount
  flat : b.segment.length.toNat = 0 → ∀ x ∈ b.cuts, ∀ y ∈ b.cuts, x = y

/-- At most `k` answers, from this bisection on, are divisions. -/
def MayDivide (b : Bisection) (k : Nat) : Prop :=
  (if b.segment.length.toNat = 0 then 1 else Nat.clog 2 b.segment.length.toNat) ≤ k ∨
    (Drawn b ∧ Nat.clog 2 b.segment.length.toNat ≤ k + 1)

namespace Segment

theorem mark_of_empty {s : Segment} (h : s.length.toNat = 0) (n i : Nat) :
    s.mark n i = s.start := by
  simp [mark, boundary, h]

theorem two_le_parts {s : Segment} {degree : Nat} (hdegree : 2 ≤ degree)
    (h : 2 ≤ s.length.toNat) : 2 ≤ s.parts degree := by
  unfold parts
  omega

end Segment

namespace Party.Divides

variable {p : Party} {m : Machine} {b : Bisection} {index : Nat} {cuts : List Cut}

theorem length_cuts (h : p.Divides m b index cuts) :
    cuts.length = (b.segment.chunk b.segmentCount index).parts p.degree + 1 := by
  rw [← h.own.length_eq, Segment.length_marks]

theorem length_chunk (h : p.Divides m b index cuts) :
    (b.segment.chunk b.segmentCount index).length.toNat = b.segment.width b.segmentCount index :=
  b.segment.toNat_length_chunk h.proper.pos index

theorem drawn (h : p.Divides m b index cuts) :
    Drawn ⟨b.segment.chunk b.segmentCount index, cuts⟩ := by
  refine ⟨fun htwo => ?_, fun hempty x hx y hy => ?_⟩
  · show 2 ≤ cuts.length - 1
    rw [h.length_cuts, Nat.add_sub_cancel]
    exact Segment.two_le_parts p.two_le_degree htwo
  · -- every cut of an empty segment is the own cut at its start
    have hstart : ∀ z ∈ cuts,
        p.challenge.ownCut m (b.segment.chunk b.segmentCount index).start = .ok z := by
      intro z hz
      obtain ⟨i, hi, rfl⟩ := List.getElem_of_mem hz
      have hown := h.own.get (by rw [h.own.length_eq]; exact hi) hi
      simpa [Segment.marks, Segment.mark_of_empty hempty] using hown
    exact Except.ok.inj ((hstart x hx).symm.trans (hstart y hy))

theorem width_le (h : p.Divides m b index cuts) :
    b.segment.width b.segmentCount index ≤ b.segment.length.toNat :=
  b.segment.width_le h.proper.pos index

/-- The part that is divided has two units or more, unless the whole is empty. -/
theorem two_le_width (h : p.Divides m b index cuts) (hlength : b.segment.length.toNat ≠ 0) :
    2 ≤ b.segment.width b.segmentCount index := by
  have hquotient : 0 < b.segment.length.toNat / b.segmentCount := by
    rw [← h.proper.parts_eq]
    exact Segment.div_parts_pos (Nat.pos_of_ne_zero hlength)
  have hpos : 0 < b.segment.width b.segmentCount index := Nat.add_pos_left hquotient _
  have hwide := h.wide
  omega

/-- Nobody disagrees with just one of the cuts drawn at the ends of an empty segment. -/
theorem length_ne_zero (h : p.Divides m b index cuts) (hdrawn : Drawn b) :
    b.segment.length.toNat ≠ 0 := by
  intro hempty
  obtain ⟨o, claim, ho, hclaim, hdiffers⟩ := h.first.differs
  have hindex : index < b.cuts.length := by
    rw [h.proper.length_cuts]
    exact h.lt.trans (Nat.lt_succ_self _)
  -- an empty segment has one cut only, and it would be both agreed to and disputed
  have hagrees := h.first.agrees index (Nat.lt_succ_self _) (b.segment.mark b.segmentCount index)
    b.cuts[index] (Segment.getElem?_marks h.lt.le) (List.getElem?_eq_getElem hindex)
  have hsame : b.cuts[index] = claim :=
    hdrawn.flat hempty _ (List.getElem_mem hindex) _ (List.mem_of_getElem? hclaim)
  have hoffset : b.segment.mark b.segmentCount index = o := by
    rw [Segment.getElem?_marks (Nat.succ_le_of_lt h.lt)] at ho
    rw [← Option.some.inj ho, Segment.mark_of_empty hempty, Segment.mark_of_empty hempty]
  rw [hsame, hoffset] at hagrees
  exact hagrees.not_differs hdiffers

/-- After the first division every part is at most half as wide as the last. -/
theorem two_mul_width_le (h : p.Divides m b index cuts) (hdrawn : Drawn b) :
    2 * b.segment.width b.segmentCount index ≤ b.segment.length.toNat + 1 := by
  have htwo := h.two_le_width (h.length_ne_zero hdrawn)
  have hle := h.width_le
  have hcount : b.segmentCount ≤ b.segment.length.toNat := by
    have hparts := b.segment.parts_le b.segmentCount
    rw [h.proper.parts_eq] at hparts
    omega
  exact Segment.width_le_half (hdrawn.two_le (by omega)) hcount index

end Party.Divides

/-- A division uses up one of those that are left. -/
theorem MayDivide.divides {p : Party} {m : Machine} {b : Bisection} {index k : Nat}
    {cuts : List Cut} (hk : MayDivide b k) (h : p.Divides m b index cuts) :
    ∃ k', k = k' + 1 ∧ MayDivide ⟨b.segment.chunk b.segmentCount index, cuts⟩ k' := by
  have hlength := h.length_chunk
  have hmono : ∀ w, b.segment.width b.segmentCount index ≤ w →
      Nat.clog 2 (b.segment.width b.segmentCount index) ≤ Nat.clog 2 w :=
    fun w hw => Nat.clog_mono_right 2 hw
  suffices hleft : 1 ≤ k ∧ Nat.clog 2 (b.segment.width b.segmentCount index) ≤ k by
    refine ⟨k - 1, by omega, .inr ⟨h.drawn, ?_⟩⟩
    rw [hlength]
    omega
  rcases hk with hk | ⟨hdrawn, hk⟩
  · -- the first division, which may put the whole segment in dispute again
    by_cases hempty : b.segment.length.toNat = 0
    · have hwidth : b.segment.width b.segmentCount index = 0 := by
        have := h.width_le
        omega
      rw [if_pos hempty] at hk
      exact ⟨hk, by simp [hwidth]⟩
    · rw [if_neg hempty] at hk
      have htwo : 1 ≤ Nat.clog 2 (b.segment.width b.segmentCount index) :=
        Nat.clog_pos one_lt_two (h.two_le_width hempty)
      have hle := hmono _ h.width_le
      omega
  · -- from the second on there are two parts or more, so the one in dispute is at most half
    have htwo := h.two_le_width (h.length_ne_zero hdrawn)
    have hpos := Nat.clog_pos one_lt_two htwo
    have hhalf := h.two_mul_width_le hdrawn
    have hwhole : Nat.clog 2 b.segment.length.toNat =
        Nat.clog 2 ((b.segment.length.toNat + 1) / 2) + 1 :=
      Nat.clog_of_two_le one_lt_two (htwo.trans h.width_le)
    have hle := hmono ((b.segment.length.toNat + 1) / 2) (by omega)
    omega

/-! ## Any sequence of answers -/

/-- A party is asked for an answer, with a flag of its own that asks it to stop and
perhaps a rejection waiting for it. -/
structure Call where
  party : Party
  cancelled : Bool
  rejection : Option String

/-- The docket that a call finds. -/
def Call.docket (call : Call) (l : Ledger) : Docket where
  ledger := { l with rejection := call.rejection <|> l.rejection }
  cancelled := call.cancelled

/-- The answers to some calls, each about the bisection that is open at its time. -/
def answers : List Call → Ledger → List (Report ChallengeError Move)
  | [], _ => []
  | call :: calls, l =>
    match l.current with
    | none => answers calls l
    | some b =>
      let (report, d) := call.party.respond Docket.client b (call.docket l)
      report :: answers calls d.ledger

/-- The answer is a division that was accepted. -/
def isDivision (report : Report ChallengeError Move) : Bool :=
  match report.outcome with
  | .ok (.bisected ..) => true
  | _ => false

theorem isDivision_iff {report : Report ChallengeError Move} :
    isDivision report = true ↔
      ∃ index segment tx, report.outcome = .ok (.bisected index segment tx) := by
  cases houtcome : report.outcome with
  | error e => simp [isDivision, houtcome]
  | ok move => cases move <;> simp [isDivision, houtcome]

/-- A division that was accepted leaves one less to come. -/
theorem MayDivide.respond {p : Party} {b : Bisection} {d : Docket} {k : Nat} (hk : MayDivide b k)
    (h : isDivision (p.respond Docket.client b d).1 = true) :
    ∃ k' b', k = k' + 1 ∧ (p.respond Docket.client b d).2.ledger.current = some b' ∧
      MayDivide b' k' := by
  rcases p.respond_cases b d with ⟨m, index, cuts, nonce, tx, -, hdivides, -, hdocket⟩ |
    ⟨m, index, move, nonce, tx, -, -, houtcome, -⟩ | ⟨⟨e, houtcome⟩, -⟩
  · obtain ⟨k', rfl, hk'⟩ := hk.divides hdivides
    exact ⟨k', _, rfl, by rw [hdocket]; rfl, hk'⟩
  · simp [isDivision, houtcome] at h
  · simp [isDivision, houtcome] at h

theorem current_of_respond {p : Party} {b : Bisection} {d : Docket}
    (h : isDivision (p.respond Docket.client b d).1 = false) :
    (p.respond Docket.client b d).2.ledger.current = d.ledger.current := by
  rcases p.respond_cases b d with ⟨m, index, cuts, nonce, tx, -, -, houtcome, -⟩ |
    ⟨m, index, move, nonce, tx, -, -, -, hdocket⟩ | ⟨-, hdocket⟩
  · simp [isDivision, houtcome] at h
  · rw [hdocket]
    rfl
  · exact hdocket

theorem countP_answers_le {b : Bisection} {k : Nat} (hk : MayDivide b k) (calls : List Call)
    {l : Ledger} (hcurrent : l.current = some b) :
    (answers calls l).countP isDivision ≤ k := by
  induction calls generalizing b k l with
  | nil => exact Nat.zero_le _
  | cons call calls ih =>
      simp only [answers, hcurrent, List.countP_cons]
      cases hdivision : isDivision (call.party.respond Docket.client b (call.docket l)).1 with
      | true =>
          obtain ⟨k', b', rfl, hcurrent', hk'⟩ := hk.respond hdivision
          exact Nat.succ_le_succ (ih hk' hcurrent')
      | false => exact ih hk ((current_of_respond hdivision).trans hcurrent)

theorem mayDivide_self (b : Bisection) :
    MayDivide b
      (if b.segment.length.toNat = 0 then 1 else Nat.clog 2 b.segment.length.toNat) :=
  .inl le_rfl

theorem mayDivide_sixtyFour (b : Bisection) : MayDivide b 64 := by
  refine .inl ?_
  split
  · decide
  · exact Nat.clog_le_of_le_pow b.segment.length.toNat_lt.le

/-! ## The limit on the number of rounds -/

/-- The round ended in a division, so the game goes on. -/
def Turn.isDivision : Turn → Bool
  | .noBisection => false
  | .answered _ report _ => TraceDispute.isDivision report

section Rounds

variable {turn : Nat → Party} {left round : Nat} {d : Docket} {b : Bisection}

theorem play_of_division (hcurrent : d.ledger.current = some b)
    (h : isDivision ((turn round).respond Docket.client b d).1 = true) :
    let answer := (turn round).respond Docket.client b d
    let rest := play turn left (round + 1) answer.2
    play turn (left + 1) round d =
      (.answered (turn round) answer.1 answer.2 :: rest.1, rest.2) := by
  obtain ⟨index, segment, tx, houtcome⟩ := isDivision_iff.mp h
  simp only [play, hcurrent, houtcome]

theorem play_of_final (hcurrent : d.ledger.current = some b)
    (h : isDivision ((turn round).respond Docket.client b d).1 = false) :
    let answer := (turn round).respond Docket.client b d
    play turn (left + 1) round d = ([.answered (turn round) answer.1 answer.2], answer.2) := by
  have hother : ¬ ∃ index segment tx, ((turn round).respond Docket.client b d).1.outcome =
      .ok (.bisected index segment tx) := by
    rw [← isDivision_iff, h]
    exact Bool.false_ne_true
  cases houtcome : ((turn round).respond Docket.client b d).1.outcome with
  | error e => simp only [play, hcurrent, houtcome]
  | ok move =>
      cases move with
      | bisected index segment tx => exact absurd ⟨index, segment, tx, houtcome⟩ hother
      | proved index segment tx => simp only [play, hcurrent, houtcome]

/-- Only a game cut off by its limit is nothing but divisions. -/
theorem exists_mem_play (h : ∀ b, d.ledger.current = some b → ∃ k, MayDivide b k ∧ k < left)
    (hleft : 0 < left) : ∃ t ∈ (play turn left round d).1, t.isDivision = false := by
  -- on the rounds left, which stay more than the divisions that may follow
  induction left generalizing round d with
  | zero => exact absurd hleft (lt_irrefl 0)
  | succ left ih =>
      cases hcurrent : d.ledger.current with
      | none =>
          rw [play, hcurrent]
          exact ⟨.noBisection, List.mem_singleton_self _, rfl⟩
      | some b =>
          cases hdivision : isDivision ((turn round).respond Docket.client b d).1 with
          | false =>
              rw [play_of_final hcurrent hdivision]
              exact ⟨_, List.mem_singleton_self _, hdivision⟩
          | true =>
              rw [play_of_division hcurrent hdivision]
              obtain ⟨k, hk, hlt⟩ := h b hcurrent
              obtain ⟨k', b', rfl, hcurrent', hk'⟩ := hk.respond hdivision
              have hnext : ∀ b'', ((turn round).respond Docket.client b d).2.ledger.current =
                  some b'' → ∃ k, MayDivide b'' k ∧ k < left := by
                intro b'' hb''
                obtain rfl := Option.some.inj (hcurrent'.symm.trans hb'')
                exact ⟨k', hk', by omega⟩
              obtain ⟨t, ht, hlast⟩ := @ih (round + 1) _ hnext (by omega)
              exact ⟨t, List.mem_cons_of_mem _ ht, hlast⟩

/-- A game that has ended by itself is not changed by more rounds. -/
theorem play_add (extra : Nat) (h : ∃ t ∈ (play turn left round d).1, t.isDivision = false) :
    play turn (left + extra) round d = play turn left round d := by
  -- on the rounds of the shorter game, which stops of itself
  induction left generalizing round d with
  | zero => simp [play] at h
  | succ left ih =>
      rw [Nat.add_right_comm]
      cases hcurrent : d.ledger.current with
      | none => rw [play, play, hcurrent]
      | some b =>
          cases hdivision : isDivision ((turn round).respond Docket.client b d).1 with
          | false => rw [play_of_final hcurrent hdivision, play_of_final hcurrent hdivision]
          | true =>
              rw [play_of_division hcurrent hdivision] at h
              rw [play_of_division hcurrent hdivision, play_of_division hcurrent hdivision]
              obtain ⟨t, ht, hlast⟩ := h
              rcases List.mem_cons.mp ht with rfl | ht
              · simp [Turn.isDivision, hdivision] at hlast
              · rw [ih ⟨t, ht, hlast⟩]

end Rounds

theorem exists_mem_play_of_limit (turn : Nat → Party) (round : Nat) (d : Docket) :
    ∃ t ∈ (play turn Simulation.maxRounds round d).1, t.isDivision = false :=
  exists_mem_play (fun b _ => ⟨64, mayDivide_sixtyFour b, by decide⟩) (by decide)

/-! ## What a simulated dispute can end with

The text about the limit is the only one that starts with a capital C, so a run
that is refused with any other text was not stopped by the limit. -/

namespace Simulation

/-- The text starts like the one about the limit. -/
def Capital (text : String) : Prop := text.toList.head? = some 'C'

theorem capital_limit :
    Capital s!"Challenge did not reach a one-step proof in {maxRounds} rounds" := by
  simp [Capital, toString]

theorem not_capital_segment (e : SegmentError) : ¬ Capital e.message := by
  cases e with
  | overflow start length =>
      change ¬ Capital s!"segment [{start}, {start} + {length}) overflows"
      simp [Capital, toString]
  | outOfRange index count =>
      change ¬ Capital s!"segment index {index} out of range, bisection has {count} segments"
      simp [Capital, toString]

theorem not_capital_challenge (e : ChallengeError) : ¬ Capital e.message := by
  cases e with
  | replay offset cause =>
      change ¬ Capital s!"replay failed at offset {offset}: {cause.message}"
      simp [Capital, toString]
  | inboxBounds offset cause =>
      change ¬ Capital s!"inbox delta lookup failed at offset {offset}: {cause.message}"
      simp [Capital, toString]
  | violation cause =>
      change ¬ Capital s!"protocol invariant violated: {cause.message}"
      simp [Capital, toString]
  | submission index cause =>
      change ¬ Capital s!"submission failed for segment {index}: {cause.message}"
      simp [Capital, toString]
  | cancelled =>
      change ¬ Capital "challenge move cancelled"
      simp [Capital]

/-- Never refused with a text like the one about the limit. -/
def Unlimited {α : Type} (x : Outcome String α) : Prop := ∀ text, x = .refuse text → ¬ Capital text

namespace Unlimited

variable {α β ε : Type}

theorem ok (a : α) : Unlimited (.ok a) := by
  intro text h
  cases h

theorem ofChecked (x : Checked α) : Unlimited (Outcome.ofChecked x) := by
  intro text h
  cases x <;> cases h

theorem refuse {text : String} (htext : ¬ Capital text) :
    Unlimited (.refuse text : Outcome String α) := by
  intro text' h
  obtain rfl : text = text' := by simpa using h
  exact htext

theorem mapRefusal {f : ε → String} (hf : ∀ e, ¬ Capital (f e)) (x : Outcome ε α) :
    Unlimited (x.mapRefusal f) := by
  rcases x with (fault | e) | a
  · intro text h
    cases h
  · exact refuse (hf e)
  · exact ok a

theorem bind {x : Outcome String α} {f : α → Outcome String β} (hx : Unlimited x)
    (hf : ∀ a, Unlimited (f a)) : Unlimited (x >>= f) := by
  intro text h
  cases x with
  | error e => exact hx text (congrArg Except.error (Except.error.inj h))
  | ok a => exact hf a text h

end Unlimited

theorem unlimited_machine (program : List Instruction) : Unlimited (machine program).outcome := by
  unfold machine
  cases Machine.start? program inbox with
  | some m => exact .ok m
  | none => exact .refuse (by simp [Capital])

theorem unlimited_party (name : String) (m : Machine) (s : Settings) :
    Unlimited (party name m s).outcome := by
  simp only [party, Report.outcome_bind, Report.outcome_of, Report.outcome_pure]
  exact .bind (.ok _) fun _ => .ok _

theorem unlimited_setUp (s : Settings) : Unlimited (setUp s).outcome := by
  unfold setUp
  simp only [notes, Report.outcome_bind, Report.outcome_tell, Outcome.ok_bind, Report.outcome_of]
  refine .bind (.ofChecked _) fun fault => ?_
  cases fault with
  | none => exact .refuse (by simp [Capital, toString])
  | some fault =>
      simp only [Report.outcome_bind, Report.outcome_tell, Outcome.ok_bind, Report.outcome_of,
        Report.outcome_mapRefusal, Report.outcome_pure]
      exact .bind (unlimited_machine _) fun m =>
        .bind (.ofChecked _) fun _ =>
        .bind (unlimited_party _ _ _) fun _ =>
        .bind (unlimited_machine _) fun m' =>
        .bind (unlimited_party _ _ _) fun _ =>
        .bind (.mapRefusal not_capital_segment _) fun _ =>
        .bind (.mapRefusal not_capital_challenge _) fun _ => .ok _

/-- Telling the rounds of a game that has ended comes to its last round. -/
theorem unlimited_narrate {turns : List Turn} (h : ∃ t ∈ turns, t.isDivision = false)
    (round : Nat) : Unlimited (narrate round turns).outcome := by
  -- on the turns; the one that is no division ends the story before it runs out
  induction turns generalizing round with
  | nil => simp at h
  | cons t rest ih =>
      cases t with
      | noBisection => exact .refuse (by simp [Capital])
      | answered party report docket =>
          simp only [narrate, notes, Report.outcome_bind, Report.outcome_mapRefusal]
          rcases houtcome : report.outcome with (fault | e) | ⟨index, segment, tx⟩ | _
          · intro text hrefused
            cases hrefused
          · exact .refuse (not_capital_challenge e)
          · simp only [Outcome.mapRefusal_ok, Outcome.ok_bind, Report.outcome_bind,
              Report.outcome_tell]
            obtain ⟨t, ht, hlast⟩ := h
            rcases List.mem_cons.mp ht with rfl | ht
            · simp [Turn.isDivision, isDivision, houtcome] at hlast
            · exact ih ⟨t, ht, hlast⟩ (round + 1)
          · exact .ok _

theorem run_ne_refuse (s : Settings) :
    (run s).outcome ≠
      .refuse s!"Challenge did not reach a one-step proof in {maxRounds} rounds" := by
  have hrun : Unlimited (run s).outcome := by
    rw [run, Report.outcome_bind]
    exact .bind (unlimited_setUp s) fun setup =>
      unlimited_narrate (exists_mem_play_of_limit _ _ _) 0
  exact fun h => hrun _ h capital_limit

end Simulation

/-! ## Convergence -/

/-- Every play converges, whatever was on the ledger and whoever answers. -/
theorem divisions_le_clog (b : Bisection) (l : Ledger) (calls : List Call) :
    let divisions := (answers calls { l with current := some b }).countP isDivision
    divisions ≤ (if b.segment.length = 0 then 1 else Nat.clog 2 b.segment.length.toNat) ∧
      divisions ≤ 64 ∧
      (∀ turn round docket extra,
        play turn (Simulation.maxRounds + extra) round docket =
          play turn Simulation.maxRounds round docket) ∧
      ∀ s, (Simulation.run s).outcome ≠
        .refuse s!"Challenge did not reach a one-step proof in {Simulation.maxRounds} rounds" := by
  refine ⟨?_, countP_answers_le (mayDivide_sixtyFour b) calls rfl, ?_, Simulation.run_ne_refuse⟩
  · have hbound :=
      countP_answers_le (l := { l with current := some b }) (mayDivide_self b) calls rfl
    have hzero : b.segment.length.toNat = 0 ↔ b.segment.length = 0 := by
      rw [← UInt64.toNat_inj]
      rfl
    simpa only [hzero] using hbound
  · intro turn round docket extra
    exact play_add extra (exists_mem_play_of_limit turn round docket)

end TraceDispute
