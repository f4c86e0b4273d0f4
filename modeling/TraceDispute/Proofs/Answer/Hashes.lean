import TraceDispute.Node
import TraceDispute.Proofs.Answer.Opening

/-!
# Claims count by their hashes

The contract stores hashes, so nothing a party does may depend on the fields of a
claimed cut.  Two runs are compared: bisections of one segment with the same
hashes (`Bisection.Alike`) are answered alike, whatever cuts stand behind the
hashes.

`Report.Alike R` relates two reports that tell the same events and end in the
same failure or in answers related by `R`; it passes through sequences, so the
two runs are compared step by step.  The moves that come out differ at most in
the bisection that they answer (`Submission.Alike`), and a client that reads no
more of it than the hashes (`Client.Blind`) cannot tell them apart.  Both clients
are of that kind.
-/

namespace TraceDispute

/-! ## Reports that end alike -/

namespace Report

variable {ε α β : Type} {R : α → α → Prop} {S : β → β → Prop}

/-- The same events, and the same failure or related answers. -/
def Alike (R : α → α → Prop) (x y : Report ε α) : Prop :=
  x.events = y.events ∧
    ((∃ e, x.outcome = .error e ∧ y.outcome = .error e) ∨
      ∃ a b, x.outcome = .ok a ∧ y.outcome = .ok b ∧ R a b)

namespace Alike

theorem pure {a b : α} (h : R a b) : (Pure.pure a : Report ε α).Alike R (Pure.pure b) :=
  ⟨rfl, .inr ⟨a, b, rfl, rfl, h⟩⟩

theorem bind {x y : Report ε α} {f g : α → Report ε β} (hxy : x.Alike R y)
    (hfg : ∀ a b, R a b → (f a).Alike S (g b)) : (x >>= f).Alike S (y >>= g) := by
  obtain ⟨outcome, events⟩ := x
  obtain ⟨outcome', events'⟩ := y
  obtain ⟨hevents, ⟨e, rfl, rfl⟩ | ⟨a, b, rfl, rfl, hab⟩⟩ := hxy
  · exact ⟨hevents, .inl ⟨e, rfl, rfl⟩⟩
  · obtain ⟨hlater, houtcomes⟩ := hfg a b hab
    exact ⟨congrArg₂ (· ++ ·) hevents hlater, houtcomes⟩

/-- After the same beginning, only what follows is to be compared. -/
theorem after (x : Report ε α) {f g : α → Report ε β} (hfg : ∀ a, (f a).Alike S (g a)) :
    (x >>= f).Alike S (x >>= g) := by
  have hx : x.Alike Eq x := by
    cases h : x.outcome with
    | error e => exact ⟨rfl, .inl ⟨e, h, h⟩⟩
    | ok a => exact ⟨rfl, .inr ⟨a, a, h, h, rfl⟩⟩
  refine hx.bind ?_
  rintro a _ rfl
  exact hfg a

end Alike

end Report

/-! ## Moves that answer alike -/

/-- One segment with the same hashes claimed at the same places. -/
structure Bisection.Alike (b b' : Bisection) : Prop where
  segment_eq : b.segment = b'.segment
  cutHashes_eq : b.cutHashes = b'.cutHashes

/-- The same division, of bisections with the same hashes. -/
structure BisectionMove.Alike (move move' : BisectionMove) : Prop where
  previous : move.previous.Alike move'.previous
  index_eq : move.index = move'.index
  segment_eq : move.segment = move'.segment
  cuts_eq : move.cuts = move'.cuts

/-- The same proof, against bisections with the same hashes. -/
structure ProofMove.Alike (move move' : ProofMove) : Prop where
  previous : move.previous.Alike move'.previous
  index_eq : move.index = move'.index
  progress_eq : move.progress = move'.progress
  inboxDelta_eq : move.inboxDelta = move'.inboxDelta
  machineProof_eq : move.machineProof = move'.machineProof
  bufferProof_eq : move.bufferProof = move'.bufferProof

/-- The same move, but for the cuts behind the hashes that it answers. -/
inductive Submission.Alike : Submission → Submission → Prop
  | bisection {move move' : BisectionMove} (h : move.Alike move') :
      Submission.Alike (.bisection move) (.bisection move')
  | proof {move move' : ProofMove} (h : move.Alike move') :
      Submission.Alike (.proof move) (.proof move')

namespace Submission.Alike

variable {move move' : Submission}

theorem index_eq (h : move.Alike move') : move.index = move'.index := by
  cases h with
  | bisection h => exact h.index_eq
  | proof h => exact h.index_eq

theorem announcement_eq (h : move.Alike move') (segment : Segment) :
    move.announcement segment = move'.announcement segment := by
  cases h with
  | bisection h => simp only [Submission.announcement, h.index_eq, h.cuts_eq]
  | proof h => simp only [Submission.announcement, h.index_eq]

theorem accepted_eq (h : move.Alike move') (segment : Segment) (transaction : Word) :
    move.accepted segment transaction = move'.accepted segment transaction := by
  cases h with
  | bisection h => simp only [Submission.accepted, h.index_eq]
  | proof h => simp only [Submission.accepted, h.index_eq]

theorem tag_eq (h : move.Alike move') : move.tag = move'.tag := by
  cases h <;> rfl

theorem recorded_eq (h : move.Alike move') (transaction : Word) :
    move.recorded transaction = move'.recorded transaction := by
  cases h with
  | bisection h => simp only [Submission.recorded, h.index_eq, h.segment_eq, h.cuts_eq]
  | proof h =>
      simp only [Submission.recorded, h.index_eq, h.machineProof_eq, h.bufferProof_eq]

theorem callData_eq (h : move.Alike move') : move.callData = move'.callData := by
  cases h with
  | bisection h =>
      simp only [Submission.callData, h.previous.cutHashes_eq, h.index_eq, h.segment_eq, h.cuts_eq]
  | proof h =>
      simp only [Submission.callData, h.previous.cutHashes_eq, h.index_eq, h.progress_eq,
        h.inboxDelta_eq, h.machineProof_eq, h.bufferProof_eq]

end Submission.Alike

/-! ## The search for the first wrong cut -/

namespace Challenge

variable {claimed claimed' : List Cut}

theorem compareFrom_of_hashes (c : Challenge) (s : Session) (index : Nat) (offsets : List UInt64)
    (h : claimed.map Cut.hash = claimed'.map Cut.hash) :
    c.compareFrom s index (offsets.zip claimed) = c.compareFrom s index (offsets.zip claimed') := by
  induction offsets generalizing s index claimed claimed' with
  | nil => rfl
  | cons offset offsets ih =>
      cases claimed with
      | nil =>
          have hnil : claimed' = [] := by simpa using h.symm
          rw [hnil]
      | cons claim claims =>
          cases claimed' with
          | nil => simp at h
          | cons claim' claims' =>
              obtain ⟨hclaim, hclaims⟩ := List.cons.inj h
              simp only [List.zip_cons_cons, compareFrom, hclaim]
              -- the runs part only if an own cut differs from one claim and not the other
              rcases c.cutAt s offset with ⟨e | cut, s'⟩
              · rfl
              · simp only [ih s' (index + 1) hclaims]

theorem firstDivergence_of_hashes (c : Challenge) (offsets : List UInt64)
    (h : claimed.map Cut.hash = claimed'.map Cut.hash) :
    c.firstDivergence offsets claimed = c.firstDivergence offsets claimed' := by
  have hlength : claimed.length = claimed'.length := by
    simpa using congrArg List.length h
  simp only [firstDivergence, locate, hlength, compareFrom_of_hashes c _ 0 offsets h]

end Challenge

/-! ## The answer -/

namespace Bisection.Alike

variable {b b' : Bisection}

theorem segmentCount_eq (h : b.Alike b') : b.segmentCount = b'.segmentCount := by
  have hlength : b.cuts.length = b'.cuts.length := by
    simpa [cutHashes] using congrArg List.length h.cutHashes_eq
  simp only [segmentCount, hlength]

theorem offsets_eq (h : b.Alike b') : b.offsets = b'.offsets := by
  simp only [offsets, h.segment_eq, h.segmentCount_eq]

theorem subSegment_eq (h : b.Alike b') (index : Nat) :
    b.subSegment index = b'.subSegment index := by
  simp only [subSegment, h.segment_eq, h.segmentCount_eq]

theorem requireWithin_eq (h : b.Alike b') (index : Nat) (segment : Segment) :
    b.requireWithin index segment = b'.requireWithin index segment := by
  simp only [requireWithin, h.subSegment_eq]

theorem divide (h : b.Alike b') (index : Nat) (segment : Segment) (cuts : List Cut) :
    (Report.of (b.divide index segment cuts)).Alike Submission.Alike
      (Report.of (b'.divide index segment cuts)) := by
  simp only [Bisection.divide, h.requireWithin_eq]
  refine ⟨rfl, ?_⟩
  cases hwithin : b'.requireWithin index segment with
  | error e => exact .inl ⟨e, rfl, rfl⟩
  | ok _ => exact .inr ⟨_, _, rfl, rfl, .bisection ⟨h, rfl, rfl, rfl⟩⟩

theorem buildProof (h : b.Alike b') (c : Challenge) (index : Nat) (segment : Segment) :
    (c.buildProof b index segment).Alike Submission.Alike (c.buildProof b' index segment) := by
  unfold Challenge.buildProof
  rw [h.requireWithin_eq]
  refine .after _ fun _ => .after _ fun s => .after _ fun _ => .after _ fun snapshot => ?_
  refine .after _ fun payload => .after _ fun digest => ?_
  exact .pure (.proof ⟨h, rfl, rfl, rfl, rfl, rfl⟩)

theorem plan (h : b.Alike b') (p : Party) :
    (p.plan b).Alike (fun x y => x.1 = y.1 ∧ x.2.Alike y.2) (p.plan b') := by
  unfold Party.plan
  simp only [h.offsets_eq, h.subSegment_eq,
    p.challenge.firstDivergence_of_hashes _ h.cutHashes_eq]
  refine .after _ fun offsets => .after _ fun divergence => .after _ fun index => ?_
  refine .after _ fun segment => .after _ fun offset => .after _ fun _ => .after _ fun _ => ?_
  cases segment.isOneStep with
  | true =>
      refine (h.buildProof p.challenge index segment).bind fun move move' hmove => ?_
      exact .pure ⟨rfl, hmove⟩
  | false =>
      refine .after _ fun boundaries => .after _ fun cuts => ?_
      refine (h.divide index segment cuts).bind fun move move' hmove => ?_
      exact .pure ⟨rfl, hmove⟩

end Bisection.Alike

/-! ## Clients that see hashes only -/

/-- From related states the client treats alike moves the same and stays in related states. -/
structure Client.Blind {σ : Type} (client : Client σ) (R : σ → σ → Prop) : Prop where
  cancelled_eq : ∀ {state state' : σ}, R state state' →
    client.cancelled state = client.cancelled state'
  submit_eq : ∀ {move move' : Submission} {state state' : σ}, move.Alike move' → R state state' →
    (client.submit move state).1 = (client.submit move' state').1 ∧
      R (client.submit move state).2 (client.submit move' state').2

namespace Client.Blind

variable {σ : Type} {client : Client σ} {R : σ → σ → Prop} {state state' : σ}

theorem put (h : client.Blind R) {move move' : Submission} (hmove : move.Alike move')
    (hstate : R state state') (segment : Segment) :
    (client.put segment move state).1 = (client.put segment move' state').1 ∧
      R (client.put segment move state).2 (client.put segment move' state').2 := by
  obtain ⟨hreport, hafter⟩ := h.submit_eq hmove hstate
  unfold Client.put
  rw [h.cancelled_eq hstate]
  cases client.cancelled state' with
  | true => exact ⟨rfl, hstate⟩
  | false =>
      simp only [Bool.false_eq_true, if_false, hreport, hmove.announcement_eq, hmove.index_eq]
      exact ⟨trivial, hafter⟩

theorem respond (h : client.Blind R) {b b' : Bisection} (hb : b.Alike b')
    (hstate : R state state') (p : Party) :
    (p.respond client b state).1 = (p.respond client b' state').1 ∧
      R (p.respond client b state).2 (p.respond client b' state').2 := by
  obtain ⟨hevents, ⟨e, he, he'⟩ | ⟨⟨segment, move⟩, ⟨segment', move'⟩, ha, ha', hsegment, hmove⟩⟩ :=
    hb.plan p
  · simp only [Party.respond, he, he', hevents]
    exact ⟨trivial, hstate⟩
  · obtain rfl : segment = segment' := hsegment
    obtain ⟨hreport, hafter⟩ := h.put hmove hstate segment
    simp only [Party.respond, ha, ha', hevents, hreport, hmove.accepted_eq]
    exact ⟨trivial, hafter⟩

end Client.Blind

/-! ## The ledger -/

/-- The same record, but for the cuts behind the hashes that its moves answer. -/
structure Ledger.Alike (l l' : Ledger) : Prop where
  current_eq : l.current = l'.current
  bisections : List.Forall₂ BisectionMove.Alike l.bisections l'.bisections
  proofs : List.Forall₂ ProofMove.Alike l.proofs l'.proofs
  nonce_eq : l.nonce = l'.nonce
  rejection_eq : l.rejection = l'.rejection

namespace Ledger.Alike

variable {l l' : Ledger} {move move' : Submission}

theorem refl (l : Ledger) : l.Alike l := by
  refine ⟨rfl, ?_, ?_, rfl, rfl⟩
  · exact List.forall₂_same.mpr fun _ _ => ⟨⟨rfl, rfl⟩, rfl, rfl, rfl⟩
  · exact List.forall₂_same.mpr fun _ _ => ⟨⟨rfl, rfl⟩, rfl, rfl, rfl, rfl, rfl⟩

theorem enter (h : l.Alike l') (hmove : move.Alike move') :
    (l.enter move).Alike (l'.enter move') := by
  cases hmove with
  | bisection hmove =>
      refine ⟨?_, List.rel_append h.bisections (.cons hmove .nil), h.proofs, h.nonce_eq,
        h.rejection_eq⟩
      simp only [Ledger.enter, hmove.segment_eq, hmove.cuts_eq]
  | proof hmove =>
      exact ⟨h.current_eq, h.bisections, List.rel_append h.proofs (.cons hmove .nil), h.nonce_eq,
        h.rejection_eq⟩

theorem record (h : l.Alike l') (hmove : move.Alike move') :
    (l.record move).1 = (l'.record move').1 ∧ (l.record move).2.Alike (l'.record move').2 := by
  have hrejection := h.rejection_eq
  have hnonce := h.nonce_eq
  -- both ledgers are at the same branch, since they share the rejection and the counter
  cases hreason : l'.rejection with
  | some reason =>
      rw [hreason] at hrejection
      simp only [Ledger.record, hrejection, hreason]
      exact ⟨trivial, { h with rejection_eq := rfl }⟩
  | none =>
      rw [hreason] at hrejection
      cases hnext : Checked.add l'.nonce 1 with
      | error fault =>
          simp only [Ledger.record, hrejection, hreason, hnonce, hnext]
          exact ⟨trivial, h⟩
      | ok nonce =>
          have hcounted : ({ l with nonce } : Ledger).Alike { l' with nonce } :=
            { h with nonce_eq := rfl }
          simp only [Ledger.record, hrejection, hreason, hnonce, hnext, hmove.tag_eq,
            hmove.recorded_eq]
          rw [hrejection, hreason] at hcounted
          exact ⟨trivial, hcounted.enter hmove⟩

end Ledger.Alike

/-- Dockets with alike ledgers, of one party. -/
structure Docket.Alike (d d' : Docket) : Prop where
  ledger : d.ledger.Alike d'.ledger
  cancelled_eq : d.cancelled = d'.cancelled

theorem Docket.blind : Docket.client.Blind Docket.Alike := by
  constructor
  case cancelled_eq => exact fun h => h.cancelled_eq
  case submit_eq =>
    intro move move' d d' hmove h
    obtain ⟨hreport, hledger⟩ := h.ledger.record hmove
    have hcancelled := h.cancelled_eq
    cases hstop : d'.cancelled with
    | true =>
        rw [hstop] at hcancelled
        simp only [Docket.client, hcancelled, hstop, if_true]
        exact ⟨trivial, h⟩
    | false =>
        rw [hstop] at hcancelled
        simp only [Docket.client, hcancelled, hstop, Bool.false_eq_true, if_false]
        exact ⟨hreport, hledger, rfl⟩

/-! ## Both ways to submit -/

theorem Node.blind (node : Node) : node.client.Blind Eq := by
  constructor
  case cancelled_eq =>
    rintro w _ rfl
    rfl
  case submit_eq =>
    rintro move move' w _ hmove rfl
    simp only [Node.client, hmove.callData_eq]
    exact ⟨trivial, trivial⟩

/-- Two bisections of a segment with the same hashes are answered the same, whatever cuts
stand behind the hashes: with the same move or failure and the same events, with the same
entries on a ledger, and with the same requests to a node. -/
theorem respond_depends_on_hashes {b b' : Bisection} (hsegment : b.segment = b'.segment)
    (hhashes : b.cutHashes = b'.cutHashes) (p : Party) :
    (∀ d : Docket, (p.respond Docket.client b d).1 = (p.respond Docket.client b' d).1 ∧
      (p.respond Docket.client b d).2.Alike (p.respond Docket.client b' d).2) ∧
    ∀ (node : Node) (w : Wire), p.respond node.client b w = p.respond node.client b' w := by
  -- every stage of the response is blind to what two alike bisections differ in
  have hb : b.Alike b' := ⟨hsegment, hhashes⟩
  constructor
  · intro d
    have hd : d.Alike d := ⟨.refl d.ledger, rfl⟩
    exact Docket.blind.respond hb hd p
  · intro node w
    obtain ⟨hreport, hwire⟩ := node.blind.respond hb (rfl : w = w) p
    exact Prod.ext hreport hwire

/-- Claims about the sum of one and two, the second of which is wrong. -/
def wrongSum (last : Cut) : Bisection := ⟨⟨0, 2⟩, [Player.sumCut 0 0, Player.sumCut 1 2, last]⟩

theorem exists_respond_wrongSum (last : Cut) :
    ∃ transaction, ((Player.adder 2).party.respond Docket.client (wrongSum last)
      { ledger := {} }).1.outcome = .ok (.proved 0 ⟨0, 1⟩ transaction) := by
  obtain ⟨hzero, hone, htwo⟩ := Player.adder_owns (.inl rfl)
  have hmarks : (Segment.mk 0 2).marks 2 = [0, 1, 2] := by decide
  have hmark : (Segment.mk 0 2).mark 2 1 = 1 := by decide
  have hchunk : (Segment.mk 0 2).chunk 2 0 = ⟨0, 1⟩ := by decide
  have hstop : (Segment.mk 0 2).stop = .ok 2 := rfl
  obtain ⟨hbounded, -⟩ := Segment.stop_eq_ok_iff.mp hstop
  have hroomy : (Segment.mk 0 2).parts 2 < Segment.chunkLimit := by decide
  have hproper : (wrongSum last).Proper := ⟨hbounded, hroomy, rfl⟩
  have hcounts : ∀ o ∈ (Segment.mk 0 2).marks 2, (Player.adder 2).Counts o := by
    rw [hmarks]
    intro o ho
    refine (Player.owns_iff.mp htwo).1.mono ?_
    simp only [List.mem_cons, List.not_mem_nil, or_false] at ho
    rcases ho with rfl | rfl | rfl <;> decide
  have hlast : (Player.adder 2).cut ((Segment.mk 0 2).mark 2 1) = .ok (Player.sumCut 1 1) := by
    rw [hmark]
    exact (Player.owns_iff.mp hone).2
  have hne : (Player.sumCut 1 1).hash ≠ (Player.sumCut 1 2).hash := by decide +kernel
  -- the payloads themselves do not matter here, only that a session at the start finds them
  obtain ⟨move, snapshot, hprevious, hindex, hsnapshots⟩ :
      ∃ (move : ProofMove) (snapshot : Machine), move.previous = wrongSum last ∧ move.index = 0 ∧
        (Player.adder 2).party.challenge.Snapshots 0 move snapshot :=
    ⟨⟨wrongSum last, 0, _, _, _, _⟩, _, rfl, rfl, ⟨_, Player.openSession_eq .., rfl⟩, rfl, rfl, rfl⟩
  have hwithin : (wrongSum last).requireWithin 0 ((Segment.mk 0 2).chunk 2 0) = .ok () :=
    hproper.requireWithin hproper.pos
  have hpart : (Player.adder 2).party.answerPart (wrongSum last) 0 ((Segment.mk 0 2).chunk 2 0) =
      .ok (.proof move) := by
    rw [hchunk] at hwithin ⊢
    exact Player.answerPart_of_snapshots hwithin hprevious hindex hsnapshots
  have hplan : ((Player.adder 2).party.plan (wrongSum last)).outcome =
      .ok ((Segment.mk 0 2).chunk 2 0, .proof move) :=
    Player.plan_of_first_part hproper rfl hcounts (Player.owns_iff.mp hzero).2 hlast rfl hne hpart
  obtain ⟨transaction, hanswer⟩ := Party.respond_of_plan_empty hplan
  rw [hchunk, Submission.accepted, hindex] at hanswer
  exact ⟨transaction, hanswer⟩

theorem adder_answers_hashes_of_wrongSum :
    ∃ c d : Cut, c ≠ d ∧ (wrongSum c).segment = (wrongSum d).segment ∧
      (wrongSum c).cutHashes = (wrongSum d).cutHashes ∧
      (∃ transaction,
        ((Player.adder 2).party.respond Docket.client (wrongSum c) { ledger := {} }).1.outcome =
          .ok (.proved 0 ⟨0, 1⟩ transaction) ∧
        ((Player.adder 2).party.respond Docket.client (wrongSum d) { ledger := {} }).1.outcome =
          .ok (.proved 0 ⟨0, 1⟩ transaction)) ∧
      ∀ (node : Node) (w : Wire), (Player.adder 2).party.respond node.client (wrongSum c) w =
        (Player.adder 2).party.respond node.client (wrongSum d) w := by
  -- the cuts are not named: that two of them share a hash is all there is to say
  obtain ⟨c, d, hne, hhash⟩ := Cut.exists_hash_eq
  have hsegment : (wrongSum c).segment = (wrongSum d).segment := rfl
  have hhashes : (wrongSum c).cutHashes = (wrongSum d).cutHashes := by
    simp only [wrongSum, Bisection.cutHashes, List.map_cons, hhash]
  obtain ⟨hledger, hnode⟩ := respond_depends_on_hashes hsegment hhashes (Player.adder 2).party
  obtain ⟨hreport, -⟩ := hledger { ledger := {} }
  obtain ⟨transaction, hanswer⟩ := exists_respond_wrongSum c
  refine ⟨c, d, hne, hsegment, hhashes, ⟨transaction, hanswer, ?_⟩, hnode⟩
  calc
    _ = ((Player.adder 2).party.respond Docket.client (wrongSum c) { ledger := {} }).1.outcome :=
      congrArg Report.outcome hreport.symm
    _ = _ := hanswer

end TraceDispute
