import TraceDispute.Proofs.Challenge.Divergence
import TraceDispute.Proofs.Challenge.Moves
import TraceDispute.Proofs.Machine.Twin
import TraceDispute.Proofs.Replay.History

/-!
# Unread messages

The inbox digest of a cut is looked up under the number of messages read since the
start of the session.  The machine itself keeps a position in its inbox, and the
table of an inbox has an entry for every message and one for the end.  A read moves
the position on by one and never past the end (`Machine.inboxPosition_perform_le`),
so as many messages are read as the position has moved (`Machine.reads_restAt_le`).

For a machine that starts at the front the digest is therefore that of the messages
from its position on.  From any other position fewer messages can be read than the
table has entries, and every look-up finds one (`Challenge.cuts_commit_to_unread`).
-/

namespace TraceDispute

namespace Machine

/-- A read moves the inbox position no further than to the end of the inbox. -/
theorem inboxPosition_perform_le (m : Machine) (i : Instruction) :
    (m.perform {} i).1.inboxPosition.toNat ≤ max m.inboxPosition.toNat m.inbox.length := by
  cases i with
  | readInbox =>
      cases hm : m.message? with
      | none => simp [perform, hm, stop]
      | some message =>
          have hlt : m.inboxPosition.toNat < m.inbox.length :=
            (List.getElem?_eq_some_iff.mp hm).1
          have hread : (m.perform {} .readInbox).2.messagesRead.toNat = 1 := by
            simp [perform, hm]
          rw [inboxPosition_perform, hread]
          omega
  | _ => simp [perform, advance, stop]

theorem inboxPosition_restAt_le (m : Machine) (overshoot : Bool) (target : Nat) :
    (m.restAt overshoot target).machine.inboxPosition.toNat ≤
      max m.inboxPosition.toNat m.inbox.length := by
  have hpoint : (m.restAt overshoot target).machine.inbox = m.inbox ∧
      (m.restAt overshoot target).machine.inboxPosition.toNat ≤
        max m.inboxPosition.toNat m.inbox.length := by
    refine Point.settle_induction (motive := fun p => p.machine.inbox = m.inbox ∧
      p.machine.inboxPosition.toNat ≤ max m.inboxPosition.toNat m.inbox.length) ?_
      ⟨rfl, le_max_left ..⟩
    rintro p q hnext ⟨hinbox, hle⟩
    obtain ⟨-, i, -, -, rfl⟩ := Point.next?_eq_some_iff.mp hnext
    refine ⟨(inbox_perform ..).trans hinbox, (inboxPosition_perform_le p.machine i).trans ?_⟩
    rw [hinbox]
    exact max_le hle (le_max_right ..)
  exact hpoint.2

/-- No more messages are read than there are, wherever the machine starts. -/
theorem reads_restAt_le (m : Machine) (overshoot : Bool) (target : Nat) :
    (m.restAt overshoot target).reads ≤ m.inbox.length := by
  have hmoved := m.inboxPosition_restAt overshoot target
  have hle := m.inboxPosition_restAt_le overshoot target
  omega

end Machine

namespace Challenge

variable {c : Challenge} {m : Machine} {s : Session} {offset : UInt64}
  {offsets others : List UInt64} {machine : Machine} {cuts : List Cut}

/-! ## Look-ups in the table of an inbox -/

/-- The outcome is not the refusal of a look-up in the inbox table. -/
def Covered {α : Type} (outcome : Outcome ChallengeError α) : Prop :=
  outcome.Within (fun e => ∀ offset cause, e ≠ .inboxBounds offset cause) fun _ => True

theorem Covered.ne_inboxBounds {α : Type} {outcome : Outcome ChallengeError α}
    (h : Covered outcome) (offset : UInt64) (cause : InboxBoundsError) :
    outcome ≠ .refuse (.inboxBounds offset cause) :=
  fun hrefused => h.of_refuse hrefused offset cause rfl

theorem covered_openSession (c : Challenge) (offsets : List UInt64) :
    Covered (c.openSession offsets) :=
  c.within_openSession fun _ _ _ => nofun

section Table

variable (htable : c.inbox = .ofMessages m.inbox)
include htable

/-- The digest that goes with a point of the trace is that of the messages not read on the way
to it. -/
theorem digestAt_restAt (target : Nat) :
    c.inbox.digestAt (m.restAt c.overshoot target).progress.messagesRead =
      .ok (inboxDigest (m.inbox.drop (m.restAt c.overshoot target).reads)) := by
  have hcount := (m.behind_restAt c.overshoot target).toNat_messagesRead
  have hle := m.reads_restAt_le c.overshoot target
  rw [htable, InboxTable.digestAt_ofMessages (hcount ▸ hle), hcount]

theorem digestFor_of_pointAt {p : Point} (hpoint : m.pointAt c.overshoot offset = .ok p) :
    c.digestFor offset p.progress = .ok (inboxDigest (m.inbox.drop p.reads)) := by
  obtain ⟨rfl, -⟩ := Machine.pointAt_eq_ok_iff.mp hpoint
  rw [digestFor, digestAt_restAt htable]
  rfl

theorem covered_ownCut (offset : UInt64) : Covered (c.ownCut m offset) := by
  unfold ownCut
  cases hpoint : m.pointAt c.overshoot offset with
  | error e => exact fun _ _ => nofun
  | ok p =>
      simp only [Except.map, Outcome.ofExcept_ok, Outcome.mapRefusal_ok, Outcome.ok_bind,
        digestFor_of_pointAt htable hpoint]
      trivial

theorem covered_ownProof (b : Bisection) (index : Nat) (offset : UInt64) :
    Covered (c.ownProof m b index offset) := by
  unfold ownProof
  cases hpoint : m.pointAt c.overshoot offset with
  | error e => exact fun _ _ => nofun
  | ok p =>
      simp only [Outcome.ofExcept_ok, Outcome.mapRefusal_ok, Outcome.ok_bind,
        digestFor_of_pointAt htable hpoint]
      refine Outcome.Within.bind ?_ fun payload _ => trivial
      exact .mapRefusal_ofExcept (fun _ _ _ => nofun) _

end Table

section Covered

variable (hm : c.machine? = some m) (htable : c.inbox = .ofMessages m.inbox)
include hm htable

theorem covered_cutsAt (offsets : List UInt64) : Covered (c.cutsAt offsets).outcome := by
  refine within_cutsAt (covered_openSession c offsets) (fun m' hm' => ?_) trivial
  obtain rfl : m = m' := Option.some.inj (hm.symm.trans hm')
  exact covered_ownCut htable

theorem covered_locate (offsets : List UInt64) (claimed : List Cut) :
    Covered (c.locate offsets claimed).outcome := by
  refine within_locate (fun _ _ _ _ => nofun) (covered_openSession c offsets) (fun m' hm' => ?_)
    (fun _ _ _ _ => trivial) claimed
  obtain rfl : m = m' := Option.some.inj (hm.symm.trans hm')
  exact covered_ownCut htable

theorem covered_buildProof (b : Bisection) (index : Nat) (segment : Segment) :
    Covered (c.buildProof b index segment).outcome := by
  refine within_buildProof_of ?_ (covered_openSession c _) (fun m' hm' => ?_)
    fun _ _ _ => trivial
  · exact Bisection.within_requireWithin_of (.of_true _) (fun _ _ _ => nofun) segment
  · obtain rfl : m = m' := Option.some.inj (hm.symm.trans hm')
    exact covered_ownProof htable b index segment.start

end Covered

/-! ## The machine that a session finds -/

/-- Some session of the challenge, after any requests, has answered one for the machine at this
offset with this machine. -/
def FindsMachine (c : Challenge) (offset : UInt64) (machine : Machine) : Prop :=
  ∃ offsets s requests, c.openSession offsets = .ok s ∧
    (.machine offset, .ok (.inr machine)) ∈ (s.askAll requests).1

theorem FindsMachine.eq_restAt (hm : c.machine? = some m) (h : c.FindsMachine offset machine) :
    machine = (m.restAt c.overshoot offset.toNat).machine := by
  obtain ⟨offsets, s, requests, hopen, hmem⟩ := h
  have hreplays := Session.replays_start ((openSession_eq_ok_iff hm).mp hopen)
  obtain ⟨p, hpoint, rfl⟩ := hreplays.truthful_askAll requests _ hmem
  obtain ⟨rfl, -⟩ := Machine.pointAt_eq_ok_iff.mp hpoint
  rfl

theorem exists_progressAt_of_cutAt {cut : Cut} (h : (c.cutAt s offset).1 = .ok cut) :
    ∃ progress, (s.progressAt offset).1 = .ok progress := by
  obtain ⟨progress, hprogress, -⟩ := Outcome.bind_eq_ok_iff.mp h
  exact ⟨progress, Outcome.mapRefusal_eq_ok_iff.mp hprogress⟩

/-- A session that answers with cuts at some offsets would answer with the machines there, too. -/
theorem answered_of_cutsFrom (hs : s.Replays m c.overshoot others)
    (hsub : offsets ⊆ others) (h : (c.cutsFrom s offsets).1 = .ok cuts) :
    ∀ offset ∈ offsets, ∃ machine,
      (.machine offset, .ok (.inr machine)) ∈ (s.askAll (offsets.map .machine)).1 := by
  induction offsets generalizing s cuts with
  | nil => simp
  | cons o rest ih =>
      rw [cutsFrom_cons, Outcome.bind_eq_ok_iff] at h
      obtain ⟨cut, hcut, hrest⟩ := h
      obtain ⟨cuts', hcuts', -⟩ := Outcome.bind_eq_ok_iff.mp hrest
      obtain ⟨progress, hprogress⟩ := exists_progressAt_of_cutAt hcut
      obtain ⟨hafter, -⟩ := hs.progressAt o
      obtain ⟨homem, hsub'⟩ := List.cons_subset.mp hsub
      -- the machine was asked for where the cut was taken, and the session keeps the answer
      have hask : s.ask (.machine o) =
          (.ok (.inr (s.progressAt o).2.machine), (s.progressAt o).2) := by
        have homem' : o ∈ s.offsets := hs.offsets_eq ▸ homem
        rw [Session.ask, Session.machineAt_of_mem homem', hprogress]
        rfl
      simp only [List.map_cons, Session.askAll, hask]
      rw [List.forall_mem_cons]
      refine ⟨⟨_, List.mem_cons_self ..⟩, fun offset hoffset => ?_⟩
      obtain ⟨machine, hmachine⟩ := ih hafter hsub' hcuts' offset hoffset
      exact ⟨machine, List.mem_cons_of_mem _ hmachine⟩

theorem exists_findsMachine (hm : c.machine? = some m)
    (h : (c.cutsAt offsets).outcome = .ok cuts) (hoffset : offset ∈ offsets) :
    ∃ machine, c.FindsMachine offset machine := by
  rw [outcome_cutsAt, Outcome.bind_eq_ok_iff] at h
  obtain ⟨s, hopen, hcuts⟩ := h
  have hreplays := Session.replays_start ((openSession_eq_ok_iff hm).mp hopen)
  obtain ⟨machine, hmem⟩ :=
    answered_of_cutsFrom hreplays (List.Subset.refl offsets) hcuts offset hoffset
  exact ⟨machine, offsets, s, _, hopen, hmem⟩

/-! ## What a cut commits to -/

theorem unread_of_cutsAt (hm : c.machine? = some m) (htable : c.inbox = .ofMessages m.inbox)
    (hfront : m.inboxPosition = 0) (h : (c.cutsAt offsets).outcome = .ok cuts) :
    List.Forall₂ (fun offset cut => ∀ machine, c.FindsMachine offset machine →
      machine.inboxPosition.toNat ≤ m.inbox.length ∧
        cut.inboxDelta = inboxDigest (m.inbox.drop machine.inboxPosition.toNat))
      offsets cuts := by
  refine (ownCut_of_cutsAt hm h).imp fun o cut hown machine hfinds => ?_
  obtain ⟨p, digest, hpoint, hdigest, rfl⟩ := ownCut_eq_ok_iff.mp hown
  obtain ⟨rfl, -⟩ := Machine.pointAt_eq_ok_iff.mp hpoint
  rw [digestAt_restAt htable] at hdigest
  obtain rfl := Except.ok.inj hdigest
  obtain rfl := hfinds.eq_restAt hm
  -- from the front, the position is the number of messages read
  have hposition := m.inboxPosition_restAt c.overshoot o.toNat
  rw [hfront, UInt64.toNat_zero, Nat.zero_add] at hposition
  rw [hposition]
  exact ⟨m.reads_restAt_le c.overshoot o.toNat, rfl⟩

/-- With the table of its inbox, every cut of a machine that starts at the front commits to the
messages from the position on that the machine has reached there.  Wherever the machine starts,
no operation is refused for want of a digest. -/
theorem cuts_commit_to_unread (hm : c.machine? = some m)
    (htable : c.inbox = .ofMessages m.inbox) :
    (m.inboxPosition = 0 → ∀ offsets cuts, (c.cutsAt offsets).outcome = .ok cuts →
      List.Forall₂ (fun offset cut => (∃ machine, c.FindsMachine offset machine) ∧
        ∀ machine, c.FindsMachine offset machine →
          machine.inboxPosition.toNat ≤ m.inbox.length ∧
          cut.inboxDelta = inboxDigest (m.inbox.drop machine.inboxPosition.toNat))
        offsets cuts) ∧
    ∀ offset cause,
      (∀ offsets, (c.cutsAt offsets).outcome ≠ .refuse (.inboxBounds offset cause)) ∧
      (∀ offsets claimed,
        (c.locate offsets claimed).outcome ≠ .refuse (.inboxBounds offset cause) ∧
        (c.firstDivergence offsets claimed).outcome ≠ .refuse (.inboxBounds offset cause)) ∧
      ∀ b index segment,
        (c.buildProof b index segment).outcome ≠ .refuse (.inboxBounds offset cause) := by
  refine ⟨fun hfront offsets cuts hcuts => ?_, fun offset cause => ⟨?_, ?_, ?_⟩⟩
  · -- a cut is backed by the machine that a session finds at its offset
    exact (List.forall₂_and_left offsets cuts).mpr
      ⟨fun o ho => exists_findsMachine hm hcuts ho, unread_of_cutsAt hm htable hfront hcuts⟩
  · exact fun offsets => (covered_cutsAt hm htable offsets).ne_inboxBounds offset cause
  · intro offsets claimed
    have hlocate := covered_locate hm htable offsets claimed
    have hfirst : Covered (c.firstDivergence offsets claimed).outcome :=
      within_firstDivergence_of hlocate (fun _ _ => nofun) fun _ _ _ => nofun
    exact ⟨hlocate.ne_inboxBounds offset cause, hfirst.ne_inboxBounds offset cause⟩
  · exact fun b index segment =>
      (covered_buildProof hm htable b index segment).ne_inboxBounds offset cause

/-- The reader has not read its message at the first offset, and has read it at the second. -/
theorem reader_cuts_commit_to_unread :
    readerChallenge.machine? = some readerMachine ∧ readerMachine.inboxPosition = 0 ∧
      readerChallenge.inbox = .ofMessages readerMachine.inbox ∧
      ∃ first second, (readerChallenge.cutsAt [1, 4]).outcome = .ok [first, second] ∧
        first.inboxDelta = inboxDigest [[7]] ∧ second.inboxDelta = .zero ∧
        ∀ cause, (readerChallenge.cutsAt [1, 20]).outcome ≠ .refuse (.inboxBounds 20 cause) := by
  obtain ⟨s, hstart⟩ : ∃ s, Session.start readerMachine true [1, 4] = .ok s :=
    Session.exists_start _ _ (by decide)
  have hopen : readerChallenge.openSession [1, 4] = .ok s :=
    (openSession_eq_ok_iff machine?_readerChallenge).mpr hstart
  obtain ⟨first, second, hcuts⟩ : ∃ first second,
      (readerChallenge.cutsAt [1, 4]).outcome = .ok [first, second] := by
    rw [outcome_cutsAt, hopen]
    obtain ⟨-, rfl⟩ := Session.start_eq_ok_iff.mp hstart
    exact ⟨_, _, rfl⟩
  obtain ⟨machine, machine', hhistory, hposition, hposition'⟩ : ∃ machine machine',
      (s.askAll [.machine 1, .machine 4]).1 =
        [(.machine 1, .ok (.inr machine)), (.machine 4, .ok (.inr machine'))] ∧
        machine.inboxPosition.toNat = 0 ∧ machine'.inboxPosition.toNat = 1 := by
    obtain ⟨-, rfl⟩ := Session.start_eq_ok_iff.mp hstart
    exact ⟨_, _, rfl, rfl, rfl⟩
  have hfinds : readerChallenge.FindsMachine 1 machine :=
    ⟨_, _, _, hopen, by rw [hhistory]; exact List.mem_cons_self ..⟩
  have hfinds' : readerChallenge.FindsMachine 4 machine' :=
    ⟨_, _, _, hopen, by rw [hhistory]; exact List.mem_cons_of_mem _ (List.mem_cons_self ..)⟩
  obtain ⟨hcommit, hbounds⟩ := cuts_commit_to_unread machine?_readerChallenge rfl
  obtain ⟨⟨-, hfirst⟩, hrest⟩ := List.forall₂_cons.mp (hcommit rfl [1, 4] _ hcuts)
  obtain ⟨⟨-, hsecond⟩, -⟩ := List.forall₂_cons.mp hrest
  refine ⟨machine?_readerChallenge, rfl, rfl, first, second, hcuts, ?_, ?_,
    fun cause => (hbounds 20 cause).1 [1, 20]⟩
  · rw [(hfirst machine hfinds).2, hposition]
    rfl
  · rw [(hsecond machine' hfinds').2, hposition']
    rfl

end Challenge

end TraceDispute
