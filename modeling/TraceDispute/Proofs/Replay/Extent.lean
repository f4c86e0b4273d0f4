import TraceDispute.Proofs.Machine.Order
import TraceDispute.Proofs.Replay.Resumption

/-!
# How far a replay answers

A machine that runs until it stops uses a certain amount of gas, and that is how
far its replay goes: an offset is refused exactly when it lies past the end of the
trace, and the refusal names the gas that was reached.

Whether the end is found depends on what the machine stops at.  The end of the
program and a halt cost nothing and are found at the next offset.  A read is tried
only once its ten gas are paid for, unless overshoot is allowed; so a machine that
waits for a message (`Machine.Starved`) is taken to be still running up to nine
offsets past its last instruction.  `Machine.PastEnd` says where the end is found
in either case.
-/

namespace TraceDispute

namespace Machine

variable {m stopped : Machine} {p : Point} {overshoot flag : Bool} {target gas : Nat}
  {offset : UInt64} {effects : Effects}

/-- The machine has come to a read, and no message is left. -/
def Starved (m : Machine) : Prop := m.next? = some .readInbox ∧ m.message? = none

instance (m : Machine) : Decidable m.Starved := inferInstanceAs (Decidable (_ ∧ _))

/-- The offsets at which a replay finds that the trace has ended, when the trace uses `gas` and
leaves the machine `stopped`. -/
def PastEnd (stopped : Machine) (overshoot : Bool) (gas offset : Nat) : Prop :=
  if overshoot = false ∧ stopped.Starved then gas + 10 ≤ offset else gas < offset

/-- The flag of a machine says nothing about what it has come to. -/
@[simp] theorem pastEnd_stop :
    stopped.stop.PastEnd overshoot gas target ↔ stopped.PastEnd overshoot gas target := Iff.rfl

theorem PastEnd.lt (h : stopped.PastEnd overshoot gas target) : gas < target := by
  unfold PastEnd at h
  split at h <;> omega

theorem PastEnd.mono {later : Nat} (h : stopped.PastEnd overshoot gas target)
    (hle : target ≤ later) : stopped.PastEnd overshoot gas later := by
  unfold PastEnd at h ⊢
  split
  · rename_i hstarved
    rw [if_pos hstarved] at h
    omega
  · rename_i hstarved
    rw [if_neg hstarved] at h
    omega

/-- A run that has come to the end of its trace is stopped there from some target on. -/
theorem EndsAt.halted_finish_iff (h : m.EndsAt p) (hm : m.halted = false) (hlt : p.gas < target) :
    (p.finish overshoot target).halted = true ↔ p.machine.PastEnd overshoot p.gas target := by
  have hrunning := h.leads.halted_eq hm
  rw [Machine.halted_finish_iff hrunning, and_iff_right h.next?_eq, and_iff_right hlt, PastEnd]
  split
  · rename_i hstarved
    exact ⟨fun hpaid => hpaid hstarved.1 hstarved.2.1, fun hpaid _ _ => hpaid⟩
  · -- at the end of a trace a read that comes next has no message
    rename_i hfed
    refine ⟨fun _ => hlt, fun _ hover hread => absurd ⟨hover, hread, ?_⟩ hfed⟩
    rcases (Point.next?_eq_none_iff hrunning).mp h.next?_eq with hend | hhalt | ⟨-, hmessage⟩
    · simp [hread] at hend
    · simp [hread] at hhalt
    · exact hmessage

/-- A replay finds the end of the trace exactly at the offsets past it. -/
theorem EndsAt.beyond_iff (h : m.EndsAt p) (hm : m.halted = false) :
    ((m.restAt overshoot target).gas < target ∧
        ((m.restAt overshoot target).finish overshoot target).halted = true) ↔
      p.machine.PastEnd overshoot p.gas target := by
  by_cases hlt : p.gas < target
  · rw [h.restAt_of_lt hlt, h.halted_finish_iff hm hlt]
    exact and_iff_right hlt
  · refine iff_of_false ?_ fun hpast => hlt hpast.lt
    rintro ⟨hgas, hhalted⟩
    have hrunning := (m.leads_restAt overshoot target).halted_eq hm
    obtain ⟨q, hnext⟩ := h.exists_next? (not_lt.mp hlt) hgas
    rw [Machine.halted_finish_iff hrunning, hnext] at hhalted
    cases hhalted.1

theorem EndsAt.pointAt_of_pastEnd (h : m.EndsAt p) (hm : m.halted = false)
    (hpast : p.machine.PastEnd overshoot p.gas offset.toNat) :
    m.pointAt overshoot offset = .error (.beyondTrace offset (UInt64.ofNat p.gas)) := by
  rw [pointAt, if_pos ((h.beyond_iff hm).mpr hpast), h.restAt_of_lt hpast.lt]

theorem EndsAt.pointAt_of_not_pastEnd (h : m.EndsAt p) (hm : m.halted = false)
    (hpast : ¬ p.machine.PastEnd overshoot p.gas offset.toNat) :
    m.pointAt overshoot offset = .ok (m.restAt overshoot offset.toNat) :=
  if_neg fun hbeyond => hpast ((h.beyond_iff hm).mp hbeyond)

/-- A run that leaves the machine stopped has come to the end of the trace. -/
theorem endsAt_of_execute {target : UInt64} (hm : m.halted = false)
    (hrun : m.execute target flag = .ok (stopped, effects)) (hstopped : stopped.halted = true) :
    ∃ p, m.EndsAt p ∧ p.gas < UInt64.size ∧ stopped = p.machine.stop ∧
      effects.gasUsed = UInt64.ofNat p.gas := by
  rw [Point.execute_eq] at hrun
  split at hrun
  · rename_i hcount
    obtain ⟨rfl, rfl⟩ := Prod.mk.inj (Except.ok.inj hrun)
    have hrunning := (m.leads_restAt flag target.toNat).halted_eq hm
    have hex : (m.restAt flag target.toNat).Exhausted flag target.toNat :=
      (Point.halted_finish.mp hstopped).resolve_left (by simp [hrunning])
    exact ⟨_, ⟨m.leads_restAt .., hex.2.1⟩, hcount.gas_lt, Point.finish_of_exhausted hex, rfl⟩
  · cases hrun

/-- With more gas than its program can use, a machine runs until it stops. -/
theorem exists_execute_halted {target : UInt64} (hgas : gasSum m.program < target.toNat) :
    ∃ stopped effects, m.execute target true = .ok (stopped, effects) ∧ stopped.halted = true := by
  have hcount : (m.restAt true target.toNat).Countable true target.toNat :=
    Point.countable_of_gasSum (hgas.trans target.toNat_lt) _
  refine ⟨_, _, by rw [Point.execute_eq, if_pos hcount], Point.halted_finish.mpr (.inr ?_)⟩
  have hspent := Point.gas_add_left_le true m target.toNat
  simp only at hspent
  have hlt : (m.restAt true target.toNat).gas < target.toNat := by omega
  refine ⟨hlt, ?_, fun _ _ => .inl rfl⟩
  by_contra hnext
  obtain ⟨q, hq⟩ := Option.ne_none_iff_exists'.mp hnext
  exact absurd (Point.le_gas_settle_of_next? hq) (not_le.mpr hlt)

end Machine

namespace Session

variable {m : Machine} {p : Point} {s : Session} {overshoot : Bool} {offsets : List UInt64}
  {offset : UInt64}

theorem progressAt_of_gasSum (hgas : gasSum m.program < UInt64.size)
    (hs : Session.start m overshoot offsets = .ok s) (offset : UInt64) :
    (s.progressAt offset).1 = .ofExcept ((m.pointAt overshoot offset).map Point.progress) :=
  (progressAt_of_start hs).resolve_right fun h => h.2 (Point.countable_of_gasSum hgas _)

/-- A fresh session on a machine whose trace ends refuses the offsets past the end, and no
others. -/
theorem progressAt_of_endsAt (h : m.EndsAt p) (hm : m.halted = false)
    (hgas : gasSum m.program < UInt64.size) (hs : Session.start m overshoot offsets = .ok s)
    (offset : UInt64) :
    (p.machine.PastEnd overshoot p.gas offset.toNat ∧
      (s.progressAt offset).1 = .refuse (.beyondTrace offset (UInt64.ofNat p.gas))) ∨
    (¬ p.machine.PastEnd overshoot p.gas offset.toNat ∧
      (s.progressAt offset).1 = .ok (m.restAt overshoot offset.toNat).progress) := by
  rw [progressAt_of_gasSum hgas hs]
  by_cases hpast : p.machine.PastEnd overshoot p.gas offset.toNat
  · exact .inl ⟨hpast, by rw [h.pointAt_of_pastEnd hm hpast]; rfl⟩
  · exact .inr ⟨hpast, by rw [h.pointAt_of_not_pastEnd hm hpast]; rfl⟩

/-- A machine with gas to spare runs until it stops, and the gas that it has used by then is how
far fresh sessions answer: they refuse the offsets past the end and name that gas, and where they
answer at an offset they do at every smaller one. -/
theorem refused_past_end (hm : m.halted = false) (hgas : gasSum m.program < UInt64.size - 1) :
    (∃ stopped effects, m.execute (UInt64.ofNat (UInt64.size - 1)) true = .ok (stopped, effects) ∧
      stopped.halted = true) ∧
    ∀ target flag stopped effects, m.execute target flag = .ok (stopped, effects) →
      stopped.halted = true → ∀ overshoot offsets s, Session.start m overshoot offsets = .ok s →
      ∀ offset,
        let past := stopped.PastEnd overshoot effects.gasUsed.toNat offset.toNat
        ((∃ e, (s.progressAt offset).1 = .error e) ↔ past) ∧
        (past → (s.progressAt offset).1 = .refuse (.beyondTrace offset effects.gasUsed)) ∧
        (effects.gasUsed < offset → ∀ i, (s.progressAt offset).1 = .ok i →
          i.gasUsed = effects.gasUsed) ∧
        ∀ others s' earlier, Session.start m overshoot others = .ok s' → earlier ≤ offset →
          (∃ i, (s.progressAt offset).1 = .ok i) → ∃ i, (s'.progressAt earlier).1 = .ok i := by
  have hfits : gasSum m.program < UInt64.size := by omega
  have hmost : (UInt64.ofNat (UInt64.size - 1)).toNat = UInt64.size - 1 := by decide
  refine ⟨Machine.exists_execute_halted (hmost ▸ hgas), ?_⟩
  intro target flag stopped effects hrun hstopped overshoot offsets s hs offset
  -- the run has found the end of the trace, and the answers are about that point
  obtain ⟨p, hend, hsize, rfl, hused⟩ := Machine.endsAt_of_execute hm hrun hstopped
  have hword : (UInt64.ofNat p.gas).toNat = p.gas := UInt64.toNat_ofNat_of_lt' hsize
  simp only [hused, hword, Machine.pastEnd_stop]
  rcases progressAt_of_endsAt hend hm hfits hs offset with ⟨hbeyond, hanswer⟩ | ⟨hwithin, hanswer⟩
  · rw [hanswer]
    refine ⟨iff_of_true ⟨_, rfl⟩ hbeyond, fun _ => rfl, ?_, ?_⟩
    · rintro - i ⟨⟩
    · rintro - - - - - ⟨i, ⟨⟩⟩
  · rw [hanswer]
    refine ⟨iff_of_false ?_ hwithin, fun hbeyond => absurd hbeyond hwithin, ?_, ?_⟩
    · rintro ⟨e, ⟨⟩⟩
    · intro hlt i hi
      rw [UInt64.lt_iff_toNat_lt, hword] at hlt
      obtain rfl := Except.ok.inj hi
      rw [hend.restAt_of_lt hlt]
      rfl
    · -- a session that refused here would have refused later on, which this one did not
      intro others s' earlier hs' hle _
      rcases progressAt_of_endsAt hend hm hfits hs' earlier with ⟨hbeyond, -⟩ | ⟨-, hanswer'⟩
      · exact absurd (hbeyond.mono (UInt64.le_iff_toNat_le.mp hle)) hwithin
      · exact ⟨_, hanswer'⟩

open Machine in
theorem blockedReader_refused_past_end :
    blockedReader.halted = false ∧ gasSum blockedReader.program < UInt64.size - 1 ∧
      ∃ s s', Session.start blockedReader false [14, 15] = .ok s ∧
        Session.start blockedReader true [6] = .ok s' ∧
        (∃ i, (s.progressAt 14).1 = .ok i ∧ i.gasUsed = 5) ∧
        (s.progressAt 15).1 = .refuse (.beyondTrace 15 5) ∧
        (s'.progressAt 6).1 = .refuse (.beyondTrace 6 5) := by
  have hgas : gasSum blockedReader.program < UInt64.size - 1 := by decide
  obtain ⟨s, hs⟩ : ∃ s, Session.start blockedReader false [14, 15] = .ok s :=
    exists_start _ _ (by decide)
  obtain ⟨s', hs'⟩ : ∃ s, Session.start blockedReader true [6] = .ok s :=
    exists_start _ _ (by decide)
  obtain ⟨⟨stopped, effects, hrun, hstopped⟩, hanswers⟩ :=
    refused_past_end (m := blockedReader) rfl hgas
  have hend : (blockedReader.execute (UInt64.ofNat (UInt64.size - 1)) true).map
      (fun r => (decide r.1.Starved, r.2.gasUsed)) = .ok (true, 5) := by rfl
  rw [hrun] at hend
  obtain ⟨hstarved, hused⟩ := Prod.mk.inj (Except.ok.inj hend)
  have hstarved := of_decide_eq_true hstarved
  have hfive : effects.gasUsed.toNat = 5 := by
    rw [hused]
    rfl
  -- without overshoot the refused read leaves ten gas in which offsets are answered
  have hwaits : ∀ offset, stopped.PastEnd false effects.gasUsed.toNat offset ↔ 15 ≤ offset := by
    intro offset
    rw [PastEnd, if_pos ⟨rfl, hstarved⟩, hfive]
  obtain ⟨hfails, -, hreached, -⟩ := hanswers _ _ _ _ hrun hstopped false _ s hs 14
  refine ⟨rfl, hgas, s, s', hs, hs', ?_, ?_, ?_⟩
  · rcases hanswer : (s.progressAt 14).1 with e | i
    · have hpast := (hwaits _).mp (hfails.mp ⟨e, hanswer⟩)
      exact absurd hpast (by decide)
    · exact ⟨i, rfl, (hreached (by rw [hused]; decide) i hanswer).trans hused⟩
  · rw [← hused]
    exact (hanswers _ _ _ _ hrun hstopped false _ s hs 15).2.1 ((hwaits _).mpr (by decide))
  · rw [← hused]
    refine (hanswers _ _ _ _ hrun hstopped true _ s' hs' 6).2.1 ?_
    rw [PastEnd, if_neg (by simp), hfive]
    decide

end Session

end TraceDispute
