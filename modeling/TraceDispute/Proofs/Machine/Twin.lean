import TraceDispute.Proofs.Machine.Step
import TraceDispute.Proofs.Replay.Position

/-!
# Machines that differ in their programs

Twins are machines in the same state, with the same inbox; only their programs
may differ.  As long as they come to the same instruction they stay twins, and
so do the points of their traces (`Point.Twin.settle_succ`): two points that
report the same progress at an offset report the same at the next one, unless
their machines come to different instructions.
-/

namespace TraceDispute

namespace Machine

/-- Machines that agree in everything but their programs. -/
structure Twin (m n : Machine) : Prop where
  inbox_eq : m.inbox = n.inbox
  pc_eq : m.pc = n.pc
  register_eq : m.register = n.register
  inboxPosition_eq : m.inboxPosition = n.inboxPosition
  buffer_eq : m.buffer = n.buffer
  halted_eq : m.halted = n.halted

variable {m n : Machine} {overshoot : Bool} {target : Nat}

theorem Twin.symm (h : m.Twin n) : n.Twin m :=
  ⟨h.inbox_eq.symm, h.pc_eq.symm, h.register_eq.symm, h.inboxPosition_eq.symm,
    h.buffer_eq.symm, h.halted_eq.symm⟩

theorem Twin.sameState (h : m.Twin n) : m.SameState n :=
  ⟨h.pc_eq, h.register_eq, h.inboxPosition_eq, h.buffer_eq, h.halted_eq⟩

theorem Twin.packState_eq (h : m.Twin n) : m.packState = n.packState := h.sameState.packState_eq

theorem Twin.hash_eq (h : m.Twin n) : m.hash = n.hash := h.sameState.hash_eq

theorem Twin.consumed?_eq (h : m.Twin n) (i : Instruction) : m.consumed? i = n.consumed? i := by
  have hmessage : m.message? = n.message? := by
    unfold message?
    rw [h.inbox_eq, h.inboxPosition_eq]
  cases i <;> simp only [consumed?, hmessage]

theorem Twin.perform (h : m.Twin n) (i : Instruction) :
    (m.perform {} i).1.Twin (n.perform {} i).1 ∧ (m.perform {} i).2 = (n.perform {} i).2 := by
  obtain ⟨hstate, heffects⟩ := h.sameState.perform (h.consumed?_eq i)
  refine ⟨⟨?_, hstate.pc_eq, hstate.register_eq, hstate.inboxPosition_eq, hstate.buffer_eq,
    hstate.halted_eq⟩, heffects⟩
  rw [inbox_perform, inbox_perform]
  exact h.inbox_eq

theorem inbox_restAt (m : Machine) (overshoot : Bool) (target : Nat) :
    (m.restAt overshoot target).machine.inbox = m.inbox := by
  refine Point.settle_induction (motive := fun p => p.machine.inbox = m.inbox) ?_ rfl
  intro p q hnext hp
  obtain ⟨-, i, -, -, rfl⟩ := Point.next?_eq_some_iff.mp hnext
  exact (inbox_perform ..).trans hp

theorem program_restAt (m : Machine) (overshoot : Bool) (target : Nat) :
    (m.restAt overshoot target).machine.program = m.program := by
  refine Point.settle_induction (motive := fun p => p.machine.program = m.program) ?_ rfl
  intro p q hnext hp
  obtain ⟨-, i, -, -, rfl⟩ := Point.next?_eq_some_iff.mp hnext
  exact (program_perform ..).trans hp

/-- The messages read are those that the inbox position has moved past. -/
theorem inboxPosition_restAt (m : Machine) (overshoot : Bool) (target : Nat) :
    (m.restAt overshoot target).machine.inboxPosition.toNat =
      m.inboxPosition.toNat + (m.restAt overshoot target).reads := by
  refine Point.settle_induction
    (motive := fun p => p.machine.inboxPosition.toNat = m.inboxPosition.toNat + p.reads) ?_ rfl
  intro p q hnext hp
  obtain ⟨-, i, -, -, rfl⟩ := Point.next?_eq_some_iff.mp hnext
  have hread := inboxPosition_perform (m := p.machine) (i := i)
  simp only [Point.after] at hread ⊢
  omega

end Machine

namespace Point

/-- Points that report the same progress, with machines that are twins. -/
structure Twin (p q : Point) : Prop where
  machine : p.machine.Twin q.machine
  gas_eq : p.gas = q.gas
  progress_eq : p.progress = q.progress

variable {p q : Point} {overshoot : Bool} {target : Nat}

theorem Twin.after (h : p.Twin q) (i : Instruction) : (p.after i).Twin (q.after i) := by
  obtain ⟨hmachine, heffects⟩ := h.machine.perform i
  have hprogress := h.progress_eq
  simp only [progress, report, Progress.mk.injEq] at hprogress
  obtain ⟨-, hreads, hsends, hlogs, hsendAcc, hlogAcc, -⟩ := hprogress
  refine ⟨hmachine, ?_, ?_⟩
  · simp only [Point.after, h.gas_eq]
  · simp only [progress, report, Point.after, heffects, h.gas_eq, hmachine.hash_eq,
      List.length_append, List.foldl_append, UInt64.ofNat_add, hreads, hsends, hlogs, hsendAcc,
      hlogAcc]

/-- Twins that come to the same instruction both carry it out, or neither does. -/
theorem Twin.next? (h : p.Twin q) (hsame : p.machine.next? = q.machine.next?) :
    (p.next? = none ∧ q.next? = none) ∨
      ∃ r r', p.next? = some r ∧ q.next? = some r' ∧ r.Twin r' := by
  have hhalted := h.machine.halted_eq
  have hafter : ∀ i, (p.after i).machine.halted = (q.after i).machine.halted :=
    fun i => (h.after i).machine.halted_eq
  unfold Point.next?
  rw [hsame, hhalted]
  split
  · exact .inl ⟨rfl, rfl⟩
  · cases q.machine.next? with
    | none => exact .inl ⟨rfl, rfl⟩
    | some i =>
        simp only [hafter]
        split
        · exact .inl ⟨rfl, rfl⟩
        · exact .inr ⟨_, _, rfl, rfl, h.after i⟩

/-- Twins at a target are twins at the next one, if they come to the same instruction
or stand past the target already. -/
theorem Twin.settle_succ (h : p.Twin q) (hp : p.settle overshoot target = p)
    (hq : q.settle overshoot target = q)
    (hsame : p.gas ≤ target → p.machine.next? = q.machine.next?) :
    (p.settle overshoot (target + 1)).Twin (q.settle overshoot (target + 1)) := by
  -- a point past the target stays there; any other tries the one step left to it
  by_cases hgas : p.gas ≤ target
  · rw [settle_succ_of_settled hp, settle_succ_of_settled hq]
    rcases h.next? (hsame hgas) with ⟨hnone, hnone'⟩ | ⟨r, r', hsome, hsome', hstep⟩
    · simp only [hnone, hnone']
      exact h
    · simp only [hsome, hsome', h.gas_eq, hstep.gas_eq]
      split
      · exact hstep
      · exact h
  · rw [settle_of_le (by omega), settle_of_le (by rw [← h.gas_eq]; omega)]
    exact h

end Point

end TraceDispute
