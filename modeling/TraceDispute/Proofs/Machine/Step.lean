import TraceDispute.Proofs.Commitment
import TraceDispute.Proofs.Machine.Execution
import TraceDispute.Proofs.Machine.Payload

/-!
# One instruction at a time

Only a halt is free, so a run with overshoot to a target of one unit of gas
carries out exactly the next instruction (`execute_one`).

What that instruction does depends on little of a machine: on its state and, for
a read, on the digest of the message (`SameState.perform`).  The instruction, the
digest and the registers are in the first proof payload, the side buffer is in
the second.  So the two payloads fix the step, whatever the program and the
inbox hold elsewhere (`payloads_determine_step`).
-/

namespace TraceDispute

namespace Machine

variable {m n : Machine} {i : Instruction} {target : UInt64} {overshoot : Bool}

/-! ## A run of one instruction -/

/-- The machine after `i` and what `i` brought about, the gas included. -/
def stepped (m : Machine) (i : Instruction) : Machine × Effects :=
  ((m.perform {} i).1,
    { (m.perform {} i).2 with
      gasUsed := if (m.perform {} i).1.halted then 0 else i.gasCost })

theorem execute_one (hm : m.halted = false) (hi : m.next? = some i) :
    m.execute 1 true = .ok (m.stepped i) := by
  have hzero : ({} : Effects).gasUsed < 1 := by decide
  rw [execute, if_neg (by simp [hm]), drop_pc hi, run_cons_overshoot hzero, attempt, stepped]
  cases ha : (m.perform {} i).1.halted with
  | true =>
      rw [perform_of_halted hm ha]
      rfl
  | false =>
      have hsum : Checked.add (m.perform {} i).2.gasUsed i.gasCost = .ok i.gasCost := by
        rw [gasUsed_perform, Checked.add_of_lt, UInt64.zero_add]
        simpa using i.gasCost.toNat_lt
      -- an instruction that completes has a price, and the target is the lowest there is
      have hspent : ¬ i.gasCost < 1 := by
        have hpos := gasCost_pos ha
        rw [UInt64.lt_iff_toNat_lt]
        exact not_lt.mpr hpos
      simp only [Bool.false_eq_true, if_false, hsum, bind, Except.bind]
      exact run_of_spent hspent _ _

theorem effects_stepped (ha : (m.perform {} i).1.halted = false) :
    (m.stepped i).2 = ((Point.start m).after i).effects := by
  simp [stepped, ha, Point.effects, Point.after, Point.start]

/-! ## What a step depends on -/

/-- Machines in the same state; their programs and inboxes may differ. -/
structure SameState (m n : Machine) : Prop where
  pc_eq : m.pc = n.pc
  register_eq : m.register = n.register
  inboxPosition_eq : m.inboxPosition = n.inboxPosition
  buffer_eq : m.buffer = n.buffer
  halted_eq : m.halted = n.halted

theorem SameState.packState_eq (h : m.SameState n) : m.packState = n.packState := by
  simp only [packState, bufferHash, h.pc_eq, h.register_eq, h.inboxPosition_eq, h.buffer_eq,
    h.halted_eq]

theorem SameState.hash_eq (h : m.SameState n) : m.hash = n.hash := congrArg keccak h.packState_eq

/-- Machines with the same hash are in the same state, unless what is hashed for them collides. -/
theorem SameState.of_hash_eq (h : m.hash = n.hash) (hstate : ¬ Collide m.packState n.packState)
    (hbuffer : ¬ Collide (packBuffer m.buffer) (packBuffer n.buffer)) : m.SameState n := by
  obtain ⟨hpc, hregister, hposition, hbufferHash, hhalted⟩ :=
    packState_inj (eq_of_not_collide hstate h)
  have hslots := packBuffer_inj (eq_of_not_collide hbuffer hbufferHash)
  exact ⟨hpc, hregister, hposition, hslots, hhalted⟩

/-- Machines in the same state do the same with an instruction, if the messages
that it consumes have the same digest. -/
theorem SameState.perform (h : m.SameState n) (hconsumed : m.consumed? i = n.consumed? i) :
    (m.perform {} i).1.SameState (n.perform {} i).1 ∧ (m.perform {} i).2 = (n.perform {} i).2 := by
  obtain ⟨hpc, hregister, hposition, hbuffer, hhalted⟩ := h
  cases i with
  | readInbox =>
      -- the register takes in the digest of a message and nothing else of it
      simp only [consumed?] at hconsumed
      cases hm : m.message? with
      | none =>
          have hn : n.message? = none := by simpa [hm, eq_comm] using hconsumed
          simp only [Machine.perform, hm, hn, stop, and_true]
          exact ⟨hpc, hregister, hposition, hbuffer, rfl⟩
      | some message =>
          obtain ⟨message', hn, hdigest⟩ : ∃ message', n.message? = some message' ∧
              keccak message' = keccak message := by simpa [hm, eq_comm] using hconsumed
          simp only [Machine.perform, hm, hn, advance, and_true]
          exact ⟨by simp only [hpc], by simp only [mixMessage, hregister, hdigest],
            by simp only [hposition], hbuffer, hhalted⟩
  | send | log =>
      simp only [Machine.perform, advance, hregister, and_true]
      exact ⟨by simp only [hpc], rfl, hposition, hbuffer, hhalted⟩
  | _ =>
      simp only [Machine.perform, stop, advance, and_true]
      exact ⟨by simp only [hpc], by simp only [hregister], hposition,
        by simp only [hbuffer, hregister], by simp only [hhalted]⟩

theorem SameState.stepped (h : m.SameState n) (hconsumed : m.consumed? i = n.consumed? i) :
    (m.stepped i).1.SameState (n.stepped i).1 ∧ (m.stepped i).2 = (n.stepped i).2 := by
  obtain ⟨hstate, heffects⟩ := h.perform hconsumed
  refine ⟨hstate, ?_⟩
  simp only [Machine.stepped, heffects, hstate.halted_eq]

/-! ## What the payloads fix -/

theorem buffer_eq_of_bufferPayload (h : m.bufferPayload = n.bufferPayload) :
    m.buffer = n.buffer := by
  have hread := congrArg decodeBuffer? h
  rw [decodeBuffer?_bufferPayload, decodeBuffer?_bufferPayload] at hread
  exact Option.some.inj hread

theorem stepProof_of_machinePayload {payload : Bytes} (hm : m.machinePayload = .ok payload)
    (hn : n.machinePayload = .ok payload) :
    ∃ proof, m.stepProof = .ok proof ∧ n.stepProof = .ok proof := by
  obtain ⟨proof, hread, hproof⟩ := decode?_machinePayload hm
  obtain ⟨proof', hread', hproof'⟩ := decode?_machinePayload hn
  obtain rfl : proof = proof' := by simpa [hread] using hread'
  exact ⟨proof, hproof, hproof'⟩

/-- Machines with the same two payloads make the same step: it uses and produces
the same, and leads to machines with the same hash. -/
theorem payloads_determine_step {payload : Bytes} (hm : m.machinePayload = .ok payload)
    (hn : n.machinePayload = .ok payload) (hbuffer : m.bufferPayload = n.bufferPayload) :
    ∃ m' n' effects, m.execute 1 true = .ok (m', effects) ∧ n.execute 1 true = .ok (n', effects) ∧
      m'.hash = n'.hash := by
  obtain ⟨proof, hproof, hproof'⟩ := stepProof_of_machinePayload hm hn
  obtain ⟨hrunning, i, hi, rfl⟩ := stepProof_eq_ok_iff.mp hproof
  obtain ⟨hrunning', j, hj, hsame⟩ := stepProof_eq_ok_iff.mp hproof'
  simp only [StepProof.mk.injEq] at hsame
  obtain ⟨hpc, hregister, hposition, rfl, -, hconsumed⟩ := hsame
  have hstate : m.SameState n :=
    ⟨hpc, hregister, hposition, buffer_eq_of_bufferPayload hbuffer,
      hrunning.trans hrunning'.symm⟩
  obtain ⟨hstate', heffects⟩ := hstate.stepped hconsumed
  refine ⟨_, _, (m.stepped i).2, execute_one hrunning hi, ?_, hstate'.hash_eq⟩
  rw [execute_one hrunning' hj, heffects]

/-- A machine about to read the first of two messages, with nothing to do after it. -/
def lastReader : Machine where
  program := [.readInbox]
  inbox := [[5], [9]]
  program_lt := by decide
  inbox_lt := by decide

/-- A machine about to read its only message, and to send what it makes of it. -/
def readAndSend : Machine where
  program := [.readInbox, .send]
  inbox := [[5]]
  program_lt := by decide
  inbox_lt := by decide

theorem readers_make_same_step :
    lastReader.program ≠ readAndSend.program ∧ lastReader.inbox ≠ readAndSend.inbox ∧
      ∃ m n effects, lastReader.execute 1 true = .ok (m, effects) ∧
        readAndSend.execute 1 true = .ok (n, effects) ∧ effects.messagesRead = 1 ∧
        m.hash = n.hash := by
  obtain ⟨payload, hpayload, hpayload'⟩ : ∃ payload, lastReader.machinePayload = .ok payload ∧
      readAndSend.machinePayload = .ok payload := ⟨_, rfl, rfl⟩
  obtain ⟨m, n, effects, hm, hn, hhash⟩ := payloads_determine_step hpayload hpayload' rfl
  have hread : (lastReader.stepped .readInbox).2.messagesRead = 1 := by rfl
  have hsame : lastReader.stepped .readInbox = (m, effects) :=
    Except.ok.inj ((execute_one rfl rfl).symm.trans hm)
  rw [hsame] at hread
  exact ⟨by decide, by decide, m, n, effects, hm, hn, hread, hhash⟩

end Machine

end TraceDispute
