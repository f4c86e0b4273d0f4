import Mathlib
import TraceDispute.Machine.Payload

/-!
# Payloads are read back

Every layout is read back by its reader, with whatever follows it left over, so
a payload determines what it was written from (`StepProof.decode?_encode`,
`decodeBuffer?_bufferPayload`).
-/

namespace TraceDispute

namespace Bytes

variable (rest : Bytes)

theorem take?_append {xs : Bytes} {n : Nat} (h : xs.length = n) :
    take? n (xs ++ rest) = some (xs, rest) := by
  subst h
  simp [take?]

theorem readNat?_littleEndian {width n : Nat} (h : n < Nat.pow 256 width) :
    readNat? width (littleEndian width n ++ rest) = some (n, rest) := by
  rw [readNat?, take?_append _ (length_littleEndian width n)]
  simp only [Option.map_some, ofLittleEndian_littleEndian, Nat.mod_eq_of_lt h]

theorem readUInt64?_littleEndian (x : UInt64) :
    readUInt64? (littleEndian 8 x.toNat ++ rest) = some (x, rest) := by
  rw [readUInt64?, readNat?_littleEndian _ x.toNat_lt]
  simp only [Option.map_some, UInt64.ofNat_toNat]

theorem readWord?_bytes (w : Word) : readWord? (w.bytes ++ rest) = some (w, rest) := by
  rw [readWord?, take?_append _ w.length_eq]
  simp

end Bytes

theorem Instruction.read?_encode (i : Instruction) (rest : Bytes) :
    Instruction.read? (i.encode ++ rest) = some (i, rest) := by
  have hkind : i.kind < Nat.pow 256 4 := by cases i <;> simp [kind]
  rw [Instruction.read?, Instruction.encode, List.append_assoc,
    Bytes.readNat?_littleEndian _ hkind]
  cases i with
  | add value => simp [kind, operand, Bytes.readUInt64?_littleEndian]
  | mul value => simp [kind, operand, Bytes.readUInt64?_littleEndian]
  | bufferWrite slot =>
      have hslot : slot.toNat < Nat.pow 256 2 := slot.toNat_lt
      simp [kind, operand, Bytes.readNat?_littleEndian _ hslot]
  | readInbox => rfl
  | send => rfl
  | log => rfl
  | halt => rfl

namespace StepProof

theorem readOption?_encodeOption (w : Option Word) (rest : Bytes) :
    readOption? (encodeOption w ++ rest) = some (w, rest) := by
  cases w with
  | none => rfl
  | some w => simp [encodeOption, readOption?, Bytes.readWord?_bytes]

theorem decode?_encode (p : StepProof) : decode? p.encode = some p := by
  have hmessage := readOption?_encodeOption p.message []
  rw [List.append_nil] at hmessage
  simp only [decode?, encode, List.append_assoc, Bytes.readUInt64?_littleEndian,
    Instruction.read?_encode, Bytes.readWord?_bytes, hmessage, Option.bind_eq_bind,
    Option.bind_some]
  rfl

end StepProof

theorem readSlots?_flatMap (slots : List UInt64) :
    readSlots? slots.length (slots.flatMap fun slot => Bytes.littleEndian 8 slot.toNat) =
      some slots := by
  induction slots with
  | nil => rfl
  | cons slot slots ih =>
      simp only [List.length_cons, List.flatMap_cons, readSlots?, Bytes.readUInt64?_littleEndian,
        Option.bind_eq_bind, Option.bind_some, ih, Option.pure_def]

namespace Machine

variable {m : Machine} {payload : Bytes}

/-- The payload of a side buffer is read back as its slots. -/
theorem decodeBuffer?_bufferPayload (m : Machine) :
    decodeBuffer? m.bufferPayload = some m.buffer := by
  have hlength : m.buffer.length < Nat.pow 256 8 := m.buffer_lt
  rw [bufferPayload, decodeBuffer?, Bytes.readNat?_littleEndian _ hlength]
  exact readSlots?_flatMap m.buffer

/-- The payload of a machine is read back as its own next step. -/
theorem decode?_machinePayload (h : m.machinePayload = .ok payload) :
    ∃ proof, StepProof.decode? payload = some proof ∧ m.stepProof = .ok proof := by
  rw [machinePayload] at h
  cases hproof : m.stepProof with
  | error e => simp [hproof, Except.map] at h
  | ok proof =>
      rw [hproof] at h
      obtain rfl : proof.encode = payload := Except.ok.inj h
      exact ⟨proof, proof.decode?_encode, rfl⟩

/-- A machine has a step to prove exactly when it runs and its program goes on. -/
theorem stepProof_eq_ok_iff {proof : StepProof} :
    m.stepProof = .ok proof ↔
      m.halted = false ∧ ∃ i, m.next? = some i ∧
        proof = ⟨m.pc, m.register, m.inboxPosition, i, m.bufferHash, m.consumed? i⟩ := by
  unfold stepProof
  cases hi : m.next? with
  | none => simp
  | some i => cases hh : m.halted <;> simp [eq_comm]

theorem stepProof_eq_ok {proof : StepProof} (h : m.stepProof = .ok proof) :
    proof.pc = m.pc ∧ m.halted = false ∧ m.next? = some proof.instruction := by
  obtain ⟨hhalted, i, hi, rfl⟩ := stepProof_eq_ok_iff.mp h
  exact ⟨rfl, hhalted, hi⟩

theorem exists_machinePayload {i : Instruction} (hhalted : m.halted = false)
    (hi : m.next? = some i) : ∃ payload, m.machinePayload = .ok payload := by
  simp [machinePayload, stepProof, hi, hhalted, Except.map]

end Machine

end TraceDispute
