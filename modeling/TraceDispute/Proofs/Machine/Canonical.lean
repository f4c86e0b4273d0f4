import TraceDispute.Machine.Execute
import TraceDispute.Proofs.Machine.Payload

/-!
# One byte string for each payload

`Proofs.Machine.Payload` reads back what was written.  Here is the converse: a
reader accepts what its writer produces and nothing else, so each step proof and
each side buffer has a single byte string that is read as it
(`StepProof.decode?_eq_some_iff`, `decodeBuffer?_eq_some_iff`).

Two layouts have no fixed width, the operand of an instruction and the optional
digest.  Both announce their width before it is needed, by the kind and by the
tag, and the statement about each reader carries the bytes it leaves over, so the
fields of a payload are taken off the front one after the other.

A machine has a payload exactly when it has a step to make, and the payload tells
that step (`payloads_have_one_reading`).
-/

namespace TraceDispute

namespace Bytes

variable {bytes rest : Bytes} {n width : Nat}

/-! ## Numbers and words -/

theorem ofLittleEndian_lt (bytes : Bytes) : ofLittleEndian bytes < Nat.pow 256 bytes.length := by
  induction bytes with
  | nil => exact Nat.one_pos
  | cons b bs ih =>
      have hb := b.toNat_lt
      have hpow : Nat.pow 256 (bs.length + 1) = 256 * Nat.pow 256 bs.length := Nat.mul_comm _ _
      rw [ofLittleEndian, List.length_cons, hpow]
      omega

/-- A number of as many bytes as it was read from is laid out as these bytes. -/
theorem littleEndian_ofLittleEndian (bytes : Bytes) :
    littleEndian bytes.length (ofLittleEndian bytes) = bytes := by
  induction bytes with
  | nil => rfl
  | cons b bs ih =>
      have hb := b.toNat_lt
      have hlow : UInt8.ofNat (b.toNat + 256 * ofLittleEndian bs) = b := by
        rw [← UInt8.toNat_inj, UInt8.toNat_ofNat']
        omega
      have hhigh : (b.toNat + 256 * ofLittleEndian bs) / 256 = ofLittleEndian bs := by
        omega
      rw [List.length_cons, ofLittleEndian, littleEndian, hlow, hhigh, ih]

theorem take?_eq_some_iff {field : Bytes} :
    take? n bytes = some (field, rest) ↔ field.length = n ∧ bytes = field ++ rest := by
  constructor
  · intro h
    unfold take? at h
    split at h
    · rename_i hle
      obtain ⟨rfl, rfl⟩ := Prod.mk.inj (Option.some.inj h)
      exact ⟨List.length_take_of_le hle, (List.take_append_drop n bytes).symm⟩
    · cases h
  · rintro ⟨hlength, rfl⟩
    exact take?_append rest hlength

theorem readNat?_eq_some_iff :
    readNat? width bytes = some (n, rest) ↔
      n < Nat.pow 256 width ∧ bytes = littleEndian width n ++ rest := by
  constructor
  · intro h
    obtain ⟨⟨field, rest'⟩, htake, hpair⟩ := Option.map_eq_some_iff.mp h
    obtain ⟨rfl, rfl⟩ := Prod.mk.inj hpair
    obtain ⟨rfl, rfl⟩ := take?_eq_some_iff.mp htake
    exact ⟨ofLittleEndian_lt field, by rw [littleEndian_ofLittleEndian]⟩
  · rintro ⟨hlt, rfl⟩
    exact readNat?_littleEndian rest hlt

theorem readUInt64?_eq_some_iff {x : UInt64} :
    readUInt64? bytes = some (x, rest) ↔ bytes = littleEndian 8 x.toNat ++ rest := by
  constructor
  · intro h
    obtain ⟨⟨n, rest'⟩, hread, hpair⟩ := Option.map_eq_some_iff.mp h
    obtain ⟨rfl, rfl⟩ := Prod.mk.inj hpair
    obtain ⟨hlt, rfl⟩ := readNat?_eq_some_iff.mp hread
    have hword : (UInt64.ofNat n).toNat = n := UInt64.toNat_ofNat_of_lt' hlt
    rw [hword]
  · rintro rfl
    exact readUInt64?_littleEndian rest x

theorem readWord?_eq_some_iff {w : Word} :
    readWord? bytes = some (w, rest) ↔ bytes = w.bytes ++ rest := by
  constructor
  · intro h
    unfold readWord? at h
    split at h
    · rename_i field rest' htake
      obtain ⟨hlength, rfl⟩ := take?_eq_some_iff.mp htake
      obtain ⟨w', hw', hpair⟩ := Option.map_eq_some_iff.mp h
      obtain ⟨rfl, rfl⟩ := Prod.mk.inj hpair
      rw [Word.ofBytes?, dif_pos hlength] at hw'
      rw [← Option.some.inj hw']
    · cases h
  · rintro rfl
    exact readWord?_bytes rest w

end Bytes

/-! ## Layouts without a fixed width -/

/-- An instruction is read off its own bytes and no others: the kind says how many bytes of
operand follow. -/
theorem Instruction.read?_eq_some_iff {bytes rest : Bytes} {i : Instruction} :
    Instruction.read? bytes = some (i, rest) ↔ bytes = i.encode ++ rest := by
  constructor
  · intro h
    unfold Instruction.read? at h
    -- one case for each kind, in the order of their numbers
    split at h
    case h_1 tail hkind =>
      obtain ⟨⟨value, tail'⟩, hvalue, hpair⟩ := Option.map_eq_some_iff.mp h
      obtain ⟨rfl, rfl⟩ := Prod.mk.inj hpair
      rw [(Bytes.readNat?_eq_some_iff.mp hkind).2, Bytes.readUInt64?_eq_some_iff.mp hvalue,
        ← List.append_assoc]
      rfl
    case h_2 tail hkind =>
      obtain ⟨⟨value, tail'⟩, hvalue, hpair⟩ := Option.map_eq_some_iff.mp h
      obtain ⟨rfl, rfl⟩ := Prod.mk.inj hpair
      rw [(Bytes.readNat?_eq_some_iff.mp hkind).2, Bytes.readUInt64?_eq_some_iff.mp hvalue,
        ← List.append_assoc]
      rfl
    case h_6 tail hkind =>
      obtain ⟨⟨slot, tail'⟩, hslot, hpair⟩ := Option.map_eq_some_iff.mp h
      obtain ⟨rfl, rfl⟩ := Prod.mk.inj hpair
      obtain ⟨hlt, rfl⟩ := Bytes.readNat?_eq_some_iff.mp hslot
      have hword : (UInt16.ofNat slot).toNat = slot := UInt16.toNat_ofNat_of_lt' hlt
      rw [(Bytes.readNat?_eq_some_iff.mp hkind).2, ← List.append_assoc, encode, operand, hword]
      rfl
    case h_8 => cases h
    all_goals
      rename_i tail hkind
      obtain ⟨rfl, rfl⟩ := Prod.mk.inj (Option.some.inj h)
      exact (Bytes.readNat?_eq_some_iff.mp hkind).2
  · rintro rfl
    exact i.read?_encode rest

theorem StepProof.readOption?_eq_some_iff {bytes rest : Bytes} {w : Option Word} :
    readOption? bytes = some (w, rest) ↔ bytes = encodeOption w ++ rest := by
  constructor
  · intro h
    unfold readOption? at h
    split at h
    · obtain ⟨rfl, rfl⟩ := Prod.mk.inj (Option.some.inj h)
      rfl
    · obtain ⟨⟨digest, tail⟩, hdigest, hpair⟩ := Option.map_eq_some_iff.mp h
      obtain ⟨rfl, rfl⟩ := Prod.mk.inj hpair
      rw [Bytes.readWord?_eq_some_iff.mp hdigest]
      rfl
    · cases h
  · rintro rfl
    exact readOption?_encodeOption w rest

/-! ## Whole payloads -/

/-- A step proof is read off its own bytes and no others. -/
theorem StepProof.decode?_eq_some_iff {bytes : Bytes} {p : StepProof} :
    decode? bytes = some p ↔ bytes = p.encode := by
  constructor
  · intro h
    simp only [decode?, Option.bind_eq_bind, Option.bind_eq_some_iff, Prod.exists] at h
    obtain ⟨pc, rest₁, hpc, register, rest₂, hregister, position, rest₃, hposition, i, rest₄, hi,
      digest, rest₅, hdigest, message, rest₆, hmessage, hlast⟩ := h
    -- nothing is left over after the last field
    split at hlast
    · rename_i hempty
      obtain rfl := Option.some.inj hlast
      obtain rfl := List.isEmpty_iff.mp hempty
      rw [Bytes.readUInt64?_eq_some_iff.mp hpc, Bytes.readUInt64?_eq_some_iff.mp hregister,
        Bytes.readUInt64?_eq_some_iff.mp hposition, Instruction.read?_eq_some_iff.mp hi,
        Bytes.readWord?_eq_some_iff.mp hdigest, readOption?_eq_some_iff.mp hmessage]
      simp only [encode, List.append_assoc, List.append_nil]
    · cases hlast
  · rintro rfl
    exact p.decode?_encode

theorem readSlots?_eq_some_iff {n : Nat} {bytes : Bytes} {slots : List UInt64} :
    readSlots? n bytes = some slots ↔
      slots.length = n ∧ bytes = slots.flatMap fun slot => Bytes.littleEndian 8 slot.toNat := by
  constructor
  · intro h
    -- on the slots asked for; nothing may be left over after the last
    induction n generalizing bytes slots with
    | zero =>
        unfold readSlots? at h
        split at h
        · rename_i hempty
          obtain rfl := Option.some.inj h
          exact ⟨rfl, List.isEmpty_iff.mp hempty⟩
        · cases h
    | succ n ih =>
        simp only [readSlots?, Option.bind_eq_bind, Option.bind_eq_some_iff, Prod.exists] at h
        obtain ⟨slot, rest, hslot, slots', hslots', hlist⟩ := h
        obtain rfl := Option.some.inj hlist
        obtain ⟨rfl, rfl⟩ := ih hslots'
        exact ⟨rfl, Bytes.readUInt64?_eq_some_iff.mp hslot⟩
  · rintro ⟨rfl, rfl⟩
    exact readSlots?_flatMap slots

/-- A side buffer is read off its own bytes and no others. -/
theorem decodeBuffer?_eq_some_iff {bytes : Bytes} {m : Machine} :
    decodeBuffer? bytes = some m.buffer ↔ bytes = m.bufferPayload := by
  constructor
  · intro h
    simp only [decodeBuffer?, Option.bind_eq_bind, Option.bind_eq_some_iff, Prod.exists] at h
    obtain ⟨n, rest, hn, hslots⟩ := h
    obtain ⟨rfl, rfl⟩ := readSlots?_eq_some_iff.mp hslots
    exact (Bytes.readNat?_eq_some_iff.mp hn).2
  · rintro rfl
    exact m.decodeBuffer?_bufferPayload

/-! ## What a payload tells of its machine -/

/-- The step proof describes the next step of the machine and the state that it starts from. -/
structure StepProof.Describes (proof : StepProof) (m : Machine) : Prop where
  pc_eq : proof.pc = m.pc
  register_eq : proof.register = m.register
  inboxPosition_eq : proof.inboxPosition = m.inboxPosition
  instruction_eq : m.program[m.pc.toNat]? = some proof.instruction
  bufferHash_eq : proof.bufferHash = keccak (Machine.packBuffer m.buffer)
  /-- There is a digest for a read that has a message, and for nothing else. -/
  message_iff : ∀ digest, proof.message = some digest ↔ proof.instruction = .readInbox ∧
    ∃ message, m.inbox[m.inboxPosition.toNat]? = some message ∧ keccak message = digest

namespace Machine

variable {m : Machine} {i : Instruction}

theorem consumed?_eq_some_iff {digest : Word} :
    m.consumed? i = some digest ↔ i = .readInbox ∧
      ∃ message, m.inbox[m.inboxPosition.toNat]? = some message ∧ keccak message = digest := by
  cases i with
  | readInbox => simp [consumed?, message?]
  | _ => simp [consumed?]

theorem describes_of_stepProof {proof : StepProof} (h : m.stepProof = .ok proof) :
    proof.Describes m := by
  obtain ⟨-, i, hi, rfl⟩ := stepProof_eq_ok_iff.mp h
  exact ⟨rfl, rfl, rfl, hi, rfl, fun digest => consumed?_eq_some_iff⟩

/-- A machine has a step to prove when it has not stopped and stands inside its program;
otherwise it says where it stands. -/
theorem machinePayload_cases (m : Machine) :
    (m.halted = false ∧ m.pc.toNat < m.program.length ∧
        ∃ proof, m.stepProof = .ok proof ∧ m.machinePayload = .ok proof.encode) ∨
      ¬ (m.halted = false ∧ m.pc.toNat < m.program.length) ∧
        m.machinePayload = .error ⟨m.pc⟩ := by
  -- past the end there is no instruction, whether or not the machine still runs
  cases hnext : m.next? with
  | none =>
      have hend : m.program.length ≤ m.pc.toNat := List.getElem?_eq_none_iff.mp hnext
      refine .inr ⟨fun h => not_le.mpr h.2 hend, ?_⟩
      simp [machinePayload, stepProof, hnext, Except.map]
  | some i =>
      have hinside : m.pc.toNat < m.program.length := (List.getElem?_eq_some_iff.mp hnext).1
      cases hhalted : m.halted with
      | true =>
          refine .inr ⟨by simp, ?_⟩
          simp [machinePayload, stepProof, hnext, hhalted, Except.map]
      | false =>
          have hproof := stepProof_eq_ok_iff.mpr ⟨hhalted, i, hnext, rfl⟩
          exact .inl ⟨rfl, hinside, _, hproof, by rw [machinePayload, hproof]; rfl⟩

/-- A machine that is not halted and stands inside its program has a payload, and no other has.
The payload is the one byte string that is read, to its last byte, as a certain description of the
machine's next step; the payload of the side buffer is the one that is read as its slots. -/
theorem payloads_have_one_reading (m : Machine) :
    ((∃ payload, m.machinePayload = .ok payload) ↔
      m.halted = false ∧ m.pc.toNat < m.program.length) ∧
    (∀ e, m.machinePayload = .error e → e = ⟨m.pc⟩) ∧
    (∀ payload, m.machinePayload = .ok payload → ∃ proof : StepProof, proof.Describes m ∧
      ∀ bytes, StepProof.decode? bytes = some proof ↔ bytes = payload) ∧
    ∀ bytes, decodeBuffer? bytes = some m.buffer ↔ bytes = m.bufferPayload := by
  refine ⟨?_, ?_, ?_, fun bytes => decodeBuffer?_eq_some_iff⟩
  · rcases m.machinePayload_cases with ⟨hrunning, hinside, proof, -, hpayload⟩ | ⟨hnot, hpayload⟩
    · exact iff_of_true ⟨_, hpayload⟩ ⟨hrunning, hinside⟩
    · refine iff_of_false ?_ hnot
      rintro ⟨payload, hok⟩
      cases hpayload.symm.trans hok
  · intro e he
    rcases m.machinePayload_cases with ⟨-, -, proof, -, hpayload⟩ | ⟨-, hpayload⟩
    · cases hpayload.symm.trans he
    · exact (Except.error.inj (hpayload.symm.trans he)).symm
  · intro payload hok
    rcases m.machinePayload_cases with ⟨-, -, proof, hproof, hpayload⟩ | ⟨-, hpayload⟩
    · obtain rfl := Except.ok.inj (hpayload.symm.trans hok)
      exact ⟨proof, describes_of_stepProof hproof, fun bytes => StepProof.decode?_eq_some_iff⟩
    · cases hpayload.symm.trans hok

/-- A machine with something in its side buffer, about to read its only message. -/
def loadedReader : Machine where
  program := [.bufferWrite 1, .readInbox, .mul 3]
  inbox := [[9]]
  pc := 1
  register := 5
  buffer := [0, 5]
  program_lt := by decide
  inbox_lt := by decide
  buffer_lt := by decide

theorem loadedReader_payloads_have_one_reading :
    ∃ payload proof, loadedReader.machinePayload = .ok payload ∧
      StepProof.decode? payload = some proof ∧ proof.pc = 1 ∧ proof.register = 5 ∧
      proof.instruction = .readInbox ∧ proof.message = some (keccak [9]) ∧
      decodeBuffer? loadedReader.bufferPayload = some [0, 5] ∧
      loadedReader.stop.machinePayload = .error ⟨1⟩ := by
  obtain ⟨hsucceeds, -, hreads, hbuffer⟩ := payloads_have_one_reading loadedReader
  obtain ⟨payload, hpayload⟩ := hsucceeds.mpr ⟨rfl, by decide⟩
  obtain ⟨proof, hdescribes, hdecode⟩ := hreads payload hpayload
  have hread : proof.instruction = .readInbox :=
    (Option.some.inj hdescribes.instruction_eq).symm
  have hmessage : proof.message = some (keccak [9]) :=
    (hdescribes.message_iff _).mpr ⟨hread, [9], rfl, rfl⟩
  obtain ⟨hstops, hstands, -⟩ := payloads_have_one_reading loadedReader.stop
  have hstopped : loadedReader.stop.machinePayload = .error ⟨1⟩ := by
    cases hfails : loadedReader.stop.machinePayload with
    | error e => rw [hstands e hfails]; rfl
    | ok payload => cases (hstops.mp ⟨payload, hfails⟩).1
  exact ⟨payload, proof, hpayload, (hdecode payload).mpr rfl, hdescribes.pc_eq,
    hdescribes.register_eq, hread, hmessage, (hbuffer _).mpr rfl, hstopped⟩

end Machine

end TraceDispute
