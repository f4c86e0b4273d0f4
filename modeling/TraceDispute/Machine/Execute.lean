import TraceDispute.Machine.Basic

/-!
# Running the machine

`Machine.execute` runs until a gas target is met or the machine stops.  An
instruction that crosses the target is carried out when `overshoot` is set;
otherwise the machine stands before it.

A machine stops at a halt, at a read with no message left, and past the end of
its program.  A stopping instruction costs nothing and does not advance.
-/

namespace TraceDispute

/-- What a run of the machine brought about. -/
structure Effects where
  gasUsed : UInt64 := 0
  messagesRead : UInt64 := 0
  /-- Outgoing messages, in order. -/
  sends : Array Bytes := #[]
  /-- Log entries, in order. -/
  logs : Array Bytes := #[]
deriving DecidableEq

namespace Machine

/-- Stops the machine where it stands. -/
def stop (m : Machine) : Machine := { m with halted := true }

/-- Moves on to the next instruction. -/
def advance (m : Machine) : Machine := { m with pc := m.pc + 1 }

/-- The slot a write really goes to: all slots past the last share it. -/
def clampSlot (slot : UInt16) : Nat := min slot.toNat (maxBufferSlots - 1)

/-- Stores a value in a slot, filling up with zeros to reach it. -/
def writeSlot (buffer : List UInt64) (slot : Nat) (value : UInt64) : List UInt64 :=
  (buffer ++ List.replicate (slot + 1 - buffer.length) 0).set slot value

@[simp] theorem length_writeSlot (buffer : List UInt64) (slot : Nat) (value : UInt64) :
    (writeSlot buffer slot value).length = max buffer.length (slot + 1) := by
  simp [writeSlot]; omega

theorem length_writeSlot_lt {buffer : List UInt64} (h : buffer.length < UInt64.size)
    (slot : UInt16) (value : UInt64) :
    (writeSlot buffer (clampSlot slot) value).length < UInt64.size := by
  have hslot : clampSlot slot + 1 ≤ maxBufferSlots := by
    unfold clampSlot maxBufferSlots
    omega
  rw [length_writeSlot]
  exact Nat.max_lt.mpr ⟨h, Nat.lt_of_le_of_lt hslot (by decide)⟩

/-- The register after a message is mixed in: the digest's first eight bytes. -/
def mixMessage (register : UInt64) (message : Bytes) : UInt64 :=
  register ^^^ Bytes.toUInt64 ((keccak message).bytes.take 8)

/-- Carries out one instruction, adding what it does to `e`; the gas is not
charged here.  A machine that the instruction stops is left where it stands. -/
def perform (m : Machine) (e : Effects) : Instruction → Machine × Effects
  | .add value => ({ m with register := m.register + value }.advance, e)
  | .mul value => ({ m with register := m.register * value }.advance, e)
  | .readInbox =>
    match m.message? with
    | none => (m.stop, e)
    | some message =>
      ({ m with
          register := mixMessage m.register message
          inboxPosition := m.inboxPosition + 1 }.advance,
        { e with messagesRead := e.messagesRead + 1 })
  | .send => (m.advance, { e with sends := e.sends.push (Bytes.ofUInt64 m.register) })
  | .log => (m.advance, { e with logs := e.logs.push (Bytes.ofUInt64 m.register) })
  | .bufferWrite slot =>
    ({ m with
        buffer := writeSlot m.buffer (clampSlot slot) m.register
        buffer_lt := length_writeSlot_lt m.buffer_lt slot m.register }.advance, e)
  | .halt => (m.stop, e)

/-- Whether a run to `target` tries an instruction.  Without overshoot the
instruction has to fit before it is tried. -/
def fits (target : UInt64) (overshoot : Bool) (e : Effects) (i : Instruction) : Checked Bool :=
  if overshoot then .ok true
  else do
    let gas ← Checked.add e.gasUsed i.gasCost
    return decide (gas ≤ target)

/-- Runs a machine that is not stopped through `code`, what is left of its
program, on top of the effects so far.  An instruction is carried out by `step`. -/
@[specialize]
def runWith {M : Type → Type} [Monad M] [MonadLiftT Checked M]
    (step : Machine → Effects → Instruction → M (Machine × Effects))
    (target : UInt64) (overshoot : Bool) :
    List Instruction → Machine → Effects → M (Machine × Effects)
  | [], m, e => if e.gasUsed < target then pure (m.stop, e) else pure (m, e)
  | i :: code, m, e =>
    if e.gasUsed < target then do
      if ← fits target overshoot e i then
        let (m', e') ← step m e i
        if m'.halted then pure (m', e')
        else do
          let gas ← Checked.add e'.gasUsed i.gasCost
          runWith step target overshoot code m' { e' with gasUsed := gas }
      else pure (m, e)
    else pure (m, e)

/-- Runs a machine that is not stopped through what is left of its program. -/
def run (target : UInt64) (overshoot : Bool) (code : List Instruction) (m : Machine)
    (e : Effects) : Checked (Machine × Effects) :=
  runWith (fun m e i => pure (m.perform e i)) target overshoot code m e

/-- Runs the machine until `target` gas is used or it stops. -/
def execute (m : Machine) (target : UInt64) (overshoot : Bool) : Checked (Machine × Effects) :=
  if m.halted then .ok (m, {}) else run target overshoot (m.program.drop m.pc.toNat) m {}

@[simp] theorem execute_of_halted {m : Machine} (h : m.halted = true) (target : UInt64)
    (overshoot : Bool) : m.execute target overshoot = .ok (m, {}) := by
  simp [execute, h]

end Machine

end TraceDispute
