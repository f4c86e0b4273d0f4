import TraceDispute.Proofs.Machine.Completion

/-!
# A difference that does not go away

Machines that have read the same messages and hold different values in their
registers are `Apart`.  Carrying out the same instruction keeps them apart: a sum
and an exclusive or can be undone, and so can a product by a factor that has an
inverse modulo `2 ^ 64` (`Instruction.Reversible`).  So a difference made by one
instruction is still there after any number of such instructions.
-/

namespace TraceDispute

/-- The instruction can be undone as far as the register goes: a factor has an inverse. -/
def Instruction.Reversible (i : Instruction) : Prop :=
  ∀ factor, i = .mul factor → ∃ inverse, factor * inverse = 1

namespace Machine

/-- Machines that have read the same messages of the same inbox, with different values in
their registers. -/
structure Apart (m n : Machine) : Prop where
  inbox_eq : m.inbox = n.inbox
  inboxPosition_eq : m.inboxPosition = n.inboxPosition
  register_ne : m.register ≠ n.register

variable {m n : Machine} {i : Instruction} {code : List Instruction}

theorem mul_left_injective_of_inverse {factor inverse : UInt64} (h : factor * inverse = 1)
    {x y : UInt64} (heq : x * factor = y * factor) : x = y := by
  calc x
      = x * factor * inverse := by rw [mul_assoc, h, mul_one]
    _ = y * factor * inverse := by rw [heq]
    _ = y := by rw [mul_assoc, h, mul_one]

theorem mixMessage_injective (message : Bytes) {x y : UInt64}
    (h : mixMessage x message = mixMessage y message) : x = y := by
  have hundone := congrArg (mixMessage · message) h
  simpa [mixMessage, UInt64.xor_assoc] using hundone

theorem Apart.perform (h : m.Apart n) (hi : i.Reversible) :
    (m.perform {} i).1.Apart (n.perform {} i).1 := by
  obtain ⟨hinbox, hposition, hne⟩ := h
  have hmessage : m.message? = n.message? := by
    rw [message?, message?, hinbox, hposition]
  -- an instruction that changes the register does so reversibly, and the others leave it alone
  cases i with
  | add value =>
      refine ⟨hinbox, hposition, fun heq => hne ?_⟩
      exact add_right_cancel heq
  | mul factor =>
      obtain ⟨inverse, hinverse⟩ := hi factor rfl
      refine ⟨hinbox, hposition, fun heq => hne ?_⟩
      exact mul_left_injective_of_inverse hinverse heq
  | readInbox =>
      cases hm : m.message? with
      | none =>
          have hn : n.message? = none := hmessage ▸ hm
          simp only [Machine.perform, hm, hn, stop]
          exact ⟨hinbox, hposition, hne⟩
      | some message =>
          have hn : n.message? = some message := hmessage ▸ hm
          simp only [Machine.perform, hm, hn, advance]
          refine ⟨hinbox, by rw [hposition], fun heq => hne ?_⟩
          exact mixMessage_injective message heq
  | send => exact ⟨hinbox, hposition, hne⟩
  | log => exact ⟨hinbox, hposition, hne⟩
  | bufferWrite slot => exact ⟨hinbox, hposition, hne⟩
  | halt => exact ⟨hinbox, hposition, hne⟩

theorem Apart.carryOut (h : m.Apart n) (hcode : ∀ i ∈ code, i.Reversible) :
    (m.carryOut code).Apart (n.carryOut code) := by
  induction code generalizing m n with
  | nil => exact h
  | cons i code ih =>
      obtain ⟨hi, hrest⟩ := List.forall_mem_cons.mp hcode
      exact ih (h.perform hi) hrest

theorem Twin.carryOut (h : m.Twin n) (code : List Instruction) :
    (m.carryOut code).Twin (n.carryOut code) := by
  induction code generalizing m n with
  | nil => exact h
  | cons i code ih => exact ih (h.perform i).1

end Machine

end TraceDispute
