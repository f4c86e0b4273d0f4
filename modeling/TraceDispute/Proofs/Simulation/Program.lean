import TraceDispute.Proofs.Machine.Fault
import TraceDispute.Simulation

/-!
# The simulated programs

The trace repeats a pattern of six instructions that costs sixteen units of gas, so
its gas is a fixed function of its length (`three_mul_gasSum_trace`).  That bounds
the gas of a program whose instructions fit in memory.

The asserter's program differs from the right one in a single instruction of the
same cost (`exists_fault`).  If the register is not one of the two values that
multiplying by five and by seven treat alike, the two programs leave different
registers behind (`Mistake.apart`).
-/

namespace TraceDispute.Simulation

variable {steps : UInt64} {i j : Instruction}

/-! ## Instructions of the program -/

theorem instructionAt_cases (k : Nat) :
    (∃ value, instructionAt k = .add value) ∨ instructionAt k = .mul 5 ∨
      (∃ slot, instructionAt k = .bufferWrite slot) ∨ instructionAt k = .log ∨
      instructionAt k = .send := by
  unfold instructionAt
  split <;> simp

theorem mem_program_cases (h : i ∈ program steps) :
    i = .readInbox ∨ ∃ k, i = instructionAt k := by
  rcases List.mem_append.mp h with h | h
  · exact .inl (List.eq_of_mem_replicate h)
  · obtain ⟨k, -, rfl⟩ := List.mem_map.mp h
    exact .inr ⟨k, rfl⟩

theorem eq_five_of_mul_mem {factor : UInt64} (h : .mul factor ∈ program steps) : factor = 5 := by
  rcases mem_program_cases h with h | ⟨k, h⟩
  · cases h
  · rcases instructionAt_cases k with ⟨_, hk⟩ | hk | ⟨_, hk⟩ | hk | hk <;> simp_all

theorem halt_notMem_program : .halt ∉ program steps := by
  intro h
  rcases mem_program_cases h with h | ⟨k, h⟩
  · cases h
  · rcases instructionAt_cases k with ⟨_, hk⟩ | hk | ⟨_, hk⟩ | hk | hk <;> simp_all

theorem reversible_of_mem_program (h : i ∈ program steps) : i.Reversible := by
  rintro factor rfl
  obtain rfl := eq_five_of_mul_mem h
  exact ⟨0xcccccccccccccccd, by decide⟩

theorem count_readInbox_program : (program steps).count .readInbox = inbox.length := by
  have htrace : .readInbox ∉ (List.range steps.toNat).map instructionAt := by
    intro h
    obtain ⟨k, -, h⟩ := List.mem_map.mp h
    rcases instructionAt_cases k with ⟨_, hk⟩ | hk | ⟨_, hk⟩ | hk | hk <;> simp_all
  rw [program, List.count_append, List.count_replicate_self, List.count_eq_zero.mpr htrace,
    Nat.add_zero]

@[simp] theorem length_program : (program steps).length = inbox.length + steps.toNat := by
  simp [program]

/-! ## The gas of the program -/

/-- What the gas of a trace lacks to eight units for three instructions, by the position in the
pattern at which it ends. -/
def shortfall : Nat → Nat
  | 0 => 0
  | 1 => 5
  | 2 => 4
  | 3 => 0
  | 4 => 2
  | _ => 7

theorem three_mul_gasSum_trace (n : Nat) :
    3 * gasSum ((List.range n).map instructionAt) + shortfall (n % 6) = 8 * n := by
  induction n with
  | zero => rfl
  | succ n ih =>
      have hlast : gasSum [instructionAt n] = (instructionAt n).gasCost.toNat := rfl
      rw [List.range_succ, List.map_append, gasSum_append, List.map_singleton, hlast]
      -- one case for each position in the pattern
      have hcases : n % 6 = 0 ∨ n % 6 = 1 ∨ n % 6 = 2 ∨ n % 6 = 3 ∨ n % 6 = 4 ∨ n % 6 = 5 := by
        omega
      rcases hcases with h | h | h | h | h | h <;>
        simp only [instructionAt, Instruction.gasCost, Nat.add_mod n 1 6, h, shortfall] at ih ⊢ <;>
        simp <;> omega

theorem three_mul_gasSum_program_le (steps : UInt64) :
    3 * gasSum (program steps) ≤ 90 + 8 * steps.toNat := by
  have hreads : gasSum (List.replicate inbox.length .readInbox) = 30 := rfl
  have htrace := three_mul_gasSum_trace steps.toNat
  rw [program, gasSum_append, hreads]
  omega

/-- Three copies of the program's instructions, sixteen bytes each, fit into the lower half of
what 64 bits address: the right program, the wrong one and the one whose gas is counted. -/
def FitsInMemory (steps : UInt64) : Prop :=
  3 * (16 * (program steps).length) < UInt64.size / 2

/-- The gas of a program that fits in memory is less than would be too many chunks. -/
theorem gasSum_lt_chunkLimit (h : FitsInMemory steps) :
    gasSum (program steps) < Segment.chunkLimit := by
  have hgas := three_mul_gasSum_program_le steps
  have hinbox : inbox.length = 3 := rfl
  rw [FitsInMemory, length_program, hinbox] at h
  unfold Segment.chunkLimit
  simp only [UInt64.size] at h ⊢
  omega

/-! ## The fault -/

theorem findFault_eq_some {code : List Instruction} {first f : Nat}
    (h : findFault first code = .ok (some (f, j))) :
    ∃ before i later, code = before ++ i :: later ∧ f = first + before.length ∧
      tamper i = .ok (some j) := by
  -- on the program; what is skipped goes before the instruction that is altered
  induction code generalizing first with
  | nil => cases h
  | cons i code ih =>
      unfold findFault at h
      cases htamper : tamper i with
      | error fault => simp [htamper, bind, Except.bind] at h
      | ok found =>
          cases found with
          | some tampered =>
              simp only [htamper, bind, Except.bind, pure, Except.pure, Except.ok.injEq,
                Option.some.injEq, Prod.mk.injEq] at h
              obtain ⟨rfl, rfl⟩ := h
              exact ⟨[], i, code, rfl, rfl, htamper⟩
          | none =>
              simp only [htamper, bind, Except.bind] at h
              obtain ⟨before, i', later, rfl, hf, hi'⟩ := ih h
              refine ⟨i :: before, i', later, rfl, ?_, hi'⟩
              rw [hf, List.length_cons]
              omega

/-- What tampering makes of an instruction. -/
theorem tamper_eq_some (h : tamper i = .ok (some j)) :
    (∃ value, i = .add value ∧ j = .add (value ^^^ 0xdead)) ∨
      ∃ factor raised, i = .mul factor ∧ Checked.add factor 2 = .ok raised ∧ j = .mul raised := by
  cases i with
  | add value =>
      simp only [tamper, Except.ok.injEq, Option.some.injEq] at h
      exact .inl ⟨value, rfl, h.symm⟩
  | mul factor =>
      cases hsum : Checked.add factor 2 with
      | error fault => simp [tamper, hsum, Except.map] at h
      | ok raised =>
          simp only [tamper, hsum, Except.map, Except.ok.injEq, Option.some.injEq] at h
          exact .inr ⟨factor, raised, rfl, hsum, h.symm⟩
  | _ => simp [tamper] at h

/-- The asserter's instruction `j` instead of the right `i`: another summand, or seven as a factor
instead of five. -/
inductive Mistake : (i j : Instruction) → Prop
  | add (value : UInt64) : Mistake (.add value) (.add (value ^^^ 0xdead))
  | mul : Mistake (.mul 5) (.mul 7)

theorem Mistake.gasCost_eq (h : Mistake i j) : i.gasCost = j.gasCost := by
  cases h <;> rfl

theorem Mistake.ne (h : Mistake i j) : i ≠ j := by
  cases h with
  | add value =>
      intro heq
      have hzero := congrArg (value ^^^ ·) (Instruction.add.inj heq)
      simp at hzero
  | mul => decide

theorem Mistake.ne_of_stops (h : Mistake i j) :
    i ≠ .readInbox ∧ j ≠ .readInbox ∧ j ≠ .halt := by
  cases h <;> simp

/-- The selected instruction stands in the program, and what replaces it is a fault. -/
theorem exists_fault {faultStep : UInt64} {f : Nat}
    (h : selectFault (program steps) faultStep = .ok (some (f, j))) :
    ∃ before i later, program steps = before ++ i :: later ∧ before.length = f ∧ Mistake i j := by
  unfold selectFault at h
  cases hfirst : Checked.add (UInt64.ofNat inbox.length) faultStep with
  | error fault => simp [hfirst, bind, Except.bind] at h
  | ok first =>
      simp only [hfirst, bind, Except.bind] at h
      obtain ⟨between, i, later, hdrop, hf, htamper⟩ := findFault_eq_some h
      have hsplit : program steps =
          ((program steps).take first.toNat ++ between) ++ i :: later := by
        rw [List.append_assoc, ← hdrop, List.take_append_drop]
      -- a search that starts past the end finds nothing
      have hfirst_le : first.toNat ≤ (program steps).length := by
        by_contra hlt
        rw [List.drop_eq_nil_of_le (Nat.le_of_not_le hlt)] at hdrop
        simp at hdrop
      refine ⟨_, i, later, hsplit, ?_, ?_⟩
      · rw [List.length_append, List.length_take, Nat.min_eq_left hfirst_le, hf]
      · rcases tamper_eq_some htamper with ⟨value, rfl, rfl⟩ | ⟨factor, raised, rfl, hsum, rfl⟩
        · exact .add value
        · have hmem : .mul factor ∈ program steps := by
            rw [hsplit]
            simp
          obtain rfl := eq_five_of_mul_mem hmem
          obtain rfl : 7 = raised := Except.ok.inj hsum
          exact .mul

/-- Five and seven times a word are the same for two words only. -/
theorem eq_of_mul_five_eq_mul_seven {x : UInt64} (h : x * 5 = x * 7) :
    x = 0 ∨ x = 0x8000000000000000 := by
  simp only [← UInt64.toNat_inj, UInt64.toNat_mul] at h ⊢
  have hx := x.toNat_lt
  have hfive : (5 : UInt64).toNat = 5 := rfl
  have hseven : (7 : UInt64).toNat = 7 := rfl
  have hzero : (0 : UInt64).toNat = 0 := rfl
  have hhalf : (0x8000000000000000 : UInt64).toNat = 2 ^ 63 := rfl
  rw [hfive, hseven] at h
  rw [hzero, hhalf]
  omega

/-- A fault makes a difference to the register, unless it multiplies one of those two words. -/
theorem Mistake.apart {m n : Machine} (h : Mistake i j) (htwin : m.Twin n)
    (hregister : i = .mul 5 → m.register ≠ 0 ∧ m.register ≠ 0x8000000000000000) :
    (m.perform {} i).1.Apart (n.perform {} j).1 := by
  -- the machines had one register before, so it is the operands that tell them apart
  have hne : (m.perform {} i).1.register ≠ (n.perform {} j).1.register := by
    cases h with
    | add value =>
        intro heq
        have hsame : m.register + value = n.register + (value ^^^ 0xdead) := heq
        rw [← htwin.register_eq] at hsame
        exact (Mistake.add value).ne (congrArg Instruction.add (add_left_cancel hsame))
    | mul =>
        intro heq
        have hsame : m.register * 5 = n.register * 7 := heq
        rw [← htwin.register_eq] at hsame
        rcases eq_of_mul_five_eq_mul_seven hsame with hzero | hhalf
        · exact (hregister rfl).1 hzero
        · exact (hregister rfl).2 hhalf
  cases h with
  | add value => exact ⟨htwin.inbox_eq, htwin.inboxPosition_eq, hne⟩
  | mul => exact ⟨htwin.inbox_eq, htwin.inboxPosition_eq, hne⟩

end TraceDispute.Simulation
