import Mathlib
import TraceDispute.Progress

/-!
# Traces

`Machine.execute` counts gas in words, can be abandoned and is called again and
again from wherever the last call left the machine.  This file describes what it
computes without any of that: a `Point` is a machine together with everything
used and produced since some start, in natural numbers and lists, and
`Point.next?` carries out one instruction, if it completes.

`Point.settle overshoot target p` is the point at which a run from `p` to a gas
target comes to rest.  Two facts make it the right notion for a replay, which
reaches its offsets one after the other:

* `settle_settle`: settling at a target and then at a later one is settling at
  the later one at once;
* `settle_join`: a run that starts counting afresh at a point settles where the
  run that keeps counting does.
-/

namespace TraceDispute

/-! ## Effects and single instructions -/

/-- The effects of one run followed by those of another. -/
def Effects.append (e f : Effects) : Effects where
  gasUsed := e.gasUsed + f.gasUsed
  messagesRead := e.messagesRead + f.messagesRead
  sends := e.sends ++ f.sends
  logs := e.logs ++ f.logs

namespace Machine

variable (m : Machine) (e : Effects) (i : Instruction)

/-- What an instruction does to the machine does not depend on earlier effects,
and its own effects come after them. -/
theorem perform_eq :
    m.perform e i = ((m.perform {} i).1, e.append (m.perform {} i).2) := by
  cases i with
  | readInbox => cases h : m.message? <;> simp [perform, Effects.append, h]
  | _ => simp [perform, Effects.append]

@[simp] theorem gasUsed_perform : (m.perform {} i).2.gasUsed = 0 := by
  cases i with
  | readInbox => cases h : m.message? <;> simp [perform, h]
  | _ => simp [perform]

@[simp] theorem program_perform : (m.perform e i).1.program = m.program := by
  cases i with
  | readInbox => cases h : m.message? <;> simp [perform, h, stop, advance]
  | _ => simp [perform, stop, advance]

@[simp] theorem inbox_perform : (m.perform e i).1.inbox = m.inbox := by
  cases i with
  | readInbox => cases h : m.message? <;> simp [perform, h, stop, advance]
  | _ => simp [perform, stop, advance]

variable {m e i}

theorem pc_perform (h : (m.perform e i).1.halted = false) :
    (m.perform e i).1.pc = m.pc + 1 := by
  cases i with
  | readInbox => cases hm : m.message? <;> simp_all [perform, stop, advance]
  | _ => simp_all [perform, stop, advance]

/-- An instruction that stops the machine does nothing else. -/
theorem perform_of_halted (hm : m.halted = false) (h : (m.perform {} i).1.halted = true) :
    m.perform e i = (m.stop, e) := by
  cases i with
  | readInbox => cases hmessage : m.message? <;> simp_all [perform, stop, advance]
  | _ => simp_all [perform, stop, advance]

theorem gasCost_pos (h : (m.perform e i).1.halted = false) :
    0 < i.gasCost.toNat := by
  cases i <;> simp_all [perform, stop, Instruction.gasCost]

/-- Every message read moves the inbox position on by one. -/
theorem inboxPosition_perform :
    (m.perform {} i).1.inboxPosition.toNat =
      m.inboxPosition.toNat + (m.perform {} i).2.messagesRead.toNat := by
  cases i with
  | readInbox =>
      cases hm : m.message? with
      | none => simp [perform, hm, stop]
      | some message =>
          have hlt : m.inboxPosition.toNat < m.inbox.length :=
            (List.getElem?_eq_some_iff.mp hm).1
          have hsize := m.inbox_lt
          simp only [perform, hm, advance, UInt64.toNat_add]
          simp only [UInt64.size] at hsize
          simp
          omega
  | _ => simp [perform, stop, advance]

theorem length_sends_perform : (m.perform {} i).2.sends.size ≤ 1 := by
  cases i with
  | readInbox => cases hm : m.message? <;> simp [perform, hm]
  | _ => simp [perform]

theorem length_logs_perform : (m.perform {} i).2.logs.size ≤ 1 := by
  cases i with
  | readInbox => cases hm : m.message? <;> simp [perform, hm]
  | _ => simp [perform]

theorem pc_lt (h : m.next? = some i) : m.pc.toNat < m.program.length :=
  (List.getElem?_eq_some_iff.mp h).1

theorem pc_succ (h : m.next? = some i) : (m.pc + 1).toNat = m.pc.toNat + 1 := by
  have hpc := pc_lt h
  have hsize := m.program_lt
  simp only [UInt64.size] at hsize
  rw [UInt64.toNat_add]
  simp
  omega

theorem drop_pc (h : m.next? = some i) :
    m.program.drop m.pc.toNat = i :: m.program.drop (m.pc + 1).toNat := by
  obtain ⟨hlt, hget⟩ := List.getElem?_eq_some_iff.mp h
  rw [List.drop_eq_getElem_cons hlt, hget, pc_succ h]

theorem drop_pc_of_none (h : m.next? = none) : m.program.drop m.pc.toNat = [] :=
  List.drop_eq_nil_of_le (List.getElem?_eq_none_iff.mp h)

end Machine

/-! ## Points -/

/-- A point of a trace: a machine, and what was used and produced on the way to it. -/
@[ext] structure Point where
  machine : Machine
  gas : Nat
  /-- The number of messages read. -/
  reads : Nat
  sends : List Bytes
  logs : List Bytes

namespace Point

/-- The point at which counting starts. -/
def start (m : Machine) : Point := ⟨m, 0, 0, [], []⟩

/-- The point reached from `p` by what led from a start to `q`. -/
def join (p q : Point) : Point where
  machine := q.machine
  gas := p.gas + q.gas
  reads := p.reads + q.reads
  sends := p.sends ++ q.sends
  logs := p.logs ++ q.logs

/-- The point after an instruction that completes. -/
def after (p : Point) (i : Instruction) : Point where
  machine := (p.machine.perform {} i).1
  gas := p.gas + i.gasCost.toNat
  reads := p.reads + (p.machine.perform {} i).2.messagesRead.toNat
  sends := p.sends ++ (p.machine.perform {} i).2.sends.toList
  logs := p.logs ++ (p.machine.perform {} i).2.logs.toList

/-- The point after the next instruction, if there is one and it completes. -/
def next? (p : Point) : Option Point :=
  if p.machine.halted then none
  else
    match p.machine.next? with
    | none => none
    | some i => if (p.after i).machine.halted then none else some (p.after i)

/-- Everything that a single step can do. -/
theorem next?_eq_some_iff {p q : Point} :
    p.next? = some q ↔
      p.machine.halted = false ∧
        ∃ i, p.machine.next? = some i ∧ (p.after i).machine.halted = false ∧ q = p.after i := by
  unfold next?
  cases hh : p.machine.halted with
  | true => simp
  | false =>
      cases hi : p.machine.next? with
      | none => simp
      | some i =>
          cases ha : (p.after i).machine.halted with
          | true => simp [ha]
          | false => simp [ha, eq_comm (a := q)]

@[simp] theorem gas_start (m : Machine) : (start m).gas = 0 := rfl

@[simp] theorem machine_start (m : Machine) : (start m).machine = m := rfl

@[simp] theorem gas_after (p : Point) (i : Instruction) :
    (p.after i).gas = p.gas + i.gasCost.toNat := rfl

theorem next?_of_halted {p : Point} (h : p.machine.halted = true) : p.next? = none := by
  simp [next?, h]

/-- The number of instructions between the machine and the end of its program. -/
def left (p : Point) : Nat := p.machine.program.length - p.machine.pc.toNat

theorem left_lt {p q : Point} (h : p.next? = some q) : q.left < p.left := by
  obtain ⟨-, i, hi, ha, rfl⟩ := next?_eq_some_iff.mp h
  have hpc : (p.after i).machine.pc = p.machine.pc + 1 := Machine.pc_perform ha
  have hprogram : (p.after i).machine.program = p.machine.program :=
    Machine.program_perform ..
  have hlt := Machine.pc_lt hi
  have hsucc := Machine.pc_succ hi
  unfold left
  rw [hpc, hprogram, hsucc]
  omega

/-- Where a run from `p` to a gas target comes to rest.  With `overshoot` the
instruction that crosses the target is the last one carried out, without it the
run rests before that instruction. -/
def settle (overshoot : Bool) (target : Nat) (p : Point) : Point :=
  if p.gas < target then
    match _h : p.next? with
    | none => p
    | some q => if overshoot ∨ q.gas ≤ target then settle overshoot target q else p
  else p
termination_by p.left
decreasing_by exact left_lt _h

end Point

/-- Where a run from `m` to a gas target comes to rest. -/
abbrev Machine.restAt (m : Machine) (overshoot : Bool) (target : Nat) : Point :=
  (Point.start m).settle overshoot target

namespace Point

/-! ## Where a run comes to rest -/

variable {overshoot : Bool} {target later : Nat} {p q : Point}

theorem settle_of_le (h : target ≤ p.gas) : p.settle overshoot target = p := by
  rw [settle, if_neg (not_lt.mpr h)]

theorem settle_of_none (h : p.next? = none) : p.settle overshoot target = p := by
  rw [settle]
  split
  · split
    · rfl
    · simp_all
  · rfl

theorem settle_of_some (h : p.next? = some q) (hgas : p.gas < target) :
    p.settle overshoot target =
      if overshoot ∨ q.gas ≤ target then q.settle overshoot target else p := by
  rw [settle, if_pos hgas]
  split
  · simp_all
  · obtain rfl : _ = q := by simpa [h] using (‹p.next? = some _›).symm
    rfl

/-- What every step preserves holds where a run comes to rest. -/
theorem settle_induction {motive : Point → Prop}
    (step : ∀ p q, p.next? = some q → motive p → motive q) (h : motive p) :
    motive (p.settle overshoot target) := by
  fun_induction settle overshoot target p with
  | case1 => exact h
  | case2 p _ q hnext _ ih => exact ih (step p q hnext h)
  | case3 => exact h
  | case4 => exact h

/-- Settling at a target and then at a later one is settling at the later one. -/
theorem settle_settle (h : target ≤ later) :
    (p.settle overshoot target).settle overshoot later = p.settle overshoot later := by
  fun_induction settle overshoot target p with
  | case1 => rfl
  | case2 p hgas q hnext hgo ih =>
      rw [ih, settle_of_some hnext (hgas.trans_le h), if_pos]
      exact hgo.imp_right fun hq => hq.trans h
  | case3 => rfl
  | case4 => rfl

theorem gas_lt_of_next? (h : p.next? = some q) : p.gas < q.gas := by
  obtain ⟨-, i, -, ha, rfl⟩ := next?_eq_some_iff.mp h
  exact Nat.lt_add_of_pos_right (Machine.gasCost_pos ha)

theorem gas_le_settle : p.gas ≤ (p.settle overshoot target).gas :=
  settle_induction (motive := fun q => p.gas ≤ q.gas)
    (fun _ _ hnext hle => hle.trans (gas_lt_of_next? hnext).le) le_rfl

theorem gas_settle_mono (h : target ≤ later) :
    (p.settle overshoot target).gas ≤ (p.settle overshoot later).gas := by
  rw [← settle_settle h]
  exact gas_le_settle

/-- A run with overshoot rests at its target or past it, unless the trace ends. -/
theorem le_gas_settle_of_next? (h : (p.settle true target).next? = some q) :
    target ≤ (p.settle true target).gas := by
  fun_induction settle true target p with
  | case1 p _ hnext => simp [hnext] at h
  | case2 p _ _ _ _ ih => exact ih h
  | case3 p _ _ _ hgo => simp at hgo
  | case4 p hgas => exact not_lt.mp hgas

/-- A run without overshoot rests where the next step would go past the target. -/
theorem lt_gas_of_next?_settle (h : (p.settle false target).next? = some q) : target < q.gas := by
  fun_induction settle false target p with
  | case1 p _ hnext => simp [hnext] at h
  | case2 p _ _ _ _ ih => exact ih h
  | case3 p _ r hnext hgo =>
      obtain rfl : r = q := by simpa [hnext] using h
      simpa using hgo
  | case4 p hgas => exact (not_lt.mp hgas).trans_lt (gas_lt_of_next? h)

/-- At most one instruction separates the points at two neighbouring targets. -/
theorem settle_succ_of_settled (h : p.settle overshoot target = p) :
    p.settle overshoot (target + 1) =
      match p.next? with
      | none => p
      | some q =>
        if p.gas ≤ target ∧ (overshoot ∨ q.gas ≤ target + 1) then q else p := by
  cases hnext : p.next? with
  | none => exact settle_of_none hnext
  | some q =>
      by_cases hgas : p.gas ≤ target
      · rw [settle_of_some hnext (by omega)]
        -- the step from `p` was not taken at `target`, so it leads past it
        have hpast : target < q.gas := by
          cases overshoot with
          | true =>
              have hle := le_gas_settle_of_next? (h.symm ▸ hnext)
              have hlt := gas_lt_of_next? hnext
              rw [h] at hle
              omega
          | false => exact lt_gas_of_next?_settle (h.symm ▸ hnext)
        simp only [hgas, true_and]
        split
        · exact settle_of_le hpast
        · rfl
      · rw [settle_of_le (by omega)]
        simp [hgas]

/-! ## What a trace keeps -/

theorem reads_le_settle : p.reads ≤ (p.settle overshoot target).reads := by
  refine settle_induction (motive := fun q => p.reads ≤ q.reads) ?_ le_rfl
  intro q r hnext hle
  obtain ⟨-, i, -, -, rfl⟩ := next?_eq_some_iff.mp hnext
  exact hle.trans (Nat.le_add_right _ _)

/-- Counters that stay behind the positions of the machine, so that they fit in a word. -/
structure Behind (p : Point) : Prop where
  reads_le : p.reads ≤ p.machine.inboxPosition.toNat
  sends_le : p.sends.length ≤ p.machine.pc.toNat
  logs_le : p.logs.length ≤ p.machine.pc.toNat

theorem behind_start (m : Machine) : (start m).Behind :=
  ⟨Nat.zero_le _, Nat.zero_le _, Nat.zero_le _⟩

theorem Behind.reads_lt (h : p.Behind) : p.reads < UInt64.size :=
  h.reads_le.trans_lt (UInt64.toNat_lt _)

theorem Behind.sends_lt (h : p.Behind) : p.sends.length < UInt64.size :=
  h.sends_le.trans_lt (UInt64.toNat_lt _)

theorem Behind.logs_lt (h : p.Behind) : p.logs.length < UInt64.size :=
  h.logs_le.trans_lt (UInt64.toNat_lt _)

theorem Behind.next? (hp : p.Behind) (h : p.next? = some q) : q.Behind := by
  obtain ⟨-, i, hi, ha, rfl⟩ := next?_eq_some_iff.mp h
  have hpc : (p.after i).machine.pc.toNat = p.machine.pc.toNat + 1 := by
    rw [← Machine.pc_succ hi]
    exact congrArg _ (Machine.pc_perform ha)
  -- one step reads, sends or logs once at most, and moves the counter by one
  refine ⟨?_, ?_, ?_⟩
  · exact (Nat.add_le_add_right hp.reads_le _).trans_eq Machine.inboxPosition_perform.symm
  · rw [hpc]
    simp only [after, List.length_append, Array.length_toList]
    exact Nat.add_le_add hp.sends_le Machine.length_sends_perform
  · rw [hpc]
    simp only [after, List.length_append, Array.length_toList]
    exact Nat.add_le_add hp.logs_le Machine.length_logs_perform

theorem behind_settle (hp : p.Behind) : (p.settle overshoot target).Behind :=
  settle_induction (fun _ _ hnext hp => hp.next? hnext) hp

/-! ## Counting from another start -/

theorem next?_join (p q : Point) : (p.join q).next? = q.next?.map p.join := by
  have hafter : ∀ i, (p.join q).after i = p.join (q.after i) := by
    intro i
    simp [join, after, Nat.add_assoc]
  simp only [next?, hafter]
  cases hh : q.machine.halted with
  | true => simp [join, hh]
  | false =>
      cases hi : q.machine.next? with
      | none => simp [join, hh, hi]
      | some i => cases ha : (q.after i).machine.halted <;> simp [join, hh, hi, ha]

@[simp] theorem machine_join (p q : Point) : (p.join q).machine = q.machine := rfl

@[simp] theorem join_start (p : Point) : p.join (start p.machine) = p := by
  simp [join, start]

/-- A run that counts afresh from `p` settles where the run that keeps counting does. -/
theorem settle_join (p q : Point) (target : Nat) :
    (p.join q).settle overshoot (p.gas + target) = p.join (q.settle overshoot target) := by
  -- along the later run: whether it goes on depends on the gas left, which the join does not change
  fun_induction settle overshoot target q with
  | case1 q _ hnext => exact settle_of_none (by simp [next?_join, hnext])
  | case2 q hgas r hnext hgo ih =>
      rw [settle_of_some (q := p.join r) (by simp [next?_join, hnext]) (Nat.add_lt_add_left hgas _),
        if_pos, ih]
      exact hgo.imp_right fun hle => Nat.add_le_add_left hle _
  | case3 q hgas r hnext hgo =>
      rw [settle_of_some (q := p.join r) (by simp [next?_join, hnext]) (Nat.add_lt_add_left hgas _),
        if_neg]
      simpa [join] using hgo
  | case4 q hgas => exact settle_of_le (Nat.add_le_add_left (not_lt.mp hgas) _)

end Point

namespace Machine

variable {m : Machine} {overshoot : Bool} {target later : Nat}

theorem restAt_of_none (h : target ≤ later) (hnone : (m.restAt overshoot target).next? = none) :
    m.restAt overshoot later = m.restAt overshoot target := by
  rw [restAt, ← Point.settle_settle h]
  exact Point.settle_of_none hnone

/-- At most one instruction separates the points at which neighbouring runs rest. -/
theorem restAt_succ_cases (m : Machine) (overshoot : Bool) (target : Nat) :
    m.restAt overshoot (target + 1) = m.restAt overshoot target ∨
      (m.restAt overshoot target).next? = some (m.restAt overshoot (target + 1)) := by
  -- a unit more is at most one step more, as every step costs something
  have hsettled : (m.restAt overshoot target).settle overshoot target =
      m.restAt overshoot target := Point.settle_settle le_rfl
  have hsucc := Point.settle_succ_of_settled hsettled
  rw [Point.settle_settle (Nat.le_succ target)] at hsucc
  cases hnext : (m.restAt overshoot target).next? with
  | none =>
      simp only [hnext] at hsucc
      exact .inl hsucc
  | some q =>
      simp only [hnext] at hsucc
      split at hsucc
      · exact .inr (congrArg some hsucc.symm)
      · exact .inl hsucc

theorem restAt_of_le_gas (h : target ≤ later) (hgas : later ≤ (m.restAt overshoot target).gas) :
    m.restAt overshoot later = m.restAt overshoot target := by
  rw [restAt, ← Point.settle_settle h]
  exact Point.settle_of_le hgas

end Machine

end TraceDispute
