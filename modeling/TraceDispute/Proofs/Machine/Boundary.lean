import TraceDispute.Proofs.Machine.Completion

/-!
# The instruction at which a run stops

`Point.walk k` carries out `k` instructions, one at a time and without a target;
it is there for exactly as long as every one of them completes, and each costs
gas.  A run to a target is a walk that knows when to stop:

* with overshoot after the fewest instructions whose gas reaches the target, or
  where the trace ends if it ends before;
* without overshoot after the most instructions whose gas is within the target.

`Machine.execute_stops_at_boundary` says so of every machine and every target,
with an account of everything that the run leaves behind (`Machine.Performed`)
and of when it leaves the machine stopped.
-/

namespace TraceDispute

namespace Machine

variable {m : Machine} {i : Instruction}

/-- The instructions that stop a machine: a halt, and a read with no message left. -/
theorem halted_perform_iff (hm : m.halted = false) :
    (m.perform {} i).1.halted = true ↔ i = .halt ∨ i = .readInbox ∧ m.message? = none := by
  cases i with
  | readInbox => cases hmessage : m.message? <;> simp [perform, hmessage, stop, advance, hm]
  | _ => simp [perform, stop, advance, hm]

theorem toNat_messagesRead_perform (h : (m.perform {} i).1.halted = false) :
    (m.perform {} i).2.messagesRead.toNat = [i].count .readInbox := by
  cases i with
  | readInbox => cases hmessage : m.message? <;> simp_all [perform, stop, advance]
  | _ => simp [perform]

end Machine

namespace Point

variable {p q r : Point} {j k target : Nat} {overshoot : Bool} {i : Instruction}

/-- The end of a trace: nothing is left of the program, or what comes next stops the machine. -/
theorem next?_eq_none_iff (hp : p.machine.halted = false) :
    p.next? = none ↔
      p.machine.next? = none ∨ p.machine.next? = some .halt ∨
        p.machine.next? = some .readInbox ∧ p.machine.message? = none := by
  unfold next?
  cases hi : p.machine.next? with
  | none => simp
  | some i =>
      simp only [Option.some.injEq, reduceCtorEq, false_or, ← Machine.halted_perform_iff hp]
      cases ha : (p.machine.perform {} i).1.halted <;> simp [hp, after, ha]

theorem halted_of_next? (h : p.next? = some q) : q.machine.halted = false := by
  obtain ⟨-, i, -, ha, rfl⟩ := next?_eq_some_iff.mp h
  exact ha

/-! ## Walking -/

/-- The point after `k` instructions, if so many complete one after the other. -/
def walk : Nat → Point → Option Point
  | 0, p => some p
  | k + 1, p => p.next?.bind (walk k)

@[simp] theorem walk_zero (p : Point) : p.walk 0 = some p := rfl

theorem walk_succ_eq_some_iff :
    p.walk (k + 1) = some r ↔ ∃ q, p.next? = some q ∧ q.walk k = some r :=
  Option.bind_eq_some_iff

theorem walk_add (p : Point) (j k : Nat) : p.walk (j + k) = (p.walk j).bind (walk k) := by
  induction j generalizing p with
  | zero => simp
  | succ j ih =>
      rw [Nat.succ_add]
      simp only [walk]
      cases p.next? with
      | none => rfl
      | some q => exact ih q

/-- What a walk does, from what its first step does and the rest of it. -/
theorem walk_induction {motive : Nat → Point → Point → Prop} (refl : ∀ p, motive 0 p p)
    (step : ∀ p q r k, p.next? = some q → motive k q r → motive (k + 1) p r)
    (h : p.walk k = some r) : motive k p r := by
  induction k generalizing p with
  | zero =>
      obtain rfl := Option.some.inj h
      exact refl p
  | succ k ih =>
      obtain ⟨q, hnext, hwalk⟩ := walk_succ_eq_some_iff.mp h
      exact step p q r k hnext (ih hwalk)

theorem gas_le_of_walk (h : p.walk k = some q) : p.gas ≤ q.gas := by
  refine walk_induction (motive := fun _ p q => p.gas ≤ q.gas) (fun p => le_rfl) ?_ h
  intro p q r k hnext hle
  exact (gas_lt_of_next? hnext).le.trans hle

/-- A longer walk goes on from where a shorter one ends. -/
theorem exists_next?_of_walk_lt (hjk : j < k) (hj : p.walk j = some q) (hk : p.walk k = some r) :
    ∃ s, q.next? = some s ∧ s.gas ≤ r.gas := by
  obtain ⟨d, rfl⟩ := Nat.exists_eq_add_of_lt hjk
  rw [Nat.add_assoc, walk_add, hj, Option.bind_some] at hk
  obtain ⟨s, hnext, hwalk⟩ := walk_succ_eq_some_iff.mp hk
  exact ⟨s, hnext, gas_le_of_walk hwalk⟩

theorem halted_of_walk (hp : p.machine.halted = false) (h : p.walk k = some q) :
    q.machine.halted = false := by
  refine walk_induction (motive := fun _ p q => p.machine.halted = false →
    q.machine.halted = false) (fun p hp => hp) ?_ h hp
  intro p q r k hnext hrest _
  exact hrest (halted_of_next? hnext)

/-- One step takes the first instruction off what is left of the program. -/
theorem remaining_of_next? (h : p.next? = some q) :
    ∃ i, q = p.after i ∧ p.machine.remaining = i :: q.machine.remaining := by
  obtain ⟨-, i, hi, ha, rfl⟩ := next?_eq_some_iff.mp h
  have hremaining : p.machine.remaining = i :: p.machine.program.drop (p.machine.pc + 1).toNat :=
    Machine.drop_pc hi
  have hrest : (p.after i).machine.remaining = p.machine.program.drop (p.machine.pc + 1).toNat :=
    Machine.remaining_perform hremaining ha
  exact ⟨i, rfl, by rw [hremaining, hrest]⟩

/-- A walk of `k` instructions carries out the next `k` instructions of the program. -/
theorem eq_through_of_walk (h : p.walk k = some q) :
    q = p.through (p.machine.remaining.take k) := by
  refine walk_induction (motive := fun k p q => q = p.through (p.machine.remaining.take k))
    (fun p => rfl) ?_ h
  rintro p q r k hnext rfl
  obtain ⟨i, rfl, hremaining⟩ := remaining_of_next? hnext
  rw [hremaining, List.take_succ_cons, through_cons]

theorem gas_of_walk (h : p.walk k = some q) :
    q.gas = p.gas + gasSum (p.machine.remaining.take k) := by
  rw [eq_through_of_walk h, gas_through]

theorem reads_of_walk (h : p.walk k = some q) :
    q.reads = p.reads + (p.machine.remaining.take k).count .readInbox := by
  -- a step counts the message it reads, so the counts add up along the walk
  refine walk_induction
    (motive := fun k p q => q.reads = p.reads + (p.machine.remaining.take k).count .readInbox)
    (fun p => rfl) ?_ h
  intro p q r k hnext hrest
  have hrunning := halted_of_next? hnext
  obtain ⟨i, rfl, hremaining⟩ := remaining_of_next? hnext
  have hread : (p.after i).reads = p.reads + [i].count .readInbox :=
    congrArg (p.reads + ·) (Machine.toNat_messagesRead_perform hrunning)
  have hcount : (p.machine.remaining.take (k + 1)).count .readInbox =
      [i].count .readInbox + ((p.after i).machine.remaining.take k).count .readInbox := by
    rw [hremaining, List.take_succ_cons, ← List.count_append, List.singleton_append]
  rw [hrest, hread, hcount, Nat.add_assoc]

/-- Where a walk leaves a machine: the fixed parts are the same, the position has moved on by
the number of instructions, and the position in the inbox by the number of reads. -/
structure Moved (k : Nat) (p q : Point) : Prop where
  program_eq : q.machine.program = p.machine.program
  inbox_eq : q.machine.inbox = p.machine.inbox
  pc_eq : q.machine.pc.toNat = p.machine.pc.toNat + k
  inboxPosition_eq :
    q.machine.inboxPosition.toNat + p.reads = p.machine.inboxPosition.toNat + q.reads

theorem moved_of_next? (h : p.next? = some q) : Moved 1 p q := by
  obtain ⟨-, i, hi, ha, rfl⟩ := next?_eq_some_iff.mp h
  refine ⟨Machine.program_perform .., Machine.inbox_perform .., ?_, ?_⟩
  · exact (congrArg UInt64.toNat (Machine.pc_perform ha)).trans (Machine.pc_succ hi)
  · have hposition := Machine.inboxPosition_perform (m := p.machine) (i := i)
    simp only [after]
    omega

theorem Moved.trans (h : Moved j p q) (h' : Moved k q r) : Moved (j + k) p r := by
  refine ⟨h'.program_eq.trans h.program_eq, h'.inbox_eq.trans h.inbox_eq, ?_, ?_⟩
  · rw [h'.pc_eq, h.pc_eq, Nat.add_assoc]
  · have hfirst := h.inboxPosition_eq
    have hrest := h'.inboxPosition_eq
    omega

theorem moved_of_walk (h : p.walk k = some q) : Moved k p q := by
  refine walk_induction (motive := Moved) (fun p => ⟨rfl, rfl, rfl, rfl⟩) ?_ h
  intro p q r k hnext hrest
  rw [Nat.add_comm]
  exact (moved_of_next? hnext).trans hrest

/-! ## Where a run stops walking -/

/-- A run comes to rest on the walk, and every earlier point of it is short of the target. -/
theorem exists_walk_settle (overshoot : Bool) (target : Nat) (p : Point) :
    ∃ k, p.walk k = some (p.settle overshoot target) ∧
      ∀ j < k, ∀ q, p.walk j = some q → q.gas < target := by
  -- along `settle`: only the step that it takes makes the walk longer
  fun_induction settle overshoot target p with
  | case1 p _ _ => exact ⟨0, rfl, fun j hj => absurd hj (Nat.not_lt_zero j)⟩
  | case2 p hgas q hnext _ ih =>
      obtain ⟨k, hwalk, hshort⟩ := ih
      refine ⟨k + 1, walk_succ_eq_some_iff.mpr ⟨q, hnext, hwalk⟩, ?_⟩
      intro j hj r hr
      cases j with
      | zero =>
          obtain rfl := Option.some.inj hr
          exact hgas
      | succ j =>
          obtain ⟨s, hs, hwalk'⟩ := walk_succ_eq_some_iff.mp hr
          obtain rfl : q = s := Option.some.inj (hnext.symm.trans hs)
          exact hshort j (Nat.lt_of_succ_lt_succ hj) r hwalk'
  | case3 p _ _ _ _ => exact ⟨0, rfl, fun j hj => absurd hj (Nat.not_lt_zero j)⟩
  | case4 p _ => exact ⟨0, rfl, fun j hj => absurd hj (Nat.not_lt_zero j)⟩

/-- Without overshoot a run that starts within its target stays within it. -/
theorem gas_settle_le (h : p.gas ≤ target) : (p.settle false target).gas ≤ target := by
  fun_induction settle false target p with
  | case1 _ _ _ => exact h
  | case2 _ _ q _ hgo ih => exact ih (by simpa using hgo)
  | case3 _ _ _ _ _ => exact h
  | case4 _ _ => exact h

end Point

namespace Machine

variable {m : Machine} {k : Nat} {target : Nat} {p : Point}

/-- The number of instructions after which a run to `target` stops: with overshoot the least one
at which the target is reached or the trace ends, without it the greatest one whose gas is
within the target. -/
def StopsAfter (m : Machine) (overshoot : Bool) (target k : Nat) : Prop :=
  if overshoot then
    IsLeast {j | ∃ q, (Point.start m).walk j = some q ∧ (target ≤ q.gas ∨ q.next? = none)} k
  else IsGreatest {j | ∃ q, (Point.start m).walk j = some q ∧ q.gas ≤ target} k

/-- Every run stops where it should. -/
theorem exists_stopsAfter (m : Machine) (overshoot : Bool) (target : Nat) :
    ∃ k, (Point.start m).walk k = some (m.restAt overshoot target) ∧
      m.StopsAfter overshoot target k := by
  obtain ⟨k, hwalk, hshort⟩ := Point.exists_walk_settle overshoot target (.start m)
  refine ⟨k, hwalk, ?_⟩
  cases overshoot with
  | true =>
      refine ⟨⟨_, hwalk, ?_⟩, ?_⟩
      · -- it rests at the target or past it, or where no instruction can go on
        rw [or_iff_not_imp_right]
        intro hnext
        obtain ⟨q, hq⟩ := Option.ne_none_iff_exists'.mp hnext
        exact Point.le_gas_settle_of_next? hq
      · rintro j ⟨q, hj, hstop⟩
        by_contra! hlt
        rcases hstop with hreached | hnone
        · exact (hshort j hlt q hj).not_ge hreached
        · obtain ⟨s, hnext, -⟩ := Point.exists_next?_of_walk_lt hlt hj hwalk
          simp [hnone] at hnext
  | false =>
      refine ⟨⟨_, hwalk, Point.gas_settle_le (Nat.zero_le _)⟩, ?_⟩
      rintro j ⟨q, hj, hwithin⟩
      by_contra! hlt
      -- the walk goes on past the resting point, and its next point is past the target
      obtain ⟨s, hnext, hgas⟩ := Point.exists_next?_of_walk_lt hlt hwalk hj
      have hpast := Point.lt_gas_of_next?_settle hnext
      omega

/-- What a run leaves behind that has carried out the next `k` instructions, and these only. -/
structure Performed (m : Machine) (k : Nat) (p : Point) (m' : Machine) (e : Effects) : Prop where
  walk_eq : (Point.start m).walk k = some p
  gasUsed_eq : e.gasUsed.toNat = gasSum (m.remaining.take k)
  messagesRead_eq : e.messagesRead.toNat = (m.remaining.take k).count .readInbox
  sends_eq : e.sends.toList = p.sends
  logs_eq : e.logs.toList = p.logs
  /-- Only the flag may differ from the machine after the last of the instructions. -/
  machine_eq : m' = { p.machine with halted := m'.halted }
  pc_eq : m'.pc.toNat = m.pc.toNat + k
  inboxPosition_eq : m'.inboxPosition.toNat = m.inboxPosition.toNat + e.messagesRead.toNat
  program_eq : m'.program = m.program
  inbox_eq : m'.inbox = m.inbox

theorem performed_of_walk (h : (Point.start m).walk k = some p) (hgas : p.gas < UInt64.size)
    {m' : Machine} (hm' : m' = { p.machine with halted := m'.halted }) :
    m.Performed k p m' p.effects := by
  have hmoved := Point.moved_of_walk h
  have hposition : p.machine.inboxPosition.toNat = m.inboxPosition.toNat + p.reads :=
    hmoved.inboxPosition_eq
  have hlt : p.machine.inboxPosition.toNat < UInt64.size := p.machine.inboxPosition.toNat_lt
  -- the messages are counted in a word, and no more are read than the inbox position counts
  have hreads : p.effects.messagesRead.toNat = p.reads :=
    UInt64.toNat_ofNat_of_lt' (by omega)
  have hcount : p.reads = (m.remaining.take k).count .readInbox :=
    (Point.reads_of_walk h).trans (Nat.zero_add _)
  have hsum : p.gas = gasSum (m.remaining.take k) :=
    (Point.gas_of_walk h).trans (Nat.zero_add _)
  exact
    { walk_eq := h
      gasUsed_eq := (Point.toNat_gasUsed_effects hgas).trans hsum
      messagesRead_eq := hreads.trans hcount
      sends_eq := rfl
      logs_eq := rfl
      machine_eq := hm'
      pc_eq := by rw [hm']; exact hmoved.pc_eq
      inboxPosition_eq := by rw [hm', hreads]; exact hposition
      program_eq := by rw [hm']; exact hmoved.program_eq
      inbox_eq := by rw [hm']; exact hmoved.inbox_eq }

/-- When a run that carries out the instructions before `p` leaves the machine stopped: the
trace ends at `p`, short of the target, and a read that blocks there would still fit. -/
theorem halted_finish_iff {overshoot : Bool} (hp : p.machine.halted = false) :
    (p.finish overshoot target).halted = true ↔
      p.next? = none ∧ p.gas < target ∧
        (overshoot = false → p.machine.next? = some .readInbox → p.gas + 10 ≤ target) := by
  rw [Point.halted_finish, or_iff_right (by simp [hp])]
  constructor
  · rintro ⟨hlt, hnone, hfits⟩
    refine ⟨hnone, hlt, fun ho hread => ?_⟩
    rcases hfits _ hread with hover | hle
    · simp [ho] at hover
    · exact hle
  · rintro ⟨hnone, hlt, hfits⟩
    refine ⟨hlt, hnone, fun i hi => ?_⟩
    rw [or_iff_not_imp_left, Bool.not_eq_true]
    intro ho
    rcases (Point.next?_eq_none_iff hp).mp hnone with hend | hhalt | ⟨hread, -⟩
    · simp [hend] at hi
    · -- a halt is free
      obtain rfl : i = .halt := Option.some.inj (hi.symm.trans hhalt)
      exact hlt.le
    · obtain rfl : i = .readInbox := Option.some.inj (hi.symm.trans hread)
      exact hfits ho hread

/-- A run stops at exactly the right instruction.  A machine that is stopped is left alone.  Any
other machine carries out the number of instructions that `StopsAfter` names, and is left stopped
exactly if the trace ends there before the target is reached. -/
theorem execute_stops_at_boundary (m : Machine) (target : UInt64) (overshoot : Bool) :
    (m.halted = true → m.execute target overshoot = .ok (m, {})) ∧
    (m.halted = false → gasSum m.program < UInt64.size →
      ∃ k p m' e, m.execute target overshoot = .ok (m', e) ∧
        m.StopsAfter overshoot target.toNat k ∧ m.Performed k p m' e ∧
        (m'.halted = true ↔ p.next? = none ∧ p.gas < target.toNat ∧
          (overshoot = false → p.machine.next? = some .readInbox →
            p.gas + 10 ≤ target.toNat))) := by
  refine ⟨fun hm => execute_of_halted hm target overshoot, fun hm hsum => ?_⟩
  have hcount : (m.restAt overshoot target.toNat).Countable overshoot target.toNat :=
    Point.countable_of_gasSum hsum target.toNat
  have hrun := Point.execute_eq overshoot m target
  rw [if_pos hcount] at hrun
  obtain ⟨k, hwalk, hstops⟩ := m.exists_stopsAfter overshoot target.toNat
  have hrunning := Point.halted_of_walk (p := .start m) hm hwalk
  refine ⟨k, _, _, _, hrun, hstops, performed_of_walk hwalk hcount.gas_lt ?_,
    halted_finish_iff hrunning⟩
  unfold Point.finish
  split <;> rfl

theorem sendAndRead_lt : [Instruction.send, .readInbox].length < UInt64.size := by decide

/-- A machine that sends its register and then waits for a message that never comes. -/
def blockedReader : Machine where
  program := [.send, .readInbox]
  inbox := []
  program_lt := sendAndRead_lt
  inbox_lt := emptyInbox_lt

theorem blockedReader_stops_at_boundary :
    blockedReader.halted = false ∧ gasSum blockedReader.program < UInt64.size ∧
      ∃ k p m' e, blockedReader.execute 15 false = .ok (m', e) ∧
        blockedReader.StopsAfter false 15 k ∧ blockedReader.Performed k p m' e ∧
        e.gasUsed = 5 ∧ m'.halted = true ∧ p.next? = none ∧ p.gas < 15 := by
  have hsum : gasSum blockedReader.program < UInt64.size := by decide
  obtain ⟨k, p, m', e, hrun, hstops, hperformed, hhalted⟩ :=
    (execute_stops_at_boundary blockedReader 15 false).2 rfl hsum
  -- the gas of the read still fits, so the machine tries it and is stopped
  have hend : (blockedReader.execute 15 false).map (fun r => (r.1.halted, r.2.gasUsed)) =
      .ok (true, 5) := by rfl
  rw [hrun] at hend
  obtain ⟨hstopped, hgas⟩ := Prod.mk.inj (Except.ok.inj hend)
  obtain ⟨hnone, hlt, -⟩ := hhalted.mp hstopped
  exact ⟨rfl, hsum, k, p, m', e, hrun, hstops, hperformed, hgas, hstopped, hnone, hlt⟩

end Machine

end TraceDispute
