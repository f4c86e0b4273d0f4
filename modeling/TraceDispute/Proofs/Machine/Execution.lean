import TraceDispute.Proofs.Machine.Trace

/-!
# Execution follows the trace

`execute_eq`: a run of the machine comes to rest at the point that
`Point.settle` names, with the machine stopped exactly when the trace ends
there before the target, and is abandoned exactly when a sum of gas that it has
to form does not fit in a word (`Point.Countable`).

Such a sum never arises when the gas of the whole program fits
(`countable_of_gasSum`), nor at a target below one that has been reached
(`Countable.mono`).
-/

namespace TraceDispute

namespace Machine

variable {target : UInt64} {overshoot : Bool} {m : Machine} {e : Effects} {i : Instruction}
  {code : List Instruction}

/-- The rest of a run from the moment it tries an instruction. -/
def attempt (target : UInt64) (overshoot : Bool) (code : List Instruction) (m : Machine)
    (e : Effects) (i : Instruction) : Checked (Machine × Effects) :=
  if (m.perform e i).1.halted then .ok (m.perform e i)
  else do
    let gas ← Checked.add (m.perform e i).2.gasUsed i.gasCost
    run target overshoot code (m.perform e i).1 { (m.perform e i).2 with gasUsed := gas }

theorem run_nil (h : e.gasUsed < target) : run target overshoot [] m e = .ok (m.stop, e) :=
  if_pos h

theorem run_of_spent (h : ¬ e.gasUsed < target) (code : List Instruction) (m : Machine) :
    run target overshoot code m e = .ok (m, e) := by
  cases code with
  | nil => exact if_neg h
  | cons i code => exact if_neg h

theorem run_cons_overshoot (h : e.gasUsed < target) :
    run target true (i :: code) m e = attempt target true code m e i :=
  if_pos h

theorem run_cons_exact (h : e.gasUsed < target) :
    run target false (i :: code) m e = (do
      let gas ← Checked.add e.gasUsed i.gasCost
      if gas ≤ target then attempt target false code m e i else .ok (m, e)) := by
  simp only [run, runWith, fits, if_pos h, Bool.false_eq_true, if_false]
  cases Checked.add e.gasUsed i.gasCost with
  | error fault => rfl
  | ok gas => exact ite_congr decide_eq_true_eq (fun _ => rfl) fun _ => rfl

end Machine

namespace Point

variable {overshoot : Bool} {target later : Nat} {p q : Point}

/-- The effects of a run that led to this point. -/
def effects (p : Point) : Effects where
  gasUsed := UInt64.ofNat p.gas
  messagesRead := UInt64.ofNat p.reads
  sends := p.sends.toArray
  logs := p.logs.toArray

/-- A run to `target` that rests here has found the end of the trace.  Without
overshoot an instruction is tried only if its gas would fit. -/
def Exhausted (overshoot : Bool) (target : Nat) (p : Point) : Prop :=
  p.gas < target ∧ p.next? = none ∧
    ∀ i ∈ p.machine.next?, overshoot ∨ p.gas + i.gasCost.toNat ≤ target

instance : Decidable (p.Exhausted overshoot target) :=
  inferInstanceAs (Decidable (_ ∧ _ ∧ _))

/-- The machine that a run to `target` leaves behind when it rests here. -/
def finish (overshoot : Bool) (target : Nat) (p : Point) : Machine :=
  if p.Exhausted overshoot target then p.machine.stop else p.machine

/-- Every sum of gas formed by a run to `target` that rests here fits in a word. -/
structure Countable (overshoot : Bool) (target : Nat) (p : Point) : Prop where
  gas_lt : p.gas < UInt64.size
  /-- Without overshoot the gas of the instruction that is not carried out is added, too. -/
  tried_lt : overshoot = false → p.gas < target → p.machine.halted = false →
    ∀ i, p.machine.next? = some i → p.gas + i.gasCost.toNat < UInt64.size

@[simp] theorem effects_start (m : Machine) : (start m).effects = {} := rfl

theorem toNat_gasUsed_effects (h : p.gas < UInt64.size) : p.effects.gasUsed.toNat = p.gas :=
  UInt64.toNat_ofNat_of_lt' h

theorem add_gasCost_of_lt {i : Instruction} (h : p.gas + i.gasCost.toNat < UInt64.size) :
    Checked.add p.effects.gasUsed i.gasCost = .ok (UInt64.ofNat (p.gas + i.gasCost.toNat)) := by
  rw [Checked.add, toNat_gasUsed_effects (by omega), if_pos h, UInt64.ofNat_add]
  simp [effects]

theorem add_gasCost_of_le {i : Instruction} (hgas : p.gas < UInt64.size)
    (h : UInt64.size ≤ p.gas + i.gasCost.toNat) :
    Checked.add p.effects.gasUsed i.gasCost = .error .addOverflow := by
  rw [Checked.add, toNat_gasUsed_effects hgas, if_neg (not_lt.mpr h)]

theorem effects_after (p : Point) (i : Instruction) :
    { p.effects.append (p.machine.perform {} i).2 with
        gasUsed := UInt64.ofNat (p.gas + i.gasCost.toNat) } = (p.after i).effects := by
  simp [effects, after, Effects.append]

theorem finish_of_not_exhausted (h : ¬ p.Exhausted overshoot target) :
    p.finish overshoot target = p.machine :=
  if_neg h

theorem finish_of_exhausted (h : p.Exhausted overshoot target) :
    p.finish overshoot target = p.machine.stop :=
  if_pos h

theorem not_exhausted_of_le (h : target ≤ p.gas) : ¬ p.Exhausted overshoot target :=
  fun hex => (not_lt.mpr h) hex.1

theorem Exhausted.mono (h : target ≤ later) (hex : p.Exhausted overshoot target) :
    p.Exhausted overshoot later :=
  ⟨hex.1.trans_le h, hex.2.1, fun i hi => (hex.2.2 i hi).imp_right fun hle => hle.trans h⟩

theorem exhausted_join (p q : Point) :
    (p.join q).Exhausted overshoot (p.gas + target) ↔ q.Exhausted overshoot target := by
  unfold Exhausted
  rw [next?_join, Option.map_eq_none_iff]
  simp only [join, Nat.add_assoc, Nat.add_lt_add_iff_left, Nat.add_le_add_iff_left]

theorem finish_join (p q : Point) :
    (p.join q).finish overshoot (p.gas + target) = q.finish overshoot target := by
  unfold finish
  simp only [exhausted_join, machine_join]

theorem not_exhausted_of_next? (h : p.next? = some q) : ¬ p.Exhausted overshoot target := by
  rintro ⟨-, hnone, -⟩
  simp [h] at hnone

/-! ## One run -/

theorem attempt_eq {target : UInt64} {i : Instruction} (hp : p.machine.halted = false)
    (hgas : p.gas < UInt64.size) :
    Machine.attempt target overshoot (p.machine.program.drop (p.machine.pc + 1).toNat)
        p.machine p.effects i =
      if (p.after i).machine.halted then .ok (p.machine.stop, p.effects)
      else if UInt64.size ≤ p.gas + i.gasCost.toNat then .error .addOverflow
      else
        Machine.run target overshoot
          ((p.after i).machine.program.drop (p.after i).machine.pc.toNat)
          (p.after i).machine (p.after i).effects := by
  rw [Machine.attempt]
  cases ha : (p.after i).machine.halted with
  | true => simp [Machine.perform_of_halted (e := p.effects) hp ha, Machine.stop]
  | false =>
      have hpc : (p.after i).machine.pc = p.machine.pc + 1 := Machine.pc_perform ha
      have hprogram : (p.after i).machine.program = p.machine.program :=
        Machine.program_perform ..
      have heffects := effects_after p i
      -- the effects of an instruction carry no gas of their own: it is charged after it completes
      have hused : (p.effects.append (p.machine.perform {} i).2).gasUsed = p.effects.gasUsed := by
        simp [Effects.append]
      rw [Machine.perform_eq, hused, hpc, hprogram, ← heffects]
      change (if (p.after i).machine.halted then _ else _) = _
      rw [ha]
      by_cases hsum : UInt64.size ≤ p.gas + i.gasCost.toNat
      · simp [add_gasCost_of_le hgas hsum, hsum, bind, Except.bind]
      · simp [add_gasCost_of_lt (not_le.mp hsum), hsum, bind, Except.bind, after]

/-- Everything that one round of a run can do. -/
theorem run_step {target : UInt64} {i : Instruction} (hp : p.machine.halted = false)
    (hgas : p.gas < UInt64.size) (hi : p.machine.next? = some i) (hlt : p.gas < target.toNat) :
    Machine.run target overshoot (p.machine.program.drop p.machine.pc.toNat) p.machine p.effects =
      if overshoot = false ∧ UInt64.size ≤ p.gas + i.gasCost.toNat then .error .addOverflow
      else if overshoot = false ∧ target.toNat < p.gas + i.gasCost.toNat then
        .ok (p.machine, p.effects)
      else if (p.after i).machine.halted then .ok (p.machine.stop, p.effects)
      else if UInt64.size ≤ p.gas + i.gasCost.toNat then .error .addOverflow
      else
        Machine.run target overshoot
          ((p.after i).machine.program.drop (p.after i).machine.pc.toNat)
          (p.after i).machine (p.after i).effects := by
  have hcond : p.effects.gasUsed < target := by
    rw [UInt64.lt_iff_toNat_lt, toNat_gasUsed_effects hgas]
    exact hlt
  rw [Machine.drop_pc hi]
  cases overshoot with
  | true =>
      rw [Machine.run_cons_overshoot hcond, attempt_eq hp hgas]
      simp
  | false =>
      rw [Machine.run_cons_exact hcond, attempt_eq hp hgas]
      by_cases hsum : UInt64.size ≤ p.gas + i.gasCost.toNat
      · simp [add_gasCost_of_le hgas hsum, hsum, bind, Except.bind]
      · have hfits : UInt64.ofNat (p.gas + i.gasCost.toNat) ≤ target ↔
            ¬ target.toNat < p.gas + i.gasCost.toNat := by
          rw [UInt64.le_iff_toNat_le, UInt64.toNat_ofNat_of_lt' (not_le.mp hsum), not_lt]
        rw [add_gasCost_of_lt (not_le.mp hsum)]
        simp only [bind, Except.bind, hfits, hsum, and_false, if_false, true_and, ite_not]

theorem run_of_le {target : UInt64} (hgas : p.gas < UInt64.size) (hle : target.toNat ≤ p.gas)
    (code : List Instruction) :
    Machine.run target overshoot code p.machine p.effects = .ok (p.machine, p.effects) := by
  have hcond : ¬ p.effects.gasUsed < target := by
    rw [UInt64.lt_iff_toNat_lt, toNat_gasUsed_effects hgas]
    exact not_lt.mpr hle
  exact Machine.run_of_spent hcond code p.machine

/-- A trace that ends at a machine that is not stopped ends at the end of the
program or at an instruction that stops the machine. -/
theorem halted_after_of_next?_eq_none {i : Instruction} (hp : p.machine.halted = false)
    (hnone : p.next? = none) (hi : p.machine.next? = some i) :
    (p.after i).machine.halted = true := by
  by_contra ha
  have hnext := next?_eq_some_iff.mpr ⟨hp, i, hi, Bool.eq_false_of_not_eq_true ha, rfl⟩
  simp [hnone] at hnext

section Cases

variable {target : UInt64}

/-- A run carries out an instruction that completes before its target or, with
overshoot, crosses it. -/
theorem run_of_next? (hgas : p.gas < UInt64.size) (hlt : p.gas < target.toNat)
    (hnext : p.next? = some q) (hgo : overshoot ∨ q.gas ≤ target.toNat) :
    Machine.run target overshoot (p.machine.program.drop p.machine.pc.toNat) p.machine p.effects =
      if UInt64.size ≤ q.gas then .error .addOverflow
      else Machine.run target overshoot (q.machine.program.drop q.machine.pc.toNat)
        q.machine q.effects := by
  obtain ⟨hp, i, hi, ha, rfl⟩ := next?_eq_some_iff.mp hnext
  have hsize : target.toNat < UInt64.size := target.toNat_lt
  have hgas' : (p.after i).gas = p.gas + i.gasCost.toNat := rfl
  rw [hgas'] at hgo ⊢
  have hpast : ¬ (overshoot = false ∧ target.toNat < p.gas + i.gasCost.toNat) := by
    rintro ⟨ho, hlt⟩
    simp only [ho, Bool.false_eq_true, false_or] at hgo
    omega
  have hsum : ¬ (overshoot = false ∧ UInt64.size ≤ p.gas + i.gasCost.toNat) :=
    fun h => hpast ⟨h.1, hsize.trans_le h.2⟩
  have hrun : ¬ (p.after i).machine.halted = true := by simp [ha]
  rw [run_step hp hgas hi hlt, if_neg hsum, if_neg hpast, if_neg hrun]

open Classical in
/-- Without overshoot a run rests before the instruction that crosses its target. -/
theorem run_of_crossing (hgas : p.gas < UInt64.size) (hlt : p.gas < target.toNat)
    (hnext : p.next? = some q) (hpast : target.toNat < q.gas) :
    Machine.run target false (p.machine.program.drop p.machine.pc.toNat) p.machine p.effects =
      if p.Countable false target.toNat then .ok (p.finish false target.toNat, p.effects)
      else .error .addOverflow := by
  obtain ⟨hp, i, hi, -, rfl⟩ := next?_eq_some_iff.mp hnext
  have hgas' : (p.after i).gas = p.gas + i.gasCost.toNat := rfl
  rw [hgas'] at hpast
  rw [run_step hp hgas hi hlt, finish_of_not_exhausted (not_exhausted_of_next? hnext),
    if_pos (c := _ ∧ target.toNat < _) ⟨rfl, hpast⟩]
  by_cases hsum : UInt64.size ≤ p.gas + i.gasCost.toNat
  · have hcount : ¬ p.Countable false target.toNat := fun hc =>
      (hc.tried_lt rfl hlt hp i hi).not_ge hsum
    rw [if_pos ⟨rfl, hsum⟩, if_neg hcount]
  · have hcount : p.Countable false target.toNat := by
      refine ⟨hgas, fun _ _ _ j hj => ?_⟩
      obtain rfl : i = j := by simpa [hi] using hj
      exact not_le.mp hsum
    rw [if_neg fun h => hsum h.2, if_pos hcount]

open Classical in
theorem run_of_no_instruction (hp : p.machine.halted = false) (hgas : p.gas < UInt64.size)
    (hlt : p.gas < target.toNat) (hi : p.machine.next? = none) :
    Machine.run target overshoot (p.machine.program.drop p.machine.pc.toNat) p.machine p.effects =
      if p.Countable overshoot target.toNat then
        .ok (p.finish overshoot target.toNat, p.effects)
      else .error .addOverflow := by
  have hcount : p.Countable overshoot target.toNat := ⟨hgas, by simp [hi]⟩
  have hex : p.Exhausted overshoot target.toNat := ⟨hlt, by simp [next?, hp, hi], by simp [hi]⟩
  have hcond : p.effects.gasUsed < target := by
    rw [UInt64.lt_iff_toNat_lt, toNat_gasUsed_effects hgas]
    exact hlt
  rw [if_pos hcount, finish_of_exhausted hex, Machine.drop_pc_of_none hi, Machine.run_nil hcond]

open Classical in
/-- A run that comes to an instruction that stops the machine tries it if it fits. -/
theorem run_of_stopping {i : Instruction} (hp : p.machine.halted = false)
    (hgas : p.gas < UInt64.size) (hlt : p.gas < target.toNat) (hi : p.machine.next? = some i)
    (ha : (p.after i).machine.halted = true) :
    Machine.run target overshoot (p.machine.program.drop p.machine.pc.toNat) p.machine p.effects =
      if p.Countable overshoot target.toNat then
        .ok (p.finish overshoot target.toNat, p.effects)
      else .error .addOverflow := by
  have hnone : p.next? = none := by simp [next?, hp, hi, ha]
  rw [run_step hp hgas hi hlt, if_pos ha]
  -- without overshoot its price is added first, and that sum may fail or pass the target
  by_cases hsum : overshoot = false ∧ UInt64.size ≤ p.gas + i.gasCost.toNat
  · have hcount : ¬ p.Countable overshoot target.toNat := fun hc =>
      (hc.tried_lt hsum.1 hlt hp i hi).not_ge hsum.2
    rw [if_pos hsum, if_neg hcount]
  have hcount : p.Countable overshoot target.toNat := by
    refine ⟨hgas, fun ho _ _ j hj => ?_⟩
    obtain rfl : i = j := by simpa [hi] using hj
    exact not_le.mp fun hle => hsum ⟨ho, hle⟩
  rw [if_neg hsum, if_pos hcount]
  by_cases hpast : overshoot = false ∧ target.toNat < p.gas + i.gasCost.toNat
  · have hex : ¬ p.Exhausted overshoot target.toNat := by
      rintro ⟨-, -, hfits⟩
      rcases hfits i hi with ho | hle
      · simp [hpast.1] at ho
      · exact hle.not_gt hpast.2
    rw [if_pos hpast, finish_of_not_exhausted hex]
  · have hex : p.Exhausted overshoot target.toNat := by
      refine ⟨hlt, hnone, fun j hj => ?_⟩
      obtain rfl : i = j := by simpa [hi] using hj
      by_contra hfits
      simp only [not_or, Bool.not_eq_true, not_le] at hfits
      exact hpast hfits
    rw [if_neg hpast, finish_of_exhausted hex]

end Cases

open Classical in
/-- A run through what is left of the program, on top of the effects so far. -/
theorem run_eq (target : UInt64) (hp : p.machine.halted = false) (hgas : p.gas < UInt64.size) :
    Machine.run target overshoot (p.machine.program.drop p.machine.pc.toNat) p.machine p.effects =
      if (p.settle overshoot target.toNat).Countable overshoot target.toNat then
        .ok ((p.settle overshoot target.toNat).finish overshoot target.toNat,
          (p.settle overshoot target.toNat).effects)
      else .error .addOverflow := by
  -- along the run itself: it ends with the trace, goes on, stops short of an instruction
  -- that would cross the target, or has reached the target
  fun_induction settle overshoot target.toNat p with
  | case1 p hlt hnone =>
      cases hi : p.machine.next? with
      | none => exact run_of_no_instruction hp hgas hlt hi
      | some i =>
          exact run_of_stopping hp hgas hlt hi (halted_after_of_next?_eq_none hp hnone hi)
  | case2 p hlt q hnext hgo ih =>
      rw [run_of_next? hgas hlt hnext hgo]
      obtain ⟨-, i, -, ha, rfl⟩ := next?_eq_some_iff.mp hnext
      by_cases hsum : UInt64.size ≤ (p.after i).gas
      · have hcount : ¬ ((p.after i).settle overshoot target.toNat).Countable overshoot
            target.toNat := fun hc => hc.gas_lt.not_ge (hsum.trans gas_le_settle)
        rw [if_pos hsum, if_neg hcount]
      · rw [if_neg hsum]
        exact ih ha (not_le.mp hsum)
  | case3 p hlt q hnext hgo =>
      simp only [not_or, Bool.not_eq_true, not_le] at hgo
      obtain ⟨rfl, hpast⟩ := hgo
      exact run_of_crossing hgas hlt hnext hpast
  | case4 p hle =>
      have hle := not_lt.mp hle
      have hcount : p.Countable overshoot target.toNat :=
        ⟨hgas, fun _ hlt => absurd hlt (not_lt.mpr hle)⟩
      rw [run_of_le hgas hle, if_pos hcount, finish_of_not_exhausted (not_exhausted_of_le hle)]

theorem halted_finish :
    (p.finish overshoot target).halted = true ↔
      p.machine.halted = true ∨ p.Exhausted overshoot target := by
  unfold finish
  split <;> simp_all [Machine.stop]

theorem finish_of_halted (h : p.machine.halted = true) :
    p.finish overshoot target = p.machine := by
  have hstop : p.machine.stop = p.machine := by
    unfold Machine.stop
    rw [← h]
  unfold finish
  split <;> simp [hstop]

open Classical in
/-- A run from a machine comes to rest where its trace does. -/
theorem execute_eq (overshoot : Bool) (m : Machine) (target : UInt64) :
    m.execute target overshoot =
      if (m.restAt overshoot target.toNat).Countable overshoot target.toNat then
        .ok ((m.restAt overshoot target.toNat).finish overshoot target.toNat,
          (m.restAt overshoot target.toNat).effects)
      else .error .addOverflow := by
  have hgas : (start m).gas < UInt64.size := by simp
  cases hm : m.halted with
  | false =>
      rw [Machine.execute, if_neg (by simp [hm])]
      exact run_eq (p := start m) target hm hgas
  | true =>
      have hcount : (start m).Countable overshoot target.toNat := ⟨hgas, by simp [hm]⟩
      rw [Machine.execute_of_halted hm, Machine.restAt, settle_of_none (next?_of_halted hm),
        if_pos hcount, finish_of_halted hm]
      simp

/-! ## When no sum overflows -/

theorem Countable.mono (h : target ≤ later)
    (hlater : (p.settle overshoot later).Countable overshoot later) :
    (p.settle overshoot target).Countable overshoot target := by
  refine ⟨(gas_settle_mono h).trans_lt hlater.gas_lt, ?_⟩
  rintro rfl hlt hhalted i hi
  generalize hq : p.settle false target = q at *
  have hsettle : q.settle false later = p.settle false later := by
    rw [← hq]
    exact settle_settle h
  rw [← hsettle] at hlater
  -- the instruction tried at the earlier target is carried out or tried at the later one
  cases ha : (q.after i).machine.halted with
  | true =>
      have hnone : q.next? = none := by simp [next?, hhalted, hi, ha]
      rw [settle_of_none hnone] at hlater
      exact hlater.tried_lt rfl (hlt.trans_le h) hhalted i hi
  | false =>
      have hnext : q.next? = some (q.after i) :=
        next?_eq_some_iff.mpr ⟨hhalted, i, hi, ha, rfl⟩
      rw [settle_of_some hnext (hlt.trans_le h)] at hlater
      split at hlater
      · exact gas_le_settle.trans_lt hlater.gas_lt
      · exact hlater.tried_lt rfl (hlt.trans_le h) hhalted i hi

theorem Countable.of_join (h : (p.join q).Countable overshoot (p.gas + target)) :
    q.Countable overshoot target := by
  refine ⟨(Nat.le_add_left _ _).trans_lt h.gas_lt, fun ho hlt hhalted i hi => ?_⟩
  have htried := h.tried_lt ho (Nat.add_lt_add_left hlt _) hhalted i hi
  simp only [join] at htried
  omega

end Point

/-- The gas of some instructions together. -/
def gasSum (code : List Instruction) : Nat := (code.map fun i => i.gasCost.toNat).sum

@[simp] theorem gasSum_cons (i : Instruction) (code : List Instruction) :
    gasSum (i :: code) = i.gasCost.toNat + gasSum code := rfl

theorem gasSum_drop_le (code : List Instruction) (n : Nat) :
    gasSum (code.drop n) ≤ gasSum code := by
  have h : gasSum code = gasSum (code.take n) + gasSum (code.drop n) := by
    conv_lhs => rw [← List.take_append_drop n code]
    simp [gasSum, -List.take_append_drop]
  omega

/-- The total gas of a machine, if it fits in a word, is that of its program. -/
theorem Machine.toNat_totalGas {m : Machine} {g : UInt64} (h : m.totalGas = .ok g) :
    g.toNat = gasSum m.program := by
  have key : ∀ (code : List Instruction) (a : UInt64),
      code.foldlM (fun gas i => Checked.add gas i.gasCost) a = .ok g →
        g.toNat = a.toNat + gasSum code := by
    intro code
    induction code with
    | nil =>
        intro a hfold
        obtain rfl := Except.ok.inj hfold
        simp [gasSum]
    | cons i code ih =>
        intro a hfold
        cases hadd : Checked.add a i.gasCost with
        | error f => simp [List.foldlM, hadd, bind, Except.bind] at hfold
        | ok b =>
            simp only [List.foldlM, hadd, bind, Except.bind] at hfold
            have hsum := Checked.toNat_of_add_eq_ok hadd
            have hrest := ih b hfold
            rw [gasSum_cons]
            omega
  simpa using key m.program 0 h

namespace Point

variable {overshoot : Bool} {p : Point}

/-- Along a trace the gas used and the gas left add up to no more than the program's. -/
theorem gas_add_left_le (overshoot : Bool) (m : Machine) (target : Nat) :
    let q := m.restAt overshoot target
    q.gas + gasSum (q.machine.program.drop q.machine.pc.toNat) ≤ gasSum m.program := by
  -- what is spent and what the program still costs never exceed the whole
  refine settle_induction
    (motive := fun q => q.gas + gasSum (q.machine.program.drop q.machine.pc.toNat) ≤
      gasSum m.program) ?_ ?_
  · intro p q hnext hle
    obtain ⟨-, i, hi, ha, rfl⟩ := next?_eq_some_iff.mp hnext
    have hpc : (p.after i).machine.pc = p.machine.pc + 1 := Machine.pc_perform ha
    have hprogram : (p.after i).machine.program = p.machine.program :=
      Machine.program_perform ..
    have hgas : (p.after i).gas = p.gas + i.gasCost.toNat := rfl
    rw [Machine.drop_pc hi, gasSum_cons] at hle
    rw [hpc, hprogram, hgas]
    omega
  · simpa using gasSum_drop_le m.program m.pc.toNat

/-- If the gas of the whole program fits in a word, every run can be counted. -/
theorem countable_of_gasSum {m : Machine} (h : gasSum m.program < UInt64.size) (target : Nat) :
    (m.restAt overshoot target).Countable overshoot target := by
  have hle := gas_add_left_le overshoot m target
  refine ⟨by simp only at hle; omega, fun _ _ _ i hi => ?_⟩
  simp only [Machine.drop_pc hi, gasSum_cons] at hle
  omega

end Point

end TraceDispute
