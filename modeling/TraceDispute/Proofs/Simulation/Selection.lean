import TraceDispute.Proofs.Simulation.Program

/-!
# Which instruction the asserter gets wrong

The search starts behind the reads of the inbox and the steps that the settings
skip, and takes the first addition or multiplication there is
(`selectFault_of_isLeast`).  Only the trace decides whether there is one: its
pattern may end before the next, and it may have been skipped altogether; both are
refused as outside the trace (`run_of_outside`).

The one way for the search to be abandoned is the position that it starts at.  That
is a sum of words, and the last three numbers of steps are too large for it
(`selectFault_of_le`).  A run that skips one step less is refused like any other.
-/

namespace TraceDispute.Simulation

variable {steps faultStep : UInt64} {code before later : List Instruction} {i j : Instruction}
  {first f : Nat} {s : Settings}

/-! ## Instructions that can be tampered with -/

/-- An instruction whose operand goes into the register. -/
inductive Tamperable : Instruction → Prop
  | add (value : UInt64) : Tamperable (.add value)
  | mul (factor : UInt64) : Tamperable (.mul factor)

/-- The positions from `first` on at which some code can be tampered with. -/
def candidates (code : List Instruction) (first : Nat) : Set Nat :=
  {f | first ≤ f ∧ ∃ i, code[f]? = some i ∧ Tamperable i}

/-- What a search from `first` on is to find: the least candidate, and another instruction
of the same cost in its place. -/
inductive Selects (code : List Instruction) (first : Nat) : Option (Nat × Instruction) → Prop
  | candidate {f : Nat} {i j : Instruction} (least : IsLeast (candidates code first) f)
      (stands : code[f]? = some i) (ne : j ≠ i) (gasCost_eq : j.gasCost = i.gasCost) :
      Selects code first (some (f, j))
  | outside (h : candidates code first = ∅) : Selects code first none

theorem candidates_eq_empty (h : code.length ≤ first) : candidates code first = ∅ := by
  rw [Set.eq_empty_iff_forall_notMem]
  rintro f ⟨hf, i, hi, -⟩
  have hlt := (List.getElem?_eq_some_iff.mp hi).1
  omega

theorem tamper_of_not_tamperable (h : ¬ Tamperable i) : tamper i = .ok none := by
  cases i with
  | add value => exact absurd (.add value) h
  | mul factor => exact absurd (.mul factor) h
  | _ => rfl

/-- No factor of the program is so large that it could not be raised. -/
theorem exists_tamper (h : Tamperable i) (hmem : i ∈ program steps) :
    ∃ j, tamper i = .ok (some j) ∧ Mistake i j := by
  cases h with
  | add value => exact ⟨_, rfl, .add value⟩
  | mul factor =>
      obtain rfl := eq_five_of_mul_mem hmem
      exact ⟨_, rfl, .mul⟩

/-! ## The search -/

theorem findFault_append (hbefore : ∀ i ∈ before, tamper i = .ok none) :
    findFault first (before ++ later) = findFault (first + before.length) later := by
  induction before generalizing first with
  | nil => rfl
  | cons i before ih =>
      have hi : tamper i = .ok none := hbefore i List.mem_cons_self
      have hrest : findFault (first + 1) (before ++ later) =
          findFault (first + 1 + before.length) later :=
        ih fun k hk => hbefore k (List.mem_cons_of_mem i hk)
      rw [List.cons_append, findFault, hi]
      simp only [bind, Except.bind]
      rw [hrest, List.length_cons, Nat.add_assoc, Nat.add_comm 1]

theorem findFault_cons (h : tamper i = .ok (some j)) :
    findFault first (i :: later) = .ok (some (first, j)) := by
  rw [findFault, h]
  rfl

theorem findFault_eq_none (h : ∀ i ∈ code, tamper i = .ok none) :
    findFault first code = .ok none := by
  have hnil : findFault first (code ++ []) = findFault (first + code.length) [] :=
    findFault_append h
  rwa [List.append_nil] at hnil

theorem selectFault_of_lt (h : inbox.length + faultStep.toNat < UInt64.size) :
    selectFault code faultStep = findFault (inbox.length + faultStep.toNat)
      (code.drop (inbox.length + faultStep.toNat)) := by
  have hadd : Checked.add (UInt64.ofNat inbox.length) faultStep =
      .ok (UInt64.ofNat inbox.length + faultStep) := Checked.add_of_lt h
  have hfirst : (UInt64.ofNat inbox.length + faultStep).toNat =
      inbox.length + faultStep.toNat := Checked.toNat_of_add_eq_ok hadd
  rw [selectFault, hadd]
  simp only [bind, Except.bind, hfirst]

/-- A start of the search that is no word abandons it. -/
theorem selectFault_of_le (h : UInt64.size ≤ inbox.length + faultStep.toNat) :
    selectFault code faultStep = .error .addOverflow := by
  have hadd : Checked.add (UInt64.ofNat inbox.length) faultStep = .error .addOverflow :=
    Checked.add_of_le h
  rw [selectFault, hadd]
  rfl

/-- What stands before every candidate does not stop the search. -/
theorem tamper_of_mem_before {n : Nat} (h : ∀ f ∈ candidates code first, first + n ≤ f)
    (hi : i ∈ (code.drop first).take n) : tamper i = .ok none := by
  obtain ⟨k, hk⟩ := List.mem_iff_getElem?.mp hi
  obtain ⟨hlt, hget⟩ : k < n ∧ code[first + k]? = some i := by
    simpa [List.getElem?_take, List.getElem?_drop] using hk
  refine tamper_of_not_tamperable fun hcan => ?_
  have hle := h (first + k) ⟨Nat.le_add_right .., i, hget, hcan⟩
  omega

theorem selectFault_of_isLeast (hlt : inbox.length + faultStep.toNat < UInt64.size)
    (h : IsLeast (candidates (program steps) (inbox.length + faultStep.toNat)) f) :
    ∃ i j, (program steps)[f]? = some i ∧ Mistake i j ∧
      selectFault (program steps) faultStep = .ok (some (f, j)) := by
  obtain ⟨⟨hfirst, i, hi, hcan⟩, hleast⟩ := h
  obtain ⟨j, htamper, hmistake⟩ := exists_tamper hcan (List.mem_of_getElem? hi)
  refine ⟨i, j, hi, hmistake, ?_⟩
  rw [selectFault_of_lt hlt]
  obtain ⟨n, rfl⟩ := Nat.exists_eq_add_of_le hfirst
  generalize inbox.length + faultStep.toNat = first at *
  obtain ⟨hbound, hget⟩ := List.getElem?_eq_some_iff.mp hi
  have hrest : (program steps).drop (first + n) = i :: (program steps).drop (first + n + 1) := by
    rw [List.drop_eq_getElem_cons hbound, hget]
  have hlength : (((program steps).drop first).take n).length = n := by
    rw [List.length_take, List.length_drop]
    omega
  -- the search passes over the instructions before `first + n`, none of which can be altered
  calc findFault first ((program steps).drop first)
      = findFault first (((program steps).drop first).take n ++
          i :: (program steps).drop (first + n + 1)) := by
        rw [← hrest, ← List.drop_drop, List.take_append_drop]
    _ = findFault (first + n) (i :: (program steps).drop (first + n + 1)) := by
        rw [findFault_append fun k => tamper_of_mem_before fun _ hf => hleast hf, hlength]
    _ = .ok (some (first + n, j)) := findFault_cons htamper

theorem selectFault_of_empty (hlt : inbox.length + faultStep.toNat < UInt64.size)
    (h : candidates code (inbox.length + faultStep.toNat) = ∅) :
    selectFault code faultStep = .ok none := by
  rw [selectFault_of_lt hlt]
  refine findFault_eq_none fun i hi => ?_
  rw [← List.take_length (l := List.drop _ code)] at hi
  exact tamper_of_mem_before (by simp [h]) hi

/-! ## What a run makes of it -/

theorem run_of_outside (h : selectFault (program s.traceSteps) s.faultStep = .ok none) :
    (run s).outcome = .refuse s!"SIM_FAULT_STEP {s.faultStep} outside the trace" := by
  simp only [run, setUp, notes, Report.outcome_bind, Report.outcome_tell, Report.outcome_of, h,
    Outcome.ofChecked_ok, Outcome.ok_bind]
  rfl

theorem run_of_fault {fault : Fault}
    (h : selectFault (program s.traceSteps) s.faultStep = .error fault) :
    (run s).outcome = .error (.fault fault) := by
  simp only [run, setUp, notes, Report.outcome_bind, Report.outcome_tell, Report.outcome_of, h,
    Outcome.ofChecked_error, Outcome.ok_bind, Outcome.error_bind]

/-- The start of the search is a word: it ends, with the first candidate or with none. -/
theorem exists_selects (hlt : inbox.length + faultStep.toNat < UInt64.size) :
    ∃ found, selectFault (program steps) faultStep = .ok found ∧
      Selects (program steps) (inbox.length + faultStep.toNat) found := by
  rcases Set.eq_empty_or_nonempty (candidates (program steps) (inbox.length + faultStep.toNat))
    with hempty | hne
  · exact ⟨none, selectFault_of_empty hlt hempty, .outside hempty⟩
  · have hleast : IsLeast (candidates (program steps) (inbox.length + faultStep.toNat)) _ :=
      ⟨Nat.sInf_mem hne, fun _ hf => Nat.sInf_le hf⟩
    obtain ⟨i, j, hi, hmistake, hselect⟩ := selectFault_of_isLeast hlt hleast
    exact ⟨_, hselect, .candidate hleast hi hmistake.ne.symm hmistake.gasCost_eq.symm⟩

/-- A search that is abandoned would not have found anything. -/
theorem candidates_eq_empty_of_le (hfits : FitsInMemory steps)
    (h : UInt64.size ≤ inbox.length + faultStep.toNat) :
    candidates (program steps) (inbox.length + faultStep.toNat) = ∅ := by
  unfold FitsInMemory at hfits
  exact candidates_eq_empty (by omega)

/-- The asserter gets the first candidate wrong, or the run is refused for want of one;
but the last three numbers of steps to skip abandon it, where it should be refused too. -/
theorem fault_is_least_candidate (s : Settings) :
    (inbox.length + s.faultStep.toNat < UInt64.size →
      ∃ found, selectFault (program s.traceSteps) s.faultStep = .ok found ∧
        Selects (program s.traceSteps) (inbox.length + s.faultStep.toNat) found ∧
        (found = none →
          (run s).outcome = .refuse s!"SIM_FAULT_STEP {s.faultStep} outside the trace")) ∧
      (UInt64.size ≤ inbox.length + s.faultStep.toNat →
        selectFault (program s.traceSteps) s.faultStep = .error .addOverflow ∧
          (run s).outcome = .error (.fault .addOverflow) ∧
          (FitsInMemory s.traceSteps →
            candidates (program s.traceSteps) (inbox.length + s.faultStep.toNat) = ∅)) := by
  constructor
  · intro hlt
    obtain ⟨found, hselect, hfound⟩ := exists_selects hlt
    refine ⟨found, hselect, hfound, ?_⟩
    rintro rfl
    exact run_of_outside hselect
  · intro hle
    have hfault : selectFault (program s.traceSteps) s.faultStep = .error .addOverflow :=
      selectFault_of_le hle
    exact ⟨hfault, run_of_fault hfault, fun hfits => candidates_eq_empty_of_le hfits hle⟩

/-- Behind the first two steps of the pattern the search passes a write and a log on its way
to an addition; behind the first five nothing but the closing send of a trace of six is left. -/
theorem six_steps_select_addition :
    inbox.length + (2 : UInt64).toNat < UInt64.size ∧
      (∃ j, IsLeast (candidates (program 6) 5) 7 ∧ j ≠ .add 2 ∧
        selectFault (program 6) 2 = .ok (some (7, j))) ∧
      (run { traceSteps := 6, faultStep := 5 }).outcome =
        .refuse "SIM_FAULT_STEP 5 outside the trace" := by
  have htwo : inbox.length + (2 : UInt64).toNat < UInt64.size := by decide
  have hfive : inbox.length + (5 : UInt64).toNat < UInt64.size := by decide
  refine ⟨htwo, ?_, ?_⟩
  · obtain ⟨found, hselect, hfound, -⟩ :=
      (fault_is_least_candidate { traceSteps := 6, faultStep := 2 }).1 htwo
    have hseven : selectFault (program 6) 2 = .ok (some (7, .add (2 ^^^ 0xdead))) := rfl
    obtain rfl := Except.ok.inj (hselect.symm.trans hseven)
    cases hfound with
    | candidate hleast hi hne =>
        obtain rfl := Option.some.inj hi
        exact ⟨_, hleast, hne, hseven⟩
  · obtain ⟨found, hselect, -, hrefused⟩ :=
      (fault_is_least_candidate { traceSteps := 6, faultStep := 5 }).1 hfive
    have hnone : selectFault (program 6) 5 = .ok none := rfl
    exact hrefused (Except.ok.inj (hselect.symm.trans hnone))

/-- A trace of ten steps holds nothing so far on, and yet the run is not refused for it. -/
theorem ten_steps_abandoned :
    FitsInMemory 10 ∧
      candidates (program 10) (inbox.length + (18446744073709551613 : UInt64).toNat) = ∅ ∧
      selectFault (program 10) 18446744073709551613 = .error .addOverflow ∧
      (run { traceSteps := 10, faultStep := 18446744073709551613 }).outcome ≠
        .refuse "SIM_FAULT_STEP 18446744073709551613 outside the trace" ∧
      exitCode (run { traceSteps := 10, faultStep := 18446744073709551613 }) = 101 := by
  have hfits : FitsInMemory 10 := by
    unfold FitsInMemory
    decide
  have hle : UInt64.size ≤ inbox.length + (18446744073709551613 : UInt64).toNat := by decide
  have hfault : selectFault (program 10) 18446744073709551613 = .error .addOverflow :=
    selectFault_of_le hle
  have hrun := run_of_fault (s := { traceSteps := 10, faultStep := 18446744073709551613 }) hfault
  refine ⟨hfits, candidates_eq_empty_of_le hfits hle, hfault, ?_, ?_⟩
  · rw [hrun]
    simp
  · rw [exitCode, hrun]

end TraceDispute.Simulation
