import TraceDispute.Proofs.Machine.Twin

/-!
# Programs that run to their end

Instructions complete if none of them is a halt and there is a message left for
every read (`Machine.Completes`).  A run through such code does nothing but carry
out its instructions one after the other: it comes to rest where folding
`Point.after` over them leads (`Point.settle_through`), whatever is done with the
instruction that crosses a target.  So a replay of the whole program reaches its
end exactly when the gas of all its instructions is used.

Twins that have some code in common stay twins for as long as its gas lasts
(`Point.Twin.settle_of_common`).
-/

namespace TraceDispute

@[simp] theorem gasSum_append (first second : List Instruction) :
    gasSum (first ++ second) = gasSum first + gasSum second := by
  simp [gasSum]

namespace Machine

variable {m : Machine} {i : Instruction} {code rest : List Instruction}

/-- What is left of the program. -/
def remaining (m : Machine) : List Instruction := m.program.drop m.pc.toNat

theorem next?_of_remaining (h : m.remaining = i :: rest) : m.next? = some i := by
  unfold remaining at h
  rw [next?, ← List.head?_drop, h, List.head?_cons]

theorem remaining_perform (h : m.remaining = i :: rest)
    (hrunning : (m.perform {} i).1.halted = false) : (m.perform {} i).1.remaining = rest := by
  have hdrop : i :: m.program.drop (m.pc + 1).toNat = i :: rest :=
    (drop_pc (next?_of_remaining h)).symm.trans h
  rw [remaining, program_perform, pc_perform hrunning]
  exact List.cons_injective hdrop

/-- The machine after some instructions, one after the other. -/
def carryOut (m : Machine) (code : List Instruction) : Machine :=
  code.foldl (fun m i => (m.perform {} i).1) m

@[simp] theorem carryOut_cons : m.carryOut (i :: code) = (m.perform {} i).1.carryOut code := rfl

@[simp] theorem carryOut_append :
    m.carryOut (code ++ rest) = (m.carryOut code).carryOut rest :=
  List.foldl_append

/-- No instruction stops the machine: there is no halt, and a message for every read. -/
structure Completes (m : Machine) (code : List Instruction) : Prop where
  no_halt : .halt ∉ code
  reads_le : m.inboxPosition.toNat + code.count .readInbox ≤ m.inbox.length

theorem Completes.message (h : m.Completes (.readInbox :: rest)) :
    ∃ message, m.message? = some message := by
  have hlt : m.inboxPosition.toNat < m.inbox.length := by
    have := h.reads_le
    rw [List.count_cons_self] at this
    omega
  exact ⟨_, List.getElem?_eq_getElem hlt⟩

/-- An instruction that completes goes on with the rest, and reads if it is a read. -/
theorem Completes.perform (h : m.Completes (i :: rest)) (hrunning : m.halted = false) :
    (m.perform {} i).1.halted = false ∧
      (m.perform {} i).2.messagesRead.toNat = [i].count .readInbox := by
  cases i with
  | readInbox =>
      obtain ⟨message, hmessage⟩ := h.message
      simp [Machine.perform, hmessage, advance, hrunning]
  | halt => exact absurd List.mem_cons_self h.no_halt
  | _ => simp [Machine.perform, advance, hrunning]

theorem Completes.tail (h : m.Completes (i :: rest)) (hrunning : m.halted = false) :
    (m.perform {} i).1.Completes rest := by
  refine ⟨fun hmem => h.no_halt (List.mem_cons_of_mem _ hmem), ?_⟩
  have hreads : [i].count .readInbox + rest.count .readInbox = (i :: rest).count .readInbox := by
    rw [← List.count_append, List.singleton_append]
  have hle := h.reads_le
  rw [inbox_perform, inboxPosition_perform, (h.perform hrunning).2]
  omega

end Machine

namespace Point

variable {p q : Point} {overshoot : Bool} {target : Nat} {i : Instruction}
  {code rest : List Instruction}

/-- The point after some instructions, one after the other. -/
def through (p : Point) (code : List Instruction) : Point := code.foldl after p

@[simp] theorem through_nil : p.through [] = p := rfl

@[simp] theorem through_cons : p.through (i :: code) = (p.after i).through code := rfl

theorem machine_through : (p.through code).machine = p.machine.carryOut code := by
  induction code generalizing p with
  | nil => rfl
  | cons i code ih => exact ih

theorem gas_through : (p.through code).gas = p.gas + gasSum code := by
  induction code generalizing p with
  | nil => simp [gasSum]
  | cons i code ih =>
      rw [through_cons, ih, gas_after, gasSum_cons]
      omega

theorem next?_of_completes (hrunning : p.machine.halted = false)
    (hcode : p.machine.remaining = i :: rest) (h : p.machine.Completes (i :: code)) :
    p.next? = some (p.after i) :=
  next?_eq_some_iff.mpr
    ⟨hrunning, i, Machine.next?_of_remaining hcode, (h.perform hrunning).1, rfl⟩

theorem next?_of_remaining_nil (h : p.machine.remaining = []) : p.next? = none := by
  have hnone : p.machine.next? = none := by
    unfold Machine.remaining at h
    rw [Machine.next?, ← List.head?_drop, h, List.head?_nil]
  simp [Point.next?, hnone]

theorem remaining_through (hrunning : p.machine.halted = false)
    (hcode : p.machine.remaining = code ++ rest) (h : p.machine.Completes code) :
    (p.through code).machine.remaining = rest := by
  induction code generalizing p with
  | nil => exact hcode
  | cons i code ih =>
      have hafter := (h.perform hrunning).1
      exact ih hafter (Machine.remaining_perform hcode hafter) (h.tail hrunning)

/-- A run goes through all the code that its target pays for. -/
theorem settle_through (hrunning : p.machine.halted = false)
    (hcode : p.machine.remaining = code ++ rest) (h : p.machine.Completes code)
    (htarget : p.gas + gasSum code ≤ target) :
    p.settle overshoot target = (p.through code).settle overshoot target := by
  -- on the instructions, each of which completes and ends within the target
  induction code generalizing p with
  | nil => rfl
  | cons i code ih =>
      have hnext := next?_of_completes hrunning hcode h
      have hgas := gas_lt_of_next? hnext
      rw [gasSum_cons] at htarget
      rw [gas_after] at hgas
      have hwithin : (p.after i).gas ≤ target := by
        rw [gas_after]
        omega
      rw [settle_of_some hnext (by omega), if_pos (.inr hwithin), through_cons]
      refine ih (h.perform hrunning).1 (Machine.remaining_perform hcode (h.perform hrunning).1)
        (h.tail hrunning) ?_
      rw [gas_after]
      omega

/-- With overshoot a run also goes through an instruction that its target pays for in part. -/
theorem settle_through_crossing (hrunning : p.machine.halted = false)
    (hcode : p.machine.remaining = code ++ i :: rest)
    (h : p.machine.Completes (code ++ [i])) (htarget : p.gas + gasSum code < target) :
    p.settle true target = (p.through (code ++ [i])).settle true target := by
  -- as in `settle_through`, but the last instruction starts within the target only
  induction code generalizing p with
  | nil =>
      rw [settle_of_some (next?_of_completes hrunning hcode h) htarget, if_pos (.inl rfl)]
      rfl
  | cons j code ih =>
      have hnext := next?_of_completes hrunning hcode h
      have hafter := (h.perform hrunning).1
      rw [gasSum_cons] at htarget
      rw [settle_of_some hnext (by omega), if_pos (.inl rfl)]
      refine ih hafter (Machine.remaining_perform hcode hafter) (h.tail hrunning) ?_
      rw [gas_after]
      omega

theorem Twin.start {m n : Machine} (h : m.Twin n) : (Point.start m).Twin (.start n) := by
  refine ⟨h, rfl, ?_⟩
  rw [progress, progress, report_start, report_start]
  exact congrArg Progress.start h.hash_eq

/-- Twins stay twins for as long as the gas of the code that they have in common lasts. -/
theorem Twin.settle_of_common {common rest' : List Instruction} (h : p.Twin q)
    (hp : p.machine.remaining = common ++ rest) (hq : q.machine.remaining = common ++ rest')
    (htarget : target ≤ p.gas + gasSum common) :
    (p.settle overshoot target).Twin (q.settle overshoot target) := by
  -- on the common instructions, while neither twin has reached the target
  induction common generalizing p q with
  | nil =>
      have hle : target ≤ p.gas := htarget
      rwa [settle_of_le hle, settle_of_le (h.gas_eq ▸ hle)]
  | cons i common ih =>
      by_cases hgas : p.gas < target
      · have hi := Machine.next?_of_remaining hp
        have hsame : p.machine.next? = q.machine.next? :=
          hi.trans (Machine.next?_of_remaining hq).symm
        rcases h.next? hsame with ⟨hnone, hnone'⟩ | ⟨r, r', hr, hr', htwin⟩
        · rwa [settle_of_none hnone, settle_of_none hnone']
        · have hgas' : q.gas < target := h.gas_eq ▸ hgas
          rw [settle_of_some hr hgas, settle_of_some hr' hgas', htwin.gas_eq]
          split
          · obtain ⟨-, j, hj, hrunning, rfl⟩ := next?_eq_some_iff.mp hr
            obtain ⟨-, j', hj', hrunning', rfl⟩ := next?_eq_some_iff.mp hr'
            obtain rfl : i = j := Option.some.inj (hi.symm.trans hj)
            obtain rfl : i = j' := Option.some.inj ((hsame.symm.trans hi).symm.trans hj')
            refine ih htwin (Machine.remaining_perform hp hrunning)
              (Machine.remaining_perform hq hrunning') ?_
            rw [gas_after]
            rw [gasSum_cons] at htarget
            omega
          · exact h
      · have hle : target ≤ p.gas := not_lt.mp hgas
        rwa [settle_of_le hle, settle_of_le (h.gas_eq ▸ hle)]

/-- Runs through code of the same prices have used the same gas at every target. -/
theorem gas_settle_congr {code' : List Instruction} (hp : p.machine.halted = false)
    (hcode : p.machine.remaining = code) (h : p.machine.Completes code)
    (hq : q.machine.halted = false) (hcode' : q.machine.remaining = code')
    (h' : q.machine.Completes code')
    (hprices : code.map Instruction.gasCost = code'.map Instruction.gasCost)
    (hgas : p.gas = q.gas) :
    (p.settle overshoot target).gas = (q.settle overshoot target).gas := by
  -- on both programs at once; equal prices make them stop at the same place
  induction code generalizing p q code' with
  | nil =>
      obtain rfl : code' = [] := List.map_eq_nil_iff.mp hprices.symm
      rw [settle_of_none (next?_of_remaining_nil hcode),
        settle_of_none (next?_of_remaining_nil hcode'), hgas]
  | cons i code ih =>
      obtain ⟨j, code'', rfl, hj, hrest⟩ := List.map_eq_cons_iff.mp hprices.symm
      have hnext := next?_of_completes hp hcode h
      have hnext' := next?_of_completes hq hcode' h'
      have hafter : (p.after i).gas = (q.after j).gas := by
        rw [gas_after, gas_after, hgas, hj]
      by_cases htarget : p.gas < target
      · rw [settle_of_some hnext htarget, settle_of_some hnext' (hgas ▸ htarget), hafter]
        split
        · have hi := (h.perform hp).1
          have hj := (h'.perform hq).1
          exact ih hi (Machine.remaining_perform hcode hi) (h.tail hp) hj
            (Machine.remaining_perform hcode' hj) (h'.tail hq) hrest.symm hafter
        · exact hgas
      · have hle : target ≤ p.gas := not_lt.mp htarget
        rw [settle_of_le hle, settle_of_le (hgas ▸ hle), hgas]

end Point

namespace Machine

variable {m n : Machine} {overshoot : Bool} {offset : UInt64} {target : Nat} {i : Instruction}
  {code code' : List Instruction} {messages : List Bytes}

/-- A machine at the start of a program that it runs to the end of. -/
structure Ready (m : Machine) : Prop where
  pc_eq : m.pc = 0
  not_halted : m.halted = false
  completes : m.Completes m.program

theorem Ready.remaining_eq (h : m.Ready) : m.remaining = m.program := by
  simp [remaining, h.pc_eq]

/-- A replay of the whole program stands at its end. -/
theorem Ready.restAt_eq (h : m.Ready) (htarget : offset.toNat = gasSum m.program) :
    m.restAt overshoot offset.toNat = (Point.start m).through m.program := by
  have hcode : m.remaining = m.program ++ [] := h.remaining_eq.trans (List.append_nil _).symm
  have hend : ((Point.start m).through m.program).gas = offset.toNat := by
    rw [Point.gas_through, Point.gas_start, htarget, Nat.zero_add]
  rw [restAt, Point.settle_through h.not_halted hcode h.completes (by simp [htarget])]
  exact Point.settle_of_le hend.ge

/-- With overshoot a replay stands at the end as soon as the last instruction is paid for in
part. -/
theorem Ready.restAt_of_crossing (h : m.Ready) (hcode : m.program = code ++ [i])
    (htarget : gasSum code < target) :
    m.restAt true target = (Point.start m).through m.program := by
  have hremaining : m.remaining = m.program ++ [] := h.remaining_eq.trans (List.append_nil _).symm
  have hend := Point.remaining_through (p := .start m) h.not_halted hremaining h.completes
  have hcomplete := h.completes
  rw [hcode] at hcomplete ⊢
  rw [restAt, Point.settle_through_crossing h.not_halted (h.remaining_eq.trans hcode) hcomplete
    (by rwa [Point.gas_start, Nat.zero_add])]
  exact Point.settle_of_none (Point.next?_of_remaining_nil (hcode ▸ hend))

theorem Ready.pointAt_eq (h : m.Ready) (htarget : offset.toNat = gasSum m.program) :
    m.pointAt overshoot offset = .ok ((Point.start m).through m.program) := by
  refine pointAt_eq_ok_iff.mpr ⟨(h.restAt_eq htarget).symm, ?_⟩
  intro hlt
  rw [Point.gas_through, Point.gas_start, htarget] at hlt
  omega

/-- Machines whose programs have the same prices use their gas in the same portions. -/
theorem Ready.gas_restAt_congr (hm : m.Ready) (hn : n.Ready)
    (hprices : m.program.map Instruction.gasCost = n.program.map Instruction.gasCost)
    (target : Nat) : (m.restAt overshoot target).gas = (n.restAt overshoot target).gas :=
  Point.gas_settle_congr hm.not_halted hm.remaining_eq hm.completes hn.not_halted
    hn.remaining_eq hn.completes hprices rfl

/-! ## Machines at their start -/

theorem exists_start? (hcode : code.length < UInt64.size)
    (hmessages : messages.length < UInt64.size) : ∃ m, start? code messages = some m :=
  ⟨_, dif_pos ⟨hcode, hmessages⟩⟩

theorem start?_eq_some (h : start? code messages = some m) :
    m.program = code ∧ m.inbox = messages ∧ m.pc = 0 ∧ m.register = 0 ∧ m.inboxPosition = 0 ∧
      m.buffer = [] ∧ m.halted = false := by
  unfold start? at h
  split at h
  · cases h
    exact ⟨rfl, rfl, rfl, rfl, rfl, rfl, rfl⟩
  · cases h

theorem twin_of_start? (hm : start? code messages = some m)
    (hn : start? code' messages = some n) : m.Twin n := by
  obtain ⟨-, hinbox, hpc, hregister, hposition, hbuffer, hhalted⟩ := start?_eq_some hm
  obtain ⟨-, hinbox', hpc', hregister', hposition', hbuffer', hhalted'⟩ := start?_eq_some hn
  exact ⟨hinbox.trans hinbox'.symm, hpc.trans hpc'.symm, hregister.trans hregister'.symm,
    hposition.trans hposition'.symm, hbuffer.trans hbuffer'.symm, hhalted.trans hhalted'.symm⟩

theorem ready_of_start? (h : start? code messages = some m) (hhalt : .halt ∉ code)
    (hreads : code.count .readInbox ≤ messages.length) : m.Ready := by
  obtain ⟨rfl, rfl, hpc, -, hposition, -, hhalted⟩ := start?_eq_some h
  refine ⟨hpc, hhalted, hhalt, ?_⟩
  rw [hposition]
  exact (Nat.zero_add _).trans_le hreads

theorem exists_totalGas (h : gasSum m.program < UInt64.size) :
    ∃ total, m.totalGas = .ok total ∧ total.toNat = gasSum m.program := by
  -- for any sum to start from
  have key : ∀ (code : List Instruction) (gas : UInt64), gas.toNat + gasSum code < UInt64.size →
      ∃ total, code.foldlM (fun gas i => Checked.add gas i.gasCost) gas = .ok total := by
    intro code
    induction code with
    | nil => exact fun gas _ => ⟨gas, rfl⟩
    | cons i code ih =>
        intro gas hfits
        rw [gasSum_cons] at hfits
        have hadd := Checked.add_of_lt (a := gas) (b := i.gasCost) (by omega)
        obtain ⟨total, htotal⟩ := ih (gas + i.gasCost) (by
          rw [Checked.toNat_of_add_eq_ok hadd]
          omega)
        exact ⟨total, by simpa only [List.foldlM, hadd, bind, Except.bind] using htotal⟩
  obtain ⟨total, htotal⟩ := key m.program 0 (by simpa using h)
  exact ⟨total, htotal, toNat_totalGas htotal⟩

end Machine

end TraceDispute
