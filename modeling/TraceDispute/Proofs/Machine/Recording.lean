import TraceDispute.Proofs.Machine.Trace

/-!
# A machine with its sums and indices checked

Gas is added with a check.  Three other sums are not checked when an instruction
is carried out: the positions in the program and in the inbox, and the number of
messages read.  Neither are the indices into the side buffer and into a digest.

`performRecording` is `perform` with all of these checked, and it keeps a record
of the writes to the side buffer, each with the register that it stores.  A run
of it comes out like a run of the machine itself (`tracks_executeRecording`): no
sum wraps, no index is out of bounds, and the writes lead from the buffer before
to the buffer after.

That is one case of a general fact about the loop of `run`, which takes the step
as an argument: a step that keeps a record and agrees with `perform` along a run
gives the run of `perform` (`tracks_runWith`).
-/

namespace TraceDispute

/-! ## Computations with a record -/

/-- A computation that keeps a record comes out like one that keeps none: both are abandoned with
the same fault, or both come to the same result and `P` holds of it and the record. -/
def Tracks {α ρ : Type} (P : α → ρ → Prop) (r : ρ) (x : StateT ρ Checked α) : Checked α → Prop
  | .error fault => x.run r = .error fault
  | .ok a => ∃ r', x.run r = .ok (a, r') ∧ P a r'

namespace Tracks

variable {α β ρ : Type} {P : α → ρ → Prop} {Q : β → ρ → Prop} {r : ρ} {x : StateT ρ Checked α}
  {y : Checked α}

theorem pure {a : α} (h : P a r) : Tracks P r (pure a) (.ok a) := ⟨r, rfl, h⟩

/-- A computation that does not touch the record. -/
theorem lift (y : Checked α) : Tracks (fun _ r' => r' = r) r (liftM y) y := by
  cases y with
  | error fault => rfl
  | ok a => exact ⟨r, rfl, rfl⟩

theorem bind {f : α → StateT ρ Checked β} {g : α → Checked β} (h : Tracks P r x y)
    (hf : ∀ a r', y = .ok a → P a r' → Tracks Q r' (f a) (g a)) :
    Tracks Q r (x >>= f) (y >>= g) := by
  cases y with
  | error fault =>
      show (x.run r >>= fun p => (f p.1).run p.2) = .error fault
      rw [show x.run r = .error fault from h]
      rfl
  | ok a =>
      obtain ⟨r', hrun, ha⟩ := h
      have hrest : (x >>= f).run r = (f a).run r' := by
        show (x.run r >>= fun p => (f p.1).run p.2) = (f a).run r'
        rw [hrun]
        rfl
      have hfa := hf a r' rfl ha
      show Tracks Q r (x >>= f) (g a)
      generalize g a = z at hfa ⊢
      cases z with
      | error fault => exact hrest.trans hfa
      | ok b =>
          obtain ⟨r'', hlater, hb⟩ := hfa
          exact ⟨r'', hrest.trans hlater, hb⟩

theorem imp {R : α → ρ → Prop} (h : Tracks P r x y) (himp : ∀ a r', P a r' → R a r') :
    Tracks R r x y := by
  cases y with
  | error fault => exact h
  | ok a =>
      obtain ⟨r', hrun, ha⟩ := h
      exact ⟨r', hrun, himp a r' ha⟩

theorem run'_eq (h : Tracks P r x y) : x.run' r = y := by
  cases y with
  | error fault => exact congrArg (Functor.map Prod.fst) h
  | ok a =>
      obtain ⟨r', hrun, -⟩ := h
      exact congrArg (Functor.map Prod.fst) hrun

theorem of_run_eq_ok {a : α} {r' : ρ} (h : Tracks P r x y) (hrun : x.run r = .ok (a, r')) :
    P a r' := by
  cases y with
  | error fault => cases hrun.symm.trans h
  | ok b =>
      obtain ⟨r'', hrun', hb⟩ := h
      obtain ⟨rfl, rfl⟩ := Prod.mk.inj (Except.ok.inj (hrun.symm.trans hrun'))
      exact hb

end Tracks

/-- The number of messages that an instruction consumes when it completes. -/
def Instruction.reads : Instruction → UInt64
  | .readInbox => 1
  | _ => 0

namespace Machine

/-! ## The loop, for any step -/

/-- A step that keeps a record does what `perform` does wherever `P` holds of the machine with its
effects and the record, and `P` goes on to hold. -/
structure Agrees {ρ : Type} (step : Machine → Effects → Instruction → StateT ρ Checked
    (Machine × Effects)) (P : Machine × Effects → ρ → Prop) : Prop where
  perform : ∀ {m e r i}, m.next? = some i → P (m, e) r →
    Tracks P r (step m e i) (.ok (m.perform e i))
  charge : ∀ {m e r} gas, P (m, e) r → P (m, { e with gasUsed := gas }) r
  stop : ∀ {m e r}, P (m, e) r → P (m.stop, e) r

/-- Steps that agree give the same run. -/
theorem tracks_runWith {ρ : Type} {step : Machine → Effects → Instruction → StateT ρ Checked
    (Machine × Effects)} {P : Machine × Effects → ρ → Prop} {target : UInt64} {overshoot : Bool}
    {code : List Instruction} {m : Machine} {e : Effects} {r : ρ} (hstep : Agrees step P)
    (hcode : m.program.drop m.pc.toNat = code) (h : P (m, e) r) :
    Tracks P r (runWith step target overshoot code m e) (run target overshoot code m e) := by
  -- on the program that is left; an instruction that completes leaves the rest of it
  induction code generalizing m e r with
  | nil =>
      unfold run runWith
      split
      · exact .pure (hstep.stop h)
      · exact .pure h
  | cons i code ih =>
      have hnext : m.next? = some i := by
        rw [next?, ← List.head?_drop, hcode]
        rfl
      have hrest : m.program.drop (m.pc + 1).toNat = code := by
        have hdrop := drop_pc hnext
        rw [hcode] at hdrop
        exact (List.cons.inj hdrop).2.symm
      unfold run runWith
      split
      · refine (Tracks.lift (fits target overshoot e i)).bind ?_
        rintro fits _ - rfl
        split
        · refine (hstep.perform hnext h).bind ?_
          rintro ⟨m', e'⟩ r' hresult hr'
          have hm' : m' = (m.perform e i).1 := congrArg Prod.fst (Except.ok.inj hresult).symm
          dsimp only
          split
          · exact .pure hr'
          · rename_i hrunning
            refine (Tracks.lift (Checked.add e'.gasUsed i.gasCost)).bind ?_
            rintro gas _ - rfl
            refine ih ?_ (hstep.charge gas hr')
            subst hm'
            rw [program_perform, pc_perform (Bool.eq_false_of_not_eq_true hrunning)]
            exact hrest
        · exact .pure h
      · exact .pure h

/-! ## Writes -/

/-- A write to the side buffer: the slot that the instruction names, and the register then. -/
structure Write where
  slot : UInt16
  value : UInt64
deriving DecidableEq

/-- The entry that a write goes to. -/
def Write.index (w : Write) : Nat := clampSlot w.slot

/-- The write that the machine makes with an instruction, if the instruction is one. -/
def writes (m : Machine) : Instruction → List Write
  | .bufferWrite slot => [⟨slot, m.register⟩]
  | _ => []

/-- A buffer after some writes, one after the other. -/
def applyWrites (buffer : List UInt64) (ws : List Write) : List UInt64 :=
  ws.foldl (fun buffer w => writeSlot buffer w.index w.value) buffer

variable {buffer : List UInt64} {w : Write} {ws vs : List Write} {slot : Nat} {value : UInt64}
  {m : Machine} {e : Effects} {i : Instruction}

@[simp] theorem applyWrites_nil : applyWrites buffer [] = buffer := rfl

@[simp] theorem applyWrites_cons :
    applyWrites buffer (w :: ws) = applyWrites (writeSlot buffer w.index w.value) ws := rfl

@[simp] theorem applyWrites_append :
    applyWrites buffer (ws ++ vs) = applyWrites (applyWrites buffer ws) vs :=
  List.foldl_append

/-- The writes of an instruction are what it does to the buffer. -/
theorem buffer_perform (m : Machine) (e : Effects) (i : Instruction) :
    (m.perform e i).1.buffer = applyWrites m.buffer (m.writes i) := by
  cases i with
  | readInbox => cases hm : m.message? <;> simp [perform, hm, writes, stop, advance]
  | bufferWrite slot => rfl
  | _ => rfl

/-! ## Instructions with their indices checked -/

/-- A buffer that has an entry at an index: one that is too short is filled up with zeros. -/
def reach (buffer : List UInt64) (slot : Nat) : List UInt64 :=
  if buffer.length ≤ slot then buffer ++ List.replicate (slot + 1 - buffer.length) 0 else buffer

/-- `perform` with every index checked, and the length of the buffer that it leaves. -/
def performIndexed (m : Machine) (e : Effects) : Instruction → Checked (Machine × Effects)
  | .readInbox =>
    match m.message? with
    | none => .ok (m.stop, e)
    | some message => do
      let word ← Checked.take 8 (keccak message).bytes
      return ({ m with
          register := m.register ^^^ Bytes.toUInt64 word
          inboxPosition := m.inboxPosition + 1 }.advance,
        { e with messagesRead := e.messagesRead + 1 })
  | .bufferWrite slot => do
    let buffer ← Checked.set (reach m.buffer (clampSlot slot)) (clampSlot slot) m.register
    if h : buffer.length < UInt64.size then
      return ({ m with buffer, buffer_lt := h }.advance, e)
    else .error .capacityOverflow
  | i => .ok (m.perform e i)

/-- A buffer that reaches a slot has room for the value. -/
theorem set_reach :
    Checked.set (reach buffer slot) slot value = .ok (writeSlot buffer slot value) := by
  unfold reach
  split
  · rename_i hle
    apply Checked.set_of_lt
    rw [List.length_append, List.length_replicate]
    omega
  · rename_i hlt
    have hgrown : slot + 1 - buffer.length = 0 := by omega
    rw [Checked.set_of_lt (not_le.mp hlt), writeSlot, hgrown, List.replicate_zero, List.append_nil]

theorem performIndexed_eq (m : Machine) (e : Effects) (i : Instruction) :
    m.performIndexed e i = .ok (m.perform e i) := by
  cases i with
  | readInbox =>
      cases hm : m.message? with
      | none => simp [performIndexed, perform, hm]
      | some message =>
          -- a digest has 32 bytes, of which the register takes the first 8
          have hdigest : 8 ≤ (keccak message).bytes.length := by simp
          simp [performIndexed, perform, hm, Checked.take_of_le hdigest, mixMessage, bind,
            Except.bind, pure, Except.pure]
  | bufferWrite slot =>
      -- growing to a slot of sixteen bits leaves the length within a word
      have hlt := length_writeSlot_lt m.buffer_lt slot m.register
      simp only [performIndexed, perform, set_reach, bind, Except.bind, dif_pos hlt]
      rfl
  | _ => rfl

/-! ## Instructions with their sums checked -/

/-- `perform` with every index and every sum checked. -/
def performChecked (m : Machine) (e : Effects) (i : Instruction) :
    Checked (Machine × Effects) := do
  let (m', e') ← m.performIndexed e i
  if m'.halted then return (m', e')
  else
    let pc ← Checked.add m.pc 1
    let inboxPosition ← Checked.add m.inboxPosition i.reads
    let messagesRead ← Checked.add e.messagesRead i.reads
    return ({ m' with pc, inboxPosition }, { e' with messagesRead })

theorem inboxPosition_succ_lt (hi : (m.perform e .readInbox).1.halted = false) :
    m.inboxPosition.toNat + 1 < UInt64.size := by
  cases hmessage : m.message? with
  | none => simp [perform, hmessage, stop] at hi
  | some message =>
      have hlt : m.inboxPosition.toNat < m.inbox.length :=
        (List.getElem?_eq_some_iff.mp hmessage).1
      have hsize := m.inbox_lt
      omega

/-- A position that names an entry of a list can be advanced, and no more messages are counted
than the inbox position has passed. -/
theorem performChecked_eq (hnext : m.next? = some i)
    (hreads : e.messagesRead.toNat ≤ m.inboxPosition.toNat) :
    m.performChecked e i = .ok (m.perform e i) := by
  simp only [performChecked, performIndexed_eq, bind, Except.bind]
  cases ha : (m.perform e i).1.halted with
  | true => rfl
  | false =>
      have hpc : Checked.add m.pc 1 = .ok (m.pc + 1) := by
        have hlt := pc_lt hnext
        have hsize := m.program_lt
        apply Checked.add_of_lt
        change m.pc.toNat + 1 < UInt64.size
        omega
      have hposition : Checked.add m.inboxPosition i.reads = .ok (m.inboxPosition + i.reads) := by
        apply Checked.add_of_lt
        cases i with
        | readInbox => exact inboxPosition_succ_lt ha
        | _ => exact m.inboxPosition.toNat_lt
      have hcount : Checked.add e.messagesRead i.reads = .ok (e.messagesRead + i.reads) := by
        apply Checked.add_of_lt
        cases i with
        | readInbox =>
            have hlt := inboxPosition_succ_lt ha
            change e.messagesRead.toNat + 1 < UInt64.size
            omega
        | _ => exact e.messagesRead.toNat_lt
      simp only [Bool.false_eq_true, if_false, hpc, hposition, hcount]
      -- what was formed by checked sums is what the instruction has left behind
      cases i with
      | readInbox => cases hm : m.message? <;> simp_all [perform, advance, stop, Instruction.reads,
          pure, Except.pure]
      | _ => simp_all [perform, advance, stop, Instruction.reads, pure, Except.pure]

theorem reads_perform_le (hreads : e.messagesRead.toNat ≤ m.inboxPosition.toNat) :
    (m.perform e i).2.messagesRead.toNat ≤ (m.perform e i).1.inboxPosition.toNat := by
  rw [perform_eq]
  have hsum : (e.messagesRead + (m.perform {} i).2.messagesRead).toNat ≤
      e.messagesRead.toNat + (m.perform {} i).2.messagesRead.toNat := by
    rw [UInt64.toNat_add]
    exact Nat.mod_le _ _
  calc (e.messagesRead + (m.perform {} i).2.messagesRead).toNat
      ≤ e.messagesRead.toNat + (m.perform {} i).2.messagesRead.toNat := hsum
    _ ≤ m.inboxPosition.toNat + (m.perform {} i).2.messagesRead.toNat :=
        Nat.add_le_add_right hreads _
    _ = (m.perform {} i).1.inboxPosition.toNat := inboxPosition_perform.symm

/-! ## Runs that record their writes -/

/-- A computation that keeps a list of the writes that it has carried out, in order. -/
abbrev Recording : Type → Type := StateT (List Write) Checked

/-- `perform` with every index and every sum checked, and its write recorded. -/
def performRecording (m : Machine) (e : Effects) (i : Instruction) :
    Recording (Machine × Effects) := do
  let result ← m.performChecked e i
  modify (· ++ m.writes i)
  return result

/-- `execute` with every index and every sum checked, and its writes recorded. -/
def executeRecording (m : Machine) (target : UInt64) (overshoot : Bool) :
    Recording (Machine × Effects) :=
  if m.halted then return (m, {})
  else runWith performRecording target overshoot (m.program.drop m.pc.toNat) m {}

/-- `execute` with every index and every sum checked. -/
def executeChecked (m : Machine) (target : UInt64) (overshoot : Bool) :
    Checked (Machine × Effects) :=
  (m.executeRecording target overshoot).run' []

/-- A run that has been recorded: its writes lead from `buffer` to the buffer of its machine, and
the messages that it counts are behind the inbox position. -/
structure Recorded (buffer : List UInt64) (result : Machine × Effects) (ws : List Write) :
    Prop where
  buffer_eq : result.1.buffer = applyWrites buffer ws
  reads_le : result.2.messagesRead.toNat ≤ result.1.inboxPosition.toNat

theorem agrees_performRecording (buffer : List UInt64) :
    Agrees performRecording (Recorded buffer) where
  perform := by
    intro m e ws i hnext h
    refine ⟨ws ++ m.writes i, ?_, ?_, reads_perform_le h.reads_le⟩
    · unfold performRecording
      rw [performChecked_eq hnext h.reads_le]
      rfl
    · rw [buffer_perform, h.buffer_eq, applyWrites_append]
  charge gas h := ⟨h.buffer_eq, h.reads_le⟩
  stop h := ⟨h.buffer_eq, h.reads_le⟩

/-- Recording a run changes nothing, and its writes lead to the buffer that it leaves behind. -/
theorem tracks_executeRecording (target : UInt64) (overshoot : Bool)
    (h : m.buffer = applyWrites buffer ws) :
    Tracks (fun result ws' => result.1.buffer = applyWrites buffer ws') ws
      (m.executeRecording target overshoot) (m.execute target overshoot) := by
  unfold executeRecording execute
  split
  · exact .pure h
  · have hrecorded : Recorded buffer (m, {}) ws := ⟨h, Nat.zero_le _⟩
    exact (tracks_runWith (agrees_performRecording buffer) rfl hrecorded).imp
      fun _ _ hlast => hlast.buffer_eq

theorem executeChecked_eq (m : Machine) (target : UInt64) (overshoot : Bool) :
    m.executeChecked target overshoot = m.execute target overshoot := by
  have hbuffer : m.buffer = applyWrites m.buffer [] := rfl
  exact (tracks_executeRecording target overshoot hbuffer).run'_eq

end Machine

end TraceDispute
