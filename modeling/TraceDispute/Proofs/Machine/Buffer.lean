import TraceDispute.Proofs.Machine.Boundary
import TraceDispute.Proofs.Machine.Recording

/-!
# The side buffer records the last writes

What a machine has in its side buffer is fixed by the writes that it has carried
out: the buffer is as long as the largest slot among them needs, and an entry
holds what was written there last.  All slots past the end share the last entry,
so writes that name different slots may meet there.

Calls of `execute` come out like recorded ones, whatever the machine, and the
recorded writes lead from the buffer before to the buffer after
(`tracks_recordCalls`).  What some writes make of a buffer is read off their list:
`length_applyWrites` for the length and `getElem?_applyWrites` for the entries.
Together this is `buffer_records_writes`.
-/

namespace TraceDispute

namespace Machine

/-! ## What some writes come to -/

theorem Write.index_lt (w : Write) : w.index < maxBufferSlots := by
  unfold Write.index clampSlot maxBufferSlots
  omega

/-- The length that some writes give to an empty buffer: none without a write, else one more than
the largest index. -/
def extent (ws : List Write) : Nat :=
  match (ws.map Write.index).max? with
  | none => 0
  | some last => last + 1

/-- The value of the last write that goes to an entry, if there is one. -/
def lastValue? (ws : List Write) (j : Nat) : Option UInt64 :=
  (ws.filterMap fun w => if w.index = j then some w.value else none).getLast?

variable {buffer : List UInt64} {w : Write} {ws vs : List Write} {j slot : Nat} {value : UInt64}

@[simp] theorem extent_nil : extent [] = 0 := rfl

theorem extent_cons : extent (w :: ws) = max (w.index + 1) (extent ws) := by
  unfold extent
  rw [List.map_cons, List.max?_cons]
  cases (ws.map Write.index).max? with
  | none => simp
  | some last => exact (Nat.add_max_add_right _ _ _).symm

theorem extent_le (ws : List Write) : extent ws ≤ maxBufferSlots := by
  induction ws with
  | nil => exact Nat.zero_le _
  | cons w ws ih =>
      rw [extent_cons]
      exact max_le w.index_lt ih

@[simp] theorem lastValue?_nil : lastValue? [] j = none := rfl

theorem lastValue?_cons :
    lastValue? (w :: ws) j = (lastValue? ws j).or (if w.index = j then some w.value else none) := by
  unfold lastValue?
  by_cases hw : w.index = j
  · rw [List.filterMap_cons_some (by rw [if_pos hw]), List.getLast?_cons, if_pos hw, Option.or_some]
  · rw [List.filterMap_cons_none (by rw [if_neg hw]), if_neg hw, Option.or_none]

theorem lastValue?_eq_none (h : ∀ w ∈ ws, w.index ≠ j) : lastValue? ws j = none := by
  have hnone : (ws.filterMap fun w => if w.index = j then some w.value else none) = [] :=
    List.filterMap_eq_nil_iff.mpr fun w hw => if_neg (h w hw)
  rw [lastValue?, hnone, List.getLast?_nil]

/-! ## What a buffer holds after some writes -/

theorem length_applyWrites :
    (applyWrites buffer ws).length = max buffer.length (extent ws) := by
  induction ws generalizing buffer with
  | nil => simp
  | cons w ws ih => rw [applyWrites_cons, ih, length_writeSlot, extent_cons, max_assoc]

/-- A buffer read with zeros past its end, which is what a write fills it up with: one entry
changes and no other, whether the buffer grows or not. -/
theorem getD_writeSlot :
    (writeSlot buffer slot value)[j]?.getD 0 = if j = slot then value else buffer[j]?.getD 0 := by
  have hroom : slot < (buffer ++ List.replicate (slot + 1 - buffer.length) 0).length := by
    rw [List.length_append, List.length_replicate]
    omega
  unfold writeSlot
  by_cases hj : j = slot
  · subst hj
    rw [List.getElem?_set_self hroom, if_pos rfl, Option.getD_some]
  · rw [List.getElem?_set_ne (Ne.symm hj), if_neg hj]
    rcases lt_or_ge j buffer.length with hlt | hle
    · rw [List.getElem?_append_left hlt]
    · rw [List.getElem?_append_right hle, List.getElem?_eq_none hle, List.getElem?_replicate]
      split <;> rfl

theorem getD_applyWrites :
    (applyWrites buffer ws)[j]?.getD 0 = (lastValue? ws j).getD (buffer[j]?.getD 0) := by
  induction ws generalizing buffer with
  | nil => rfl
  | cons w ws ih =>
      rw [applyWrites_cons, ih, getD_writeSlot, lastValue?_cons]
      by_cases hw : w.index = j
      · rw [if_pos hw.symm, if_pos hw]
        cases lastValue? ws j <;> rfl
      · rw [if_neg (Ne.symm hw), if_neg hw, Option.or_none]

/-- An entry holds the last value written to it, and without one what it held before. -/
theorem getElem?_applyWrites (hj : j < (applyWrites buffer ws).length) :
    (applyWrites buffer ws)[j]? = some ((lastValue? ws j).getD (buffer[j]?.getD 0)) := by
  rw [← getD_applyWrites, List.getElem?_eq_getElem hj, Option.getD_some]

/-! ## Calls, one after the other -/

/-- A call of `execute`. -/
structure Call where
  target : UInt64
  overshoot : Bool

/-- The machine after some calls, one after the other. -/
def executeAll (m : Machine) : List Call → Checked Machine
  | [] => .ok m
  | call :: calls => do
    let (m', _) ← m.execute call.target call.overshoot
    m'.executeAll calls

/-- The machine after some calls with every index and every sum checked, the writes recorded. -/
def recordCalls (m : Machine) : List Call → Recording Machine
  | [] => return m
  | call :: calls => do
    let (m', _) ← m.executeRecording call.target call.overshoot
    m'.recordCalls calls

/-- The machine after some calls with every index and every sum checked, and the writes of all of
them, in order. -/
def recordAll (m : Machine) (calls : List Call) : Checked (Machine × List Write) :=
  (m.recordCalls calls).run []

variable {m m' : Machine}

theorem tracks_recordCalls (calls : List Call) (h : m.buffer = applyWrites buffer ws) :
    Tracks (fun m' ws' => m'.buffer = applyWrites buffer ws') ws (m.recordCalls calls)
      (m.executeAll calls) := by
  induction calls generalizing m ws with
  | nil => exact .pure h
  | cons call calls ih =>
      exact (tracks_executeRecording call.target call.overshoot h).bind
        fun _ _ _ hlater => ih hlater

theorem exists_recordAll {calls : List Call} {ws : List Write}
    (h : (m.recordAll calls).map Prod.snd = .ok ws) :
    ∃ m', m.recordAll calls = .ok (m', ws) := by
  cases hrun : m.recordAll calls with
  | error fault =>
      rw [hrun] at h
      cases h
  | ok r =>
      rw [hrun] at h
      obtain rfl : r.2 = ws := Except.ok.inj h
      exact ⟨r.1, rfl⟩

/-! ## The record -/

/-- A run returns and leaves the program as it is, unless the gas of the program does not fit in
a word. -/
theorem execute_cases (m : Machine) (target : UInt64) (overshoot : Bool) :
    (∃ m' e, m.execute target overshoot = .ok (m', e) ∧ m'.program = m.program) ∨
      (m.execute target overshoot = .error .addOverflow ∧ UInt64.size ≤ gasSum m.program) := by
  by_cases hcount : (m.restAt overshoot target.toNat).Countable overshoot target.toNat
  · refine .inl ⟨_, _, by rw [Point.execute_eq, if_pos hcount], ?_⟩
    have hprogram := m.program_restAt overshoot target.toNat
    unfold Point.finish
    split
    · exact hprogram
    · exact hprogram
  · refine .inr ⟨by rw [Point.execute_eq, if_neg hcount], ?_⟩
    by_contra! hfits
    exact hcount (Point.countable_of_gasSum hfits _)

theorem fault_of_executeAll {calls : List Call} {fault : Fault}
    (h : m.executeAll calls = .error fault) :
    fault = .addOverflow ∧ UInt64.size ≤ gasSum m.program := by
  induction calls generalizing m with
  | nil => cases h
  | cons call calls ih =>
      rcases m.execute_cases call.target call.overshoot with
        ⟨m', e, hrun, hprogram⟩ | ⟨hrun, hgas⟩
      · have hrest : m'.executeAll calls = .error fault := by
          simpa only [executeAll, hrun, bind, Except.bind] using h
        rw [← hprogram]
        exact ih hrest
      · have hfault : (.error .addOverflow : Checked Machine) = .error fault := by
          simpa only [executeAll, hrun, bind, Except.bind] using h
        exact ⟨(Except.error.inj hfault).symm, hgas⟩

/-- A buffer that was empty before some writes: it is as long as the largest index written needs,
and holds the last value written in each entry and zero where nothing was. -/
structure Written (buffer : List UInt64) (ws : List Write) : Prop where
  length_eq : buffer.length = extent ws
  length_le : buffer.length ≤ maxBufferSlots
  entry_eq : ∀ j < buffer.length, buffer[j]? = some ((lastValue? ws j).getD 0)

/-- A buffer after some writes, beside the one before: it has not got shorter, and an entry that
was not written is what it was. -/
structure Overwritten (buffer after : List UInt64) (ws : List Write) : Prop where
  length_le : buffer.length ≤ after.length
  kept : ∀ j < buffer.length, (∀ w ∈ ws, w.index ≠ j) → after[j]? = buffer[j]?

theorem written_applyWrites (ws : List Write) : Written (applyWrites [] ws) ws := by
  have hlength : (applyWrites [] ws).length = extent ws := by
    rw [length_applyWrites, List.length_nil, Nat.zero_max]
  refine ⟨hlength, hlength.trans_le (extent_le ws), fun j hj => ?_⟩
  rw [getElem?_applyWrites hj]
  rfl

theorem overwritten_applyWrites (buffer : List UInt64) (ws : List Write) :
    Overwritten buffer (applyWrites buffer ws) ws := by
  have hgrown : buffer.length ≤ (applyWrites buffer ws).length := by
    rw [length_applyWrites]
    exact le_max_left _ _
  refine ⟨hgrown, fun j hj hkept => ?_⟩
  rw [getElem?_applyWrites (hj.trans_le hgrown), lastValue?_eq_none hkept,
    List.getElem?_eq_getElem hj]
  rfl

/-- Some calls leave the record of their last writes in the side buffer. -/
structure RecordsWrites (m : Machine) (calls : List Call) : Prop where
  /-- The calls come out as they do with every index checked. -/
  same_result : Prod.fst <$> m.recordAll calls = m.executeAll calls
  /-- Only a sum of gas can make them fail. -/
  failure : ∀ fault, m.recordAll calls = .error fault →
    fault = .addOverflow ∧ UInt64.size ≤ gasSum m.program
  /-- A machine at its start has an empty buffer. -/
  from_start : ∀ m' ws, m.recordAll calls = .ok (m', ws) →
    ∀ code messages, start? code messages = some m → Written m'.buffer ws
  /-- Any other machine has one that is written over. -/
  overwritten : ∀ m' ws, m.recordAll calls = .ok (m', ws) → Overwritten m.buffer m'.buffer ws

/-- The side buffer is the record of the last writes: what a machine has in it after any calls is
fixed by the writes that they have carried out and by what was there before. -/
theorem buffer_records_writes (m : Machine) (calls : List Call) : m.RecordsWrites calls := by
  have htracks : Tracks (fun m' ws' => m'.buffer = applyWrites m.buffer ws') []
      (m.recordCalls calls) (m.executeAll calls) := tracks_recordCalls calls rfl
  have hsame : Prod.fst <$> m.recordAll calls = m.executeAll calls := htracks.run'_eq
  have hbuffer : ∀ m' ws, m.recordAll calls = .ok (m', ws) →
      m'.buffer = applyWrites m.buffer ws := fun m' ws => htracks.of_run_eq_ok
  refine ⟨hsame, ?_, ?_, ?_⟩
  · intro fault hfault
    rw [hfault] at hsame
    exact fault_of_executeAll hsame.symm
  · intro m' ws hrun code messages hstart
    obtain ⟨-, -, -, -, -, hempty, -⟩ := start?_eq_some hstart
    rw [hbuffer m' ws hrun, hempty]
    exact written_applyWrites ws
  · intro m' ws hrun
    rw [hbuffer m' ws hrun]
    exact overwritten_applyWrites m.buffer ws

/-- A machine that writes to one slot, and twice to the last one under different names. -/
def scribe : Machine where
  program := [.add 7, .bufferWrite 1, .mul 3, .bufferWrite 2000, .add 1, .bufferWrite 1023]
  inbox := []
  program_lt := by decide
  inbox_lt := emptyInbox_lt

/-- Two calls.  The first comes to rest before the multiplication, which it cannot pay for. -/
def scribeCalls : List Call := [⟨6, false⟩, ⟨11, true⟩]

/-- A machine that is about to overwrite the second of three entries. -/
def corrector : Machine where
  program := [.bufferWrite 1]
  inbox := []
  register := 9
  buffer := [5, 6, 8]
  program_lt := by decide
  inbox_lt := emptyInbox_lt
  buffer_lt := by decide

theorem scribe_buffer_records_writes :
    start? scribe.program scribe.inbox = some scribe ∧
    (∃ m', scribe.executeAll scribeCalls = .ok m' ∧
      scribe.recordAll scribeCalls = .ok (m', [⟨1, 7⟩, ⟨2000, 21⟩, ⟨1023, 22⟩]) ∧
      m'.buffer.length = 1024 ∧ m'.buffer[0]? = some 0 ∧ m'.buffer[1]? = some 7 ∧
      m'.buffer[1023]? = some 22) ∧
    ∃ m', corrector.executeAll [⟨4, true⟩] = .ok m' ∧
      corrector.recordAll [⟨4, true⟩] = .ok (m', [⟨1, 9⟩]) ∧ 3 ≤ m'.buffer.length ∧
      m'.buffer[0]? = some 5 ∧ m'.buffer[2]? = some 8 := by
  have hstart : start? scribe.program scribe.inbox = some scribe := by rfl
  refine ⟨hstart, ?_, ?_⟩
  · obtain ⟨m', hrun⟩ : ∃ m', scribe.recordAll scribeCalls =
        .ok (m', [⟨1, 7⟩, ⟨2000, 21⟩, ⟨1023, 22⟩]) := exists_recordAll (by decide +kernel)
    have hrecord := buffer_records_writes scribe scribeCalls
    have hwritten : Written m'.buffer _ := hrecord.from_start m' _ hrun _ _ hstart
    have hlength : m'.buffer.length = 1024 := hwritten.length_eq
    have hsame := hrecord.same_result
    rw [hrun] at hsame
    refine ⟨m', hsame.symm, hrun, hlength, ?_, ?_, ?_⟩
    · exact hwritten.entry_eq 0 (by omega)
    · exact hwritten.entry_eq 1 (by omega)
    · exact hwritten.entry_eq 1023 (by omega)
  · obtain ⟨m', hrun⟩ : ∃ m', corrector.recordAll [⟨4, true⟩] = .ok (m', [⟨1, 9⟩]) :=
      exists_recordAll (by rfl)
    have hrecord := buffer_records_writes corrector [⟨4, true⟩]
    have hover := hrecord.overwritten m' _ hrun
    have hsame := hrecord.same_result
    rw [hrun] at hsame
    refine ⟨m', hsame.symm, hrun, hover.length_le, ?_, ?_⟩
    · exact hover.kept 0 (by decide) (by decide)
    · exact hover.kept 2 (by decide) (by decide)

end Machine

end TraceDispute
