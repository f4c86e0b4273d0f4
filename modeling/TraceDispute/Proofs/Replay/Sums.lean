import TraceDispute.Proofs.Machine.Recording
import TraceDispute.Proofs.Replay.Position

/-!
# No sum of a replay wraps

The totals of a replay are added with a check, like gas.  The difference between
an offset and the gas used before it, which is what a replay runs for, is not
checked, and neither are the sums and indices of the machine that it runs.

`Session.replayChecked` is a replay in which all of them are checked.  It comes
out like `Session.replay` (`replayChecked_eq`), so what is not checked never
wraps: the machine has no sum that does, and a session replays only towards an
offset that it has not reached.
-/

namespace TraceDispute

namespace Session

variable {s : Session} {offset : UInt64}

/-- `replay` with every sum, every index and the difference checked. -/
def replayChecked (s : Session) (offset : UInt64) : Checked Session := do
  let budget ← Checked.sub offset.toNat s.progress.gasUsed.toNat
  let (machine, effects) ← s.machine.executeChecked (UInt64.ofNat budget) s.overshoot
  let progress ← s.progress.apply effects machine.hash
  return { s with
    machine, progress
    replays := ⟨effects.gasUsed, offset, progress.gasUsed⟩ :: s.replays }

/-- A session that replays only towards an offset ahead of it forms no sum and no
difference that wraps. -/
theorem replayChecked_eq (h : s.progress.gasUsed < offset) :
    s.replayChecked offset = s.replay offset := by
  have hle : s.progress.gasUsed ≤ offset := UInt64.le_of_lt h
  have hbudget : UInt64.ofNat (offset.toNat - s.progress.gasUsed.toNat) =
      offset - s.progress.gasUsed := by
    rw [← UInt64.toNat_sub_of_le _ _ hle, UInt64.ofNat_toNat]
  simp only [replayChecked, replay, Checked.sub_of_le (UInt64.le_iff_toNat_le.mp hle),
    Machine.executeChecked_eq, hbudget, bind, Except.bind]

theorem kept?_remember (s : Session) (offset : UInt64) :
    kept? offset (s.remember offset).answers = some s.progress := by
  simp [remember, kept?]

theorem kept?_answer {progress : Progress} (h : (s.answer offset).1 = .ok progress) :
    kept? offset (s.answer offset).2.answers = some progress := by
  by_cases hlt : s.progress.gasUsed < offset
  · cases hreplay : s.replay offset with
    | error f => simp [answer, hlt, hreplay] at h
    | ok s' =>
        by_cases hbeyond : s'.progress.gasUsed < offset ∧ s'.machine.halted
        · simp [answer, hlt, hreplay, hbeyond] at h
        · have hanswer : s.answer offset = (.ok s'.progress, s'.remember offset) := by
            simp [answer, hlt, hreplay, hbeyond]
          rw [hanswer] at h ⊢
          exact (kept?_remember s' offset).trans (congrArg some (Except.ok.inj h))
  · have hanswer : s.answer offset = (.ok s.progress, s.remember offset) := if_neg hlt
    rw [hanswer] at h ⊢
    exact (kept?_remember s offset).trans (congrArg some (Except.ok.inj h))

/-- What a session answers at an offset is what it keeps for it. -/
theorem kept?_progressAt {progress : Progress} (h : (s.progressAt offset).1 = .ok progress) :
    kept? offset (s.progressAt offset).2.answers = some progress := by
  cases hfilter : s.last.filter (fun previous => decide (offset < previous)) with
  | some previous => simp [progressAt, hfilter] at h
  | none =>
      cases hkept : kept? offset s.answers with
      | some kept =>
          have hanswer : s.progressAt offset = (.ok kept, { s with last := some offset }) := by
            simp [progressAt, hfilter, hkept]
          rw [hanswer] at h ⊢
          exact hkept.trans (congrArg some (Except.ok.inj h))
      | none =>
          have hanswer : s.progressAt offset = answer { s with last := some offset } offset := by
            simp [progressAt, hfilter, hkept]
          rw [hanswer] at h ⊢
          exact kept?_answer h

end Session

end TraceDispute
