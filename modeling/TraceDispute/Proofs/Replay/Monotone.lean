import TraceDispute.Proofs.Machine.Order
import TraceDispute.Proofs.Replay.History

/-!
# Progress is a function of the gas used

Sessions on one machine may be asked for different offsets, in different orders and
with or without overshoot.  All their answers describe points of one trace
(`Session.Replays.truthful_askAll`), and the gas used tells these points apart and
orders them (`Machine.restAt_eq_of_gas_eq`, `Machine.leads_of_gas_lt`).  So two
answers that report the same gas agree in everything, the hash of the machine
included, and one that reports less gas counts no more reads, sends and log entries
(`Session.progress_monotone_in_gas`).
-/

namespace TraceDispute

namespace Point

variable {p q : Point}

/-- What is counted on the way to a point is no more than what is counted on the way to a point
that it leads to. -/
theorem Leads.progress_le (h : p.Leads q) (hp : p.Behind) (hq : q.Behind) :
    p.progress.messagesRead ≤ q.progress.messagesRead ∧
      p.progress.sendCount ≤ q.progress.sendCount ∧
      p.progress.logCount ≤ q.progress.logCount := by
  obtain ⟨hreads, hsends, hlogs⟩ := h.counts_le
  -- the counters have not gone round, being behind the positions of the machine
  simp only [UInt64.le_iff_toNat_le, hp.toNat_messagesRead, hq.toNat_messagesRead,
    hp.toNat_sendCount, hq.toNat_sendCount, hp.toNat_logCount, hq.toNat_logCount]
  exact ⟨hreads, hsends.length_le, hlogs.length_le⟩

end Point

namespace Session

variable {m : Machine} {overshoot overshoot' : Bool} {offsets offsets' : List UInt64}
  {s s' : Session} {requests requests' : List Request} {offset offset' : UInt64}
  {i i' : Progress}

/-- An answer in the history of a session, as a point at which the machine's trace rests. -/
theorem exists_restAt_of_mem (hs : Session.start m overshoot offsets = .ok s)
    (hi : (.progress offset, .ok (.inl i)) ∈ (s.askAll requests).1) :
    i = (m.restAt overshoot offset.toNat).progress ∧
      i.gasUsed.toNat = (m.restAt overshoot offset.toNat).gas := by
  obtain ⟨p, hpoint, hgas, rfl⟩ := (replays_start hs).truthful_askAll requests _ hi
  obtain ⟨rfl, -⟩ := Machine.pointAt_eq_ok_iff.mp hpoint
  exact ⟨rfl, Point.toNat_gasUsed_progress hgas⟩

/-- Answers of sessions on one machine, whatever else was asked before and after: with the same
gas used they are the same, with less gas used no counter is ahead, and a later offset of sessions
with the same flag has used no less gas. -/
theorem progress_monotone_in_gas (hs : Session.start m overshoot offsets = .ok s)
    (hs' : Session.start m overshoot' offsets' = .ok s')
    (hi : (.progress offset, .ok (.inl i)) ∈ (s.askAll requests).1)
    (hi' : (.progress offset', .ok (.inl i')) ∈ (s'.askAll requests').1) :
    (i.gasUsed = i'.gasUsed → i = i') ∧
      (i.gasUsed < i'.gasUsed → i.messagesRead ≤ i'.messagesRead ∧
        i.sendCount ≤ i'.sendCount ∧ i.logCount ≤ i'.logCount) ∧
      (overshoot = overshoot' → offset ≤ offset' → i.gasUsed ≤ i'.gasUsed) := by
  -- both answers are points of the trace of `m`, which the gas puts in order
  obtain ⟨rfl, hgas⟩ := exists_restAt_of_mem hs hi
  obtain ⟨rfl, hgas'⟩ := exists_restAt_of_mem hs' hi'
  refine ⟨fun heq => ?_, fun hlt => ?_, ?_⟩
  · have hsame : (m.restAt overshoot offset.toNat).gas =
        (m.restAt overshoot' offset'.toNat).gas := by
      rw [← hgas, ← hgas', heq]
    rw [Machine.restAt_eq_of_gas_eq hsame]
  · rw [UInt64.lt_iff_toNat_lt, hgas, hgas'] at hlt
    have hlead := Machine.leads_of_gas_lt hlt
    exact hlead.progress_le (m.behind_restAt ..) (m.behind_restAt ..)
  · rintro rfl hle
    rw [UInt64.le_iff_toNat_le, hgas, hgas']
    exact Point.gas_settle_mono (UInt64.le_iff_toNat_le.mp hle)

open Challenge in
/-- The multiplication that crosses offset 1 has been carried out there with overshoot, and at
offset 4 without; the read that crosses offset 4 only with overshoot. -/
theorem reader_progress_monotone_in_gas :
    ∃ s s' i i' j, Session.start readerMachine true [1, 4] = .ok s ∧
      Session.start readerMachine false [4] = .ok s' ∧
      (s.askAll [.progress 1, .progress 0, .progress 4]).1 =
        [(.progress 1, .ok (.inl i)), (.progress 0, .error (.refusal (.outOfOrder 0 1))),
          (.progress 4, .ok (.inl j))] ∧
      (s'.askAll [.machine 5, .progress 4]).1 =
        [(.machine 5, .error (.refusal (.notRequested 5))), (.progress 4, .ok (.inl i'))] ∧
      i.gasUsed = 3 ∧ i'.gasUsed = 3 ∧ i = i' ∧ j.gasUsed = 13 ∧
      i'.messagesRead ≤ j.messagesRead ∧ i.gasUsed ≤ j.gasUsed := by
  obtain ⟨s, hs⟩ : ∃ s, Session.start readerMachine true [1, 4] = .ok s :=
    exists_start _ _ (by decide)
  obtain ⟨s', hs'⟩ : ∃ s, Session.start readerMachine false [4] = .ok s :=
    exists_start _ _ (by decide)
  obtain ⟨i, j, hhistory, hi, hj⟩ : ∃ i j, (s.askAll [.progress 1, .progress 0, .progress 4]).1 =
      [(.progress 1, .ok (.inl i)), (.progress 0, .error (.refusal (.outOfOrder 0 1))),
        (.progress 4, .ok (.inl j))] ∧ i.gasUsed = 3 ∧ j.gasUsed = 13 := by
    obtain ⟨-, rfl⟩ := start_eq_ok_iff.mp hs
    exact ⟨_, _, rfl, rfl, rfl⟩
  obtain ⟨i', hhistory', hi'⟩ : ∃ i', (s'.askAll [.machine 5, .progress 4]).1 =
      [(.machine 5, .error (.refusal (.notRequested 5))), (.progress 4, .ok (.inl i'))] ∧
        i'.gasUsed = 3 := by
    obtain ⟨-, rfl⟩ := start_eq_ok_iff.mp hs'
    exact ⟨_, rfl, rfl⟩
  have hmem : (.progress 1, .ok (.inl i)) ∈
      (s.askAll [.progress 1, .progress 0, .progress 4]).1 := by simp [hhistory]
  have hmemj : (.progress 4, .ok (.inl j)) ∈
      (s.askAll [.progress 1, .progress 0, .progress 4]).1 := by simp [hhistory]
  have hmem' : (.progress 4, .ok (.inl i')) ∈ (s'.askAll [.machine 5, .progress 4]).1 := by
    simp [hhistory']
  -- one pair for each part: the same point, a later one, and a later offset under one flag
  obtain ⟨hsame, -, -⟩ := progress_monotone_in_gas hs hs' hmem hmem'
  obtain ⟨-, hless, -⟩ := progress_monotone_in_gas hs' hs hmem' hmemj
  obtain ⟨-, -, hlater⟩ := progress_monotone_in_gas hs hs hmem hmemj
  refine ⟨s, s', i, i', j, hs, hs', hhistory, hhistory', hi, hi', hsame (hi.trans hi'.symm), hj,
    (hless ?_).1, hlater rfl (by decide)⟩
  rw [hi', hj]
  decide

end Session

end TraceDispute
