import TraceDispute.Proofs.Machine.Execution
import TraceDispute.Replay.Session

/-!
# Where a session stands

A session replays incrementally: each request runs the machine from where the
last one left it.  `Machine.pointAt` says what a request should find, with no
session at all: the point at which the trace of the machine settles.

`Session.Stands m target s` says that `s` has replayed `m` up to `target`, and
`Session.Sound m s` that it stands at its latest request and that everything it
remembers is right.  `progressAt_of_inOrder` is the step lemma: a request that
is in order is answered by `pointAt`, and the session it leaves behind is sound
again, also when the answer is that the trace has ended.
-/

namespace TraceDispute

namespace Point

variable {overshoot : Bool} {p q : Point}

/-- The progress made on the way to a point, by a run that left a machine with this hash. -/
def report (p : Point) (machineHash : Word) : Progress where
  gasUsed := UInt64.ofNat p.gas
  messagesRead := UInt64.ofNat p.reads
  sendCount := UInt64.ofNat p.sends.length
  logCount := UInt64.ofNat p.logs.length
  sendAcc := p.sends.foldl Progress.accumulate .zero
  logAcc := p.logs.foldl Progress.accumulate .zero
  machineHash := machineHash

/-- The progress made on the way to a point. -/
def progress (p : Point) : Progress := p.report p.machine.hash

@[simp] theorem report_start (m : Machine) (w : Word) :
    (start m).report w = Progress.start w := rfl

theorem toNat_gasUsed_report (h : p.gas < UInt64.size) (w : Word) :
    (p.report w).gasUsed.toNat = p.gas :=
  toNat_gasUsed_effects h

theorem toNat_gasUsed_progress (h : p.gas < UInt64.size) : p.progress.gasUsed.toNat = p.gas :=
  toNat_gasUsed_effects h

theorem Behind.toNat_messagesRead (h : p.Behind) : p.progress.messagesRead.toNat = p.reads :=
  UInt64.toNat_ofNat_of_lt' h.reads_lt

theorem Behind.toNat_sendCount (h : p.Behind) : p.progress.sendCount.toNat = p.sends.length :=
  UInt64.toNat_ofNat_of_lt' h.sends_lt

theorem Behind.toNat_logCount (h : p.Behind) : p.progress.logCount.toNat = p.logs.length :=
  UInt64.toNat_ofNat_of_lt' h.logs_lt

theorem add_ofNat {a b : Nat} (h : a + b < UInt64.size) :
    Checked.add (UInt64.ofNat a) (UInt64.ofNat b) = .ok (UInt64.ofNat (a + b)) := by
  have ha : (UInt64.ofNat a).toNat = a := UInt64.toNat_ofNat_of_lt' (by omega)
  have hb : (UInt64.ofNat b).toNat = b := UInt64.toNat_ofNat_of_lt' (by omega)
  rw [Checked.add_of_lt, UInt64.ofNat_add]
  rwa [ha, hb]

theorem add_ofNat_of_le {a b : Nat} (ha : a < UInt64.size) (hb : b < UInt64.size)
    (h : UInt64.size ≤ a + b) :
    Checked.add (UInt64.ofNat a) (UInt64.ofNat b) = .error .addOverflow := by
  rw [Checked.add_of_le]
  rwa [UInt64.toNat_ofNat_of_lt' ha, UInt64.toNat_ofNat_of_lt' hb]

/-- The effects of a run, folded into the progress at the point it started from. -/
theorem apply_effects (hgas : (p.join q).gas < UInt64.size) (hbehind : (p.join q).Behind)
    (v w : Word) : (p.report v).apply q.effects w = .ok ((p.join q).report w) := by
  have hreads : p.reads + q.reads < UInt64.size := hbehind.reads_lt
  have hsends : p.sends.length + q.sends.length < UInt64.size := by
    simpa [join] using hbehind.sends_lt
  have hlogs : p.logs.length + q.logs.length < UInt64.size := by
    simpa [join] using hbehind.logs_lt
  have hgas' : p.gas + q.gas < UInt64.size := hgas
  simp only [Progress.apply, report, effects, List.size_toArray, add_ofNat hgas', add_ofNat hreads,
    add_ofNat hsends, add_ofNat hlogs, bind, Except.bind, pure, Except.pure, join,
    List.length_append, List.foldl_append]

end Point

/-- The point that a replay of `m` finds at an offset. -/
def Machine.pointAt (m : Machine) (overshoot : Bool) (offset : UInt64) :
    Except ReplayError Point :=
  let p := m.restAt overshoot offset.toNat
  if p.gas < offset.toNat ∧ (p.finish overshoot offset.toNat).halted then
    .error (.beyondTrace offset (UInt64.ofNat p.gas))
  else .ok p

namespace Machine

variable {m : Machine} {overshoot : Bool} {offset : UInt64} {p : Point}

theorem pointAt_eq_ok_iff :
    m.pointAt overshoot offset = .ok p ↔
      p = m.restAt overshoot offset.toNat ∧
        (p.gas < offset.toNat →
          p.machine.halted = false ∧ ¬ p.Exhausted overshoot offset.toNat) := by
  unfold pointAt
  simp only
  split
  · rename_i h
    rw [Point.halted_finish] at h
    constructor
    · intro hok
      cases hok
    · rintro ⟨rfl, hrun⟩
      obtain ⟨hhalted, hex⟩ := hrun h.1
      rcases h.2 with hh | hh
      · simp [hhalted] at hh
      · exact absurd hh hex
  · rename_i h
    rw [Point.halted_finish, not_and, not_or, Bool.not_eq_true] at h
    constructor
    · intro hok
      obtain rfl := Except.ok.inj hok
      exact ⟨rfl, h⟩
    · rintro ⟨rfl, -⟩
      rfl

theorem pointAt_of_le {later : UInt64} {q : Point} (hle : offset ≤ later)
    (h : m.pointAt overshoot later = .ok q) :
    m.pointAt overshoot offset = .ok (m.restAt overshoot offset.toNat) := by
  rw [UInt64.le_iff_toNat_le] at hle
  obtain ⟨rfl, hrun⟩ := pointAt_eq_ok_iff.mp h
  refine pointAt_eq_ok_iff.mpr ⟨rfl, fun hgas => ?_⟩
  constructor
  · by_contra hhalted
    rw [Bool.not_eq_false] at hhalted
    rw [restAt_of_none hle (Point.next?_of_halted hhalted)] at hrun
    simp [(hrun (hgas.trans_le hle)).1] at hhalted
  · intro hex
    rw [restAt_of_none hle hex.2.1] at hrun
    exact (hrun (hgas.trans_le hle)).2 (hex.mono hle)

section Neighbours

variable {next : UInt64} {q : Point} (hnext : next.toNat = offset.toNat + 1)
include hnext

theorem pointAt_of_past (hp : m.pointAt overshoot offset = .ok p) (hgas : offset.toNat < p.gas) :
    m.pointAt overshoot next = .ok p := by
  obtain ⟨rfl, -⟩ := pointAt_eq_ok_iff.mp hp
  have hrest : m.restAt overshoot next.toNat = m.restAt overshoot offset.toNat :=
    restAt_of_le_gas (by omega) (by omega)
  exact pointAt_eq_ok_iff.mpr ⟨hrest.symm, fun hlt => by omega⟩

/-- A machine that has not reached the next offset, but can, has an instruction
to carry out. -/
theorem next?_of_pointAt (hp : m.pointAt overshoot offset = .ok p) (hgas : p.gas ≤ offset.toNat)
    (hq : m.pointAt overshoot next = .ok q) :
    p.machine.halted = false ∧ ∃ i, p.machine.next? = some i := by
  obtain ⟨rfl, -⟩ := pointAt_eq_ok_iff.mp hp
  cases hstep : (m.restAt overshoot offset.toNat).next? with
  | some r =>
      obtain ⟨hhalted, i, hi, -⟩ := Point.next?_eq_some_iff.mp hstep
      exact ⟨hhalted, i, hi⟩
  | none =>
      -- the trace ends here, so the machine is still here at the next offset
      have hrest : m.restAt overshoot next.toNat = m.restAt overshoot offset.toNat :=
        restAt_of_none (by omega) hstep
      obtain ⟨rfl, hrun⟩ := pointAt_eq_ok_iff.mp hq
      rw [hrest] at hrun
      obtain ⟨hhalted, hex⟩ := hrun (by omega)
      refine ⟨hhalted, ?_⟩
      by_contra hnone
      push Not at hnone
      refine hex ⟨by omega, hstep, fun i hi => absurd hi (hnone i)⟩

end Neighbours

theorem behind_restAt (m : Machine) (overshoot : Bool) (target : Nat) :
    (m.restAt overshoot target).Behind :=
  Point.behind_settle (Point.behind_start m)

/-- Counting afresh from where a run rests leads to where a longer run rests. -/
theorem join_restAt {target later : Nat} (h : target ≤ later)
    (hgas : (m.restAt overshoot target).gas ≤ later) :
    let q := m.restAt overshoot target
    q.join (q.machine.restAt overshoot (later - q.gas)) = m.restAt overshoot later := by
  simp only
  rw [← Point.settle_join, Point.join_start, Nat.add_sub_cancel' hgas, Point.settle_settle h]

end Machine

namespace Session

variable {m : Machine} {s : Session} {target : Nat} {offset : UInt64}

/-- The session has replayed `m` up to `target`. -/
structure Stands (m : Machine) (target : Nat) (s : Session) : Prop where
  machine_eq : s.machine = (m.restAt s.overshoot target).finish s.overshoot target
  progress_eq : s.progress = (m.restAt s.overshoot target).report s.machine.hash
  gas_lt : (m.restAt s.overshoot target).gas < UInt64.size

theorem Stands.toNat_gasUsed (hs : s.Stands m target) :
    s.progress.gasUsed.toNat = (m.restAt s.overshoot target).gas := by
  rw [hs.progress_eq, Point.toNat_gasUsed_report hs.gas_lt]

theorem Stands.of_le {later : Nat} (hs : s.Stands m target) (h : target ≤ later)
    (hgas : later ≤ s.progress.gasUsed.toNat) : s.Stands m later := by
  rw [hs.toNat_gasUsed] at hgas
  have hrest := Machine.restAt_of_le_gas h hgas
  refine ⟨?_, hrest ▸ hs.progress_eq, hrest ▸ hs.gas_lt⟩
  rw [hs.machine_eq, hrest, Point.finish_of_not_exhausted (Point.not_exhausted_of_le hgas),
    Point.finish_of_not_exhausted (Point.not_exhausted_of_le (h.trans hgas))]

theorem Stands.of_halted {later : Nat} (hs : s.Stands m target) (h : target ≤ later)
    (hhalted : s.machine.halted = true) : s.Stands m later := by
  rw [hs.machine_eq, Point.halted_finish] at hhalted
  have hnone : (m.restAt s.overshoot target).next? = none :=
    hhalted.elim Point.next?_of_halted fun hex => hex.2.1
  have hrest := Machine.restAt_of_none h hnone
  refine ⟨?_, hrest ▸ hs.progress_eq, hrest ▸ hs.gas_lt⟩
  rw [hs.machine_eq, hrest]
  rcases hhalted with hh | hex
  · rw [Point.finish_of_halted hh, Point.finish_of_halted hh]
  · rw [Point.finish_of_exhausted hex, Point.finish_of_exhausted (hex.mono h)]

/-- The session after a run of its machine on behalf of `offset`. -/
def ranTo (s : Session) (offset : UInt64) (machine : Machine) (progress : Progress)
    (gas : UInt64) : Session :=
  { s with machine, progress, replays := ⟨gas, offset, progress.gasUsed⟩ :: s.replays }

theorem replay_of_execute {machine : Machine} {effects : Effects} {progress : Progress}
    (hrun : s.machine.execute (offset - s.progress.gasUsed) s.overshoot = .ok (machine, effects))
    (happly : s.progress.apply effects machine.hash = .ok progress) :
    s.replay offset = .ok (s.ranTo offset machine progress effects.gasUsed) := by
  simp [replay, hrun, happly, bind, Except.bind, pure, Except.pure, ranTo]

theorem Stands.ranTo (hs : s.Stands m offset.toNat) (gas : UInt64) :
    (s.ranTo offset s.machine s.progress gas).Stands m offset.toNat :=
  ⟨hs.machine_eq, hs.progress_eq, hs.gas_lt⟩

theorem replay_of_halted (hs : s.Stands m target) (h : target ≤ offset.toNat)
    (hhalted : s.machine.halted = true) :
    ∃ machine progress gas, s.replay offset = .ok (s.ranTo offset machine progress gas) ∧
      (s.ranTo offset machine progress gas).Stands m offset.toNat := by
  have hrun : s.machine.execute (offset - s.progress.gasUsed) s.overshoot = .ok (s.machine, {}) :=
    Machine.execute_of_halted hhalted ..
  have happly : s.progress.apply {} s.machine.hash = .ok s.progress := by
    have heffects := Point.apply_effects (p := m.restAt s.overshoot target)
      (q := Point.start (m.restAt s.overshoot target).machine)
      (by simpa using hs.gas_lt) (by simpa using m.behind_restAt s.overshoot target)
      s.machine.hash s.machine.hash
    rw [Point.join_start, Point.effects_start, ← hs.progress_eq] at heffects
    exact heffects
  exact ⟨s.machine, s.progress, _, replay_of_execute hrun happly,
    (hs.of_halted h hhalted).ranTo _⟩

/-- A machine that has not stopped runs on from the point `q` it has reached. -/
theorem replay_of_running {q : Point} (hmachine : s.machine = q.machine)
    (hprogress : s.progress = q.report s.machine.hash) (hsize : q.gas < UInt64.size)
    (hgas : q.gas < offset.toNat)
    (hjoin : q.join (q.machine.restAt s.overshoot (offset.toNat - q.gas)) =
      m.restAt s.overshoot offset.toNat) :
    (∃ machine progress gas, s.replay offset = .ok (s.ranTo offset machine progress gas) ∧
        (s.ranTo offset machine progress gas).Stands m offset.toNat) ∨
      (s.replay offset = .error .addOverflow ∧
        ¬ (m.restAt s.overshoot offset.toNat).Countable s.overshoot offset.toNat) := by
  have hused : s.progress.gasUsed.toNat = q.gas := by
    rw [hprogress, Point.toNat_gasUsed_report hsize]
  have hbudget : (offset - s.progress.gasUsed).toNat = offset.toNat - q.gas := by
    rw [UInt64.toNat_sub_of_le, hused]
    rw [UInt64.le_iff_toNat_le, hused]
    exact hgas.le
  have htarget : q.gas + (offset.toNat - q.gas) = offset.toNat := Nat.add_sub_cancel' hgas.le
  have hexecute := Point.execute_eq s.overshoot s.machine (offset - s.progress.gasUsed)
  rw [hbudget] at hexecute
  rw [← hmachine] at hjoin
  -- `r` counts from the machine's present position, `q.join r` from the start of the trace
  generalize s.machine.restAt s.overshoot (offset.toNat - q.gas) = r at hexecute hjoin
  by_cases hcount : r.Countable s.overshoot (offset.toNat - q.gas)
  · rw [if_pos hcount] at hexecute
    by_cases hsum : (q.join r).gas < UInt64.size
    · left
      have happly := Point.apply_effects hsum (hjoin ▸ m.behind_restAt ..) s.machine.hash
        (r.finish s.overshoot (offset.toNat - q.gas)).hash
      rw [← hprogress] at happly
      refine ⟨_, _, _, replay_of_execute hexecute happly, ?_, ?_, ?_⟩
      · change r.finish s.overshoot (offset.toNat - q.gas) =
          (m.restAt s.overshoot offset.toNat).finish s.overshoot offset.toNat
        rw [← hjoin, ← Point.finish_join q r, htarget]
      · exact congrArg (fun p : Point => p.report _) hjoin
      · exact hjoin ▸ hsum
    · -- the run itself succeeds, but the total since the cursor does not fit
      right
      refine ⟨?_, fun hc => hsum (hjoin ▸ hc.gas_lt)⟩
      have hfault : s.progress.apply r.effects
          (r.finish s.overshoot (offset.toNat - q.gas)).hash = .error .addOverflow := by
        rw [hprogress]
        simp only [Progress.apply, Point.report, Point.effects,
          Point.add_ofNat_of_le hsize hcount.gas_lt (not_lt.mp hsum), bind, Except.bind]
      simp [replay, hexecute, hfault, bind, Except.bind]
  · right
    rw [if_neg hcount] at hexecute
    refine ⟨by simp [replay, hexecute, bind, Except.bind], fun hc => hcount ?_⟩
    rw [← hjoin, ← htarget] at hc
    exact hc.of_join

/-- Everything a run on behalf of an offset can do: it leaves the session at that
offset, or a sum of gas does not fit. -/
theorem replay_cases (hs : s.Stands m target) (h : target ≤ offset.toNat)
    (hlt : s.progress.gasUsed < offset) :
    (∃ machine progress gas, s.replay offset = .ok (s.ranTo offset machine progress gas) ∧
        (s.ranTo offset machine progress gas).Stands m offset.toNat) ∨
      (s.replay offset = .error .addOverflow ∧
        ¬ (m.restAt s.overshoot offset.toNat).Countable s.overshoot offset.toNat) := by
  cases hhalted : s.machine.halted with
  | true => exact .inl (replay_of_halted hs h hhalted)
  | false =>
      have hmachine : s.machine = (m.restAt s.overshoot target).machine := by
        rw [hs.machine_eq, ← Bool.not_eq_true, Point.halted_finish, not_or] at hhalted
        rw [hs.machine_eq, Point.finish_of_not_exhausted hhalted.2]
      rw [UInt64.lt_iff_toNat_lt, hs.toNat_gasUsed] at hlt
      exact replay_of_running hmachine hs.progress_eq hs.gas_lt hlt (Machine.join_restAt h hlt.le)

/-! ## What a session finds at an offset -/

theorem Stands.pointAt_of_beyond (hs : s.Stands m offset.toNat)
    (hgas : s.progress.gasUsed < offset) (hhalted : s.machine.halted = true) :
    m.pointAt s.overshoot offset = .error (.beyondTrace offset s.progress.gasUsed) := by
  have hused : s.progress.gasUsed = UInt64.ofNat (m.restAt s.overshoot offset.toNat).gas := by
    rw [hs.progress_eq]
    rfl
  rw [UInt64.lt_iff_toNat_lt, hs.toNat_gasUsed] at hgas
  rw [Machine.pointAt, if_pos ⟨hgas, hs.machine_eq ▸ hhalted⟩, hused]

theorem Stands.pointAt_of_within (hs : s.Stands m offset.toNat)
    (h : ¬ (s.progress.gasUsed < offset ∧ s.machine.halted = true)) :
    ∃ p, m.pointAt s.overshoot offset = .ok p ∧ s.machine = p.machine ∧
      s.progress = p.progress := by
  rw [UInt64.lt_iff_toNat_lt, hs.toNat_gasUsed, hs.machine_eq] at h
  have hmachine : s.machine = (m.restAt s.overshoot offset.toNat).machine := by
    rw [hs.machine_eq]
    refine Point.finish_of_not_exhausted fun hex => h ⟨hex.1, ?_⟩
    exact Point.halted_finish.mpr (.inr hex)
  refine ⟨_, if_neg h, hmachine, ?_⟩
  rw [hs.progress_eq, hmachine]
  rfl

theorem Stands.eq_of_pointAt {p : Point} (hs : s.Stands m offset.toNat)
    (hpoint : m.pointAt s.overshoot offset = .ok p) :
    s.machine = p.machine ∧ s.progress = p.progress := by
  by_cases h : s.progress.gasUsed < offset ∧ s.machine.halted = true
  · simp [hs.pointAt_of_beyond h.1 h.2] at hpoint
  · obtain ⟨q, hq, hmachine, hprogress⟩ := hs.pointAt_of_within h
    obtain rfl : p = q := by simpa [hpoint] using hq
    exact ⟨hmachine, hprogress⟩

/-- Two sessions that have been asked the same and keep the same answers. -/
structure Alike (s s' : Session) : Prop where
  overshoot_eq : s'.overshoot = s.overshoot
  offsets_eq : s'.offsets = s.offsets
  answers_eq : s'.answers = s.answers
  last_eq : s'.last = s.last

/-- Everything that answering an offset can do. -/
theorem answer_cases (hs : s.Stands m target) (h : target ≤ offset.toNat) :
    (∃ s', s.Alike s' ∧ s'.Stands m offset.toNat ∧
      ((∃ p, m.pointAt s.overshoot offset = .ok p ∧ s'.machine = p.machine ∧
          s'.progress = p.progress ∧ s.answer offset = (.ok p.progress, s'.remember offset)) ∨
        ∃ e, m.pointAt s.overshoot offset = .error e ∧ s.answer offset = (.refuse e, s'))) ∨
      (s.answer offset = (.error (.fault .addOverflow), s) ∧
        ¬ (m.restAt s.overshoot offset.toNat).Countable s.overshoot offset.toNat) := by
  by_cases hlt : s.progress.gasUsed < offset
  · rcases replay_cases hs h hlt with ⟨machine, progress, gas, hreplay, hstands⟩ | ⟨hreplay, hc⟩
    · refine .inl ⟨s.ranTo offset machine progress gas, ⟨rfl, rfl, rfl, rfl⟩, hstands, ?_⟩
      simp only [answer, if_pos hlt, hreplay]
      split
      · rename_i hbeyond
        exact .inr ⟨_, hstands.pointAt_of_beyond hbeyond.1 hbeyond.2, rfl⟩
      · rename_i hwithin
        obtain ⟨p, hpoint, hmachine, hprogress⟩ := hstands.pointAt_of_within hwithin
        exact .inl ⟨p, hpoint, hmachine, hprogress, by rw [hprogress]⟩
    · exact .inr ⟨by simp [answer, hlt, hreplay], hc⟩
  · -- the machine already stands at the offset or past it
    have hstands : s.Stands m offset.toNat := hs.of_le h (not_lt.mp hlt)
    obtain ⟨p, hpoint, hmachine, hprogress⟩ :=
      hstands.pointAt_of_within fun hbeyond => hlt hbeyond.1
    refine .inl ⟨s, ⟨rfl, rfl, rfl, rfl⟩, hstands, .inl ⟨p, hpoint, hmachine, hprogress, ?_⟩⟩
    rw [answer, if_neg hlt, hprogress]

/-! ## Answers -/

/-- The session stands at its latest request and every answer it keeps is right. -/
structure Sound (m : Machine) (s : Session) : Prop where
  stands : s.Stands m ((s.last.map UInt64.toNat).getD 0)
  answers_right : ∀ entry ∈ s.answers,
    ∃ p, m.pointAt s.overshoot entry.1 = .ok p ∧ entry.2 = p.progress
  answers_le : ∀ entry ∈ s.answers, ∃ previous ∈ s.last, entry.1 ≤ previous

/-- A request for an offset is in order. -/
def InOrder (s : Session) (offset : UInt64) : Prop := ∀ previous ∈ s.last, previous ≤ offset

theorem inOrder_of_last (h : s.last = none) : s.InOrder offset := by
  intro previous hprevious
  simp [h] at hprevious

theorem inOrder_of_latest (h : s.last = some offset) : s.InOrder offset := by
  intro previous hprevious
  rw [h] at hprevious
  exact Option.mem_some_iff.mp hprevious ▸ UInt64.le_refl _

theorem mem_of_kept? {answers : List (UInt64 × Progress)} {progress : Progress}
    (h : kept? offset answers = some progress) : (offset, progress) ∈ answers := by
  induction answers with
  | nil => simp [kept?] at h
  | cons entry rest ih =>
      obtain ⟨earlier, kept⟩ := entry
      unfold kept? at h
      split at h
      · rename_i heq
        obtain rfl := Option.some.inj h
        simp [heq]
      · split at h
        · cases h
        · exact List.mem_cons_of_mem _ (ih h)

/-- The session that a request for `offset` leaves behind when it is in order. -/
structure After (m : Machine) (s : Session) (offset : UInt64) (s' : Session) : Prop where
  sound : s'.Sound m
  last_eq : s'.last = some offset
  overshoot_eq : s'.overshoot = s.overshoot
  offsets_eq : s'.offsets = s.offsets
  machine_eq : ∀ p, m.pointAt s.overshoot offset = .ok p → s'.machine = p.machine

theorem firstDescent_eq_none_iff {offsets : List UInt64} :
    firstDescent offsets = none ↔ offsets.Pairwise (· ≤ ·) := by
  rw [← List.isChain_iff_pairwise]
  induction offsets with
  | nil => simp [firstDescent]
  | cons x rest ih =>
      cases rest with
      | nil => simp [firstDescent]
      | cons y rest =>
          rw [List.isChain_cons_cons, ← ih, firstDescent]
          by_cases h : y < x
          · simp [h, UInt64.not_le.mpr h]
          · simp [h, UInt64.not_lt.mp h]

theorem start_eq_ok_iff {m : Machine} {overshoot : Bool} {offsets : List UInt64} {s : Session} :
    Session.start m overshoot offsets = .ok s ↔
      offsets.Pairwise (· ≤ ·) ∧
        s = { machine := m, progress := .start m.hash, overshoot, offsets } := by
  rw [← firstDescent_eq_none_iff, Session.start]
  cases firstDescent offsets with
  | none => simp [eq_comm]
  | some descent => simp

theorem exists_start (m : Machine) (overshoot : Bool) {offsets : List UInt64}
    (h : offsets.Pairwise (· ≤ ·)) : ∃ s, Session.start m overshoot offsets = .ok s :=
  ⟨_, start_eq_ok_iff.mpr ⟨h, rfl⟩⟩

theorem sound_start {overshoot : Bool} {offsets : List UInt64}
    (h : Session.start m overshoot offsets = .ok s) :
    s.Sound m ∧ s.last = none ∧ s.overshoot = overshoot ∧ s.offsets = offsets := by
  obtain ⟨-, rfl⟩ := start_eq_ok_iff.mp h
  have hrest : m.restAt overshoot 0 = Point.start m := Point.settle_of_le (Nat.zero_le _)
  have hfinish : (Point.start m).finish overshoot 0 = m :=
    Point.finish_of_not_exhausted (Point.not_exhausted_of_le (Nat.zero_le _))
  refine ⟨⟨⟨?_, ?_, ?_⟩, by simp, by simp⟩, rfl, rfl, rfl⟩
  · simpa [hrest] using hfinish.symm
  · simp [hrest]
  · simp [hrest]

theorem After.inOrder {s' : Session} {later : UInt64} (h : s.After m offset s')
    (hle : offset ≤ later) : s'.InOrder later := by
  intro previous hlast
  rw [h.last_eq] at hlast
  obtain rfl := Option.mem_some_iff.mp hlast
  exact hle

theorem After.gas_lt {s' : Session} (h : s.After m offset s') :
    (m.restAt s.overshoot offset.toNat).gas < UInt64.size := by
  have hstands := h.sound.stands.gas_lt
  rwa [h.last_eq, h.overshoot_eq] at hstands

theorem progressAt_of_previous {previous : UInt64} (hlast : s.last = some previous)
    (h : offset < previous) :
    s.progressAt offset = (.refuse (.outOfOrder offset previous), s) := by
  simp [progressAt, hlast, Option.filter, h]

theorem filter_last_of_inOrder (horder : s.InOrder offset) :
    s.last.filter (fun previous => decide (offset < previous)) = none := by
  rw [Option.filter_eq_none_iff]
  intro previous hlast
  simpa using horder previous hlast

theorem progressAt_of_kept {progress : Progress} (horder : s.InOrder offset)
    (hkept : kept? offset s.answers = some progress) :
    s.progressAt offset = (.ok progress, { s with last := some offset }) := by
  simp [progressAt, filter_last_of_inOrder horder, hkept]

theorem progressAt_of_not_kept (horder : s.InOrder offset)
    (hkept : kept? offset s.answers = none) :
    s.progressAt offset = answer { s with last := some offset } offset := by
  simp [progressAt, filter_last_of_inOrder horder, hkept]

/-- A request is passed over, or looked up, or worked out. -/
theorem progressAt_cases (s : Session) (offset : UInt64) :
    (∃ previous, s.last = some previous ∧ offset < previous) ∨
      (s.InOrder offset ∧ ∃ progress, kept? offset s.answers = some progress) ∨
      s.InOrder offset ∧ kept? offset s.answers = none := by
  by_cases horder : s.InOrder offset
  · cases hkept : kept? offset s.answers with
    | some progress => exact .inr (.inl ⟨horder, progress, rfl⟩)
    | none => exact .inr (.inr ⟨horder, rfl⟩)
  · exact .inl (by simpa [InOrder] using horder)

/-- A machine is handed out where progress would be reported. -/
theorem machineAt_of_mem (hmem : offset ∈ s.offsets) :
    s.machineAt offset =
      ((s.progressAt offset).1.map fun _ => (s.progressAt offset).2.machine,
        (s.progressAt offset).2) := by
  rw [machineAt, if_pos hmem]
  rcases s.progressAt offset with ⟨_ | progress, s'⟩ <;> rfl

theorem Sound.remember {p : Point} (hs : s.Sound m) (hlast : s.last = some offset)
    (hpoint : m.pointAt s.overshoot offset = .ok p) (hprogress : s.progress = p.progress) :
    (s.remember offset).Sound m := by
  refine ⟨⟨hs.stands.machine_eq, hs.stands.progress_eq, hs.stands.gas_lt⟩, ?_, ?_⟩
  · intro entry hentry
    rcases List.mem_cons.mp hentry with rfl | hentry
    · exact ⟨p, hpoint, hprogress⟩
    · exact hs.answers_right entry hentry
  · intro entry hentry
    rcases List.mem_cons.mp hentry with rfl | hentry
    · exact ⟨offset, hlast, UInt64.le_refl _⟩
    · exact hs.answers_le entry hentry

theorem Sound.moved {s' : Session} (hs : s.Sound m) (horder : s.InOrder offset)
    (halike : Alike { s with last := some offset } s') (hstands : s'.Stands m offset.toNat) :
    s'.Sound m := by
  refine ⟨by simpa [halike.last_eq] using hstands, ?_, ?_⟩
  · rw [halike.answers_eq, halike.overshoot_eq]
    exact hs.answers_right
  · rw [halike.answers_eq, halike.last_eq]
    intro entry hentry
    obtain ⟨previous, hlast, hle⟩ := hs.answers_le entry hentry
    exact ⟨offset, rfl, UInt64.le_trans hle (horder previous hlast)⟩

/-- An answer is kept only for the latest request, and it is what is found there. -/
theorem Sound.of_kept? {progress : Progress} (hs : s.Sound m) (horder : s.InOrder offset)
    (hkept : kept? offset s.answers = some progress) :
    s.last = some offset ∧ ∃ p, m.pointAt s.overshoot offset = .ok p ∧ progress = p.progress := by
  have hmem := mem_of_kept? hkept
  obtain ⟨previous, hlast, hle⟩ := hs.answers_le _ hmem
  have heq : previous = offset := UInt64.le_antisymm (horder previous hlast) hle
  exact ⟨heq ▸ hlast, hs.answers_right _ hmem⟩

/-- Everything that a request in order can do: it is answered by the trace, or a
sum of gas does not fit. -/
theorem progressAt_of_inOrder (hs : s.Sound m) (horder : s.InOrder offset) :
    (∃ s', s.After m offset s' ∧
      s.progressAt offset =
        (.ofExcept ((m.pointAt s.overshoot offset).map Point.progress), s')) ∨
      ((s.progressAt offset).1 = .error (.fault .addOverflow) ∧
        ¬ (m.restAt s.overshoot offset.toNat).Countable s.overshoot offset.toNat) := by
  cases hkept : kept? offset s.answers with
  | some progress =>
      -- only the latest request can be asked again, so nothing has moved since
      obtain ⟨hlast, p, hpoint, rfl⟩ := hs.of_kept? horder hkept
      have hstands : s.Stands m offset.toNat := by simpa [hlast] using hs.stands
      have hself : { s with last := some offset } = s := by rw [← hlast]
      refine .inl ⟨s, ⟨hs, hlast, rfl, rfl, fun q hq => (hstands.eq_of_pointAt hq).1⟩, ?_⟩
      simp [progressAt_of_kept horder hkept, hself, hpoint, Except.map]
  | none =>
      have hstands : Stands m ((s.last.map UInt64.toNat).getD 0) { s with last := some offset } :=
        ⟨hs.stands.machine_eq, hs.stands.progress_eq, hs.stands.gas_lt⟩
      -- the session stands no further than its latest request, which is not past this one
      have hle : (s.last.map UInt64.toNat).getD 0 ≤ offset.toNat := by
        cases hlast : s.last with
        | none => simp
        | some previous => simpa using UInt64.le_iff_toNat_le.mp (horder previous hlast)
      rw [progressAt_of_not_kept horder hkept]
      rcases answer_cases hstands hle with ⟨s', halike, hstands', hfound | hbeyond⟩ | hfault
      · obtain ⟨p, hpoint, hmachine, hprogress, heq⟩ := hfound
        have hsound := hs.moved horder halike hstands'
        refine .inl ⟨s'.remember offset, ⟨?_, halike.last_eq, halike.overshoot_eq,
          halike.offsets_eq, ?_⟩, ?_⟩
        · exact hsound.remember halike.last_eq (halike.overshoot_eq ▸ hpoint) hprogress
        · intro q hq
          obtain rfl : p = q := by simpa [hpoint] using hq
          exact hmachine
        · simp [heq, hpoint, Except.map]
      · obtain ⟨e, hpoint, heq⟩ := hbeyond
        refine .inl ⟨s', ⟨hs.moved horder halike hstands', halike.last_eq, halike.overshoot_eq,
          halike.offsets_eq, ?_⟩, ?_⟩
        · intro q hq
          simp [hpoint] at hq
        · simp [heq, hpoint, Except.map]
      · exact .inr ⟨by rw [hfault.1], hfault.2⟩

section Failure

variable {e : Failure ReplayError} (hfail : (s.progressAt offset).1 = .error e)
include hfail

theorem machineAt_of_failed (hmem : offset ∈ s.offsets) : (s.machineAt offset).1 = .error e := by
  rw [machineAt_of_mem hmem, hfail]
  rfl

theorem snapshotAt_of_failed : (s.snapshotAt offset).1 = .error e := by
  rcases hprogress : s.progressAt offset with ⟨outcome, s'⟩
  rw [hprogress] at hfail
  obtain rfl : outcome = .error e := hfail
  rw [snapshotAt, hprogress]

end Failure

theorem machineAt_of_inOrder (hs : s.Sound m) (horder : s.InOrder offset)
    (hmem : offset ∈ s.offsets) :
    (∃ s', s.After m offset s' ∧
      s.machineAt offset = (.ofExcept ((m.pointAt s.overshoot offset).map Point.machine), s')) ∨
      ((s.machineAt offset).1 = .error (.fault .addOverflow) ∧
        ¬ (m.restAt s.overshoot offset.toNat).Countable s.overshoot offset.toNat) := by
  rcases progressAt_of_inOrder hs horder with ⟨s', hafter, heq⟩ | ⟨hfault, hcount⟩
  · refine .inl ⟨s', hafter, ?_⟩
    rw [machineAt_of_mem hmem, heq]
    cases hpoint : m.pointAt s.overshoot offset with
    | error e => rfl
    | ok p => simp [Except.map, hafter.machine_eq p hpoint]
  · exact .inr ⟨machineAt_of_failed hfault hmem, hcount⟩

theorem snapshotAt_of_inOrder (hs : s.Sound m) (horder : s.InOrder offset)
    (hmem : offset ∈ s.offsets) :
    (s.snapshotAt offset).1 =
        .ofExcept ((m.pointAt s.overshoot offset).map fun p => (p.progress, p.machine)) ∨
      ((s.snapshotAt offset).1 = .error (.fault .addOverflow) ∧
        ¬ (m.restAt s.overshoot offset.toNat).Countable s.overshoot offset.toNat) := by
  rcases progressAt_of_inOrder hs horder with ⟨s', hafter, heq⟩ | ⟨hfault, hcount⟩
  · rw [snapshotAt, heq]
    cases hpoint : m.pointAt s.overshoot offset with
    | error e => exact .inl rfl
    | ok p =>
        -- the second question is about the offset that has just been answered
        have hmachine := machineAt_of_inOrder hafter.sound
          (hafter.inOrder (UInt64.le_refl offset)) (hafter.offsets_eq ▸ hmem)
        rw [hafter.overshoot_eq, hpoint] at hmachine
        rcases hmachine with ⟨s'', -, heq'⟩ | ⟨hfault, hcount⟩
        · exact .inl (by simp [Except.map, heq'])
        · refine .inr ⟨?_, hcount⟩
          rcases hanswer : s'.machineAt offset with ⟨outcome, s''⟩
          rw [hanswer] at hfault
          obtain rfl : outcome = _ := hfault
          simp [Except.map, hanswer]
  · exact .inr ⟨snapshotAt_of_failed hfault, hcount⟩

/-- A fresh session that answers at an offset has formed every sum of gas on the way. -/
theorem countable_of_start {overshoot : Bool} {offsets : List UInt64}
    (hs : Session.start m overshoot offsets = .ok s)
    (h : (s.progressAt offset).1 ≠ .error (.fault .addOverflow)) :
    (m.restAt overshoot offset.toNat).Countable overshoot offset.toNat := by
  obtain ⟨-, rfl⟩ := start_eq_ok_iff.mp hs
  by_contra hcount
  -- at offset zero nothing runs, and there is nothing to count
  have hpos : 0 < offset := by
    by_contra hzero
    have hgas : offset.toNat ≤ (Point.start m).gas := by
      simpa [UInt64.lt_iff_toNat_lt] using hzero
    refine hcount ?_
    rw [Machine.restAt, Point.settle_of_le hgas]
    exact ⟨by simp, fun _ hlt => absurd hlt (not_lt.mpr hgas)⟩
  have hrun : m.execute offset overshoot = .error .addOverflow := by
    rw [Point.execute_eq, if_neg hcount]
  apply h
  simp [progressAt, kept?, answer, hpos, replay, Progress.start, hrun, bind, Except.bind]

end Session

end TraceDispute
