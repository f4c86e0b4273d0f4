import TraceDispute.Proofs.Challenge.Independence

/-!
# Resuming in the middle of a trace

A machine that a session has found at some offset can be stored as a checkpoint
of its own.  A session opened there counts from zero and starts with empty
accumulators, and yet it continues the same execution: what it answers `d` gas
further on is what a session from the original cursor answers at the sum
(`resume_continues_execution`).

The checkpoint need not lie at the offset that was asked for.  With overshoot it
may lie past it, without overshoot before it, and then the resumed session is
asked about offsets that the first one has passed already.  `settle_of_gas_le`
covers both: a run that rests at a point leads on from there to wherever any run
comes to rest that is not over before it.
-/

namespace TraceDispute

/-! ## Runs that go on from where a run rests -/

theorem Point.settle_of_gas_le {overshoot : Bool} {target later : Nat} {p : Point}
    (h : (p.settle overshoot target).gas ≤ later) :
    (p.settle overshoot target).settle overshoot later = p.settle overshoot later := by
  fun_induction settle overshoot target p with
  | case1 => rfl
  | case2 p hgas q hnext hgo ih =>
      have hq : q.gas ≤ later := gas_le_settle.trans h
      have hlt : p.gas < later := (gas_lt_of_next? hnext).trans_le hq
      rw [ih h, settle_of_some hnext hlt, if_pos (.inr hq)]
  | case3 => rfl
  | case4 => rfl

namespace Machine

variable {m : Machine} {overshoot : Bool} {target : Nat} {q : Point} {offset d : UInt64}

theorem restAt_add (m : Machine) (overshoot : Bool) (target d : Nat) :
    m.restAt overshoot ((m.restAt overshoot target).gas + d) =
      (m.restAt overshoot target).join
        ((m.restAt overshoot target).machine.restAt overshoot d) := by
  rw [← Point.settle_join, Point.join_start]
  exact (Point.settle_of_gas_le (Nat.le_add_right _ d)).symm

/-- What is found from a point where a run rests is what is found from the start, or the end
of the same trace. -/
theorem pointAt_add (hq : q = m.restAt overshoot target) (hsum : offset.toNat = q.gas + d.toNat) :
    let r := q.machine.restAt overshoot d.toNat
    m.restAt overshoot offset.toNat = q.join r ∧
      (m.pointAt overshoot offset = .ok (q.join r) ∧ q.machine.pointAt overshoot d = .ok r ∨
        m.pointAt overshoot offset =
            .error (.beyondTrace offset (UInt64.ofNat (q.gas + r.gas))) ∧
          q.machine.pointAt overshoot d = .error (.beyondTrace d (UInt64.ofNat r.gas))) := by
  simp only
  have hrest : m.restAt overshoot (q.gas + d.toNat) =
      q.join (q.machine.restAt overshoot d.toNat) := by
    rw [hq]
    exact restAt_add m overshoot target d.toNat
  simp only [pointAt, hsum, hrest, Point.finish_join]
  refine ⟨trivial, ?_⟩
  generalize q.machine.restAt overshoot d.toNat = r
  -- both runs end their traces before their targets, or neither does
  by_cases h : r.gas < d.toNat ∧ (r.finish overshoot d.toNat).halted = true
  · right
    have hjoin : (q.join r).gas < q.gas + d.toNat := Nat.add_lt_add_left h.1 _
    rw [if_pos h, if_pos ⟨hjoin, h.2⟩]
    exact ⟨rfl, rfl⟩
  · left
    have hjoin : ¬ ((q.join r).gas < q.gas + d.toNat ∧
        (r.finish overshoot d.toNat).halted = true) :=
      fun hlt => h ⟨Nat.lt_of_add_lt_add_left hlt.1, hlt.2⟩
    rw [if_neg h, if_neg hjoin]
    exact ⟨rfl, rfl⟩

end Machine

/-! ## Progress in two stages -/

/-- The progress `whole` is that of `first` and then of `second`, which was counted afresh. -/
structure Progress.Adds (first second whole : Progress) : Prop where
  gasUsed_eq : whole.gasUsed.toNat = first.gasUsed.toNat + second.gasUsed.toNat
  messagesRead_eq : whole.messagesRead.toNat = first.messagesRead.toNat + second.messagesRead.toNat
  sendCount_eq : whole.sendCount.toNat = first.sendCount.toNat + second.sendCount.toNat
  logCount_eq : whole.logCount.toNat = first.logCount.toNat + second.logCount.toNat
  machineHash_eq : whole.machineHash = second.machineHash

theorem Point.adds_join {q r : Point} (hgas : (q.join r).gas < UInt64.size)
    (hbehind : (q.join r).Behind) : q.progress.Adds r.progress (q.join r).progress := by
  have hword : ∀ {a b : Nat}, a + b < UInt64.size →
      (UInt64.ofNat (a + b)).toNat = (UInt64.ofNat a).toNat + (UInt64.ofNat b).toNat := by
    intro a b h
    rw [UInt64.toNat_ofNat_of_lt' h, UInt64.toNat_ofNat_of_lt' (by omega),
      UInt64.toNat_ofNat_of_lt' (by omega)]
  have hsends : q.sends.length + r.sends.length < UInt64.size := by
    simpa [join] using hbehind.sends_lt
  have hlogs : q.logs.length + r.logs.length < UInt64.size := by
    simpa [join] using hbehind.logs_lt
  refine ⟨hword hgas, hword hbehind.reads_lt, ?_, ?_, rfl⟩
  · simpa [progress, report, join] using hword hsends
  · simpa [progress, report, join] using hword hlogs

theorem Checked.add_of_toNat {a b sum : UInt64} (h : sum.toNat = a.toNat + b.toNat) :
    Checked.add a b = .ok sum := by
  have hlt : a.toNat + b.toNat < UInt64.size := h ▸ sum.toNat_lt
  rw [Checked.add_of_lt hlt]
  refine congrArg _ (UInt64.toNat_inj.mp ?_)
  rw [UInt64.toNat_add, h]
  exact Nat.mod_eq_of_lt hlt

namespace Cursor

/-- The cursor that progress from a newly issued one leads to. -/
def reached (p : Progress) : Cursor where
  machineHash := p.machineHash
  totalGas := p.gasUsed
  totalMessagesRead := p.messagesRead
  totalSendCount := p.sendCount
  totalLogCount := p.logCount

theorem advance_issued (machineHash : Word) (p : Progress) :
    ({ machineHash } : Cursor).advance p = .ok (reached p) := by
  have hzero : ∀ n : UInt64, Checked.add 0 n = .ok n := fun n => Checked.add_of_toNat (by simp)
  simp only [advance, hzero, bind, Except.bind]
  rfl

theorem advance_reached {first second whole : Progress} (h : first.Adds second whole) :
    (reached first).advance second = .ok (reached whole) := by
  simp only [advance, reached, Checked.add_of_toNat h.gasUsed_eq,
    Checked.add_of_toNat h.messagesRead_eq, Checked.add_of_toNat h.sendCount_eq,
    Checked.add_of_toNat h.logCount_eq, bind, Except.bind, h.machineHash_eq]
  rfl

end Cursor

/-! ## Checkpoints stay -/

namespace Checkpoints

variable {c c' : Checkpoints} {cursor : Cursor} {machine stored : Machine} {w : Word}

/-- The checkpoints once more machines have been stored, as far as they can be. -/
def insertAll : Checkpoints → List Machine → Checkpoints
  | c, [] => c
  | c, machine :: machines =>
    match c.insert machine with
    | .ok (_, c') => insertAll c' machines
    | .error _ => insertAll c machines

theorem find?_of_insert (h : c.insert machine = .ok (cursor, c')) :
    cursor = { machineHash := machine.hash } ∧ c'.find? machine.hash = some machine := by
  unfold insert at h
  split at h
  · rename_i stored hfind
    split at h
    · rename_i heq
      obtain ⟨rfl, rfl⟩ := Prod.mk.inj (Except.ok.inj h)
      exact ⟨rfl, by rw [hfind, heq]⟩
    · cases h
  · obtain ⟨rfl, rfl⟩ := Prod.mk.inj (Except.ok.inj h)
    refine ⟨rfl, ?_⟩
    rw [find?, List.lookup_cons_self]

/-- A machine that is stored stays under its hash. -/
theorem find?_insert (h : c.insert machine = .ok (cursor, c')) (hfind : c.find? w = some stored) :
    c'.find? w = some stored := by
  unfold insert at h
  split at h
  · split at h
    · obtain ⟨-, rfl⟩ := Prod.mk.inj (Except.ok.inj h)
      exact hfind
    · cases h
  · rename_i hnone
    obtain ⟨-, rfl⟩ := Prod.mk.inj (Except.ok.inj h)
    have hne : w ≠ machine.hash := by
      rintro rfl
      rw [hnone] at hfind
      cases hfind
    rw [find?, List.lookup_cons, beq_false_of_ne hne]
    exact hfind

theorem find?_insertAll (machines : List Machine) (hfind : c.find? w = some stored) :
    (c.insertAll machines).find? w = some stored := by
  induction machines generalizing c with
  | nil => exact hfind
  | cons machine machines ih =>
      unfold insertAll
      cases h : c.insert machine with
      | error e => exact ih hfind
      | ok issued => exact ih (find?_insert h hfind)

theorem openSession_of_find? {overshoot : Bool} {offsets : List UInt64}
    (h : c.find? cursor.machineHash = some stored) :
    c.openSession cursor overshoot offsets = Session.start stored overshoot offsets := by
  simp only [openSession, h]

end Checkpoints

/-! ## What a session has answered -/

namespace Session

variable {m : Machine} {overshoot : Bool} {offsets : List UInt64} {previous : Option UInt64}
  {s : Session} {offset : UInt64}

/-- An answer to a request that is right about the trace of a machine. -/
def Truthful (m : Machine) (overshoot : Bool) : Request × Answer → Prop
  | (.progress offset, .ok (.inl progress)) =>
      ∃ p, m.pointAt overshoot offset = .ok p ∧ p.gas < UInt64.size ∧ progress = p.progress
  | (.machine offset, .ok (.inr machine)) =>
      ∃ p, m.pointAt overshoot offset = .ok p ∧ machine = p.machine
  | _ => True

/-- A request that returns is answered by the trace and leaves the session in order. -/
theorem Stage.truthful (hs : Stage m overshoot offsets previous s) (request : Request)
    (hreturns : ∀ fault, (s.ask request).1 ≠ .error (.fault fault)) :
    Truthful m overshoot (request, (s.ask request).1) ∧
      ∃ later, Stage m overshoot offsets later (s.ask request).2 := by
  -- a request is out of order and answered with a refusal, or it takes the session to the offset
  cases request with
  | progress offset =>
      rcases hs.turn offset with ⟨p, hlast, hlt, -⟩ | ⟨horder, -⟩
      · simp only [Session.ask, progressAt_of_previous hlast hlt]
        exact ⟨trivial, previous, hs⟩
      · rcases progressAt_of_inOrder hs.sound horder with ⟨s', hafter, heq⟩ | ⟨hfault, -⟩
        · simp only [Session.ask, heq]
          refine ⟨?_, some offset, hs.after hafter⟩
          have hgas := hafter.gas_lt
          rw [hs.overshoot_eq] at hgas ⊢
          cases hpoint : m.pointAt overshoot offset with
          | error e => trivial
          | ok p =>
              obtain ⟨rfl, -⟩ := Machine.pointAt_eq_ok_iff.mp hpoint
              exact ⟨_, hpoint, hgas, rfl⟩
        · refine absurd ?_ (hreturns .addOverflow)
          simp only [Session.ask, hfault]
          rfl
  | machine offset =>
      by_cases hmem : offset ∈ offsets
      · have hmem' : offset ∈ s.offsets := hs.offsets_eq ▸ hmem
        rcases hs.turn offset with ⟨p, hlast, hlt, -⟩ | ⟨horder, -⟩
        · simp only [Session.ask, Session.machineAt, if_pos hmem',
            progressAt_of_previous hlast hlt]
          exact ⟨trivial, previous, hs⟩
        · rcases machineAt_of_inOrder hs.sound horder hmem' with ⟨s', hafter, heq⟩ | ⟨hfault, -⟩
          · simp only [Session.ask, heq]
            refine ⟨?_, some offset, hs.after hafter⟩
            rw [hs.overshoot_eq]
            cases hpoint : m.pointAt overshoot offset with
            | error e => trivial
            | ok p => exact ⟨p, hpoint, rfl⟩
          · refine absurd ?_ (hreturns .addOverflow)
            simp only [Session.ask, hfault]
            rfl
      · simp only [Session.ask, hs.machineAt_of_not_mem hmem]
        exact ⟨trivial, previous, hs⟩

/-- Every answer of a session that has not been abandoned is right. -/
theorem Stage.truthful_askAll (hs : Stage m overshoot offsets previous s) (requests : List Request)
    (hreturns : ∀ entry ∈ (s.askAll requests).1, ∀ fault, entry.2 ≠ .error (.fault fault)) :
    ∀ entry ∈ (s.askAll requests).1, Truthful m overshoot entry := by
  induction requests generalizing s previous with
  | nil => simp [Session.askAll]
  | cons request requests ih =>
      simp only [Session.askAll, List.forall_mem_cons] at hreturns ⊢
      obtain ⟨htruthful, later, hlater⟩ := hs.truthful request hreturns.1
      exact ⟨htruthful, ih hlater hreturns.2⟩

/-- A fresh session answers by the trace, unless it is abandoned, and then a sum of gas does
not fit. -/
theorem progressAt_of_start (h : Session.start m overshoot offsets = .ok s) :
    (s.progressAt offset).1 = .ofExcept ((m.pointAt overshoot offset).map Point.progress) ∨
      (s.progressAt offset).1 = .error (.fault .addOverflow) ∧
        ¬ (m.restAt overshoot offset.toNat).Countable overshoot offset.toNat := by
  obtain ⟨hsound, hlast, hover, -⟩ := sound_start h
  have horder : s.InOrder offset := inOrder_of_last hlast
  have hanswer := progressAt_of_inOrder hsound horder
  rw [hover] at hanswer
  rcases hanswer with ⟨s', -, heq⟩ | hfault
  · exact .inl (by rw [heq])
  · exact .inr hfault

end Session

/-! ## The resumed session -/

section Resumed

variable {m : Machine} {overshoot : Bool} {target : Nat} {q : Point} {offset d : UInt64}
  {fresh resumed : Session} {offsets others : List UInt64}

/-- Where a session from the start is not abandoned, neither is one from a later point, and
both are answered by the trace. -/
theorem Session.resumed_of_returned (hq : q = m.restAt overshoot target)
    (hsum : offset.toNat = q.gas + d.toNat)
    (hfresh : Session.start m overshoot offsets = .ok fresh)
    (hresumed : Session.start q.machine overshoot others = .ok resumed)
    (hreturns : (fresh.progressAt offset).1 ≠ .error (.fault .addOverflow)) :
    let r := q.machine.restAt overshoot d.toNat
    (q.join r).gas < UInt64.size ∧ (q.join r).Behind ∧
      (fresh.progressAt offset).1 =
        .ofExcept ((m.pointAt overshoot offset).map Point.progress) ∧
      (resumed.progressAt d).1 =
        .ofExcept ((q.machine.pointAt overshoot d).map Point.progress) := by
  simp only
  obtain ⟨hrest, -⟩ := Machine.pointAt_add hq hsum
  have hcount := Session.countable_of_start hfresh hreturns
  rw [hrest, hsum] at hcount
  refine ⟨hcount.gas_lt, hrest ▸ m.behind_restAt overshoot offset.toNat, ?_, ?_⟩
  · exact (Session.progressAt_of_start hfresh).resolve_right fun h => hreturns h.1
  · exact (Session.progressAt_of_start hresumed).resolve_right fun h => h.2 hcount.of_join

theorem Session.progressAt_of_resumed (hq : q = m.restAt overshoot target)
    (hsum : offset.toNat = q.gas + d.toNat)
    (hfresh : Session.start m overshoot offsets = .ok fresh)
    (hresumed : Session.start q.machine overshoot others = .ok resumed) {whole : Progress}
    (hwhole : (fresh.progressAt offset).1 = .ok whole) :
    ∃ second, (resumed.progressAt d).1 = .ok second ∧ q.progress.Adds second whole := by
  have hreturns : (fresh.progressAt offset).1 ≠ .error (.fault .addOverflow) := by
    rw [hwhole]
    exact fun h => by cases h
  obtain ⟨hgas, hbehind, hfreshAt, hresumedAt⟩ :=
    resumed_of_returned hq hsum hfresh hresumed hreturns
  rw [hwhole] at hfreshAt
  obtain ⟨-, ⟨hpoint, hpoint'⟩ | ⟨hpoint, -⟩⟩ := Machine.pointAt_add hq hsum
  · rw [hpoint] at hfreshAt
    rw [hpoint'] at hresumedAt
    obtain rfl := Except.ok.inj hfreshAt
    exact ⟨_, hresumedAt, Point.adds_join hgas hbehind⟩
  · rw [hpoint] at hfreshAt
    cases hfreshAt

theorem Session.beyondTrace_of_resumed (hq : q = m.restAt overshoot target)
    (hsum : offset.toNat = q.gas + d.toNat)
    (hfresh : Session.start m overshoot offsets = .ok fresh)
    (hresumed : Session.start q.machine overshoot others = .ok resumed) {reached : UInt64}
    (hbeyond : (fresh.progressAt offset).1 = .refuse (.beyondTrace offset reached)) :
    q.progress.gasUsed ≤ reached ∧
      (resumed.progressAt d).1 = .refuse (.beyondTrace d (reached - q.progress.gasUsed)) := by
  have hreturns : (fresh.progressAt offset).1 ≠ .error (.fault .addOverflow) := by
    rw [hbeyond]
    exact fun h => by cases h
  obtain ⟨hgas, -, hfreshAt, hresumedAt⟩ :=
    resumed_of_returned hq hsum hfresh hresumed hreturns
  rw [hbeyond] at hfreshAt
  -- the trace of the whole ends where that of the rest does, so the two refusals go together
  obtain ⟨-, ⟨hpoint, -⟩ | ⟨hpoint, hpoint'⟩⟩ := Machine.pointAt_add hq hsum
  · rw [hpoint] at hfreshAt
    cases hfreshAt
  · rw [hpoint] at hfreshAt
    rw [hpoint'] at hresumedAt
    generalize q.machine.restAt overshoot d.toNat = r at *
    -- what each of them reports is a natural number that fits, so the words subtract
    have htotal : (UInt64.ofNat (q.gas + r.gas)).toNat = q.gas + r.gas :=
      UInt64.toNat_ofNat_of_lt' hgas
    have hrest : (UInt64.ofNat r.gas).toNat = r.gas :=
      UInt64.toNat_ofNat_of_lt' ((Nat.le_add_left _ _).trans_lt hgas)
    have hfirst : q.progress.gasUsed.toNat = q.gas :=
      Point.toNat_gasUsed_progress ((Nat.le_add_right _ _).trans_lt hgas)
    obtain rfl : reached = UInt64.ofNat (q.gas + r.gas) := by
      simpa [Outcome.ofExcept, Except.map] using hfreshAt
    have hle : q.progress.gasUsed ≤ UInt64.ofNat (q.gas + r.gas) := by
      rw [UInt64.le_iff_toNat_le, htotal, hfirst]
      exact Nat.le_add_right _ _
    have hsub : UInt64.ofNat (q.gas + r.gas) - q.progress.gasUsed = UInt64.ofNat r.gas := by
      rw [← UInt64.toNat_inj, UInt64.toNat_sub_of_le _ _ hle, htotal, hfirst, hrest]
      exact Nat.add_sub_cancel_left _ _
    rw [hsub]
    exact ⟨hle, hresumedAt⟩

end Resumed

open Session in
/-- A session from a machine that was found and stored in the middle of a trace continues the
same execution, whatever else has been asked and stored. -/
theorem resume_continues_execution {before issued stored : Checkpoints} {c c₁ : Cursor}
    {m m₁ : Machine} {overshoot : Bool} {offsets : List UInt64} {s : Session}
    {requests : List Session.Request} {o₁ d : UInt64} {i₁ : Progress}
    (earlier between later : List Machine)
    (hissued : before.insert m = .ok (c, issued))
    (hopen : (issued.insertAll earlier).openSession c overshoot offsets = .ok s)
    (hreturns : ∀ entry ∈ (s.askAll requests).1, ∀ fault, entry.2 ≠ .error (.fault fault))
    (hinfo : (.progress o₁, .ok (.inl i₁)) ∈ (s.askAll requests).1)
    (hmachine : (.machine o₁, .ok (.inr m₁)) ∈ (s.askAll requests).1)
    (hstored : ((issued.insertAll earlier).insertAll between).insert m₁ = .ok (c₁, stored))
    (hfits : i₁.gasUsed.toNat + d.toNat < UInt64.size)
    {freshOffsets resumedOffsets : List UInt64} (hfresh : freshOffsets.Pairwise (· ≤ ·))
    (hresumed : resumedOffsets.Pairwise (· ≤ ·)) :
    ∃ fresh resumed,
      (stored.insertAll later).openSession c overshoot freshOffsets = .ok fresh ∧
      (stored.insertAll later).openSession c₁ overshoot resumedOffsets = .ok resumed ∧
      (∀ i, (fresh.progressAt (i₁.gasUsed + d)).1 = .ok i →
        ∃ i₂, (resumed.progressAt d).1 = .ok i₂ ∧ i₁.Adds i₂ i ∧
          ∃ c₂ c₃, c.advance i₁ = .ok c₂ ∧ c₂.advance i₂ = .ok c₃ ∧ c.advance i = .ok c₃) ∧
      ∀ reached,
        (fresh.progressAt (i₁.gasUsed + d)).1 =
          .refuse (.beyondTrace (i₁.gasUsed + d) reached) →
        i₁.gasUsed ≤ reached ∧
          (resumed.progressAt d).1 = .refuse (.beyondTrace d (reached - i₁.gasUsed)) := by
  obtain ⟨rfl, hfind⟩ := Checkpoints.find?_of_insert hissued
  obtain ⟨rfl, hfind₁⟩ := Checkpoints.find?_of_insert hstored
  -- the session answers by the trace of `m`, and both answers are about one point `q`
  have hearlier := Checkpoints.find?_insertAll earlier hfind
  rw [Checkpoints.openSession_of_find? hearlier] at hopen
  have htruthful := (stage_start hopen).truthful_askAll requests hreturns
  obtain ⟨q, hq, hgas, rfl⟩ := htruthful _ hinfo
  obtain ⟨q', hq', rfl⟩ := htruthful _ hmachine
  obtain rfl : q = q' := Except.ok.inj (hq.symm.trans hq')
  obtain ⟨hrest, -⟩ := Machine.pointAt_eq_ok_iff.mp hq
  have hsum : (q.progress.gasUsed + d).toNat = q.gas + d.toNat := by
    rw [Point.toNat_gasUsed_progress hgas] at hfits
    rw [UInt64.toNat_add, Point.toNat_gasUsed_progress hgas]
    exact Nat.mod_eq_of_lt hfits
  -- nothing stored since has replaced either machine
  have hbetween := Checkpoints.find?_insertAll between hearlier
  have hstart := Checkpoints.find?_insertAll later (Checkpoints.find?_insert hstored hbetween)
  have hstart₁ := Checkpoints.find?_insertAll later hfind₁
  obtain ⟨fresh, hopened⟩ := Session.exists_start m overshoot hfresh
  obtain ⟨resumed, hopened₁⟩ := Session.exists_start q.machine overshoot hresumed
  refine ⟨fresh, resumed, ?_, ?_, ?_, ?_⟩
  · rw [Checkpoints.openSession_of_find? hstart, hopened]
  · rw [Checkpoints.openSession_of_find? hstart₁, hopened₁]
  · intro i hi
    obtain ⟨i₂, hi₂, hadds⟩ := progressAt_of_resumed hrest hsum hopened hopened₁ hi
    exact ⟨i₂, hi₂, hadds, Cursor.reached q.progress, Cursor.reached i, Cursor.advance_issued ..,
      Cursor.advance_reached hadds, Cursor.advance_issued ..⟩
  · intro reached hreached
    exact beyondTrace_of_resumed hrest hsum hopened hopened₁ hreached

/-- The reader once it has multiplied. -/
def Challenge.readerMidway : Machine := { readerMachine with pc := 1 }

theorem Challenge.insert_readerMidway :
    readerChallenge.checkpoints.insert readerMidway =
      .ok ({ machineHash := readerMidway.hash },
        ⟨(readerMidway.hash, readerMidway) :: readerChallenge.checkpoints.entries⟩) := by
  have hne : readerMidway.hash ≠ readerMachine.hash := by decide +kernel
  have hnone : readerChallenge.checkpoints.find? readerMidway.hash = none := by
    rw [Checkpoints.find?, readerChallenge, List.lookup_cons, beq_false_of_ne hne]
    rfl
  rw [Checkpoints.insert, hnone]

/-- A session of the reader, opened for its first offset. -/
def Challenge.readerSession : Session where
  machine := readerMachine
  progress := .start readerMachine.hash
  overshoot := true
  offsets := [1]

open Session Challenge in
theorem reader_resumes_midway :
    ∃ i₁ c₁ stored fresh resumed i i₂,
      (readerChallenge.checkpoints.openSession readerChallenge.cursor true [1] =
          .ok readerSession ∧
        (readerSession.askAll [.progress 1, .machine 1]).1 =
          [(.progress 1, .ok (.inl i₁)), (.machine 1, .ok (.inr readerMidway))] ∧
        readerChallenge.checkpoints.insert readerMidway = .ok (c₁, stored)) ∧
      stored.openSession readerChallenge.cursor true [13] = .ok fresh ∧
      stored.openSession c₁ true [10] = .ok resumed ∧
      (fresh.progressAt 13).1 = .ok i ∧ (resumed.progressAt 10).1 = .ok i₂ ∧
      i₁.Adds i₂ i ∧ i₁.gasUsed = 3 := by
  have hissued : Checkpoints.empty.insert readerMachine =
    .ok (readerChallenge.cursor, readerChallenge.checkpoints) := rfl
  have hopen : readerChallenge.checkpoints.openSession readerChallenge.cursor true [1] =
      .ok readerSession := by
    rw [Checkpoints.openSession_of_find? machine?_readerChallenge]
    rfl
  obtain ⟨i₁, hhistory, hgas⟩ : ∃ i₁, (readerSession.askAll [.progress 1, .machine 1]).1 =
      [(.progress 1, .ok (.inl i₁)), (.machine 1, .ok (.inr readerMidway))] ∧ i₁.gasUsed = 3 :=
    ⟨_, rfl, rfl⟩
  have hreturns : ∀ entry ∈ (readerSession.askAll [.progress 1, .machine 1]).1, ∀ fault,
      entry.2 ≠ .error (.fault fault) := by
    simp [hhistory]
  have hinfo : (.progress 1, .ok (.inl i₁)) ∈
      (readerSession.askAll [.progress 1, .machine 1]).1 := by
    simp [hhistory]
  have hmachine : (.machine 1, .ok (.inr readerMidway)) ∈
      (readerSession.askAll [.progress 1, .machine 1]).1 := by
    simp [hhistory]
  have hfits : i₁.gasUsed.toNat + (10 : UInt64).toNat < UInt64.size := by
    rw [hgas]
    decide
  obtain ⟨fresh, resumed, hfresh, hresumed, hadds, -⟩ :=
    resume_continues_execution [] [] [] hissued hopen hreturns hinfo hmachine
      insert_readerMidway hfits (List.pairwise_singleton _ 13) (List.pairwise_singleton _ 10)
  -- thirteen gas is the multiplication and the read
  obtain ⟨i, hi⟩ : ∃ i, (fresh.progressAt 13).1 = .ok i := by
    have hfind := Checkpoints.find?_insert insert_readerMidway machine?_readerChallenge
    rw [Checkpoints.insertAll, Checkpoints.openSession_of_find? hfind, start_eq_ok_iff] at hfresh
    obtain ⟨-, rfl⟩ := hfresh
    exact ⟨_, rfl⟩
  have hthirteen : i₁.gasUsed + 10 = 13 := by
    rw [hgas]
    rfl
  rw [hthirteen] at hadds
  obtain ⟨i₂, hi₂, hsum, -⟩ := hadds i hi
  exact ⟨i₁, _, _, fresh, resumed, i, i₂, ⟨hopen, hhistory, insert_readerMidway⟩, hfresh, hresumed,
    hi, hi₂, hsum, hgas⟩

end TraceDispute
