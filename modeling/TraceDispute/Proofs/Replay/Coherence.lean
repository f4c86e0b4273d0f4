import TraceDispute.Proofs.Challenge.Independence
import TraceDispute.Proofs.Replay.Sums

/-!
# A session agrees with itself

A session keeps its progress apart from its machine, and hands out the machine it
has rather than one it stored with an answer.  So a snapshot belongs to the answer
at the same offset only if the two never drift apart: not when an answer is looked
up instead of worked out, not when a request is refused after it has moved the
machine, and not when a run is abandoned.

`Session.Coherent` says that they have not.  `Coherent.progressAt` is the step
lemma, one case for each way a request can end (`progressAt_cases`, `answer_ends`),
and `Coherent.askAll` carries it through a history.  Nothing is assumed of the
machine: all of this holds in the code of a session, whatever its machine does.

That an answer is only kept for an offset which the machine has not left rests on the
order of requests: an offset with an answer that can still be asked for is the latest
one, where the session stands.  So it does no harm to ask for it again, and it does
not matter whether progress or machine is asked for first (`Coherent.matches`).
-/

namespace TraceDispute

theorem Progress.machineHash_apply {p q : Progress} {e : Effects} {w : Word}
    (h : p.apply e w = .ok q) : q.machineHash = w := by
  unfold apply at h
  cases hgas : Checked.add p.gasUsed e.gasUsed <;> simp only [hgas, bind, Except.bind] at h
  case error => cases h
  cases hreads : Checked.add p.messagesRead e.messagesRead <;> simp only [hreads] at h
  case error => cases h
  cases hsends : Checked.add p.sendCount (UInt64.ofNat e.sends.size) <;> simp only [hsends] at h
  case error => cases h
  cases hlogs : Checked.add p.logCount (UInt64.ofNat e.logs.size) <;> simp only [hlogs] at h
  case error => cases h
  exact congrArg Progress.machineHash (Except.ok.inj h).symm

/-- A run without effects changes nothing but the machine that is named. -/
theorem Progress.apply_nothing (p : Progress) (w : Word) :
    p.apply {} w = .ok { p with machineHash := w } := by
  have hzero : ∀ n : UInt64, Checked.add n 0 = .ok n := by
    intro n
    rw [Checked.add_of_lt (by simpa using n.toNat_lt), UInt64.add_zero]
  have hnone : UInt64.ofNat (#[] : Array Bytes).size = 0 := rfl
  simp only [apply, hzero, hnone, bind, Except.bind, pure, Except.pure]
  rfl

namespace Session

variable {m : Machine} {s s' : Session} {overshoot : Bool} {offset : UInt64}
  {offsets : List UInt64} {progress : Progress} {answers : List (UInt64 × Progress)}

/-! ## What a request can end in -/

theorem replay_eq_ok (h : s.replay offset = .ok s') :
    ∃ machine progress gas, s' = s.ranTo offset machine progress gas ∧
      progress.machineHash = machine.hash := by
  unfold replay at h
  cases hrun : s.machine.execute (offset - s.progress.gasUsed) s.overshoot <;>
    simp only [hrun, bind, Except.bind] at h
  case error => cases h
  case ok ran =>
    cases happly : s.progress.apply ran.2 ran.1.hash <;> simp only [happly] at h
    case error => cases h
    case ok progress =>
      exact ⟨ran.1, progress, _, (Except.ok.inj h).symm, Progress.machineHash_apply happly⟩

/-- The session stands where it stood, or a run has moved it towards `offset`. -/
def Moves (s : Session) (offset : UInt64) (s' : Session) : Prop :=
  s' = s ∨ s.replay offset = .ok s'

/-- The ends of working out an answer: it is remembered where the session stands then, or the
machine has stopped short of the offset, or the run was abandoned. -/
theorem answer_ends (s : Session) (offset : UInt64) :
    (∃ s', s.Moves offset s' ∧ s.answer offset = (.ok s'.progress, s'.remember offset)) ∨
      (∃ s', s.replay offset = .ok s' ∧ s'.progress.gasUsed < offset ∧ s'.machine.halted = true ∧
        s.answer offset = (.refuse (.beyondTrace offset s'.progress.gasUsed), s')) ∨
      ∃ f, s.answer offset = (.error (.fault f), s) := by
  by_cases hlt : s.progress.gasUsed < offset
  · cases hreplay : s.replay offset with
    | error f => exact .inr (.inr ⟨f, by simp [answer, hlt, hreplay]⟩)
    | ok s' =>
        by_cases hbeyond : s'.progress.gasUsed < offset ∧ s'.machine.halted = true
        · exact .inr (.inl ⟨s', rfl, hbeyond.1, hbeyond.2, by simp [answer, hlt, hreplay, hbeyond]⟩)
        · exact .inl ⟨s', .inr hreplay, by simp [answer, hlt, hreplay, hbeyond]⟩
  · exact .inl ⟨s, .inl rfl, if_neg hlt⟩

/-! ## Coherent sessions -/

/-- What a session says of itself in several places is the same in all of them. -/
structure Coherent (s : Session) : Prop where
  hash_eq : s.progress.machineHash = s.machine.hash
  answers_le : ∀ entry ∈ s.answers, ∃ last, s.last = some last ∧ entry.1 ≤ last
  /-- What is kept for the latest request is the present progress. -/
  current : ∀ last progress, s.last = some last → (last, progress) ∈ s.answers →
    progress = s.progress
  descending : s.answers.Pairwise fun later earlier => earlier.1 < later.1

theorem kept?_of_mem (h : answers.Pairwise fun later earlier => earlier.1 < later.1)
    (hmem : (offset, progress) ∈ answers) : kept? offset answers = some progress := by
  induction answers with
  | nil => cases hmem
  | cons entry rest ih =>
      obtain ⟨hhead, hrest⟩ := List.pairwise_cons.mp h
      rcases List.mem_cons.mp hmem with rfl | hmem
      · simp [kept?]
      · -- the head is later than the entry that is looked for
        have hlt : offset < entry.1 := hhead _ hmem
        have hne : entry.1 ≠ offset := fun heq => UInt64.lt_irrefl _ (heq ▸ hlt)
        rw [kept?, if_neg hne, if_neg (UInt64.not_lt.mpr (UInt64.le_of_lt hlt))]
        exact ih hrest hmem

theorem coherent_start (h : Session.start m overshoot offsets = .ok s) : s.Coherent := by
  obtain ⟨-, rfl⟩ := start_eq_ok_iff.mp h
  exact ⟨rfl, by simp, by simp, .nil⟩

namespace Coherent

/-- A request that is in order is the latest one before anything else is done. -/
theorem requested (hs : s.Coherent) (horder : s.InOrder offset) :
    Coherent { s with last := some offset } := by
  refine ⟨hs.hash_eq, ?_, ?_, hs.descending⟩
  · intro entry hentry
    obtain ⟨last, hlast, hle⟩ := hs.answers_le entry hentry
    exact ⟨offset, rfl, UInt64.le_trans hle (horder last hlast)⟩
  · rintro last progress hlast hentry
    obtain rfl := Option.some.inj hlast
    -- an answer for this offset is one for the request before it
    obtain ⟨last', hlast', hle⟩ := hs.answers_le _ hentry
    obtain rfl : last' = offset := UInt64.le_antisymm (horder last' hlast') hle
    exact hs.current _ _ hlast' hentry

theorem lt_of_not_kept (hs : s.Coherent) (hlast : s.last = some offset)
    (hkept : kept? offset s.answers = none) : ∀ entry ∈ s.answers, entry.1 < offset := by
  intro entry hentry
  obtain ⟨last, hlast', hle⟩ := hs.answers_le entry hentry
  obtain rfl := Option.some.inj (hlast.symm.trans hlast')
  refine UInt64.lt_of_le_of_ne hle fun heq => ?_
  have hfound := kept?_of_mem hs.descending (heq ▸ hentry : (offset, entry.2) ∈ s.answers)
  cases hkept.symm.trans hfound

/-- A run on behalf of the latest request, which has no answer yet. -/
theorem moved (hs : s.Coherent) (hlast : s.last = some offset)
    (hkept : kept? offset s.answers = none) (hmoves : s.Moves offset s') :
    s'.Coherent ∧ s.Alike s' := by
  rcases hmoves with rfl | hreplay
  · exact ⟨hs, rfl, rfl, rfl, rfl⟩
  · obtain ⟨machine, progress, gas, rfl, hhash⟩ := replay_eq_ok hreplay
    refine ⟨⟨hhash, hs.answers_le, ?_, hs.descending⟩, rfl, rfl, rfl, rfl⟩
    intro last progress' hlast' hentry
    obtain rfl := Option.some.inj (hlast.symm.trans hlast')
    exact absurd (hs.lt_of_not_kept hlast hkept _ hentry) (UInt64.lt_irrefl _)

theorem remember (hs : s.Coherent) (hlast : s.last = some offset)
    (hkept : kept? offset s.answers = none) : (s.remember offset).Coherent := by
  have hearlier := hs.lt_of_not_kept hlast hkept
  refine ⟨hs.hash_eq, ?_, ?_, List.pairwise_cons.mpr ⟨hearlier, hs.descending⟩⟩
  · intro entry hentry
    rcases List.mem_cons.mp hentry with rfl | hentry
    · exact ⟨offset, hlast, UInt64.le_refl _⟩
    · exact hs.answers_le entry hentry
  · intro last progress hlast' hentry
    obtain rfl := Option.some.inj (hlast.symm.trans hlast')
    rcases List.mem_cons.mp hentry with heq | hentry
    · exact (Prod.mk.inj heq).2
    · exact absurd (hearlier _ hentry) (UInt64.lt_irrefl _)

end Coherent

/-! ## One request -/

/-- The offsets that a session keeps answers for. -/
def keptOffsets (s : Session) : Finset UInt64 := (s.answers.map Prod.fst).toFinset

theorem Coherent.answered_eq (hs : s.Coherent) : s.answered = s.keptOffsets.card := by
  have hnodup : (s.answers.map Prod.fst).Nodup := by
    rw [List.Nodup, List.pairwise_map]
    exact hs.descending.imp fun hlt => (UInt64.ne_of_lt hlt).symm
  rw [keptOffsets, List.toFinset_card_of_nodup hnodup, List.length_map, answered]

/-- What a request for an offset leaves of a coherent session: one that stands at the answer it
has given and keeps it, or one that keeps what it kept before. -/
structure Leaves (s : Session) (offset : UInt64) (outcome : Outcome ReplayError Progress)
    (s' : Session) : Prop where
  coherent : s'.Coherent
  offsets_eq : s'.offsets = s.offsets
  answered : ∀ progress, outcome = .ok progress → s'.last = some offset ∧
    s'.progress = progress ∧ s'.keptOffsets = insert offset s.keptOffsets
  failed : ∀ e, outcome = .error e → s'.keptOffsets = s.keptOffsets

theorem Leaves.of_error {e : Failure ReplayError} (hs' : s'.Coherent)
    (hoffsets : s'.offsets = s.offsets) (hanswers : s'.answers = s.answers) :
    s.Leaves offset (.error e) s' := by
  refine ⟨hs', hoffsets, ?_, fun _ _ => by rw [keptOffsets, keptOffsets, hanswers]⟩
  rintro progress ⟨⟩

theorem Coherent.progressAt (hs : s.Coherent) (offset : UInt64) :
    s.Leaves offset (s.progressAt offset).1 (s.progressAt offset).2 := by
  rcases s.progressAt_cases offset with ⟨previous, hlast, hlt⟩ | ⟨horder, progress, hkept⟩ |
    ⟨horder, hkept⟩
  · rw [progressAt_of_previous hlast hlt]
    exact .of_error hs rfl rfl
  · rw [progressAt_of_kept horder hkept]
    have hmem := mem_of_kept? hkept
    have hrequest := hs.requested horder
    refine ⟨hrequest, rfl, ?_, ?_⟩
    · rintro _ ⟨⟩
      refine ⟨rfl, (hrequest.current offset progress rfl hmem).symm, ?_⟩
      have hoffset : offset ∈ s.keptOffsets :=
        List.mem_toFinset.mpr (List.mem_map.mpr ⟨_, hmem, rfl⟩)
      exact (Finset.insert_eq_of_mem hoffset).symm
    · rintro e ⟨⟩
  · rw [progressAt_of_not_kept horder hkept]
    have hrequest := hs.requested horder
    rcases answer_ends { s with last := some offset } offset with
      ⟨s', hmoves, heq⟩ | ⟨s', hreplay, -, -, heq⟩ | ⟨f, heq⟩ <;> rw [heq]
    · -- the answer is new, and it is kept on top of those for earlier offsets
      obtain ⟨hs', halike⟩ := hrequest.moved rfl hkept hmoves
      have hlast : s'.last = some offset := halike.last_eq
      have hkept' : kept? offset s'.answers = none := halike.answers_eq ▸ hkept
      refine ⟨hs'.remember hlast hkept', halike.offsets_eq, ?_, ?_⟩
      · rintro _ ⟨⟩
        refine ⟨hlast, rfl, ?_⟩
        have hanswers : (s'.remember offset).answers = (offset, s'.progress) :: s.answers :=
          congrArg (List.cons _) halike.answers_eq
        rw [keptOffsets, hanswers, List.map_cons, List.toFinset_cons, keptOffsets]
      · rintro e ⟨⟩
    · obtain ⟨hs', halike⟩ := hrequest.moved rfl hkept (.inr hreplay)
      exact .of_error hs' halike.offsets_eq halike.answers_eq
    · -- an abandoned run has moved nothing
      exact .of_error hrequest rfl rfl

theorem Coherent.leaves {outcome : Outcome ReplayError Progress} (hs : s.Coherent)
    (h : s.progressAt offset = (outcome, s')) : s.Leaves offset outcome s' := by
  have hleaves := hs.progressAt offset
  rwa [h] at hleaves

/-- A machine is handed out at an offset of the session where progress would be reported. -/
theorem machineAt_eq_ok {machine : Machine} (h : s.machineAt offset = (.ok machine, s')) :
    offset ∈ s.offsets ∧ machine = s'.machine ∧
      ∃ progress, s.progressAt offset = (.ok progress, s') := by
  by_cases hmem : offset ∈ s.offsets
  · rw [machineAt_of_mem hmem] at h
    obtain ⟨hmachine, rfl⟩ := Prod.mk.inj h
    cases hprogress : (s.progressAt offset).1 with
    | error e => simp [hprogress, Except.map] at hmachine
    | ok progress =>
        rw [hprogress] at hmachine
        exact ⟨hmem, (Except.ok.inj hmachine).symm, progress, Prod.ext hprogress rfl⟩
  · rw [machineAt, if_neg hmem] at h
    cases h

/-! ## Asking again -/

/-- The latest request, made once more, finds the session as the first time left it. -/
theorem progressAt_of_latest (hlast : s.last = some offset)
    (hkept : kept? offset s.answers = none) : s.progressAt offset = s.answer offset := by
  rw [progressAt_of_not_kept (inOrder_of_latest hlast) hkept, ← hlast]

/-- What has been answered is looked up when it is asked again at once; nothing is run. -/
theorem progressAt_again (hlast : s'.last = some offset)
    (h : s.progressAt offset = (.ok progress, s')) :
    s'.progressAt offset = (.ok progress, s') := by
  have hkept : kept? offset (s.progressAt offset).2.answers = some progress :=
    kept?_progressAt (by rw [h])
  rw [h] at hkept
  rw [progressAt_of_kept (inOrder_of_latest hlast) hkept, ← hlast]

/-- A machine that has stopped short of an offset stays there, and the offset out of reach. -/
theorem answer_of_halted (hgas : s.progress.gasUsed < offset) (hhalted : s.machine.halted = true) :
    ∃ e, (s.answer offset).1 = .error e := by
  have hreplay : s.replay offset = .ok (s.ranTo offset s.machine
      { s.progress with machineHash := s.machine.hash } 0) :=
    replay_of_execute (Machine.execute_of_halted hhalted ..) (Progress.apply_nothing ..)
  exact ⟨.refusal (.beyondTrace offset s.progress.gasUsed), by
    simp [answer, hgas, hreplay, ranTo, hhalted]⟩

/-- A request that has failed fails when it is repeated at once. -/
theorem progressAt_fails_again {e : Failure ReplayError}
    (h : s.progressAt offset = (.error e, s')) : ∃ e', (s'.progressAt offset).1 = .error e' := by
  rcases s.progressAt_cases offset with ⟨previous, hlast, hlt⟩ | ⟨horder, progress, hkept⟩ |
    ⟨horder, hkept⟩
  · have hpassed := progressAt_of_previous hlast hlt
    obtain ⟨-, rfl⟩ := Prod.mk.inj (hpassed.symm.trans h)
    exact ⟨_, by rw [hpassed]⟩
  · rw [progressAt_of_kept horder hkept] at h
    cases h
  · rw [progressAt_of_not_kept horder hkept] at h
    rcases answer_ends { s with last := some offset } offset with
      ⟨s'', -, heq⟩ | ⟨s'', hreplay, hgas, hhalted, heq⟩ | ⟨f, heq⟩ <;> rw [heq] at h
    · cases h
    · -- the machine has halted short of the offset, and stands there when it is asked again
      obtain ⟨-, rfl⟩ := Prod.mk.inj h
      obtain ⟨machine, progress, gas, hran, -⟩ := replay_eq_ok hreplay
      have hagain : s''.progressAt offset = s''.answer offset :=
        progressAt_of_latest (by rw [hran]; rfl) (by rw [hran]; exact hkept)
      rw [hagain]
      exact answer_of_halted hgas hhalted
    · -- an abandoned run has moved nothing, and would be abandoned again
      obtain ⟨-, rfl⟩ := Prod.mk.inj h
      have hagain := progressAt_of_latest (s := { s with last := some offset }) rfl hkept
      exact ⟨_, by rw [hagain, heq]⟩

/-- Answers and machines at one offset, whichever is asked for first and however often. -/
structure Matches (s : Session) (offset : UInt64) : Prop where
  progress_again : ∀ progress after, s.progressAt offset = (.ok progress, after) →
    after.progressAt offset = (.ok progress, after)
  machine_after : ∀ progress after, s.progressAt offset = (.ok progress, after) →
    offset ∈ s.offsets → ∃ machine, after.machineAt offset = (.ok machine, after) ∧
      machine.hash = progress.machineHash
  machine_again : ∀ machine after, s.machineAt offset = (.ok machine, after) →
    after.machineAt offset = (.ok machine, after)
  progress_after : ∀ machine after, s.machineAt offset = (.ok machine, after) →
    ∃ progress, after.progressAt offset = (.ok progress, after) ∧
      machine.hash = progress.machineHash
  /-- A machine is not handed out behind a refusal. -/
  progress_before : ∀ outcome between machine after, s.progressAt offset = (outcome, between) →
    between.machineAt offset = (.ok machine, after) →
      ∃ progress, outcome = .ok progress ∧ machine.hash = progress.machineHash

theorem Coherent.progress_again (hs : s.Coherent)
    (h : s.progressAt offset = (.ok progress, s')) :
    s'.progressAt offset = (.ok progress, s') :=
  progressAt_again ((hs.leaves h).answered progress rfl).1 h

/-- The machine that goes with an answer is the present one, until something else is asked. -/
theorem Coherent.machine_of_answered (hs : s.Coherent)
    (h : s.progressAt offset = (.ok progress, s')) :
    s'.machine.hash = progress.machineHash ∧
      (offset ∈ s.offsets → s'.machineAt offset = (.ok s'.machine, s')) := by
  have hleaves := hs.leaves h
  refine ⟨?_, fun hmem => ?_⟩
  · rw [← hleaves.coherent.hash_eq, (hleaves.answered progress rfl).2.1]
  · rw [machineAt_of_mem (hleaves.offsets_eq ▸ hmem), hs.progress_again h]
    rfl

theorem Coherent.matches (hs : s.Coherent) (offset : UInt64) : s.Matches offset where
  progress_again := fun progress after h => hs.progress_again h
  machine_after := fun progress after h hmem => by
    obtain ⟨hhash, hmachine⟩ := hs.machine_of_answered h
    exact ⟨after.machine, hmachine hmem, hhash⟩
  machine_again := fun machine after h => by
    obtain ⟨hmem, rfl, progress, hprogress⟩ := machineAt_eq_ok h
    exact (hs.machine_of_answered hprogress).2 hmem
  progress_after := fun machine after h => by
    obtain ⟨-, rfl, progress, hprogress⟩ := machineAt_eq_ok h
    exact ⟨progress, hs.progress_again hprogress, (hs.machine_of_answered hprogress).1⟩
  progress_before := fun outcome between machine after hfirst hsecond => by
    obtain ⟨-, rfl, progress, hprogress⟩ := machineAt_eq_ok hsecond
    rcases outcome with e | progress'
    · obtain ⟨e', hfails⟩ := progressAt_fails_again hfirst
      rw [hprogress] at hfails
      cases hfails
    · obtain ⟨-, rfl⟩ := Prod.mk.inj ((hs.progress_again hfirst).symm.trans hprogress)
      exact ⟨progress', rfl, (hs.machine_of_answered hfirst).1⟩

/-! ## Any history -/

/-- The offsets that were answered in a history. -/
def answeredOffsets (history : List (Request × Answer)) : Finset UInt64 :=
  ((history.filter fun entry => entry.2.isOk).map fun entry => entry.1.offset).toFinset

theorem answeredOffsets_cons (request : Request) (answer : Answer)
    (history : List (Request × Answer)) :
    answeredOffsets ((request, answer) :: history) =
      if answer.isOk then insert request.offset (answeredOffsets history)
      else answeredOffsets history := by
  cases answer <;> simp [answeredOffsets, Except.isOk, Except.toBool]

/-- A request keeps the session coherent, and its offset is kept if it was answered. -/
theorem Coherent.ask (hs : s.Coherent) (request : Request) :
    (s.ask request).2.Coherent ∧ (s.ask request).2.offsets = s.offsets ∧
      (s.ask request).2.keptOffsets =
        if (s.ask request).1.isOk then insert request.offset s.keptOffsets else s.keptOffsets := by
  have hkept : ∀ {α : Type} (offset : UInt64) (f : Progress → α),
      (s.progressAt offset).2.keptOffsets =
        if ((s.progressAt offset).1.map f).isOk then insert offset s.keptOffsets
        else s.keptOffsets := by
    intro α offset f
    have hleaves := hs.progressAt offset
    cases hanswer : (s.progressAt offset).1 with
    | error e => exact hleaves.failed e hanswer
    | ok progress => exact (hleaves.answered progress hanswer).2.2
  -- asking for a machine is asking for the progress, with the answer thrown away
  cases request with
  | progress offset =>
      exact ⟨(hs.progressAt offset).coherent, (hs.progressAt offset).offsets_eq, hkept offset _⟩
  | machine offset =>
      by_cases hmem : offset ∈ s.offsets
      · simp only [Session.ask, machineAt_of_mem hmem]
        refine ⟨(hs.progressAt offset).coherent, (hs.progressAt offset).offsets_eq, ?_⟩
        have hmap : ∀ x : Outcome ReplayError Progress,
            ((x.map fun _ => (s.progressAt offset).2.machine).map
              (Sum.inr : Machine → Progress ⊕ Machine)).isOk = (x.map id).isOk := by
          intro x
          cases x <;> rfl
        rw [hmap]
        exact hkept offset id
      · simp only [Session.ask, machineAt, if_neg hmem]
        exact ⟨hs, trivial, rfl⟩

theorem Coherent.askAll (hs : s.Coherent) (requests : List Request) :
    (s.askAll requests).2.Coherent ∧ (s.askAll requests).2.offsets = s.offsets ∧
      (s.askAll requests).2.keptOffsets =
        s.keptOffsets ∪ answeredOffsets (s.askAll requests).1 := by
  induction requests generalizing s with
  | nil => exact ⟨hs, rfl, by simp [Session.askAll, answeredOffsets]⟩
  | cons request requests ih =>
      obtain ⟨hnext, hoffsets, hkept⟩ := hs.ask request
      obtain ⟨hlast, hoffsets', hkept'⟩ := ih hnext
      simp only [Session.askAll]
      refine ⟨hlast, hoffsets'.trans hoffsets, ?_⟩
      rw [hkept', hkept, answeredOffsets_cons]
      split
      · rw [Finset.insert_union, Finset.union_insert]
      · rfl

/-- Whatever a session has been asked, its progress names its machine, it keeps no answer past its
latest request and the present progress for that one, and it counts the offsets it has answered.
So a machine has the hash that is reported with it, before or after, and what has been answered
can be asked again: nothing is run and nothing changes. -/
theorem snapshot_matches_progress (hs : Session.start m overshoot offsets = .ok s)
    (requests : List Request) :
    (s.askAll requests).2.Coherent ∧ (s.askAll requests).2.offsets = offsets ∧
      (s.askAll requests).2.answered = (answeredOffsets (s.askAll requests).1).card ∧
      ∀ offset, (s.askAll requests).2.Matches offset := by
  obtain ⟨hnow, hoffsets, hkept⟩ := (coherent_start hs).askAll requests
  have hopened : s.offsets = offsets ∧ s.keptOffsets = ∅ := by
    obtain ⟨-, rfl⟩ := start_eq_ok_iff.mp hs
    exact ⟨rfl, rfl⟩
  refine ⟨hnow, hoffsets.trans hopened.1, ?_, hnow.matches⟩
  rw [hnow.answered_eq, hkept, hopened.2, Finset.empty_union]

open Challenge in
/-- Two requests of this history are answered; one goes back, and one is past the end of the
trace and leaves the machine stopped there. -/
theorem reader_snapshot_matches_progress :
    ∃ s machine after, Session.start readerMachine true [1, 4] = .ok s ∧
      (s.askAll [.progress 1, .machine 1, .progress 0]).2.machineAt 4 = (.ok machine, after) ∧
      (∃ progress, after.progressAt 4 = (.ok progress, after) ∧
        machine.hash = progress.machineHash) ∧
      let now := (s.askAll [.progress 1, .progress 0, .machine 4, .progress 19]).2
      now.machine.halted = true ∧ now.last = some 19 ∧ now.answered = 2 ∧
        now.progress.machineHash = now.machine.hash := by
  obtain ⟨s, hs⟩ : ∃ s, Session.start readerMachine true [1, 4] = .ok s :=
    exists_start _ _ (by decide)
  obtain ⟨machine, after, hmachine⟩ : ∃ machine after,
      (s.askAll [.progress 1, .machine 1, .progress 0]).2.machineAt 4 = (.ok machine, after) := by
    obtain ⟨-, rfl⟩ := start_eq_ok_iff.mp hs
    exact ⟨_, _, rfl⟩
  obtain ⟨hhalted, hlast, hoffsets⟩ :
      (s.askAll [.progress 1, .progress 0, .machine 4, .progress 19]).2.machine.halted = true ∧
      (s.askAll [.progress 1, .progress 0, .machine 4, .progress 19]).2.last = some 19 ∧
      answeredOffsets (s.askAll [.progress 1, .progress 0, .machine 4, .progress 19]).1 =
        {1, 4} := by
    obtain ⟨-, rfl⟩ := start_eq_ok_iff.mp hs
    exact ⟨rfl, rfl, rfl⟩
  obtain ⟨-, -, -, hmatches⟩ :=
    snapshot_matches_progress hs [.progress 1, .machine 1, .progress 0]
  have hreported := (hmatches 4).progress_after machine after hmachine
  obtain ⟨hcoherent, -, hcount, -⟩ :=
    snapshot_matches_progress hs [.progress 1, .progress 0, .machine 4, .progress 19]
  rw [hoffsets] at hcount
  exact ⟨s, machine, after, hs, hmachine, hreported, hhalted, hlast, hcount, hcoherent.hash_eq⟩

end Session

end TraceDispute
