import TraceDispute.Proofs.Challenge.Cuts

/-!
# Answers do not depend on how they were reached

A session that has been asked any sequence of requests, those that failed
included, answers the next one like a session that has just been opened.  What
remains of its past is a single offset: the latest request that was not passed
over (`latest`), before which nothing is answered any more.

The step lemma is `Stage.ask`: every request keeps the session sound and moves
its latest offset the way `latest` says.
-/

namespace TraceDispute

namespace Session

/-- A request made of a session. -/
inductive Request where
  | progress (offset : UInt64)
  | machine (offset : UInt64)

/-- The offset that a request is about. -/
def Request.offset : Request → UInt64
  | .progress offset => offset
  | .machine offset => offset

/-- What a request is answered with. -/
abbrev Answer : Type := Outcome ReplayError (Progress ⊕ Machine)

/-- Makes a request. -/
def ask (s : Session) : Request → Answer × Session
  | .progress offset => ((s.progressAt offset).1.map .inl, (s.progressAt offset).2)
  | .machine offset => ((s.machineAt offset).1.map .inr, (s.machineAt offset).2)

/-- Makes requests one after the other, also after one that failed. -/
def askAll : Session → List Request → List (Request × Answer) × Session
  | s, [] => ([], s)
  | s, request :: requests =>
    let (answer, s') := s.ask request
    let (history, s'') := askAll s' requests
    ((request, answer) :: history, s'')

/-- The request was refused for its place in the sequence or for its offset. -/
def passedOver : Answer → Bool
  | .error (.refusal (.outOfOrder ..)) => true
  | .error (.refusal (.notRequested _)) => true
  | _ => false

/-- The offset of the latest request in a history that was not passed over. -/
def latest (history : List (Request × Answer)) (previous : Option UInt64) : Option UInt64 :=
  history.foldl (fun previous entry => if passedOver entry.2 then previous else some entry.1.offset)
    previous

/-- An answer, unless the request goes back before an earlier one. -/
def inTurn {α : Type} (previous : Option UInt64) (offset : UInt64)
    (answer : Outcome ReplayError α) : Outcome ReplayError α :=
  match previous with
  | some p => if offset < p then .refuse (.outOfOrder offset p) else answer
  | none => answer

variable {m : Machine} {overshoot : Bool} {offsets : List UInt64} {previous : Option UInt64}
  {s : Session} {offset : UInt64}

/-- A session somewhere in its life: opened for `offsets`, with `previous` its
latest request. -/
structure Stage (m : Machine) (overshoot : Bool) (offsets : List UInt64)
    (previous : Option UInt64) (s : Session) : Prop where
  sound : s.Sound m
  overshoot_eq : s.overshoot = overshoot
  offsets_eq : s.offsets = offsets
  last_eq : s.last = previous

theorem stage_start (h : Session.start m overshoot offsets = .ok s) :
    Stage m overshoot offsets none s := by
  obtain ⟨hsound, hlast, hover, hoffsets⟩ := sound_start h
  exact ⟨hsound, hover, hoffsets, hlast⟩

theorem Stage.after {s' : Session} (hs : Stage m overshoot offsets previous s)
    (h : s.After m offset s') : Stage m overshoot offsets (some offset) s' :=
  ⟨h.sound, h.overshoot_eq.trans hs.overshoot_eq, h.offsets_eq.trans hs.offsets_eq, h.last_eq⟩

theorem pointAt_cases (m : Machine) (overshoot : Bool) (offset : UInt64) :
    (∃ p, m.pointAt overshoot offset = .ok p) ∨
      ∃ reached, m.pointAt overshoot offset = .error (.beyondTrace offset reached) := by
  unfold Machine.pointAt
  simp only
  split
  · exact .inr ⟨_, rfl⟩
  · exact .inl ⟨_, rfl⟩

theorem passedOver_of_pointAt {α : Type} (f : Point → α) (g : α → Progress ⊕ Machine) :
    passedOver ((Outcome.ofExcept ((m.pointAt overshoot offset).map f)).map g) = false := by
  rcases pointAt_cases m overshoot offset with ⟨p, hp⟩ | ⟨reached, hp⟩ <;> rw [hp] <;> rfl

theorem Stage.turn (hs : Stage m overshoot offsets previous s) (offset : UInt64) :
    (∃ p, s.last = some p ∧ offset < p ∧ ∀ {α : Type} (answer : Outcome ReplayError α),
        inTurn previous offset answer = .refuse (.outOfOrder offset p)) ∨
      (s.InOrder offset ∧ ∀ {α : Type} (answer : Outcome ReplayError α),
        inTurn previous offset answer = answer) := by
  rw [← hs.last_eq]
  cases hlast : s.last with
  | none => exact .inr ⟨by simp [InOrder, hlast], fun answer => rfl⟩
  | some p =>
      by_cases hlt : offset < p
      · exact .inl ⟨p, rfl, hlt, fun answer => if_pos hlt⟩
      · exact .inr ⟨by simpa [InOrder, hlast] using hlt, fun answer => if_neg hlt⟩

section Step

variable (hgas : gasSum m.program < UInt64.size)
include hgas

/-- Progress is answered from the trace and the latest offset alone. -/
theorem Stage.progressAt (hs : Stage m overshoot offsets previous s) (offset : UInt64) :
    let answer := inTurn previous offset
      (.ofExcept ((m.pointAt overshoot offset).map Point.progress))
    ∃ s', s.progressAt offset = (answer, s') ∧
      Stage m overshoot offsets
        (if passedOver (answer.map .inl) then previous else some offset) s' := by
  simp only
  rcases hs.turn offset with ⟨p, hlast, hlt, hturn⟩ | ⟨horder, hturn⟩
  · rw [hturn]
    exact ⟨s, progressAt_of_previous hlast hlt, hs⟩
  · rw [hturn, passedOver_of_pointAt]
    rcases progressAt_of_inOrder hs.sound horder with ⟨s', hafter, heq⟩ | ⟨-, hcount⟩
    · exact ⟨s', hs.overshoot_eq ▸ heq, hs.after hafter⟩
    · exact absurd (Point.countable_of_gasSum hgas _) hcount

/-- So is the machine, at one of the session's offsets. -/
theorem Stage.machineAt (hs : Stage m overshoot offsets previous s) (hmem : offset ∈ offsets) :
    let answer := inTurn previous offset
      (.ofExcept ((m.pointAt overshoot offset).map Point.machine))
    ∃ s', s.machineAt offset = (answer, s') ∧
      Stage m overshoot offsets
        (if passedOver (answer.map .inr) then previous else some offset) s' := by
  simp only
  have hmem' : offset ∈ s.offsets := hs.offsets_eq ▸ hmem
  rcases hs.turn offset with ⟨p, hlast, hlt, hturn⟩ | ⟨horder, hturn⟩
  · rw [hturn, Session.machineAt, if_pos hmem', progressAt_of_previous hlast hlt]
    exact ⟨s, rfl, hs⟩
  · rw [hturn, passedOver_of_pointAt]
    rcases machineAt_of_inOrder hs.sound horder hmem' with ⟨s', hafter, heq⟩ | ⟨-, hcount⟩
    · exact ⟨s', hs.overshoot_eq ▸ heq, hs.after hafter⟩
    · exact absurd (Point.countable_of_gasSum hgas _) hcount

omit hgas in
theorem Stage.machineAt_of_not_mem (hs : Stage m overshoot offsets previous s)
    (hmem : offset ∉ offsets) : s.machineAt offset = (.refuse (.notRequested offset), s) := by
  rw [Session.machineAt, if_neg (hs.offsets_eq ▸ hmem)]

/-- A request leaves nothing behind but the offset it was about, if it was not passed over. -/
theorem Stage.ask (hs : Stage m overshoot offsets previous s) (request : Request) :
    Stage m overshoot offsets
      (if passedOver (s.ask request).1 then previous else some request.offset)
      (s.ask request).2 := by
  cases request with
  | progress offset =>
      obtain ⟨s', heq, hs'⟩ := hs.progressAt hgas offset
      simp only [Session.ask, heq]
      exact hs'
  | machine offset =>
      by_cases hmem : offset ∈ offsets
      · obtain ⟨s', heq, hs'⟩ := hs.machineAt hgas hmem
        simp only [Session.ask, heq]
        exact hs'
      · simp only [Session.ask, hs.machineAt_of_not_mem hmem]
        exact hs

theorem Stage.askAll (hs : Stage m overshoot offsets previous s) (requests : List Request) :
    Stage m overshoot offsets (latest (s.askAll requests).1 previous) (s.askAll requests).2 := by
  induction requests generalizing s previous with
  | nil => exact hs
  | cons request requests ih => exact ih (hs.ask hgas request)

end Step

end Session

namespace Challenge

variable {c : Challenge} {m : Machine}

theorem mapM_ownCut (c : Challenge) (m : Machine) (offsets : List UInt64) :
    offsets.mapM (c.ownCut m) =
      (offsets.mapM fun offset => [offset].mapM (c.ownCut m)).map List.flatten := by
  induction offsets with
  | nil => rfl
  | cons offset offsets ih =>
      rw [List.mapM_cons, List.mapM_cons, ih, List.mapM_cons, List.mapM_nil]
      cases c.ownCut m offset with
      | error e => rfl
      | ok cut => cases offsets.mapM fun offset => [offset].mapM (c.ownCut m) <;> rfl

open Session in
/-- What a session answers, after any requests, is what a fresh one answers, and cuts
taken together are the cuts taken one by one. -/
theorem answers_independent_of_history (hm : c.machine? = some m)
    (hgas : gasSum m.program < UInt64.size) {offsets : List UInt64}
    (hsorted : offsets.Pairwise (· ≤ ·)) :
    (∃ s, c.openSession offsets = .ok s ∧ ∀ requests offset,
      let previous := latest (s.askAll requests).1 none
      let now := (s.askAll requests).2
      (∀ others fresh, c.openSession others = .ok fresh →
        (now.progressAt offset).1 = inTurn previous offset (fresh.progressAt offset).1 ∧
        ((∃ p, (fresh.progressAt offset).1 = .ok p) ∨
          ∃ reached, (fresh.progressAt offset).1 = .refuse (.beyondTrace offset reached)) ∧
        (offset ∈ offsets → offset ∈ others →
          (now.machineAt offset).1 = inTurn previous offset (fresh.machineAt offset).1)) ∧
      (offset ∉ offsets → (now.machineAt offset).1 = .refuse (.notRequested offset))) ∧
    (c.cutsAt offsets).outcome =
      (offsets.mapM fun offset => (c.cutsAt [offset]).outcome).map List.flatten := by
  refine ⟨?_, ?_⟩
  · obtain ⟨s, hstart⟩ := Session.exists_start m c.overshoot hsorted
    refine ⟨s, (openSession_eq_ok_iff hm).mpr hstart, fun requests offset => ?_⟩
    -- whatever was asked, the session stands where its last request in order took it
    have hnow := (stage_start hstart).askAll hgas requests
    refine ⟨fun others fresh hopen => ?_, fun hmem => ?_⟩
    · have hfresh := stage_start ((openSession_eq_ok_iff hm).mp hopen)
      obtain ⟨s', hprogress, -⟩ := hnow.progressAt hgas offset
      obtain ⟨fresh', hprogress', -⟩ := hfresh.progressAt hgas offset
      refine ⟨by rw [hprogress, hprogress']; rfl, ?_, fun hmem hmem' => ?_⟩
      · -- the point of the trace is the same for both sessions, since it is the machine's
        rw [hprogress']
        rcases pointAt_cases m c.overshoot offset with ⟨p, hp⟩ | ⟨reached, hp⟩
        · exact .inl ⟨p.progress, by rw [hp]; rfl⟩
        · exact .inr ⟨reached, by rw [hp]; rfl⟩
      · obtain ⟨s', hmachine, -⟩ := hnow.machineAt hgas hmem
        obtain ⟨fresh', hmachine', -⟩ := hfresh.machineAt hgas hmem'
        rw [hmachine, hmachine']
        rfl
    · rw [hnow.machineAt_of_not_mem hmem]
  · -- every sum of gas fits, so the offsets can be taken one by one
    have hcount : ∀ offset, c.Counts m offset := fun _ => Point.countable_of_gasSum hgas _
    have hone : ∀ offset, (c.cutsAt [offset]).outcome = [offset].mapM (c.ownCut m) :=
      fun offset => cutsAt_of_countable hm (List.pairwise_singleton _ _) fun o _ => hcount o
    rw [cutsAt_of_countable hm hsorted fun o _ => hcount o, mapM_ownCut]
    simp only [hone]

/-- A machine that multiplies, reads its only message and sends the register. -/
def readerMachine : Machine where
  program := [.mul 3, .readInbox, .send]
  inbox := [[7]]
  program_lt := by decide
  inbox_lt := by decide

/-- The challenge of a party that replays it. -/
def readerChallenge : Challenge where
  checkpoints := ⟨[(readerMachine.hash, readerMachine)]⟩
  cursor := { machineHash := readerMachine.hash }
  inbox := .ofMessages [[7]]

theorem machine?_readerChallenge : readerChallenge.machine? = some readerMachine := by
  simp [readerChallenge, machine?, Checkpoints.find?]

open Session in
theorem reader_answers_independent_of_history :
    readerChallenge.machine? = some readerMachine ∧
      gasSum readerMachine.program < UInt64.size ∧ [(1 : UInt64), 4, 14].Pairwise (· ≤ ·) ∧
      ∃ s, readerChallenge.openSession [1, 4, 14] = .ok s ∧
        let now := (s.askAll [.progress 1, .progress 0, .machine 9]).2
        (now.progressAt 4).1 = (s.progressAt 4).1 ∧
        (now.progressAt 0).1 = .refuse (.outOfOrder 0 1) ∧
        (now.machineAt 9).1 = .refuse (.notRequested 9) := by
  have hgas : gasSum readerMachine.program < UInt64.size := by decide
  have hsorted : [(1 : UInt64), 4, 14].Pairwise (· ≤ ·) := by decide
  refine ⟨machine?_readerChallenge, hgas, hsorted, ?_⟩
  obtain ⟨⟨s, hopen, h⟩, -⟩ :=
    answers_independent_of_history machine?_readerChallenge hgas hsorted
  have hlatest : latest (s.askAll [.progress 1, .progress 0, .machine 9]).1 none = some 1 := by
    rw [openSession_eq_ok_iff machine?_readerChallenge, start_eq_ok_iff] at hopen
    obtain ⟨-, rfl⟩ := hopen
    rfl
  refine ⟨s, hopen, ?_, ?_, ?_⟩
  · rw [((h _ 4).1 _ s hopen).1, hlatest]
    rfl
  · rw [((h _ 0).1 _ s hopen).1, hlatest]
    rfl
  · exact (h _ 9).2 (by decide)

end Challenge

end TraceDispute
