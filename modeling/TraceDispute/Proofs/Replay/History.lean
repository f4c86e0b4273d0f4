import TraceDispute.Proofs.Replay.Resumption

/-!
# Sessions with any history

`Session.Sound` describes a session all of whose runs have returned.  A run can
also be abandoned, when a sum of gas does not fit in a word; then the latest
request moves on while the machine stays where it was.  `Session.Tracks m target s`
covers both: `s` has replayed `m` up to `target`, which is no later than any
request that is still in order, and has given all its answers by then.

The step lemma is `Tracks.progressAt`: a session that tracks a machine does so
after any request, and whatever it answers is right about the trace.  So every
answer in any history is right (`Replays.truthful_askAll`), with nothing assumed of
the machine or of the answers before it.
-/

namespace TraceDispute

namespace Session

variable {m : Machine} {s s' : Session} {target : Nat} {overshoot : Bool}
  {offset : UInt64} {offsets : List UInt64}

/-- The session has replayed `m` up to `target`, and the answers it keeps are right and not
later than that. -/
structure Tracks (m : Machine) (target : Nat) (s : Session) : Prop where
  stands : s.Stands m target
  target_le : ∀ offset, s.InOrder offset → target ≤ offset.toNat
  answers_right : ∀ entry ∈ s.answers,
    ∃ p, m.pointAt s.overshoot entry.1 = .ok p ∧ entry.2 = p.progress
  answers_le : ∀ entry ∈ s.answers, entry.1.toNat ≤ target

theorem tracks_start (h : Session.start m overshoot offsets = .ok s) : s.Tracks m 0 := by
  obtain ⟨hsound, hlast, -, -⟩ := sound_start h
  have hstands := hsound.stands
  obtain ⟨-, rfl⟩ := start_eq_ok_iff.mp h
  exact ⟨hstands, fun _ _ => Nat.zero_le _, by simp, by simp⟩

/-- A request that is in order becomes the latest one, before anything else is done. -/
theorem Tracks.request (hs : s.Tracks m target) (horder : s.InOrder offset) :
    Tracks m target { s with last := some offset } := by
  refine ⟨⟨hs.stands.machine_eq, hs.stands.progress_eq, hs.stands.gas_lt⟩, ?_,
    hs.answers_right, hs.answers_le⟩
  intro later hlater
  exact (hs.target_le offset horder).trans (UInt64.le_iff_toNat_le.mp (hlater offset rfl))

/-- A run on behalf of the latest request leaves the session there. -/
theorem Tracks.moved (hs : s.Tracks m target) (hlast : s.last = some offset)
    (horder : target ≤ offset.toNat) (halike : s.Alike s') (hstands : s'.Stands m offset.toNat) :
    s'.Tracks m offset.toNat := by
  refine ⟨hstands, ?_, ?_, ?_⟩
  · intro later hlater
    exact UInt64.le_iff_toNat_le.mp (hlater offset (halike.last_eq.trans hlast))
  · rw [halike.answers_eq, halike.overshoot_eq]
    exact hs.answers_right
  · rw [halike.answers_eq]
    exact fun entry hentry => (hs.answers_le entry hentry).trans horder

theorem Tracks.remember {p : Point} (hs : s.Tracks m offset.toNat)
    (hpoint : m.pointAt s.overshoot offset = .ok p) (hprogress : s.progress = p.progress) :
    (s.remember offset).Tracks m offset.toNat := by
  refine ⟨⟨hs.stands.machine_eq, hs.stands.progress_eq, hs.stands.gas_lt⟩, hs.target_le, ?_, ?_⟩
  · intro entry hentry
    rcases List.mem_cons.mp hentry with rfl | hentry
    · exact ⟨p, hpoint, hprogress⟩
    · exact hs.answers_right entry hentry
  · intro entry hentry
    rcases List.mem_cons.mp hentry with rfl | hentry
    · exact le_rfl
    · exact hs.answers_le entry hentry

/-- An answer that is kept for a request in order was given where the session stands. -/
theorem Tracks.of_kept? {progress : Progress} (hs : s.Tracks m target) (horder : s.InOrder offset)
    (hkept : kept? offset s.answers = some progress) :
    s.Stands m offset.toNat ∧
      ∃ p, m.pointAt s.overshoot offset = .ok p ∧ progress = p.progress := by
  have hmem := mem_of_kept? hkept
  have heq : target = offset.toNat := (hs.target_le offset horder).antisymm (hs.answers_le _ hmem)
  exact ⟨heq ▸ hs.stands, hs.answers_right _ hmem⟩

/-- An answer to a request for an offset that is right about the trace, with the machine that
the session is left with. -/
def Right (m : Machine) (overshoot : Bool) (offset : UInt64)
    (answer : Outcome ReplayError Progress × Session) : Prop :=
  ∀ progress, answer.1 = .ok progress →
    ∃ p, m.pointAt overshoot offset = .ok p ∧ p.gas < UInt64.size ∧ progress = p.progress ∧
      answer.2.machine = p.machine

theorem Stands.right (hs : s.Stands m offset.toNat) {p : Point}
    (hpoint : m.pointAt s.overshoot offset = .ok p) (hmachine : s'.machine = p.machine) :
    Right m s.overshoot offset (.ok p.progress, s') := by
  intro progress hprogress
  obtain ⟨rfl, -⟩ := Machine.pointAt_eq_ok_iff.mp hpoint
  exact ⟨_, hpoint, hs.gas_lt, (Except.ok.inj hprogress).symm, hmachine⟩

theorem right_error (e : Failure ReplayError) : Right m overshoot offset (.error e, s) := by
  intro progress hprogress
  cases hprogress

/-- A session that replays a machine, with the same flag and for the same offsets as when it was
opened. -/
structure Replays (m : Machine) (overshoot : Bool) (offsets : List UInt64) (s : Session) :
    Prop where
  tracks : ∃ target, s.Tracks m target
  overshoot_eq : s.overshoot = overshoot
  offsets_eq : s.offsets = offsets

theorem replays_start (h : Session.start m overshoot offsets = .ok s) :
    s.Replays m overshoot offsets := by
  obtain ⟨-, -, hover, hoffsets⟩ := sound_start h
  exact ⟨⟨0, tracks_start h⟩, hover, hoffsets⟩

namespace Replays

/-- Everything that a request can do to a session. -/
theorem progressAt (hs : s.Replays m overshoot offsets) (offset : UInt64) :
    (s.progressAt offset).2.Replays m overshoot offsets ∧
      Right m overshoot offset (s.progressAt offset) := by
  obtain ⟨⟨target, htracks⟩, rfl, rfl⟩ := hs
  rcases s.progressAt_cases offset with ⟨previous, hlast, hlt⟩ | ⟨horder, progress, hkept⟩ |
    ⟨horder, hkept⟩
  · -- a request that goes back changes nothing
    rw [progressAt_of_previous hlast hlt]
    exact ⟨⟨⟨target, htracks⟩, rfl, rfl⟩, right_error _⟩
  · -- an answer that is kept was given by the machine that still stands there
    have hrequest := htracks.request horder
    obtain ⟨hstands, p, hpoint, rfl⟩ := htracks.of_kept? horder hkept
    rw [progressAt_of_kept horder hkept]
    exact ⟨⟨⟨target, hrequest⟩, rfl, rfl⟩,
      hstands.right hpoint (hstands.eq_of_pointAt hpoint).1⟩
  · have hrequest := htracks.request horder
    have hle := htracks.target_le offset horder
    rw [progressAt_of_not_kept horder hkept]
    rcases answer_cases hrequest.stands hle with ⟨s', halike, hstands, hfound⟩ | ⟨hfault, -⟩
    · have hmoved := hrequest.moved rfl hle halike hstands
      have hover := halike.overshoot_eq
      rcases hfound with ⟨p, hpoint, hmachine, hprogress, heq⟩ | ⟨e, -, heq⟩
      · rw [heq]
        have hpoint' : m.pointAt s'.overshoot offset = .ok p := hover ▸ hpoint
        refine ⟨⟨⟨_, hmoved.remember hpoint' hprogress⟩, hover, halike.offsets_eq⟩, ?_⟩
        exact hover ▸ hstands.right hpoint' hmachine
      · rw [heq]
        exact ⟨⟨⟨_, hmoved⟩, hover, halike.offsets_eq⟩, right_error _⟩
    · -- an abandoned run leaves the session where it was, with the request made
      rw [hfault]
      exact ⟨⟨⟨target, hrequest⟩, rfl, rfl⟩, right_error _⟩

/-- Any request is answered by the trace, if it is answered, and leaves a session that replays
the same machine. -/
theorem ask (hs : s.Replays m overshoot offsets) (request : Request) :
    Truthful m overshoot (request, (s.ask request).1) ∧
      (s.ask request).2.Replays m overshoot offsets := by
  -- either request takes the session through `progressAt`, unless the offset was not asked for
  cases request with
  | progress offset =>
      obtain ⟨hafter, hright⟩ := hs.progressAt offset
      refine ⟨?_, hafter⟩
      simp only [Session.ask]
      cases hanswer : (s.progressAt offset).1 with
      | error e => trivial
      | ok progress =>
          obtain ⟨p, hpoint, hgas, hprogress, -⟩ := hright progress hanswer
          exact ⟨p, hpoint, hgas, hprogress⟩
  | machine offset =>
      by_cases hmem : offset ∈ offsets
      · obtain ⟨hafter, hright⟩ := hs.progressAt offset
        simp only [Session.ask, machineAt_of_mem (hs.offsets_eq ▸ hmem : offset ∈ s.offsets)]
        refine ⟨?_, hafter⟩
        cases hanswer : (s.progressAt offset).1 with
        | error e => trivial
        | ok progress =>
            obtain ⟨p, hpoint, -, -, hmachine⟩ := hright progress hanswer
            exact ⟨p, hpoint, hmachine⟩
      · simp only [Session.ask, Session.machineAt, if_neg (hs.offsets_eq ▸ hmem)]
        exact ⟨trivial, hs⟩

/-- Every answer in the history of a session is right. -/
theorem truthful_askAll (hs : s.Replays m overshoot offsets) (requests : List Request) :
    ∀ entry ∈ (s.askAll requests).1, Truthful m overshoot entry := by
  induction requests generalizing s with
  | nil => simp [Session.askAll]
  | cons request requests ih =>
      obtain ⟨htruthful, hafter⟩ := hs.ask request
      simp only [Session.askAll, List.forall_mem_cons]
      exact ⟨htruthful, ih hafter⟩

end Replays

end Session

end TraceDispute
