import TraceDispute.Proofs.Replay.Resumption

/-!
# What a cursor resolves to

Machines are stored under hashes that leave their programs and inboxes out, so
two of them can meet under one hash.  The first to be offered is the one that is
kept (`Engine.find?_run`): later offers of the same machine are answered with the
same cursor, and offers of another one are refused.

A cursor that was issued therefore keeps resolving to the machine it was issued
for, whatever is offered afterwards and whatever sessions do in between
(`cursor_keeps_resolving`).
-/

namespace TraceDispute

/-! ## One offer -/

namespace Checkpoints

variable {c : Checkpoints} {m : Machine} {w : Word}

/-- Every machine stands under its own hash, and no hash stands twice. -/
structure Keyed (c : Checkpoints) : Prop where
  key_eq : ∀ entry ∈ c.entries, entry.1 = entry.2.hash
  nodup : (c.entries.map Prod.fst).Nodup

/-- What an offer can come to: another machine is in its place, it is there already, or it is
stored now. -/
theorem insert_cases (c : Checkpoints) (m : Machine) :
    (∃ stored, c.find? m.hash = some stored ∧ stored ≠ m ∧
        c.insert m = .error (.checkpointConflict m.hash)) ∨
      (c.find? m.hash = some m ∧ c.insert m = .ok ({ machineHash := m.hash }, c)) ∨
      (c.find? m.hash = none ∧
        c.insert m = .ok ({ machineHash := m.hash }, ⟨(m.hash, m) :: c.entries⟩)) := by
  unfold insert
  cases hfind : c.find? m.hash with
  | none => exact .inr (.inr ⟨rfl, rfl⟩)
  | some stored =>
      by_cases heq : stored = m
      · subst heq
        exact .inr (.inl ⟨rfl, if_pos rfl⟩)
      · exact .inl ⟨stored, rfl, heq, if_neg heq⟩

theorem insert_eq_error_iff {e : ReplayError} :
    c.insert m = .error e ↔
      e = .checkpointConflict m.hash ∧ ∃ stored, c.find? m.hash = some stored ∧ stored ≠ m := by
  rcases insert_cases c m with ⟨stored, hfind, hne, h⟩ | ⟨hfind, h⟩ | ⟨hfind, h⟩
  · simp only [h, hfind, Except.error.injEq, Option.some.injEq, exists_eq_left']
    exact ⟨fun he => ⟨he.symm, hne⟩, fun he => he.1.symm⟩
  · simp [h, hfind]
  · simp [h, hfind]

theorem insert_of_find?_eq_none (hnone : c.find? m.hash = none) :
    c.insert m = .ok ({ machineHash := m.hash }, ⟨(m.hash, m) :: c.entries⟩) := by
  rcases insert_cases c m with ⟨stored, hfind, -, -⟩ | ⟨hfind, -⟩ | ⟨-, h⟩
  · cases hnone.symm.trans hfind
  · cases hnone.symm.trans hfind
  · exact h

theorem machineHash_of_insert {cursor : Cursor} {c' : Checkpoints}
    (h : c.insert m = .ok (cursor, c')) : cursor.machineHash = m.hash := by
  rw [(find?_of_insert h).1]

theorem openSession_eq_unknownCursor_iff {cursor : Cursor} {overshoot : Bool}
    {offsets : List UInt64} :
    c.openSession cursor overshoot offsets = .error (.unknownCursor w) ↔
      w = cursor.machineHash ∧ c.find? cursor.machineHash = none := by
  unfold openSession
  cases hfind : c.find? cursor.machineHash with
  | none => simp [eq_comm]
  | some stored =>
      -- a session that does not start was refused for the order of its offsets
      unfold Session.start
      cases Session.firstDescent offsets <;> simp

theorem find?_cons (c : Checkpoints) (m : Machine) (w : Word) :
    find? ⟨(m.hash, m) :: c.entries⟩ w = if m.hash = w then some m else c.find? w := by
  by_cases hw : m.hash = w
  · subst hw
    simp [find?]
  · have hbeq : (w == m.hash) = false := beq_false_of_ne fun h => hw h.symm
    simp [find?, List.lookup_cons, hbeq, hw]

theorem Keyed.cons (hc : c.Keyed) (hnone : c.find? m.hash = none) :
    Keyed ⟨(m.hash, m) :: c.entries⟩ := by
  constructor
  · exact List.forall_mem_cons.mpr ⟨rfl, hc.key_eq⟩
  · refine List.nodup_cons.mpr ⟨?_, hc.nodup⟩
    intro hmem
    obtain ⟨entry, hentry, hkey⟩ := List.mem_map.mp hmem
    have hne := List.lookup_eq_none_iff.mp hnone entry hentry
    simp [hkey] at hne

end Checkpoints

/-! ## Calls -/

/-- Stored machines and the sessions that have been opened on them. -/
structure Engine where
  checkpoints : Checkpoints := .empty
  sessions : List Session := []

namespace Engine

/-- A call on an engine or on one of its sessions. -/
inductive Call where
  | insert (machine : Machine)
  | openSession (cursor : Cursor) (overshoot : Bool) (offsets : List UInt64)
  | ask (session : Nat) (request : Session.Request)

/-- The engine that a call leaves behind.  A call that is refused by the engine leaves it as
it was; one that is refused by a session may still have moved that session. -/
def after (e : Engine) : Call → Engine
  | .insert machine =>
    match e.checkpoints.insert machine with
    | .ok (_, checkpoints) => { e with checkpoints }
    | .error _ => e
  | .openSession cursor overshoot offsets =>
    match e.checkpoints.openSession cursor overshoot offsets with
    | .ok session => { e with sessions := e.sessions ++ [session] }
    | .error _ => e
  | .ask session request =>
    { e with sessions := e.sessions.modify session fun s => (s.ask request).2 }

/-- The engine after a sequence of calls on a new one. -/
def run (calls : List Call) : Engine := calls.foldl after {}

/-- The machine that a call wants stored. -/
def Call.offer? : Call → Option Machine
  | .insert machine => some machine
  | _ => none

/-- Some call to store the machine was answered with a cursor. -/
def Stored (calls : List Call) (m : Machine) : Prop :=
  ∃ earlier later issued, calls = earlier ++ .insert m :: later ∧
    (run earlier).checkpoints.insert m = .ok issued

variable {e : Engine} {call : Call} {calls : List Call} {m : Machine} {w : Word}

theorem run_concat (calls : List Call) (call : Call) :
    run (calls ++ [call]) = (run calls).after call := by
  simp [run, List.foldl_append]

theorem after_of_insert_eq_error {cause : ReplayError}
    (h : e.checkpoints.insert m = .error cause) : e.after (.insert m) = e := by
  simp only [after, h]

theorem checkpoints_after_of_offer?_eq_none (h : call.offer? = none) :
    (e.after call).checkpoints = e.checkpoints := by
  cases call with
  | insert machine => cases h
  | openSession cursor overshoot offsets =>
      simp only [after]
      cases e.checkpoints.openSession cursor overshoot offsets <;> rfl
  | ask session request => rfl

theorem keyed_after (h : e.checkpoints.Keyed) (call : Call) :
    (e.after call).checkpoints.Keyed := by
  cases hoffer : call.offer? with
  | none =>
      rw [checkpoints_after_of_offer?_eq_none hoffer]
      exact h
  | some m =>
      obtain rfl : call = .insert m := by
        cases call <;> simp_all [Call.offer?]
      rcases e.checkpoints.insert_cases m with ⟨_, _, _, hm⟩ | ⟨_, hm⟩ | ⟨hnone, hm⟩
      · simpa only [after, hm] using h
      · simpa only [after, hm] using h
      · simpa only [after, hm] using h.cons hnone

theorem keyed_run (calls : List Call) : (run calls).checkpoints.Keyed := by
  induction calls using List.reverseRecOn with
  | nil => exact ⟨by simp [run, Checkpoints.empty], by simp [run, Checkpoints.empty]⟩
  | append_singleton calls call ih =>
      rw [run_concat]
      exact keyed_after ih call

/-! ## The first offer is kept -/

theorem find?_after_insert :
    (e.after (.insert m)).checkpoints.find? w =
      (e.checkpoints.find? w).or (if m.hash = w then some m else none) := by
  by_cases hw : m.hash = w
  · subst hw
    rcases e.checkpoints.insert_cases m with ⟨_, hfind, _, hm⟩ | ⟨hfind, hm⟩ | ⟨hnone, hm⟩
    · simp [after, hm, hfind]
    · simp [after, hm, hfind]
    · simp [after, hm, hnone, Checkpoints.find?_cons]
  · rcases e.checkpoints.insert_cases m with ⟨_, _, _, hm⟩ | ⟨_, hm⟩ | ⟨_, hm⟩
    · simp [after, hm, hw]
    · simp [after, hm, hw]
    · simp [after, hm, hw, Checkpoints.find?_cons]

theorem find?_run (calls : List Call) (w : Word) :
    (run calls).checkpoints.find? w =
      (calls.filterMap Call.offer?).find? fun m => m.hash = w := by
  induction calls using List.reverseRecOn with
  | nil => rfl
  | append_singleton calls call ih =>
      rw [run_concat, List.filterMap_append, List.find?_append, ← ih]
      cases call with
      | insert m =>
          rw [find?_after_insert]
          by_cases hw : m.hash = w <;> simp [Call.offer?, hw]
      | openSession cursor overshoot offsets =>
          rw [checkpoints_after_of_offer?_eq_none rfl]
          simp [Call.offer?]
      | ask session request => simp [Call.offer?, after]

theorem find?_run_append (later : List Call) (h : (run calls).checkpoints.find? w = some m) :
    (run (calls ++ later)).checkpoints.find? w = some m := by
  rw [find?_run] at h ⊢
  rw [List.filterMap_append, List.find?_append, h, Option.some_or]

/-- What is found under a hash is what was stored there. -/
theorem find?_run_eq_some_iff :
    (run calls).checkpoints.find? w = some m ↔ Stored calls m ∧ m.hash = w := by
  constructor
  · intro h
    rw [find?_run, List.find?_eq_some_iff_append] at h
    obtain ⟨hw, first, rest, hoffers, hfirst⟩ := h
    refine ⟨?_, of_decide_eq_true hw⟩
    -- the call that made the offer: before it, none was made under the hash
    obtain ⟨calls₁, calls₂, rfl, hcalls₁, hcalls₂⟩ := List.filterMap_eq_append_iff.mp hoffers
    obtain ⟨silent, call, later, rfl, hsilent, hcall, -⟩ := List.filterMap_eq_cons_iff.mp hcalls₂
    obtain rfl : call = .insert m := by
      cases call <;> simp_all [Call.offer?]
    have hnone : (run (calls₁ ++ silent)).checkpoints.find? m.hash = none := by
      rw [find?_run, List.filterMap_append, hcalls₁, List.filterMap_eq_nil_iff.mpr hsilent,
        List.append_nil, of_decide_eq_true hw, List.find?_eq_none]
      simpa using hfirst
    exact ⟨calls₁ ++ silent, later, _, by simp, Checkpoints.insert_of_find?_eq_none hnone⟩
  · rintro ⟨⟨earlier, later, issued, rfl, hissued⟩, rfl⟩
    -- what an offer stores is found right after it, and later calls do not take it away
    have hfind := (Checkpoints.find?_of_insert hissued).2
    have hrun : (run (earlier ++ [.insert m])).checkpoints.find? m.hash = some m := by
      simpa only [run_concat, after, hissued] using hfind
    simpa using find?_run_append later hrun

theorem find?_run_eq_none_iff :
    (run calls).checkpoints.find? w = none ↔ ∀ m, Stored calls m → m.hash ≠ w := by
  simp only [Option.eq_none_iff_forall_ne_some, ne_eq, find?_run_eq_some_iff, not_and]

end Engine

/-- What the store of an engine holds after some calls and how it answers the next one. -/
structure Engine.Resolving (calls : List Call) : Prop where
  keyed : (run calls).checkpoints.Keyed
  /-- A cursor names the machine that it was issued for by its hash. -/
  issued : ∀ {earlier later m cursor stored}, calls = earlier ++ .insert m :: later →
    (run earlier).checkpoints.insert m = .ok (cursor, stored) → cursor.machineHash = m.hash
  /-- It resolves to that machine, whatever totals it is shown with. -/
  resolves : ∀ {earlier later m cursor stored}, calls = earlier ++ .insert m :: later →
    (run earlier).checkpoints.insert m = .ok (cursor, stored) →
    ∀ (asked : Cursor) (overshoot : Bool) (offsets : List UInt64),
      asked.machineHash = cursor.machineHash → offsets.Pairwise (· ≤ ·) →
      ∃ s, (run calls).checkpoints.openSession asked overshoot offsets = .ok s ∧ s.machine = m
  refused_iff : ∀ m cause, (run calls).checkpoints.insert m = .error cause ↔
    cause = .checkpointConflict m.hash ∧
      ∃ other, Stored calls other ∧ other.hash = m.hash ∧ other ≠ m
  refused_unchanged : ∀ m cause, (run calls).checkpoints.insert m = .error cause →
    run (calls ++ [.insert m]) = run calls
  unknown_iff : ∀ (cursor : Cursor) (overshoot : Bool) (offsets : List UInt64) (w : Word),
    (run calls).checkpoints.openSession cursor overshoot offsets = .error (.unknownCursor w) ↔
      w = cursor.machineHash ∧ ∀ m, Stored calls m → m.hash ≠ w

open Engine in
/-- Over every sequence of calls: machines stand under their own hashes, a cursor that was
issued resolves to the machine it was issued for, an offer is refused exactly for another
machine stored under its hash, and a cursor is unknown exactly if nothing was stored there. -/
theorem cursor_keeps_resolving (calls : List Engine.Call) : Engine.Resolving calls where
  keyed := keyed_run calls
  issued _ hissued := Checkpoints.machineHash_of_insert hissued
  resolves := by
    intro earlier later m cursor stored hcalls hissued asked overshoot offsets hasked hsorted
    have hhash : cursor.machineHash = m.hash := Checkpoints.machineHash_of_insert hissued
    -- the offer that was answered with the cursor is the one that stored the machine
    have hstored : Stored calls m := ⟨earlier, later, _, hcalls, hissued⟩
    have hfind : (run calls).checkpoints.find? asked.machineHash = some m :=
      find?_run_eq_some_iff.mpr ⟨hstored, (hasked.trans hhash).symm⟩
    rw [Checkpoints.openSession_of_find? hfind]
    exact ⟨_, Session.start_eq_ok_iff.mpr ⟨hsorted, rfl⟩, rfl⟩
  refused_iff := by
    intro m cause
    simp only [Checkpoints.insert_eq_error_iff, find?_run_eq_some_iff, and_assoc]
  refused_unchanged := by
    intro m cause hcause
    rw [run_concat, after_of_insert_eq_error hcause]
  unknown_iff := by
    intro cursor overshoot offsets w
    rw [Checkpoints.openSession_eq_unknownCursor_iff, find?_run_eq_none_iff]
    exact and_congr_right fun hw => by rw [hw]

theorem Engine.counter_lt (step : UInt64) :
    (List.replicate 4 (Instruction.add step)).length < UInt64.size := by
  rw [List.length_replicate]
  decide

/-- A machine that adds the same number four times. -/
def Engine.counter (step : UInt64) : Machine where
  program := List.replicate 4 (.add step)
  inbox := []
  program_lt := counter_lt step
  inbox_lt := emptyInbox_lt

open Engine in
theorem counters_share_one_hash :
    let cursor : Cursor := { machineHash := (counter 1).hash }
    let calls : List Engine.Call :=
      [.insert (counter 1), .openSession cursor true [1], .ask 0 (.progress 1)]
    (counter 7).hash = (counter 1).hash ∧
      (run calls).checkpoints.insert (counter 7) =
        .error (.checkpointConflict (counter 7).hash) ∧
      run (calls ++ [.insert (counter 7)]) = run calls ∧
      ∃ s, (run (calls ++ [.insert (counter 7)])).checkpoints.openSession
          { cursor with totalGas := 9 } false [1, 5] = .ok s ∧ s.machine = counter 1 := by
  intro cursor calls
  have hhash : (counter 7).hash = (counter 1).hash := rfl
  have hissued : (run []).checkpoints.insert (counter 1) =
      .ok (cursor, ⟨[((counter 1).hash, counter 1)]⟩) := rfl
  -- the programs differ, which the hash leaves out
  have hne : counter 1 ≠ counter 7 := by decide
  have hstore := cursor_keeps_resolving calls
  have hconflict := (hstore.refused_iff (counter 7) _).mpr
    ⟨rfl, counter 1, ⟨[], _, _, rfl, hissued⟩, hhash.symm, hne⟩
  have hsame := hstore.refused_unchanged _ _ hconflict
  refine ⟨hhash, hconflict, hsame, ?_⟩
  rw [hsame]
  have hcalls : calls = [] ++ .insert (counter 1) :: calls.tail := rfl
  exact hstore.resolves hcalls hissued _ false [1, 5] rfl (by decide)

end TraceDispute
