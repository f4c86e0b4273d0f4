import TraceDispute.Ledger
import TraceDispute.Proofs.Commitment

/-!
# The books of a ledger

A ledger is shared.  Several parties submit moves to it, each under a token of its
own that can be cancelled, and the next move of any of them can be made to fail.
A `Desk` is a ledger with the tokens cancelled so far, and `Desk.history` is what an
observer writes down about a run: every action, with the answer it got.

`Books` compares the two.  What the ledger holds after a run can be read off the
history alone: its number is the number of moves accepted, its lists are those moves
in order, and the rejection it has pending is the latest one that was set and not
delivered since.

The step lemma is `Desk.submit_cases`; `Kept` is what every entry of the history
preserves, and `kept_run` carries it over a run.
-/

namespace TraceDispute

/-! ## Actions -/

/-- Something that is done to a shared ledger. -/
inductive Action where
  /-- A move is submitted under a token. -/
  | submit (token : Nat) (move : Submission)
  /-- The next move is made to fail. -/
  | rejectNext (reason : String)
  /-- The holder of a token is asked to stop. -/
  | cancel (token : Nat)

namespace Action

/-- The token that an action is done under. -/
def token? : Action → Option Nat
  | .submit token _ => some token
  | .rejectNext _ => none
  | .cancel token => some token

/-- The reason that an action sets for the next move to fail. -/
def reason? : Action → Option String
  | .rejectNext reason => some reason
  | _ => none

end Action

namespace Submission

/-- The move as a division. -/
def division? : Submission → Option BisectionMove
  | .bisection move => some move
  | .proof _ => none

/-- The move as a proof of a step. -/
def proof? : Submission → Option ProofMove
  | .bisection _ => none
  | .proof move => some move

/-- Every move is of one of the two kinds. -/
theorem length_kinds (moves : List Submission) :
    moves.length = (moves.filterMap division?).length + (moves.filterMap proof?).length := by
  induction moves with
  | nil => rfl
  | cons move moves ih =>
      cases move with
      | bisection division =>
          have hnot : proof? (.bisection division) = none := rfl
          have hyes : division? (.bisection division) = some division := rfl
          rw [List.filterMap_cons_none hnot, List.filterMap_cons_some hyes, List.length_cons, ih,
            List.length_cons]
          omega
      | proof proof =>
          have hnot : division? (.proof proof) = none := rfl
          have hyes : proof? (.proof proof) = some proof := rfl
          rw [List.filterMap_cons_none hnot, List.filterMap_cons_some hyes, List.length_cons, ih,
            List.length_cons]
          omega

/-- The string that is hashed for the transaction of a move with this number. -/
def stamp (move : Submission) (number : Nat) : Bytes :=
  move.tag ++ (Word.ofUInt64 (UInt64.ofNat number)).bytes

/-- Strings with different numbers differ, whatever kinds of moves they are for. -/
theorem stamp_inj {move other : Submission} {i j : Nat} (hi : i < UInt64.size)
    (hj : j < UInt64.size) (h : move.stamp i = other.stamp j) : i = j := by
  have hlength : (Word.ofUInt64 (UInt64.ofNat i)).bytes.length =
      (Word.ofUInt64 (UInt64.ofNat j)).bytes.length := by
    rw [Word.length_bytes, Word.length_bytes]
  obtain ⟨-, hnumber⟩ := List.append_inj' h hlength
  have hword : UInt64.ofNat i = UInt64.ofNat j := Word.ofUInt64_inj (Word.ext hnumber)
  calc i = (UInt64.ofNat i).toNat := (UInt64.toNat_ofNat_of_lt' hi).symm
    _ = (UInt64.ofNat j).toNat := by rw [hword]
    _ = j := UInt64.toNat_ofNat_of_lt' hj

/-- The strings hashed for moves that are numbered from one. -/
def stamps (moves : List Submission) : List Bytes :=
  moves.mapIdx fun i move => move.stamp (i + 1)

theorem stamps_concat (moves : List Submission) (move : Submission) :
    stamps (moves ++ [move]) = stamps moves ++ [move.stamp (moves.length + 1)] :=
  List.mapIdx_concat

theorem nodup_stamps {moves : List Submission} (h : moves.length < UInt64.size) :
    (stamps moves).Nodup := by
  unfold List.Nodup
  rw [List.pairwise_iff_getElem]
  intro i j hi hj hij heq
  simp only [stamps, List.length_mapIdx] at hi hj
  simp only [stamps, List.getElem_mapIdx] at heq
  have hnumber := stamp_inj (by omega) (by omega) heq
  omega

end Submission

/-! ## Runs -/

/-- A shared ledger, and the tokens cancelled so far. -/
structure Desk where
  ledger : Ledger
  cancelled : Finset Nat

/-- An action and what it was answered, if it is one that gets an answer. -/
structure Entry where
  action : Action
  answer? : Option (Outcome SubmissionError Word)

namespace Entry

/-- The move that was accepted. -/
def accepted? : Entry → Option Submission
  | ⟨.submit _ move, some (.ok _)⟩ => some move
  | _ => none

/-- The transaction that was answered. -/
def transaction? : Entry → Option Word
  | ⟨_, some (.ok transaction)⟩ => some transaction
  | _ => none

/-- The reason with which a move was rejected. -/
def delivered? : Entry → Option String
  | ⟨_, some (.error (.refusal (.rejected reason)))⟩ => some reason
  | _ => none

theorem answer?_of_delivered? {e : Entry} {reason : String} (h : e.delivered? = some reason) :
    e.answer? = some (.refuse (.rejected reason)) := by
  unfold delivered? at h
  split at h
  · obtain rfl := Option.some.inj h
    rfl
  · cases h

/-- The reason that was set for the next move. -/
def announced? (e : Entry) : Option String := e.action.reason?

/-- The entry tells of no reason for a rejection. -/
def Quiet (e : Entry) : Prop := e.announced? = none ∧ e.delivered? = none

end Entry

namespace Desk

/-- A desk where nothing has been done; on its ledger a challenge may be open. -/
def opened : Option Bisection → Desk
  | none => ⟨{}, ∅⟩
  | some b => ⟨.ofBisection b, ∅⟩

/-- The ledger as it is reached under a token. -/
def docket (d : Desk) (token : Nat) : Docket :=
  { ledger := d.ledger, cancelled := decide (token ∈ d.cancelled) }

/-- What an action is answered. -/
def answer? (d : Desk) : Action → Option (Outcome SubmissionError Word)
  | .submit token move => some (Docket.client.submit move (d.docket token)).1.outcome
  | _ => none

/-- The desk that an action leaves behind. -/
def after (d : Desk) : Action → Desk
  | .submit token move =>
    { d with ledger := (Docket.client.submit move (d.docket token)).2.ledger }
  | .rejectNext reason => { d with ledger := d.ledger.rejectNext reason }
  | .cancel token => { d with cancelled := insert token d.cancelled }

/-- The desk after a sequence of actions. -/
def run (b : Option Bisection) (actions : List Action) : Desk := actions.foldl after (opened b)

/-- The actions from some desk on, each with its answer. -/
def historyFrom : Desk → List Action → List Entry
  | _, [] => []
  | d, action :: actions => ⟨action, d.answer? action⟩ :: historyFrom (d.after action) actions

/-- The actions of a run, each with its answer. -/
def history (b : Option Bisection) (actions : List Action) : List Entry :=
  (opened b).historyFrom actions

variable {b : Option Bisection} {d : Desk} {actions past future : List Action} {action : Action}
  {token : Nat} {move : Submission}

theorem run_concat (b : Option Bisection) (actions : List Action) (action : Action) :
    run b (actions ++ [action]) = (run b actions).after action := by
  simp [run, List.foldl_append]

theorem historyFrom_append (d : Desk) (past future : List Action) :
    d.historyFrom (past ++ future) =
      d.historyFrom past ++ (past.foldl after d).historyFrom future := by
  induction past generalizing d with
  | nil => rfl
  | cons action past ih => simp [historyFrom, ih]

theorem history_concat (b : Option Bisection) (actions : List Action) (action : Action) :
    history b (actions ++ [action]) =
      history b actions ++ [⟨action, (run b actions).answer? action⟩] :=
  historyFrom_append ..

@[simp] theorem length_historyFrom (d : Desk) (actions : List Action) :
    (d.historyFrom actions).length = actions.length := by
  induction actions generalizing d with
  | nil => rfl
  | cons action actions ih => simp [historyFrom, ih]

/-- An entry of a history is the answer of the desk at that point of the run. -/
theorem historyFrom_eq_append_cons {before since : List Entry} {e : Entry}
    (h : d.historyFrom actions = before ++ e :: since) :
    ∃ past future, actions = past ++ e.action :: future ∧ before = d.historyFrom past ∧
      e.answer? = (past.foldl after d).answer? e.action := by
  induction actions generalizing d before with
  | nil => simp [historyFrom] at h
  | cons action actions ih =>
      cases before with
      | nil =>
          obtain ⟨rfl, -⟩ := List.cons.inj h
          exact ⟨[], actions, rfl, rfl, rfl⟩
      | cons first before =>
          obtain ⟨rfl, hrest⟩ := List.cons.inj h
          obtain ⟨past, future, rfl, rfl, hanswer⟩ := ih hrest
          exact ⟨action :: past, future, rfl, rfl, hanswer⟩

/-- Once cancelled, a token stays cancelled. -/
theorem mem_cancelled_run : token ∈ (run b actions).cancelled ↔ .cancel token ∈ actions := by
  induction actions using List.reverseRecOn with
  | nil => cases b <;> simp [run, opened]
  | append_singleton actions action ih =>
      rw [run_concat, List.mem_append, ← ih]
      cases action with
      | cancel other => simp [after, or_comm]
      | submit other move => simp [after]
      | rejectNext reason => simp [after]

/-- Everything that a submission can do while there are numbers left. -/
theorem submit_cases (d : Desk) (token : Nat) (move : Submission)
    (hnonce : d.ledger.nonce.toNat + 1 < UInt64.size) :
    (token ∈ d.cancelled ∧ d.answer? (.submit token move) = some (.refuse .cancelled) ∧
        d.after (.submit token move) = d) ∨
      (∃ reason, token ∉ d.cancelled ∧ d.ledger.rejection = some reason ∧
        d.answer? (.submit token move) = some (.refuse (.rejected reason)) ∧
        d.after (.submit token move) = { d with ledger := { d.ledger with rejection := none } }) ∨
      (token ∉ d.cancelled ∧ d.ledger.rejection = none ∧
        d.answer? (.submit token move) =
          some (.ok (Ledger.transaction move.tag (d.ledger.nonce + 1))) ∧
        d.after (.submit token move) =
          { d with ledger := { d.ledger with nonce := d.ledger.nonce + 1 }.enter move }) := by
  -- the token is looked at before a pending reason, and that before the counter
  by_cases htoken : token ∈ d.cancelled
  · left
    simp [answer?, after, docket, Docket.client, htoken]
  · right
    cases hrejection : d.ledger.rejection with
    | some reason =>
        left
        simp [answer?, after, docket, Docket.client, Ledger.record, htoken, hrejection]
    | none =>
        right
        have hadd : Checked.add d.ledger.nonce 1 = .ok (d.ledger.nonce + 1) :=
          Checked.add_of_lt hnonce
        simp [answer?, after, docket, Docket.client, Ledger.record, htoken, hrejection, hadd]

/-- Under a cancelled token nothing is done and nothing else answered. -/
theorem after_of_cancelled (hcancelled : token ∈ d.cancelled) (h : action.token? = some token) :
    d.after action = d ∧ ∀ answer ∈ d.answer? action, answer = .refuse .cancelled := by
  cases action with
  | submit other move =>
      obtain rfl : other = token := Option.some.inj h
      simp [answer?, after, docket, Docket.client, hcancelled]
  | rejectNext reason => cases h
  | cancel other =>
      obtain rfl : other = token := Option.some.inj h
      simp [answer?, after, Finset.insert_eq_of_mem hcancelled]

end Desk

/-! ## What a history says -/

namespace Entry

/-- The moves accepted in a history, in order. -/
def accepted (h : List Entry) : List Submission := h.filterMap accepted?

/-- The transactions answered in a history, in order. -/
def transactions (h : List Entry) : List Word := h.filterMap transaction?

/-- The reasons delivered in a history, in order. -/
def delivered (h : List Entry) : List String := h.filterMap delivered?

/-- The reasons set in a history, in order. -/
def announced (h : List Entry) : List String := h.filterMap announced?

/-- A reason is pending: it was set, and since then none has been set or delivered. -/
def Pending (h : List Entry) (reason : String) : Prop :=
  ∃ before e since, h = before ++ e :: since ∧ e.announced? = some reason ∧ ∀ x ∈ since, x.Quiet

variable {h : List Entry} {e : Entry} {reason : String}

theorem filterMap_concat {α : Type} (view : Entry → Option α) (h : List Entry) (e : Entry) :
    (h ++ [e]).filterMap view = h.filterMap view ++ (view e).toList := by
  cases hview : view e <;> simp [hview]

@[simp] theorem accepted_concat (h : List Entry) (e : Entry) :
    accepted (h ++ [e]) = accepted h ++ e.accepted?.toList := filterMap_concat ..

@[simp] theorem transactions_concat (h : List Entry) (e : Entry) :
    transactions (h ++ [e]) = transactions h ++ e.transaction?.toList := filterMap_concat ..

@[simp] theorem delivered_concat (h : List Entry) (e : Entry) :
    delivered (h ++ [e]) = delivered h ++ e.delivered?.toList := filterMap_concat ..

@[simp] theorem announced_concat (h : List Entry) (e : Entry) :
    announced (h ++ [e]) = announced h ++ e.announced?.toList := filterMap_concat ..

theorem not_pending_nil : ¬ Pending [] reason := by
  rintro ⟨before, e, since, hnil, -⟩
  simp at hnil

theorem pending_concat_iff :
    Pending (h ++ [e]) reason ↔ e.announced? = some reason ∨ (e.Quiet ∧ Pending h reason) := by
  constructor
  · rintro ⟨before, x, since, heq, hx, hsince⟩
    -- the reason was set by the last entry, or before it
    rcases List.eq_nil_or_concat since with rfl | ⟨rest, last, rfl⟩
    · obtain ⟨-, hlast⟩ := List.append_inj' heq rfl
      obtain rfl : e = x := by simpa using hlast
      exact .inl hx
    · rw [List.concat_eq_append] at heq hsince
      have heq' : h ++ [e] = (before ++ x :: rest) ++ [last] := by simpa using heq
      obtain ⟨rfl, hlast⟩ := List.append_inj' heq' rfl
      obtain rfl : e = last := by simpa using hlast
      refine .inr ⟨hsince e (by simp), before, x, rest, rfl, hx, ?_⟩
      exact fun y hy => hsince y (List.mem_append_left _ hy)
  · rintro (he | ⟨hquiet, before, x, since, rfl, hx, hsince⟩)
    · exact ⟨h, e, [], rfl, he, by simp⟩
    · refine ⟨before, x, since ++ [e], by simp, hx, ?_⟩
      intro y hy
      rcases List.mem_append.mp hy with hy | hy
      · exact hsince y hy
      · obtain rfl : y = e := by simpa using hy
        exact hquiet

end Entry

/-- What a ledger owes to its history: everything that it holds can be read off there. -/
structure Kept (b : Option Bisection) (h : List Entry) (l : Ledger) : Prop where
  nonce_eq : l.nonce.toNat = (Entry.accepted h).length
  bisections_eq : l.bisections = (Entry.accepted h).filterMap Submission.division?
  proofs_eq : l.proofs = (Entry.accepted h).filterMap Submission.proof?
  /-- The latest division is to be answered, or what the ledger was opened with. -/
  current_eq : l.current = (l.bisections.getLast?.map fun m => ⟨m.segment, m.cuts⟩).or b
  /-- The moves are numbered from one, and their transactions are hashes of the numbers. -/
  transactions_eq : Entry.transactions h = (Submission.stamps (Entry.accepted h)).map keccak
  /-- The rejection that is pending is the latest that was set and not delivered since. -/
  rejection_iff : ∀ reason, l.rejection = some reason ↔ Entry.Pending h reason
  /-- Every reason is delivered at most once, and in the order in which they were set. -/
  delivered_sublist : (Entry.delivered h ++ l.rejection.toList).Sublist (Entry.announced h)

namespace Kept

open Entry

variable {b : Option Bisection} {h : List Entry} {l : Ledger} {token : Nat} {move : Submission}

theorem opened (b : Option Bisection) : Kept b [] (Desk.opened b).ledger := by
  have hempty : (Desk.opened b).ledger = { current := b } := by cases b <;> rfl
  rw [hempty]
  refine ⟨rfl, rfl, rfl, rfl, rfl, fun reason => ?_, List.Sublist.refl []⟩
  constructor
  · intro hsome
    cases hsome
  · intro hpending
    exact absurd hpending not_pending_nil

/-- An entry in which no move was accepted leaves the accounts as they are. -/
theorem of_not_accepted {e : Entry} {l' : Ledger} (hk : Kept b h l) (haccepted : e.accepted? = none)
    (htransaction : e.transaction? = none) (hsame : { l' with rejection := l.rejection } = l)
    (hrejection : ∀ reason, l'.rejection = some reason ↔ Pending (h ++ [e]) reason)
    (hsublist : (delivered (h ++ [e]) ++ l'.rejection.toList).Sublist (announced (h ++ [e]))) :
    Kept b (h ++ [e]) l' := by
  -- besides the pending reason the ledger is what it was
  obtain ⟨hcurrent, hbisections, hproofs, hnonce, -⟩ := Ledger.mk.inj hsame
  have hmoves : accepted (h ++ [e]) = accepted h := by
    rw [accepted_concat, haccepted, Option.toList_none, List.append_nil]
  constructor
  case nonce_eq => rw [hmoves, hnonce, hk.nonce_eq]
  case bisections_eq => rw [hmoves, hbisections, hk.bisections_eq]
  case proofs_eq => rw [hmoves, hproofs, hk.proofs_eq]
  case current_eq => rw [hcurrent, hbisections, hk.current_eq]
  case transactions_eq =>
    rw [hmoves, transactions_concat, htransaction, Option.toList_none, List.append_nil,
      hk.transactions_eq]
  case rejection_iff => exact hrejection
  case delivered_sublist => exact hsublist

/-- Nothing is owed to an entry that tells of no answer but a cancellation. -/
theorem skip {e : Entry} (hk : Kept b h l) (haccepted : e.accepted? = none)
    (htransaction : e.transaction? = none) (hquiet : e.Quiet) : Kept b (h ++ [e]) l := by
  refine hk.of_not_accepted haccepted htransaction rfl (fun reason => ?_) ?_
  · rw [hk.rejection_iff, pending_concat_iff, hquiet.1]
    simp [hquiet]
  · rw [delivered_concat, announced_concat, hquiet.1, hquiet.2]
    simpa using hk.delivered_sublist

/-- A reason that is set takes the place of the one before it. -/
theorem announce (hk : Kept b h l) (reason : String) :
    Kept b (h ++ [⟨.rejectNext reason, none⟩]) (l.rejectNext reason) := by
  refine hk.of_not_accepted rfl rfl rfl (fun other => ?_) ?_
  · rw [pending_concat_iff]
    simp [Ledger.rejectNext, announced?, Action.reason?, Quiet]
  · -- the reason before it may never have been delivered
    have hdelivered : (delivered h).Sublist (announced h) :=
      (List.sublist_append_left _ _).trans hk.delivered_sublist
    have hnext := hdelivered.append (List.Sublist.refl [reason])
    rw [delivered_concat, announced_concat]
    simpa [delivered?, announced?, Action.reason?, Ledger.rejectNext] using hnext

/-- A move that is rejected uses up the reason that was pending. -/
theorem reject (hk : Kept b h l) {reason : String} (hrejection : l.rejection = some reason)
    (token : Nat) (move : Submission) :
    Kept b (h ++ [⟨.submit token move, some (.refuse (.rejected reason))⟩])
      { l with rejection := none } := by
  refine hk.of_not_accepted rfl rfl rfl (fun other => ?_) ?_
  · rw [pending_concat_iff]
    simp [announced?, Action.reason?, Quiet, delivered?]
  · have hsublist := hk.delivered_sublist
    rw [hrejection] at hsublist
    rw [delivered_concat, announced_concat]
    simpa [delivered?, announced?, Action.reason?] using hsublist

theorem transaction_eq (hk : Kept b h l) (hnonce : l.nonce.toNat + 1 < UInt64.size)
    (move : Submission) :
    Ledger.transaction move.tag (l.nonce + 1) = keccak (move.stamp ((accepted h).length + 1)) := by
  have hnext : (l.nonce + 1).toNat = l.nonce.toNat + 1 :=
    Checked.toNat_of_add_eq_ok (Checked.add_of_lt hnonce)
  have hnumber : l.nonce + 1 = UInt64.ofNat ((accepted h).length + 1) := by
    rw [← hk.nonce_eq, ← hnext, UInt64.ofNat_toNat]
  rw [hnumber]
  rfl

/-- A move that is accepted is numbered and entered in the list of its kind. -/
theorem accept (hk : Kept b h l) (hnonce : l.nonce.toNat + 1 < UInt64.size) (token : Nat)
    (move : Submission) :
    Kept b (h ++ [⟨.submit token move, some (.ok (Ledger.transaction move.tag (l.nonce + 1)))⟩])
      ({ l with nonce := l.nonce + 1 }.enter move) := by
  have hnext : (l.nonce + 1).toNat = l.nonce.toNat + 1 :=
    Checked.toNat_of_add_eq_ok (Checked.add_of_lt hnonce)
  have hstamp := hk.transaction_eq hnonce move
  have hpending : ({ l with nonce := l.nonce + 1 }.enter move).rejection = l.rejection := by
    cases move <;> rfl
  -- from here on the answer is any word that stands next among the transactions
  generalize Ledger.transaction move.tag (l.nonce + 1) = transaction at hstamp
  generalize he : (⟨.submit token move, some (.ok transaction)⟩ : Entry) = e
  have hmoves : accepted (h ++ [e]) = accepted h ++ [move] := by
    rw [accepted_concat, ← he]
    rfl
  -- neither the move nor its answer sets a reason or delivers one
  have hquiet : e.Quiet := by
    rw [← he]
    exact ⟨rfl, rfl⟩
  constructor
  case nonce_eq =>
    rw [hmoves, List.length_append, ← hk.nonce_eq]
    cases move <;> exact hnext
  case bisections_eq =>
    rw [hmoves, List.filterMap_append, ← hk.bisections_eq]
    cases move <;> simp [Ledger.enter, Submission.division?]
  case proofs_eq =>
    rw [hmoves, List.filterMap_append, ← hk.proofs_eq]
    cases move <;> simp [Ledger.enter, Submission.proof?]
  case current_eq =>
    cases move with
    | bisection division => simp [Ledger.enter]
    | proof proof => exact hk.current_eq
  case transactions_eq =>
    rw [hmoves, Submission.stamps_concat, List.map_append, ← hk.transactions_eq,
      transactions_concat, List.map_singleton, ← hstamp, ← he]
    rfl
  case rejection_iff =>
    intro reason
    rw [hpending, hk.rejection_iff, pending_concat_iff, hquiet.1]
    simp [hquiet]
  case delivered_sublist =>
    rw [hpending, delivered_concat, announced_concat, hquiet.1, hquiet.2]
    simpa using hk.delivered_sublist

end Kept

/-! ## Whole runs -/

namespace Desk

open Entry

variable {b : Option Bisection} {actions : List Action}

theorem length_accepted_le (b : Option Bisection) (actions : List Action) :
    (accepted (history b actions)).length ≤ actions.length := by
  calc (accepted (history b actions)).length ≤ (history b actions).length :=
        List.length_filterMap_le _ _
    _ = actions.length := length_historyFrom ..

theorem nonce_lt_of_kept (hk : Kept b (history b actions) (run b actions).ledger)
    (hlength : actions.length + 1 < UInt64.size) :
    (run b actions).ledger.nonce.toNat + 1 < UInt64.size := by
  have hle := length_accepted_le b actions
  rw [← hk.nonce_eq] at hle
  omega

/-- Every action keeps the books: a submission is skipped, rejected or accepted. -/
theorem kept_run (b : Option Bisection) (hlength : actions.length < UInt64.size) :
    Kept b (history b actions) (run b actions).ledger := by
  -- on the actions, the latest last, since `Kept` is about the history so far
  induction actions using List.reverseRecOn with
  | nil => exact Kept.opened b
  | append_singleton actions action ih =>
      rw [List.length_append, List.length_singleton] at hlength
      have hk := ih (by omega)
      rw [run_concat, history_concat]
      cases action with
      | rejectNext reason => exact hk.announce reason
      | cancel token => exact hk.skip rfl rfl ⟨rfl, rfl⟩
      | submit token move =>
          have hnonce := nonce_lt_of_kept hk hlength
          rcases submit_cases (run b actions) token move hnonce with
            ⟨-, hanswer, hafter⟩ | ⟨reason, -, hrejection, hanswer, hafter⟩ |
              ⟨-, -, hanswer, hafter⟩
          · rw [hanswer, hafter]
            exact hk.skip rfl rfl ⟨rfl, rfl⟩
          · rw [hanswer, hafter]
            exact hk.reject hrejection token move
          · rw [hanswer, hafter]
            exact hk.accept hnonce token move

/-- The answer that a submission gets at some point of a run, from the history up to there. -/
inductive Answers (b : Option Bisection) (past : List Action) (token : Nat) (move : Submission) :
    Outcome SubmissionError Word → Prop where
  | cancelled (htoken : .cancel token ∈ past) : Answers b past token move (.refuse .cancelled)
  | rejected (reason : String) (htoken : .cancel token ∉ past)
      (hpending : Pending (history b past) reason) :
      Answers b past token move (.refuse (.rejected reason))
  | accepted (htoken : .cancel token ∉ past)
      (hfree : ∀ reason, ¬ Pending (history b past) reason) :
      Answers b past token move
        (.ok (keccak (move.stamp ((accepted (history b past)).length + 1))))

theorem answers_submit (token : Nat) (move : Submission) {past : List Action}
    (hlength : past.length + 1 < UInt64.size) :
    ∃ answer, (run b past).answer? (.submit token move) = some answer ∧
      Answers b past token move answer := by
  have hk : Kept b (history b past) (run b past).ledger := kept_run b (by omega)
  have hnonce := nonce_lt_of_kept hk hlength
  -- what the desk looks at is what the history says of the token and of the reasons
  rcases submit_cases (run b past) token move hnonce with
    ⟨htoken, hanswer, -⟩ | ⟨reason, htoken, hrejection, hanswer, -⟩ |
      ⟨htoken, hrejection, hanswer, -⟩
  · exact ⟨_, hanswer, .cancelled (mem_cancelled_run.mp htoken)⟩
  · rw [mem_cancelled_run] at htoken
    exact ⟨_, hanswer, .rejected reason htoken ((hk.rejection_iff reason).mp hrejection)⟩
  · rw [mem_cancelled_run] at htoken
    refine ⟨_, hanswer, ?_⟩
    rw [hk.transaction_eq hnonce]
    refine .accepted htoken fun reason hpending => ?_
    rw [(hk.rejection_iff reason).mpr hpending] at hrejection
    cases hrejection

/-- Only a submission is rejected, and only for the reason that is pending. -/
theorem pending_of_answer? {past : List Action} {action : Action} {reason : String}
    (hlength : past.length + 1 < UInt64.size)
    (h : (run b past).answer? action = some (.refuse (.rejected reason))) :
    ∃ token move, action = .submit token move ∧ Pending (history b past) reason := by
  cases action with
  | rejectNext other => cases h
  | cancel token => cases h
  | submit token move =>
      obtain ⟨answer, hanswer, hanswers⟩ := answers_submit (b := b) token move hlength
      obtain rfl := Option.some.inj (hanswer.symm.trans h)
      cases hanswers with
      | rejected _ htoken hpending => exact ⟨token, move, rfl, hpending⟩

/-- The books of a run: the ledger is what the history says it should be, and the answers are. -/
structure Books (b : Option Bisection) (actions : List Action) : Prop
    extends Kept b (history b actions) (run b actions).ledger where
  /-- As many moves were entered as were answered with a transaction. -/
  nonce_eq_transactions :
    (run b actions).ledger.nonce.toNat = (transactions (history b actions)).length
  nonce_eq_entries :
    (run b actions).ledger.nonce.toNat =
      (run b actions).ledger.bisections.length + (run b actions).ledger.proofs.length
  /-- Every submission is answered. -/
  answered : ∀ past token move future, actions = past ++ .submit token move :: future →
    ∃ answer, (run b past).answer? (.submit token move) = some answer ∧
      Answers b past token move answer
  /-- A move is rejected for the latest reason that was set, and leaves none pending. -/
  delivers : ∀ before e since reason, history b actions = before ++ e :: since →
    e.delivered? = some reason → Pending before reason ∧ ∀ other, ¬ Pending (before ++ [e]) other
  /-- Under a cancelled token nothing is done any more. -/
  silenced : ∀ past action future token, actions = past ++ action :: future →
    .cancel token ∈ past → action.token? = some token →
      (run b past).after action = run b past ∧
        ∀ answer ∈ (run b past).answer? action, answer = .refuse .cancelled
  /-- No transaction is given twice, unless two of the strings hashed for them collide. -/
  nodup_transactions :
    (∀ x ∈ Submission.stamps (Entry.accepted (history b actions)),
      ∀ y ∈ Submission.stamps (Entry.accepted (history b actions)), ¬ Collide x y) →
    (transactions (history b actions)).Nodup

theorem nodup_transactions_of_kept (hk : Kept b (history b actions) (run b actions).ledger)
    (hlength : actions.length < UInt64.size)
    (hcollide : ∀ x ∈ Submission.stamps (accepted (history b actions)),
      ∀ y ∈ Submission.stamps (accepted (history b actions)), ¬ Collide x y) :
    (transactions (history b actions)).Nodup := by
  rw [hk.transactions_eq]
  apply List.Nodup.map_on
  · intro x hx y hy heq
    exact eq_of_not_collide (hcollide x hx y hy) heq
  · exact Submission.nodup_stamps ((length_accepted_le b actions).trans_lt hlength)

/-- A ledger keeps its books over every run in which the numbers last, whatever is submitted,
set to fail and cancelled on the way. -/
theorem run_keeps_books (b : Option Bisection) (hlength : actions.length < UInt64.size) :
    Books b actions := by
  have hk := kept_run b hlength
  refine { hk with
    nonce_eq_transactions := ?_, nonce_eq_entries := ?_, answered := ?_, delivers := ?_,
    silenced := ?_, nodup_transactions := nodup_transactions_of_kept hk hlength }
  · rw [hk.nonce_eq, hk.transactions_eq, List.length_map, Submission.stamps, List.length_mapIdx]
  · rw [hk.nonce_eq, hk.bisections_eq, hk.proofs_eq]
    exact Submission.length_kinds _
  · rintro past token move future rfl
    refine answers_submit token move ?_
    rw [List.length_append, List.length_cons] at hlength
    omega
  · intro before e since reason hsplit hdelivered
    obtain ⟨past, future, rfl, rfl, hanswer⟩ := historyFrom_eq_append_cons hsplit
    have hpast : past.length + 1 < UInt64.size := by
      rw [List.length_append, List.length_cons] at hlength
      omega
    have hrejected := answer?_of_delivered? hdelivered
    obtain ⟨token, move, hsubmit, hpending⟩ :=
      pending_of_answer? hpast (hanswer.symm.trans hrejected)
    refine ⟨hpending, fun other hother => ?_⟩
    -- the entry sets no reason, and after a delivery none is pending from before
    rcases pending_concat_iff.mp hother with hannounced | ⟨hquiet, -⟩
    · simp [announced?, hsubmit, Action.reason?] at hannounced
    · simp [hquiet.2] at hdelivered
  · rintro past action future token rfl hcancel htoken
    exact after_of_cancelled (mem_cancelled_run.mpr hcancel) htoken

/-- Two parties on one ledger: the second is rejected once, for the later of two reasons, and
the first goes on submitting after it was asked to stop. -/
def contested : List Action :=
  let division : Submission := .bisection ⟨⟨⟨0, 4⟩, []⟩, 0, ⟨0, 2⟩, []⟩
  let proof : Submission := .proof ⟨⟨⟨0, 2⟩, []⟩, 1, .start .zero, .zero, [], []⟩
  [.submit 0 division, .rejectNext "early", .rejectNext "late", .submit 1 proof, .cancel 0,
    .submit 0 division, .submit 1 proof]

theorem contested_run_keeps_books :
    contested.length < UInt64.size ∧ Books none contested ∧
      (run none contested).ledger.nonce.toNat = 2 ∧
      (run none contested).ledger.current = some ⟨⟨0, 2⟩, []⟩ ∧
      delivered (history none contested) = ["late"] ∧
      (transactions (history none contested)).Nodup := by
  have hlength : contested.length < UInt64.size := by decide
  have hbooks := run_keeps_books none hlength
  have hmoves : (accepted (history none contested)).length = 2 := rfl
  refine ⟨hlength, hbooks, hbooks.nonce_eq.trans hmoves, ?_, rfl, ?_⟩
  · rw [hbooks.current_eq, hbooks.bisections_eq]
    rfl
  · exact hbooks.nodup_transactions (by decide +kernel)

end Desk

end TraceDispute
