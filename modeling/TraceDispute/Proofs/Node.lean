import TraceDispute.Proofs.Hex

/-!
# What a submission through a node comes to

A move must reach the contract once, whatever the node answers.  A conversation
therefore starts with the transaction and goes on with nothing but looks for its
receipt; `requests_send` says so for every list of replies, also if the party is
asked to stop on the way.

If it is not, the replies alone settle the submission (`submission_sends_once`):
the first one has to bring the hash of the transaction, and after it the first
one that does not say "pending" decides.  The predicates below say what a reply
brings in terms of its body.
-/

namespace TraceDispute

/-! ## Members of an object -/

namespace Json

theorem lookup_cons (other : String) (member : String × Json) (members : List (String × Json)) :
    (member :: members).lookup other =
      if other = member.1 then some member.2 else members.lookup other := by
  rw [List.lookup_cons]
  by_cases h : other = member.1
  · simp [h]
  · rw [beq_false_of_ne h, if_neg h]

theorem lookup_insertMember (name other : String) (value : Json) (members : List (String × Json)) :
    (insertMember name value members).lookup other =
      if other = name then some value else members.lookup other := by
  induction members with
  | nil => exact lookup_cons other (name, value) []
  | cons member rest ih =>
      unfold insertMember
      split
      · rename_i hname
        simp only [lookup_cons, hname]
        split <;> rfl
      · split
        · exact lookup_cons other (name, value) (member :: rest)
        · rename_i hname _
          simp only [lookup_cons, ih]
          by_cases h : other = member.1
          · have hne : other ≠ name := fun heq => hname (heq.symm.trans h)
            rw [if_pos h, if_neg hne, if_pos h]
          · rw [if_neg h, if_neg h]

/-- Of members with the same name the last is found. -/
theorem get?_ofMembers (name : String) (members : List (String × Json)) :
    (ofMembers members).get? name = members.reverse.lookup name := by
  induction members using List.reverseRecOn with
  | nil => rfl
  | append_singleton members member ih =>
      rw [List.reverse_append, List.reverse_singleton, List.singleton_append, lookup_cons, ← ih]
      simp only [ofMembers, get?, List.foldl_append, List.foldl_cons, List.foldl_nil]
      exact lookup_insertMember member.1 name member.2 _

end Json

/-! ## What a reply brings -/

namespace Reply

variable {reply : Reply} {data : Bytes} {transaction : Word} {result : Json}

/-- The body is JSON without an error, and this is its result. -/
def Answers (reply : Reply) (result : Json) : Prop :=
  ∃ text answer, reply.body = some text ∧ Json.parse? text = some answer ∧
    answer.get? "error" = none ∧ answer.get? "result" = some result

/-- The result is a text, and it is the hash of this transaction. -/
def Carries (reply : Reply) (transaction : Word) : Prop :=
  ∃ text, reply.Answers (.string text) ∧ transaction.WrittenAs text

theorem Answers.unique {other : Json} (h : reply.Answers result) (hother : reply.Answers other) :
    result = other := by
  obtain ⟨text, answer, hbody, hparse, -, hresult⟩ := h
  obtain ⟨text', answer', hbody', hparse', -, hresult'⟩ := hother
  obtain rfl : text = text' := Option.some.inj (hbody.symm.trans hbody')
  obtain rfl : answer = answer' := Option.some.inj (hparse.symm.trans hparse')
  exact Option.some.inj (hresult.symm.trans hresult')

theorem result_eq_ok_iff {request : Request} :
    reply.result request = .ok result ↔ reply.Answers result := by
  unfold Reply.result Answers
  cases hbody : reply.body with
  | none => simp
  | some text =>
      cases hparse : Json.parse? text with
      | none => simp [hparse]
      | some answer =>
          cases herror : answer.get? "error" with
          | some e => simp [hparse, herror]
          | none =>
              cases hresult : answer.get? "result" <;> simp [hparse, herror, hresult]

theorem result_eq_error {request : Request} (h : ∀ result, ¬ reply.Answers result) :
    ∃ cause, reply.result request = .error cause := by
  cases hresult : reply.result request with
  | error cause => exact ⟨cause, rfl⟩
  | ok result => exact absurd (result_eq_ok_iff.mp hresult) (h result)

theorem transaction_eq_ok_iff :
    reply.transaction data = .ok transaction ↔ reply.Carries transaction := by
  unfold Reply.transaction Carries
  by_cases hanswers : ∃ result, reply.Answers result
  · obtain ⟨result, hresult⟩ := hanswers
    have hok : reply.result (.send data) = .ok result := result_eq_ok_iff.mpr hresult
    have hiff : ∀ other, reply.Answers other ↔ other = result :=
      fun other => ⟨fun h => h.unique hresult, fun h => h ▸ hresult⟩
    simp only [hok, hiff]
    cases result with
    | string text => simp [Json.string?, readTransaction_eq_ok_iff]
    | _ => simp [Json.string?]
  · have hnone := not_exists.mp hanswers
    obtain ⟨cause, hcause⟩ : ∃ cause, reply.result (.send data) = .error cause :=
      result_eq_error hnone
    simp [hcause, hnone]

end Reply

/-- The receipt of a transaction that succeeded. -/
def Json.Succeeded (receipt : Json) : Prop :=
  receipt.get? "status" = some (.string "0x1")

namespace Reply

variable {reply : Reply} {transaction : Word}

theorem string?_eq_some_iff {value : Json} {text : String} :
    value.string? = some text ↔ value = .string text := by
  cases value <;> simp [Json.string?]

/-- A look finds nothing yet, a receipt, or no answer at all. -/
theorem status_cases (reply : Reply) (transaction : Word) :
    (reply.Answers .null ∧ reply.status transaction = .ok none) ∨
      (∃ receipt, reply.Answers receipt ∧ receipt ≠ .null ∧
        ((receipt.Succeeded ∧ reply.status transaction = .ok (some true)) ∨
          (¬ receipt.Succeeded ∧ reply.status transaction = .ok (some false)))) ∨
      ((∀ result, ¬ reply.Answers result) ∧
        ∃ cause, reply.status transaction = .error cause) := by
  -- a reply carries a result or none; the result is null, or a receipt with its status
  by_cases hanswers : ∃ result, reply.Answers result
  · obtain ⟨result, hresult⟩ := hanswers
    have hok : reply.result (.receipt transaction) = .ok result := result_eq_ok_iff.mpr hresult
    by_cases hnull : result = .null
    · subst hnull
      exact .inl ⟨hresult, by simp [status, hok]⟩
    · refine .inr (.inl ⟨result, hresult, hnull, ?_⟩)
      have hstatus : reply.status transaction =
          .ok (some ((result.get? "status").bind Json.string? == some "0x1")) := by
        unfold status
        rw [hok]
        cases result <;> first | rfl | exact absurd rfl hnull
      have hiff : (result.get? "status").bind Json.string? = some "0x1" ↔ result.Succeeded := by
        simp [Json.Succeeded, Option.bind_eq_some_iff, string?_eq_some_iff]
      by_cases hsucceeded : result.Succeeded
      · exact .inl ⟨hsucceeded, by simp [hstatus, hiff.mpr hsucceeded]⟩
      · refine .inr ⟨hsucceeded, ?_⟩
        rw [hstatus, beq_false_of_ne (fun h => hsucceeded (hiff.mp h))]
  · have hnone := not_exists.mp hanswers
    obtain ⟨cause, hcause⟩ : ∃ cause, reply.result (.receipt transaction) = .error cause :=
      result_eq_error hnone
    exact .inr (.inr ⟨hnone, cause, by simp [status, hcause]⟩)

end Reply

/-! ## Looking for a receipt -/

namespace Node

variable {node : Node} {transaction : Word} {w : Wire} {pending rest : List Reply}

/-- The conversation after some looks that found nothing. -/
def looked (node : Node) (transaction : Word) (looks : Nat) (w : Wire) : Wire :=
  { w with
    requests := w.requests ++ List.replicate looks (.receipt transaction)
    waited := w.waited + looks * node.pollSeconds }

@[simp] theorem cancelled_looked (looks : Nat) :
    (node.looked transaction looks w).cancelled = w.cancelled := rfl

theorem looked_looked (first second : Nat) :
    node.looked transaction second (node.looked transaction first w) =
      node.looked transaction (first + second) w := by
  simp only [looked, List.append_assoc, List.replicate_append_replicate, Nat.add_assoc,
    Nat.add_mul]

/-- Whatever the replies, only looks for the receipt follow, and nothing is abandoned. -/
theorem await_requests (node : Node) (transaction : Word) (replies : List Reply) (w : Wire) :
    (∃ looks, (node.await transaction replies w).2.requests =
        w.requests ++ List.replicate looks (.receipt transaction)) ∧
      ∀ fault, (node.await transaction replies w).1.outcome ≠ .error (.fault fault) := by
  -- on the replies that are left: every pass makes one look and takes one of them
  induction replies generalizing w with
  | nil =>
      unfold await
      split
      · exact ⟨⟨0, by simp⟩, by simp⟩
      · exact ⟨⟨1, rfl⟩, by simp⟩
  | cons reply rest ih =>
      unfold await
      split
      · exact ⟨⟨0, by simp⟩, by simp⟩
      · simp only
        split
        · exact ⟨⟨1, rfl⟩, by simp⟩
        · -- one look more than the rest makes
          obtain ⟨⟨looks, hlooks⟩, hfault⟩ :=
            ih (w := noted { w with waited := w.waited + node.pollSeconds }
              (.receipt transaction) reply.cancels)
          refine ⟨⟨looks + 1, ?_⟩, hfault⟩
          rw [hlooks, noted, List.append_assoc, List.replicate_succ]
          rfl
        · exact ⟨⟨1, rfl⟩, by simp⟩
        · exact ⟨⟨1, rfl⟩, by simp⟩

theorem await_nil (hlive : w.cancelled = false) :
    node.await transaction [] w =
      (.refuse (.transport .http), { node.looked transaction 1 w with replies := [] }) := by
  unfold await
  simp [hlive, noted, looked]

/-- One look, while nobody asks the party to stop. -/
theorem await_cons (hlive : w.cancelled = false) {reply : Reply} (hreply : reply.cancels = false) :
    node.await transaction (reply :: rest) w =
      match reply.status transaction with
      | .error cause =>
        (.refuse (.transport cause), { node.looked transaction 1 w with replies := rest })
      | .ok none => node.await transaction rest (node.looked transaction 1 w)
      | .ok (some true) =>
        (.of (.ok transaction), { node.looked transaction 1 w with replies := rest })
      | .ok (some false) =>
        (.refuse (.rejected s!"{transaction.toHex} reverted"),
          { node.looked transaction 1 w with replies := rest }) := by
  conv_lhs => unfold await
  cases hstatus : reply.status transaction with
  | error cause => simp [hstatus, hlive, hreply, noted, looked]
  | ok found =>
      rcases found with _ | _ | _ <;> simp [hstatus, hlive, hreply, noted, looked]

theorem await_of_pending (node : Node) (transaction : Word) (rest : List Reply)
    (hlive : w.cancelled = false) (hpending : ∀ reply ∈ pending, reply.Answers .null)
    (hcancels : ∀ reply ∈ pending, reply.cancels = false) :
    node.await transaction (pending ++ rest) w =
      node.await transaction rest (node.looked transaction pending.length w) := by
  induction pending generalizing w with
  | nil => simp [looked]
  | cons reply pending ih =>
      simp only [List.forall_mem_cons] at hpending hcancels
      have hstatus : reply.status transaction = .ok none := by
        rcases reply.status_cases transaction with ⟨-, h⟩ | ⟨receipt, h, hnull, -⟩ | ⟨h, -⟩
        · exact h
        · exact absurd (h.unique hpending.1) hnull
        · exact absurd hpending.1 (h _)
      rw [List.cons_append, await_cons hlive hcancels.1, hstatus]
      simp only
      rw [ih (by simpa using hlive) hpending.2 hcancels.2, looked_looked, List.length_cons,
        Nat.add_comm]

end Node

/-! ## What the replies settle -/

/-- The request sends a transaction with this call data. -/
def Request.Transacts (node : Node) (data : Bytes) (request : Request) : Prop :=
  (request.body node).get? "method" = some (.string "eth_sendTransaction") ∧
    ∃ call, (request.body node).get? "params" = some (.array [call]) ∧
      call.get? "data" = some (.string ("0x" ++ Hex.encode data))

/-- The request asks for the receipt of this transaction. -/
def Request.LooksFor (node : Node) (transaction : Word) (request : Request) : Prop :=
  (request.body node).get? "method" = some (.string "eth_getTransactionReceipt") ∧
    (request.body node).get? "params" =
      some (.array [.string ("0x" ++ Hex.encode transaction.bytes)])

/-- What call data comes to while nobody asks the party to stop: the replies, the requests made
and the outcome. -/
inductive Settles (data : Bytes) :
    List Reply → List Request → Outcome SubmissionError Word → Prop
  /-- No reply to the transaction. -/
  | unheard : Settles data [] [.send data] (.refuse (.transport .http))
  /-- The reply to the transaction carries no hash. -/
  | unsent {first : Reply} {rest : List Reply} (cause : TransportError)
      (hfirst : ∀ transaction, ¬ first.Carries transaction) :
      Settles data (first :: rest) [.send data] (.refuse (.transport cause))
  /-- The replies end while the transaction is pending. -/
  | pending {first : Reply} {pending : List Reply} {transaction : Word}
      (hfirst : first.Carries transaction) (hpending : ∀ reply ∈ pending, reply.Answers .null) :
      Settles data (first :: pending)
        (.send data :: List.replicate (pending.length + 1) (.receipt transaction))
        (.refuse (.transport .http))
  /-- The first answer that is not null is no answer at all. -/
  | lost {first decisive : Reply} {pending rest : List Reply} {transaction : Word}
      (cause : TransportError) (hfirst : first.Carries transaction)
      (hpending : ∀ reply ∈ pending, reply.Answers .null)
      (hdecisive : ∀ result, ¬ decisive.Answers result) :
      Settles data (first :: (pending ++ decisive :: rest))
        (.send data :: List.replicate (pending.length + 1) (.receipt transaction))
        (.refuse (.transport cause))
  /-- The first answer that is not null is the receipt of a success. -/
  | accepted {first decisive : Reply} {pending rest : List Reply} {transaction : Word}
      {receipt : Json} (hfirst : first.Carries transaction)
      (hpending : ∀ reply ∈ pending, reply.Answers .null)
      (hdecisive : decisive.Answers receipt) (hnull : receipt ≠ .null)
      (hstatus : receipt.Succeeded) :
      Settles data (first :: (pending ++ decisive :: rest))
        (.send data :: List.replicate (pending.length + 1) (.receipt transaction))
        (.ok transaction)
  /-- The first answer that is not null is any other receipt. -/
  | rejected {first decisive : Reply} {pending rest : List Reply} {transaction : Word}
      {receipt : Json} (hfirst : first.Carries transaction)
      (hpending : ∀ reply ∈ pending, reply.Answers .null)
      (hdecisive : decisive.Answers receipt) (hnull : receipt ≠ .null)
      (hstatus : ¬ receipt.Succeeded) :
      Settles data (first :: (pending ++ decisive :: rest))
        (.send data :: List.replicate (pending.length + 1) (.receipt transaction))
        (.refuse (.rejected s!"{transaction.toHex} reverted"))

theorem Request.transacts_send (node : Node) (data : Bytes) :
    (Request.send data).Transacts node data := by
  simp [Transacts, body, params, method, Json.get?_ofMembers, Json.lookup_cons]

theorem Request.looksFor_receipt (node : Node) (transaction : Word) :
    (Request.receipt transaction).LooksFor node transaction := by
  simp [LooksFor, body, params, method, Json.get?_ofMembers, Json.lookup_cons, Word.toHex]

namespace Node

variable {node : Node} {data : Bytes} {w : Wire}

theorem send_of_cancelled (h : w.cancelled = true) :
    node.send data w = (.refuse .cancelled, w) :=
  if_pos h

/-- Whatever the replies, one transaction is sent at most, and nothing is abandoned. -/
theorem send_requests (node : Node) (data : Bytes) (w : Wire) :
    (∃ made, (node.send data w).2.requests = w.requests ++ made ∧
        (made = [] ∨ ∃ transaction looks,
          made = .send data :: List.replicate looks (.receipt transaction))) ∧
      ∀ fault, (node.send data w).1.outcome ≠ .error (.fault fault) := by
  unfold send
  split
  · exact ⟨⟨[], by simp, .inl rfl⟩, by simp⟩
  · split
    · exact ⟨⟨[.send data], rfl, .inr ⟨default, 0, rfl⟩⟩, by simp⟩
    · simp only
      split
      · exact ⟨⟨[.send data], rfl, .inr ⟨default, 0, rfl⟩⟩, by simp⟩
      · rename_i reply rest _ _ transaction _
        obtain ⟨⟨looks, hlooks⟩, hfault⟩ := await_requests node transaction rest
          { noted w (.send data) reply.cancels with replies := rest }
        refine ⟨⟨_, ?_, .inr ⟨transaction, looks, rfl⟩⟩, hfault⟩
        exact hlooks.trans (by simp [noted])

/-- Either all replies say that the transaction is pending, or there is a first one that does
not. -/
theorem exists_decisive (replies : List Reply) :
    (∀ reply ∈ replies, reply.Answers .null) ∨
      ∃ pending decisive rest, replies = pending ++ decisive :: rest ∧
        (∀ reply ∈ pending, reply.Answers .null) ∧ ¬ decisive.Answers .null := by
  classical
  cases hfind : replies.find? fun reply => ¬ reply.Answers .null with
  | none => exact .inl (by simpa using hfind)
  | some decisive =>
      obtain ⟨hdecisive, pending, rest, hreplies, hpending⟩ :=
        List.find?_eq_some_iff_append.mp hfind
      exact .inr ⟨pending, decisive, rest, hreplies, by simpa using hpending,
        of_decide_eq_true hdecisive⟩

/-- What the replies after the one that carries a hash settle. -/
theorem settles_await (node : Node) (data : Bytes) {first : Reply} {rest : List Reply}
    {transaction : Word} (hlive : w.cancelled = false) (hfirst : first.Carries transaction)
    (hcancels : ∀ reply ∈ rest, reply.cancels = false) :
    ∃ looks, (node.await transaction rest w).2.requests =
        w.requests ++ List.replicate looks (.receipt transaction) ∧
      Settles data (first :: rest) (.send data :: List.replicate looks (.receipt transaction))
        (node.await transaction rest w).1.outcome := by
  -- all replies say that the transaction is pending, or there is a first that says more
  rcases exists_decisive rest with hpending | ⟨pending, decisive, later, rfl, hpending, hnull⟩
  · refine ⟨rest.length + 1, ?_⟩
    have hlast : (node.looked transaction rest.length w).cancelled = false := hlive
    have hend := await_of_pending node transaction [] hlive hpending hcancels
    rw [List.append_nil, await_nil hlast, looked_looked] at hend
    rw [hend]
    exact ⟨rfl, .pending hfirst hpending⟩
  · refine ⟨pending.length + 1, ?_⟩
    simp only [List.forall_mem_append, List.forall_mem_cons] at hcancels
    obtain ⟨hquiet, hdecisive, -⟩ := hcancels
    have hlast : (node.looked transaction pending.length w).cancelled = false := hlive
    have hend := await_of_pending node transaction (decisive :: later) hlive hpending hquiet
    rw [await_cons hlast hdecisive, looked_looked] at hend
    rw [hend]
    rcases decisive.status_cases transaction with
      ⟨h, -⟩ | ⟨receipt, hreceipt, hne, ⟨hstatus, heq⟩ | ⟨hstatus, heq⟩⟩ | ⟨hlost, cause, heq⟩
    · exact absurd h hnull
    · rw [heq]
      exact ⟨rfl, .accepted hfirst hpending hreceipt hne hstatus⟩
    · rw [heq]
      exact ⟨rfl, .rejected hfirst hpending hreceipt hne hstatus⟩
    · rw [heq]
      exact ⟨rfl, .lost cause hfirst hpending hlost⟩

theorem settles_send (node : Node) (data : Bytes) (hlive : w.cancelled = false)
    (hcancels : ∀ reply ∈ w.replies, reply.cancels = false) :
    ∃ made, (node.send data w).2.requests = w.requests ++ made ∧
      Settles data w.replies made (node.send data w).1.outcome := by
  -- no reply to the transaction, one that does not carry its hash, or one that does
  cases hreplies : w.replies with
  | nil =>
      refine ⟨[.send data], ?_, ?_⟩
      · simp [send, hlive, hreplies, noted]
      · simpa [send, hlive, hreplies] using Settles.unheard
  | cons first rest =>
      simp only [hreplies, List.forall_mem_cons] at hcancels
      cases htransaction : first.transaction data with
      | error cause =>
          have hnone : ∀ transaction, ¬ first.Carries transaction := by
            intro transaction h
            cases htransaction.symm.trans (Reply.transaction_eq_ok_iff.mpr h)
          refine ⟨[.send data], ?_, ?_⟩
          · simp [send, hlive, hreplies, htransaction, noted]
          · simpa [send, hlive, hreplies, htransaction] using Settles.unsent cause hnone
      | ok transaction =>
          have hfirst := Reply.transaction_eq_ok_iff.mp htransaction
          have hsent : Wire.cancelled { noted w (.send data) first.cancels with replies := rest } =
              false := by
            simp [noted, hlive, hcancels.1]
          obtain ⟨looks, hrequests, hsettles⟩ :=
            settles_await node data hsent hfirst hcancels.2
          refine ⟨.send data :: List.replicate looks (.receipt transaction), ?_, ?_⟩
          · simp only [send, hlive, hreplies, htransaction, Bool.false_eq_true, if_false]
            exact hrequests.trans (by simp [noted])
          · simpa only [send, hlive, hreplies, htransaction, Bool.false_eq_true, if_false]
              using hsettles

end Node

/-- Whatever a node answers, a transaction is sent once at most, and the rest of the
conversation looks for the receipt of one transaction.  A party that was asked to stop before
does not start it, and while nobody asks, the replies settle it. -/
theorem submission_sends_once (node : Node) (data : Bytes) (w : Wire) :
    let outcome := (node.send data w).1.outcome
    ∃ made, (node.send data w).2.requests = w.requests ++ made ∧
      (made = [] ∨ ∃ transaction looks,
        made = .send data :: List.replicate looks (.receipt transaction)) ∧
      (Request.send data).Transacts node data ∧
      (∀ transaction, (Request.receipt transaction).LooksFor node transaction) ∧
      (∀ fault, outcome ≠ .error (.fault fault)) ∧
      (w.cancelled = true → made = [] ∧ outcome = .refuse .cancelled) ∧
      (w.cancelled = false → (∀ reply ∈ w.replies, reply.cancels = false) →
        Settles data w.replies made outcome) := by
  intro outcome
  obtain ⟨⟨made, hmade, hshape⟩, hfault⟩ := Node.send_requests node data w
  refine ⟨made, hmade, hshape, Request.transacts_send node data, Request.looksFor_receipt node,
    hfault, ?_, ?_⟩
  · intro hcancelled
    have hsend : node.send data w = (.refuse .cancelled, w) := Node.send_of_cancelled hcancelled
    rw [hsend] at hmade
    have hnone : made = [] := List.append_cancel_left (hmade.symm.trans (List.append_nil _).symm)
    exact ⟨hnone, by simp [outcome, hsend]⟩
  · intro hlive hcancels
    obtain ⟨made', hmade', hsettles⟩ := Node.settles_send node data hlive hcancels
    obtain rfl : made = made' := List.append_cancel_left (hmade.symm.trans hmade')
    exact hsettles

/-- The reply with this result. -/
def Reply.withResult (result : Json) : Reply where
  body := some (Json.ofMembers [("result", result)]).text

/-- A wire on which a hash comes, then nothing yet, and then the receipt of a success. -/
def Wire.patient : Wire where
  replies := [.withResult (.string Word.zero.toHex), .withResult .null,
    .withResult (Json.ofMembers [("status", .string "0x1")])]

/-- A node to which nothing but its replies matters. -/
def Node.quiet : Node where
  url := ""
  contract := ""
  sender := ""
  pollSeconds := 1

theorem patient_submission_accepted :
    Wire.patient.cancelled = false ∧ (∀ reply ∈ Wire.patient.replies, reply.cancels = false) ∧
      (Node.quiet.send [1] Wire.patient).1.outcome.toOption = some .zero ∧
      Settles [1] Wire.patient.replies [.send [1], .receipt .zero, .receipt .zero]
        (Node.quiet.send [1] Wire.patient).1.outcome := by
  have hcancels : ∀ reply ∈ Wire.patient.replies, reply.cancels = false := by
    simp [Wire.patient, Reply.withResult]
  have hrequests : (Node.quiet.send [1] Wire.patient).2.requests =
      [.send [1], .receipt .zero, .receipt .zero] := by
    decide +kernel
  obtain ⟨made, hmade, -, -, -, -, -, hsettles⟩ :=
    submission_sends_once .quiet [1] Wire.patient
  obtain rfl : made = [.send [1], .receipt .zero, .receipt .zero] := hmade.symm.trans hrequests
  exact ⟨rfl, hcancels, by decide +kernel, hsettles rfl hcancels⟩

end TraceDispute
