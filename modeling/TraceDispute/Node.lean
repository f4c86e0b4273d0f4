import TraceDispute.CallData
import TraceDispute.Json.Reader
import TraceDispute.Settings
import TraceDispute.Submission

/-!
# Submitting through a node

Moves are sent as transactions to a node that speaks JSON-RPC, and the client
then waits for the receipt.  A transaction is sent once; after that the client
only looks for its receipt, until a look brings one, fails, or the party is asked
to stop.

What the node answers is a list of replies, one for each request; a request for
which no reply is left finds no connection.
-/

namespace TraceDispute

/-- A request to the node. -/
inductive Request where
  /-- Send a transaction with this call data. -/
  | send (data : Bytes)
  /-- Look for the receipt of a transaction. -/
  | receipt (transaction : Word)
deriving DecidableEq

/-- How the node answers one request. -/
structure Reply where
  /-- The body of the answer; none when there is no connection. -/
  body : Option String
  /-- Whether the party is asked to stop while the request is under way. -/
  cancels : Bool := false
deriving DecidableEq, Repr

/-- The node that a party talks to. -/
structure Node where
  url : String
  contract : String
  sender : String
  /-- Seconds that pass before each look for a receipt. -/
  pollSeconds : Nat
deriving DecidableEq, Repr

/-- The state of the conversation with a node. -/
structure Wire where
  /-- The answers still to come. -/
  replies : List Reply
  /-- Whether the party has been asked to stop. -/
  cancelled : Bool := false
  /-- The requests made, oldest first. -/
  requests : List Request := []
  /-- Seconds spent waiting for receipts. -/
  waited : Nat := 0
deriving DecidableEq

/-! ## Requests -/

namespace Request

/-- The method that a request calls. -/
def method : Request → String
  | .send _ => "eth_sendTransaction"
  | .receipt _ => "eth_getTransactionReceipt"

/-- The gas limit of a move. -/
def gasLimit : String := "0x500000"

/-- The parameters of a request. -/
def params (node : Node) : Request → Json
  | .send data =>
    .array [Json.ofMembers
      [("from", .string node.sender), ("to", .string node.contract),
        ("data", .string ("0x" ++ Hex.encode data)), ("gas", .string gasLimit)]]
  | .receipt transaction => .array [.string transaction.toHex]

/-- The body of a request. -/
def body (node : Node) (r : Request) : Json :=
  Json.ofMembers
    [("jsonrpc", .string "2.0"), ("method", .string r.method), ("params", r.params node),
      ("id", .number (.natural 1))]

end Request

/-! ## Replies -/

/-- The result in the body of an answer. -/
def Reply.result (request : Request) (reply : Reply) : Except TransportError Json :=
  match reply.body.bind Json.parse? with
  | none => .error .http
  | some answer =>
    match answer.get? "error" with
    | some e => .error (.reply s!"{request.method} failed: {e.text}")
    | none =>
      match answer.get? "result" with
      | some result => .ok result
      | none => .error (.reply "No result in response")

/-- Drops every `0x` that a text starts with. -/
def dropMarks : List Char → List Char
  | '0' :: 'x' :: rest => dropMarks rest
  | cs => cs

/-- The transaction hash that a text stands for. -/
def readTransaction (text : String) : Except TransportError Word :=
  match Hex.decode (String.ofList (dropMarks text.toList)).toUTF8.data.toList with
  | .error e => .error (.reply e.message)
  | .ok bytes =>
    match Word.ofBytes? bytes with
    | some w => .ok w
    | none => .error (.reply s!"Invalid hash length {bytes.length}")

/-- The transaction that the node reports as sent. -/
def Reply.transaction (data : Bytes) (reply : Reply) : Except TransportError Word :=
  match reply.result (.send data) with
  | .error e => .error e
  | .ok result =>
    match result.string? with
    | some text => readTransaction text
    | none => .error (.reply "No tx hash in response")

/-- What a look for a receipt brings: whether the transaction succeeded, or
nothing while it is pending. -/
def Reply.status (transaction : Word) (reply : Reply) : Except TransportError (Option Bool) :=
  match reply.result (.receipt transaction) with
  | .error e => .error e
  | .ok .null => .ok none
  | .ok receipt => .ok (some ((receipt.get? "status").bind Json.string? == some "0x1"))

/-! ## Submission -/

namespace Node

/-- The longest wait, thirty years of 365 days, in seconds. -/
def longestWait : Nat := 30 * 365 * 86400

/-- The node of these settings; between two looks at least a second passes, and
at most the longest wait. -/
def ofSettings (s : Settings) : Node where
  url := s.nodeUrl
  contract := s.contract
  sender := s.sender
  pollSeconds := min longestWait (max 1 s.pollSeconds.toNat)

/-- Notes a request, and whether the party is asked to stop while it is under way. -/
def noted (w : Wire) (request : Request) (cancels : Bool) : Wire :=
  { w with requests := w.requests ++ [request], cancelled := w.cancelled || cancels }

/-- Looks for the receipt of a transaction until there is one; these are the
replies still to come. -/
def await (node : Node) (transaction : Word) :
    (replies : List Reply) → Wire → Report SubmissionError Word × Wire
  | replies, w =>
    if w.cancelled then
      (⟨.refuse .cancelled, [.stoppedWaiting transaction]⟩, { w with replies })
    else
      let w := { w with waited := w.waited + node.pollSeconds }
      match replies with
      | [] =>
        (.refuse (.transport .http), { noted w (.receipt transaction) false with replies := [] })
      | reply :: rest =>
        let w := noted w (.receipt transaction) reply.cancels
        match reply.status transaction with
        | .error e => (.refuse (.transport e), { w with replies := rest })
        | .ok none => await node transaction rest w
        | .ok (some true) => (.of (.ok transaction), { w with replies := rest })
        | .ok (some false) =>
          (.refuse (.rejected s!"{transaction.toHex} reverted"), { w with replies := rest })

/-- Sends call data as a transaction and waits for its receipt. -/
def send (node : Node) (data : Bytes) (w : Wire) : Report SubmissionError Word × Wire :=
  if w.cancelled then (.refuse .cancelled, w)
  else
    match w.replies with
    | [] => (.refuse (.transport .http), noted w (.send data) false)
    | reply :: rest =>
      let w := { noted w (.send data) reply.cancels with replies := rest }
      match reply.transaction data with
      | .error e => (.refuse (.transport e), w)
      | .ok transaction =>
        let (report, w') := node.await transaction rest w
        (⟨report.outcome, .sent transaction :: report.events⟩, w')

end Node

/-- The call data of a move. -/
def Submission.callData : Submission → Bytes
  | .bisection move =>
    CallData.bisect move.previous.cutHashes (UInt64.ofNat move.index) move.segment.start
      move.segment.length (move.cuts.map Cut.hash)
  | .proof move =>
    CallData.prove move.previous.cutHashes (UInt64.ofNat move.index) move.progress
      move.inboxDelta move.machineProof move.bufferProof

/-- The client that sends moves through a node. -/
def Node.client (node : Node) : Client Wire where
  cancelled w := w.cancelled
  submit move w := node.send move.callData w

end TraceDispute
