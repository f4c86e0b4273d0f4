import TraceDispute.Word

/-!
# Inbox digests

The digest after `k` reads commits to every message not read yet.  It is a hash
chain built from the back: zero for no messages, and otherwise the hash of the
chain over the rest with the hash of the first message.

An `InboxTable` lists these digests by the number of messages read.
-/

namespace TraceDispute

/-- The commitment to a list of messages. -/
def inboxDigest : List Bytes → Word
  | [] => .zero
  | message :: rest => keccakPair (inboxDigest rest) (keccak message)

/-- Inbox digests by the number of messages read. -/
structure InboxTable where
  digests : List Word
deriving DecidableEq

/-- A number of messages that the table has no digest for. -/
structure InboxBoundsError where
  count : UInt64
  length : Nat
deriving DecidableEq, Repr

/-- The text of a failed look-up. -/
def InboxBoundsError.message (e : InboxBoundsError) : String :=
  s!"inbox delta table has {e.length} entries, no digest for {e.count} messages read"

namespace InboxTable

/-- The digests of a list of messages and of each of its tails, built from the
back so that every message is hashed once. -/
def chain : List Bytes → List Word
  | [] => [.zero]
  | message :: rest =>
    let digests := chain rest
    keccakPair (digests.headD .zero) (keccak message) :: digests

/-- The table over a list of messages. -/
def ofMessages (messages : List Bytes) : InboxTable := ⟨chain messages⟩

/-- The digest after `count` messages have been read. -/
def digestAt (t : InboxTable) (count : UInt64) : Except InboxBoundsError Word :=
  match t.digests[count.toNat]? with
  | some digest => .ok digest
  | none => .error ⟨count, t.digests.length⟩

theorem headD_chain (messages : List Bytes) (w : Word) :
    (chain messages).headD w = inboxDigest messages := by
  induction messages generalizing w with
  | nil => rfl
  | cons message rest ih => simp [chain, inboxDigest, ← ih .zero]

@[simp] theorem length_chain (messages : List Bytes) :
    (chain messages).length = messages.length + 1 := by
  induction messages with
  | nil => rfl
  | cons message rest ih => simp [chain, ih]

/-- Entry `k` of the table commits to the messages from `k` on. -/
theorem getElem?_chain {messages : List Bytes} {k : Nat} (h : k ≤ messages.length) :
    (chain messages)[k]? = some (inboxDigest (messages.drop k)) := by
  induction messages generalizing k with
  | nil =>
      obtain rfl : k = 0 := by simpa using h
      rfl
  | cons message rest ih =>
      cases k with
      | zero => simp [chain, inboxDigest, ← headD_chain rest .zero]
      | succ k => simpa [chain] using ih (by simpa using h)

theorem digestAt_ofMessages {messages : List Bytes} {count : UInt64}
    (h : count.toNat ≤ messages.length) :
    (ofMessages messages).digestAt count = .ok (inboxDigest (messages.drop count.toNat)) := by
  rw [digestAt, ofMessages, getElem?_chain h]

end InboxTable

end TraceDispute
