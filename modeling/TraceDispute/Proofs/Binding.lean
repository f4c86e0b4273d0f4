import TraceDispute.Inbox
import TraceDispute.Proofs.Commitment
import TraceDispute.Proofs.Machine.Step

/-!
# Commitments are binding

What the parties agree on is hashes: of cuts, of machines and of the messages that
are left to be read.  A hash settles what was hashed, unless two of the strings that
were really hashed collide (`commitments_bind`).

For cuts and machines this is `Cut.eq_of_hash_eq` and `Machine.SameState.of_hash_eq`.
A table of inbox digests hashes every message and, for every entry but the last, the
link of an entry and a message (`InboxTable.links`).  The number of messages is not
hashed with them, so a link must not hash to the zero that ends the chain.
-/

namespace TraceDispute

namespace InboxTable

/-- What the entry before those of `rest` is the digest of. -/
def link (message : Bytes) (rest : List Bytes) : Bytes :=
  (inboxDigest rest).bytes ++ (keccak message).bytes

/-- The links of the entries of a table, from the first on. -/
def links : List Bytes → List Bytes
  | [] => []
  | message :: rest => link message rest :: links rest

/-- The byte strings that are hashed for the table over some messages. -/
def hashed (messages : List Bytes) : List Bytes := messages ++ links messages

theorem inboxDigest_cons (message : Bytes) (rest : List Bytes) :
    inboxDigest (message :: rest) = keccak (link message rest) := rfl

theorem mem_hashed_cons {message bytes : Bytes} {rest : List Bytes} :
    bytes ∈ hashed (message :: rest) ↔
      bytes = message ∨ bytes = link message rest ∨ bytes ∈ hashed rest := by
  simp only [hashed, links, List.cons_append, List.mem_cons, List.mem_append]
  tauto

theorem digestAt_zero (messages : List Bytes) :
    (ofMessages messages).digestAt 0 = .ok (inboxDigest messages) := by
  have hentry : (ofMessages messages).digestAt 0 =
      .ok (inboxDigest (messages.drop (0 : UInt64).toNat)) :=
    digestAt_ofMessages (Nat.zero_le _)
  rwa [UInt64.toNat_zero, List.drop_zero] at hentry

/-- Lists of messages with the same digest are equal, unless something that is hashed for them
collides or a chain comes to zero before its end. -/
theorem eq_of_inboxDigest_eq {xs ys : List Bytes} (h : inboxDigest xs = inboxDigest ys)
    (hcollide : ∀ u ∈ hashed xs, ∀ v ∈ hashed ys, ¬ Collide u v)
    (hzero : ∀ u ∈ links xs ++ links ys, keccak u ≠ .zero) : xs = ys := by
  -- on both lists at once: a longer chain than the other would come to zero early
  induction xs generalizing ys with
  | nil =>
      cases ys with
      | nil => rfl
      | cons y ys => exact absurd h.symm (hzero _ (List.mem_cons_self ..))
  | cons x xs ih =>
      cases ys with
      | nil => exact absurd h (hzero _ (List.mem_cons_self ..))
      | cons y ys =>
          rw [inboxDigest_cons, inboxDigest_cons] at h
          -- the same link is made of the digests of the same rest and of the same message
          have hlink : link x xs = link y ys := by
            refine eq_of_not_collide (hcollide _ ?_ _ ?_) h
            · exact mem_hashed_cons.mpr (.inr (.inl rfl))
            · exact mem_hashed_cons.mpr (.inr (.inl rfl))
          obtain ⟨hrest, hmessage⟩ := Word.append_inj hlink
          obtain rfl : x = y := by
            refine eq_of_not_collide (hcollide _ ?_ _ ?_) (Word.ext hmessage)
            · exact mem_hashed_cons.mpr (.inl rfl)
            · exact mem_hashed_cons.mpr (.inl rfl)
          refine congrArg (x :: ·) (ih hrest ?_ ?_)
          · intro u hu v hv
            exact hcollide u (mem_hashed_cons.mpr (.inr (.inr hu))) v
              (mem_hashed_cons.mpr (.inr (.inr hv)))
          · intro u hu
            simp only [links, List.mem_append, List.mem_cons] at hu hzero
            exact hzero u (hu.imp .inr .inr)

end InboxTable

/-- Cuts, the states of machines and lists of messages are each settled by their commitment,
unless strings that are hashed for the two collide or a chain of messages comes to zero.  The
commitment to a machine leaves out its program and its inbox. -/
theorem commitments_bind :
    (∀ c d : Cut, c.hash = d.hash → ¬ Collide c.pack d.pack → ¬ Collide c.packRest d.packRest →
      c = d) ∧
    (∀ m n : Machine, (m.hash = n.hash → ¬ Collide m.packState n.packState →
        ¬ Collide (Machine.packBuffer m.buffer) (Machine.packBuffer n.buffer) → m.SameState n) ∧
      (m.SameState n → m.hash = n.hash)) ∧
    ∀ xs ys : List Bytes,
      (InboxTable.ofMessages xs).digestAt 0 = (InboxTable.ofMessages ys).digestAt 0 →
      (∀ u ∈ InboxTable.hashed xs, ∀ v ∈ InboxTable.hashed ys, ¬ Collide u v) →
      (∀ u ∈ InboxTable.links xs ++ InboxTable.links ys, keccak u ≠ .zero) → xs = ys := by
  refine ⟨?_, ?_, ?_⟩
  · exact fun c d => Cut.eq_of_hash_eq
  · exact fun m n => ⟨Machine.SameState.of_hash_eq, Machine.SameState.hash_eq⟩
  · intro xs ys hdigest hcollide hzero
    rw [InboxTable.digestAt_zero, InboxTable.digestAt_zero] at hdigest
    exact InboxTable.eq_of_inboxDigest_eq (Except.ok.inj hdigest) hcollide hzero

open Machine in
/-- Two machines about to read share their state but neither program nor inbox.  Cuts of them are
alike, and so are their inboxes once the second has a message more. -/
theorem readers_commitments_bind :
    (lastReader.hash = readAndSend.hash ∧ lastReader.program ≠ readAndSend.program ∧
      lastReader.inbox ≠ readAndSend.inbox ∧
      ¬ Collide lastReader.packState readAndSend.packState ∧
      ¬ Collide (packBuffer lastReader.buffer) (packBuffer readAndSend.buffer) ∧
      lastReader.SameState readAndSend) ∧
    (∃ c d : Cut, c.machineState = lastReader.hash ∧ d.machineState = readAndSend.hash ∧
      c.hash = d.hash ∧ ¬ Collide c.pack d.pack ∧ ¬ Collide c.packRest d.packRest ∧ c = d) ∧
    (InboxTable.ofMessages lastReader.inbox).digestAt 0 =
      (InboxTable.ofMessages (readAndSend.inbox ++ [[9]])).digestAt 0 ∧
    (∀ u ∈ InboxTable.hashed lastReader.inbox,
      ∀ v ∈ InboxTable.hashed (readAndSend.inbox ++ [[9]]), ¬ Collide u v) ∧
    (∀ u ∈ InboxTable.links lastReader.inbox ++
      InboxTable.links (readAndSend.inbox ++ [[9]]), keccak u ≠ .zero) ∧
    lastReader.inbox = readAndSend.inbox ++ [[9]] := by
  obtain ⟨hcuts, hmachines, hlists⟩ := commitments_bind
  have hstate : lastReader.SameState readAndSend := ⟨rfl, rfl, rfl, rfl, rfl⟩
  have hhash : lastReader.hash = readAndSend.hash := (hmachines _ _).2 hstate
  have hpackState : ¬ Collide lastReader.packState readAndSend.packState := by
    rw [hstate.packState_eq]
    exact not_collide_self _
  have hpackBuffer :
      ¬ Collide (packBuffer lastReader.buffer) (packBuffer readAndSend.buffer) := by
    rw [hstate.buffer_eq]
    exact not_collide_self _
  -- the inboxes are short enough to look at everything that is hashed for them
  have hcollide : ∀ u ∈ InboxTable.hashed lastReader.inbox,
      ∀ v ∈ InboxTable.hashed (readAndSend.inbox ++ [[9]]), ¬ Collide u v := by decide +kernel
  have hzero : ∀ u ∈ InboxTable.links lastReader.inbox ++
      InboxTable.links (readAndSend.inbox ++ [[9]]), keccak u ≠ .zero := by decide +kernel
  -- cuts of the two machines are equal because their hashes are
  let c := Cut.ofProgress (.start lastReader.hash) (inboxDigest [[5], [9]])
  let d := Cut.ofProgress (.start readAndSend.hash) (inboxDigest [[5], [9]])
  have hcut : c = d := by
    simp only [c, d, hhash]
  have hpack : ¬ Collide c.pack d.pack := by
    rw [hcut]
    exact not_collide_self _
  have hpackRest : ¬ Collide c.packRest d.packRest := by
    rw [hcut]
    exact not_collide_self _
  refine ⟨⟨hhash, by decide, by decide, hpackState, hpackBuffer, ?_⟩, ⟨c, d, rfl, rfl,
    congrArg Cut.hash hcut, hpack, hpackRest, ?_⟩, rfl, hcollide, hzero, ?_⟩
  · exact (hmachines _ _).1 hhash hpackState hpackBuffer
  · exact hcuts c d (congrArg Cut.hash hcut) hpack hpackRest
  · exact hlists _ _ rfl hcollide hzero

end TraceDispute
