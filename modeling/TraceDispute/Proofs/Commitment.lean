import Mathlib
import TraceDispute.Cut

/-!
# What a commitment determines

Cuts and machines are compared by hashes only.  Each hash is taken over words
laid side by side, so what goes into a hash determines every field; and two
inputs with the same hash are equal unless they collide.  Nothing is assumed of
`keccak` itself: that some particular inputs do not collide is a hypothesis of
the theorems that need it.
-/

namespace TraceDispute

/-- Two different byte strings with the same digest. -/
def Collide (x y : Bytes) : Prop := x ≠ y ∧ keccak x = keccak y

instance (x y : Bytes) : Decidable (Collide x y) := inferInstanceAs (Decidable (_ ∧ _))

theorem Collide.symm {x y : Bytes} (h : Collide x y) : Collide y x := ⟨h.1.symm, h.2.symm⟩

theorem not_collide_self (x : Bytes) : ¬ Collide x x := fun h => h.1 rfl

theorem eq_of_not_collide {x y : Bytes} (h : ¬ Collide x y) (heq : keccak x = keccak y) :
    x = y := by
  by_contra hne
  exact h ⟨hne, heq⟩

theorem Word.append_inj {u v : Word} {xs ys : Bytes} (h : u.bytes ++ xs = v.bytes ++ ys) :
    u = v ∧ xs = ys := by
  obtain ⟨hword, hrest⟩ := List.append_inj h (u.length_eq.trans v.length_eq.symm)
  exact ⟨Word.ext hword, hrest⟩

instance : Finite Word := by
  have hfinite : Finite { bytes : Bytes // bytes.length = 32 } := List.finite_length_eq UInt8 32
  let bytes (w : Word) : { bytes : Bytes // bytes.length = 32 } := ⟨w.bytes, w.length_eq⟩
  exact Finite.of_injective bytes fun u v h => Word.ext (congrArg Subtype.val h)

namespace Cut

variable {c d : Cut}

/-- What the hash of a cut is taken over. -/
def pack (c : Cut) : Bytes := (Word.ofUInt64 c.gasUsed).bytes ++ c.restHash.bytes

theorem hash_eq (c : Cut) : c.hash = keccak c.pack := rfl

theorem pack_inj (h : c.pack = d.pack) : c.gasUsed = d.gasUsed ∧ c.restHash = d.restHash := by
  obtain ⟨hgas, hrest⟩ := Word.append_inj h
  exact ⟨Word.ofUInt64_inj hgas, Word.ext hrest⟩

theorem packRest_inj (h : c.packRest = d.packRest) :
    c.inboxDelta = d.inboxDelta ∧ c.machineState = d.machineState ∧ c.sendAcc = d.sendAcc ∧
      c.sendCount = d.sendCount ∧ c.logAcc = d.logAcc ∧ c.logCount = d.logCount := by
  simp only [packRest, List.append_assoc] at h
  obtain ⟨hinbox, h⟩ := Word.append_inj h
  obtain ⟨hmachine, h⟩ := Word.append_inj h
  obtain ⟨hsend, h⟩ := Word.append_inj h
  obtain ⟨hsends, h⟩ := Word.append_inj h
  obtain ⟨hlog, hlogs⟩ := Word.append_inj h
  exact ⟨hinbox, hmachine, hsend, Word.ofUInt64_inj hsends, hlog,
    Word.ofUInt64_inj (Word.ext hlogs)⟩

/-- There are more cuts than hashes. -/
theorem exists_hash_eq : ∃ c d : Cut, c ≠ d ∧ c.hash = d.hash := by
  let cut (gas : UInt64) (state : Word) : Cut := ⟨gas, .zero, state, .zero, 0, .zero, 0⟩
  by_cases hinj : Function.Injective fun state => (cut 0 state).hash
  · -- then the cuts without gas have every hash there is, that of a cut with gas too
    obtain ⟨state, hstate⟩ := Finite.surjective_of_injective hinj (cut 1 .zero).hash
    have hgas : (cut 0 state).gasUsed ≠ (cut 1 .zero).gasUsed := UInt64.zero_ne_one
    exact ⟨cut 0 state, cut 1 .zero, fun h => hgas (congrArg gasUsed h), hstate⟩
  · simp only [Function.Injective, not_forall] at hinj
    obtain ⟨u, v, heq, hne⟩ := hinj
    exact ⟨cut 0 u, cut 0 v, fun h => hne (congrArg machineState h), heq⟩

/-- Cuts with the same hash are equal, unless what is hashed for them collides. -/
theorem eq_of_hash_eq (h : c.hash = d.hash) (hpack : ¬ Collide c.pack d.pack)
    (hrest : ¬ Collide c.packRest d.packRest) : c = d := by
  obtain ⟨hgas, hresthash⟩ := pack_inj (eq_of_not_collide hpack h)
  obtain ⟨hinbox, hstate, hsendAcc, hsends, hlogAcc, hlogs⟩ :=
    packRest_inj (eq_of_not_collide hrest hresthash)
  cases c
  cases d
  simp only at hgas hinbox hstate hsendAcc hsends hlogAcc hlogs
  rw [hgas, hinbox, hstate, hsendAcc, hsends, hlogAcc, hlogs]

end Cut

namespace Machine

/-- What the hash of a machine is taken over. -/
def packState (m : Machine) : Bytes :=
  pack m.pc m.register m.inboxPosition m.bufferHash m.halted

theorem packState_inj {m n : Machine} (h : m.packState = n.packState) :
    m.pc = n.pc ∧ m.register = n.register ∧ m.inboxPosition = n.inboxPosition ∧
      m.bufferHash = n.bufferHash ∧ m.halted = n.halted := by
  simp only [packState, pack, List.append_assoc] at h
  obtain ⟨hpc, h⟩ := Word.append_inj h
  obtain ⟨hregister, h⟩ := Word.append_inj h
  obtain ⟨hposition, h⟩ := Word.append_inj h
  obtain ⟨hbuffer, hflag⟩ := Word.append_inj h
  refine ⟨Word.ofUInt64_inj hpc, Word.ofUInt64_inj hregister, Word.ofUInt64_inj hposition,
    hbuffer, ?_⟩
  cases hm : m.halted <;> cases hn : n.halted <;> simp [hm, hn] at hflag ⊢

theorem packBuffer_inj {xs ys : List UInt64} (h : packBuffer xs = packBuffer ys) : xs = ys := by
  induction xs generalizing ys with
  | nil =>
      cases ys with
      | nil => rfl
      | cons y ys =>
          have hlength := congrArg List.length h
          simp [packBuffer] at hlength
          omega
  | cons x xs ih =>
      cases ys with
      | nil =>
          have hlength := congrArg List.length h
          simp [packBuffer] at hlength
      | cons y ys =>
          obtain ⟨hslot, hrest⟩ := Word.append_inj h
          rw [Word.ofUInt64_inj hslot, ih hrest]

end Machine

end TraceDispute
