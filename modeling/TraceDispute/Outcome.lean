/-!
# Faults, refusals and checked counters

Counters are 64-bit words.  A sum that does not fit, a difference below zero, an
index past the end of a list or a list too long to be addressed is a *fault*: the
run is abandoned there and nothing after it happens.  A *refusal* is an answer of
the protocol itself, with a cause of its own type, after which the run goes on.

`Outcome ε α` has both, so that "never faults" and "never refuses with this
cause" are statements about a value.
-/

namespace TraceDispute

/-- Why a run was abandoned. -/
inductive Fault where
  | addOverflow
  | subOverflow
  | outOfBounds (index length : Nat)
  | capacityOverflow
deriving DecidableEq, Repr

/-- The text a fault is reported with. -/
def Fault.message : Fault → String
  | .addOverflow => "attempt to add with overflow"
  | .subOverflow => "attempt to subtract with overflow"
  | .outOfBounds index length =>
    s!"index out of bounds: the len is {length} but the index is {index}"
  | .capacityOverflow => "capacity overflow"

/-- A computation that answers or is abandoned. -/
abbrev Checked (α : Type) : Type := Except Fault α

/-- Why a computation has no answer: it was abandoned, or it refused with an `ε`. -/
inductive Failure (ε : Type) where
  | fault (fault : Fault)
  | refusal (cause : ε)
deriving DecidableEq, Repr

/-- A computation that answers, refuses with an `ε` or is abandoned. -/
abbrev Outcome (ε α : Type) : Type := Except (Failure ε) α

namespace Outcome

variable {ε δ α : Type}

/-- A refusal with cause `e`. -/
abbrev refuse (e : ε) : Outcome ε α := .error (.refusal e)

/-- A checked computation as one that never refuses. -/
def ofChecked : Checked α → Outcome ε α
  | .ok a => .ok a
  | .error f => .error (.fault f)

/-- An answer or a refusal as an outcome that is never abandoned. -/
def ofExcept : Except ε α → Outcome ε α
  | .ok a => .ok a
  | .error e => .error (.refusal e)

/-- Restates the cause of a refusal; answers and faults stay as they are. -/
def mapRefusal (f : ε → δ) : Outcome ε α → Outcome δ α
  | .ok a => .ok a
  | .error (.fault f) => .error (.fault f)
  | .error (.refusal e) => .error (.refusal (f e))

@[simp] theorem ofChecked_ok (a : α) : (ofChecked (.ok a) : Outcome ε α) = .ok a := rfl

@[simp] theorem ofChecked_error (f : Fault) :
    (ofChecked (.error f) : Outcome ε α) = .error (.fault f) := rfl

@[simp] theorem ofExcept_ok (a : α) : (ofExcept (.ok a) : Outcome ε α) = .ok a := rfl

@[simp] theorem ofExcept_error (e : ε) : (ofExcept (.error e) : Outcome ε α) = refuse e := rfl

@[simp] theorem mapRefusal_ok (f : ε → δ) (a : α) : mapRefusal f (.ok a) = .ok a := rfl

@[simp] theorem mapRefusal_fault (f : ε → δ) (e : Fault) :
    mapRefusal f (.error (.fault e) : Outcome ε α) = .error (.fault e) := rfl

@[simp] theorem mapRefusal_refuse (f : ε → δ) (e : ε) :
    mapRefusal f (refuse e : Outcome ε α) = refuse (f e) := rfl

@[simp] theorem ofChecked_eq_ok_iff {x : Checked α} {a : α} :
    (ofChecked x : Outcome ε α) = .ok a ↔ x = .ok a := by
  cases x <;> simp

@[simp] theorem ofExcept_eq_ok_iff {x : Except ε α} {a : α} :
    (ofExcept x : Outcome ε α) = .ok a ↔ x = .ok a := by
  cases x <;> simp

@[simp] theorem mapRefusal_eq_ok_iff {f : ε → δ} {x : Outcome ε α} {a : α} :
    mapRefusal f x = .ok a ↔ x = .ok a := by
  rcases x with (_ | _) | _ <;> simp [mapRefusal]

@[simp] theorem ok_bind {β : Type} (a : α) (f : α → Outcome ε β) :
    ((.ok a : Outcome ε α) >>= f) = f a := rfl

@[simp] theorem error_bind {β : Type} (e : Failure ε) (f : α → Outcome ε β) :
    ((.error e : Outcome ε α) >>= f) = .error e := rfl

/-- A sequence answers if its first part does and the rest does with that answer. -/
theorem bind_eq_ok_iff {β : Type} {x : Outcome ε α} {f : α → Outcome ε β} {b : β} :
    (x >>= f) = .ok b ↔ ∃ a, x = .ok a ∧ f a = .ok b := by
  cases x <;> simp [bind, Except.bind]

end Outcome

namespace Checked

/-- The sum of two counters, when it fits. -/
def add (a b : UInt64) : Checked UInt64 :=
  if a.toNat + b.toNat < UInt64.size then .ok (a + b) else .error .addOverflow

/-- The difference of two positions, when it is not negative. -/
def sub (m n : Nat) : Checked Nat :=
  if n ≤ m then .ok (m - n) else .error .subOverflow

/-- The entry of a list at an index that has to exist. -/
def get {α : Type} (xs : List α) (i : Nat) : Checked α :=
  match xs[i]? with
  | some x => .ok x
  | none => .error (.outOfBounds i xs.length)

/-- A list with a new value at an index that has to exist. -/
def set {α : Type} (xs : List α) (i : Nat) (x : α) : Checked (List α) :=
  if i < xs.length then .ok (xs.set i x) else .error (.outOfBounds i xs.length)

/-- The first entries of a list that has to have as many. -/
def take {α : Type} (n : Nat) (xs : List α) : Checked (List α) :=
  if n ≤ xs.length then .ok (xs.take n) else .error (.outOfBounds n xs.length)

theorem add_of_lt {a b : UInt64} (h : a.toNat + b.toNat < UInt64.size) : add a b = .ok (a + b) :=
  if_pos h

theorem add_of_le {a b : UInt64} (h : UInt64.size ≤ a.toNat + b.toNat) :
    add a b = .error .addOverflow :=
  if_neg (Nat.not_lt.mpr h)

/-- A checked sum that succeeds is the sum of the naturals. -/
theorem toNat_of_add_eq_ok {a b c : UInt64} (h : add a b = .ok c) :
    c.toNat = a.toNat + b.toNat := by
  unfold add at h
  split at h
  · cases h
    rename_i hlt
    rw [UInt64.toNat_add, Nat.mod_eq_of_lt hlt]
  · cases h

theorem sub_of_le {m n : Nat} (h : n ≤ m) : sub m n = .ok (m - n) := if_pos h

theorem set_of_lt {α : Type} {xs : List α} {i : Nat} {x : α} (h : i < xs.length) :
    set xs i x = .ok (xs.set i x) :=
  if_pos h

theorem take_of_le {α : Type} {xs : List α} {n : Nat} (h : n ≤ xs.length) :
    take n xs = .ok (xs.take n) :=
  if_pos h

end Checked

end TraceDispute
