import TraceDispute.Event
import TraceDispute.Outcome

/-!
# Reports

A report is the outcome of some work together with the events told on the way,
oldest first.  Events never decide anything: the outcome of a sequence of
reports is the sequence of their outcomes (`Report.outcome_bind`).
-/

namespace TraceDispute

/-- An outcome and the events told while it was worked out. -/
structure Report (ε α : Type) where
  outcome : Outcome ε α
  events : List Event := []

namespace Report

variable {ε δ α β : Type}

/-- An outcome about which nothing is told. -/
def of (outcome : Outcome ε α) : Report ε α := { outcome }

/-- Tells some events. -/
def tell (events : List Event) : Report ε Unit := ⟨.ok (), events⟩

/-- Refuses with a cause. -/
def refuse (cause : ε) : Report ε α := of (.refuse cause)

/-- Goes on with an answer; after a failure nothing more is told. -/
def andThen (x : Report ε α) (f : α → Report ε β) : Report ε β :=
  match x.outcome with
  | .ok a => ⟨(f a).outcome, x.events ++ (f a).events⟩
  | .error e => ⟨.error e, x.events⟩

instance : Monad (Report ε) where
  pure a := of (.ok a)
  bind := andThen

/-- Restates the cause of a refusal. -/
def mapRefusal (f : ε → δ) (x : Report ε α) : Report δ α :=
  ⟨x.outcome.mapRefusal f, x.events⟩

@[simp] theorem outcome_pure (a : α) : (pure a : Report ε α).outcome = .ok a := rfl

@[simp] theorem outcome_of (o : Outcome ε α) : (of o).outcome = o := rfl

@[simp] theorem outcome_tell (events : List Event) :
    (tell events : Report ε Unit).outcome = .ok () := rfl

@[simp] theorem outcome_refuse (cause : ε) :
    (refuse cause : Report ε α).outcome = .refuse cause := rfl

@[simp] theorem outcome_mapRefusal (f : ε → δ) (x : Report ε α) :
    (x.mapRefusal f).outcome = x.outcome.mapRefusal f := rfl

/-- The outcome of a sequence is the sequence of the outcomes. -/
@[simp] theorem outcome_bind (x : Report ε α) (f : α → Report ε β) :
    (x >>= f).outcome = x.outcome >>= fun a => (f a).outcome := by
  obtain ⟨outcome, events⟩ := x
  cases outcome <;> rfl

end Report

end TraceDispute
