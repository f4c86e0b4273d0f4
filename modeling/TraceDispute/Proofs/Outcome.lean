import Mathlib
import TraceDispute.Outcome

/-!
# What an outcome can be

`Outcome.Within refusals faults` bounds what an outcome can be besides an answer.
It passes through sequences, so the bound of an operation is put together from
those of its parts.
-/

namespace TraceDispute.Outcome

variable {ε δ α β : Type} {refusals : ε → Prop} {faults : Fault → Prop}

/-! ## Answers of a sequence -/

theorem mapM_eq_ok_iff {f : α → Outcome ε β} {xs : List α} {ys : List β} :
    xs.mapM f = .ok ys ↔ List.Forall₂ (fun x y => f x = .ok y) xs ys := by
  induction xs generalizing ys with
  | nil => cases ys <;> simp [pure, Except.pure]
  | cons x xs ih =>
      rw [List.mapM_cons, bind_eq_ok_iff]
      constructor
      · rintro ⟨y, hy, hrest⟩
        obtain ⟨zs, hzs, hcons⟩ := bind_eq_ok_iff.mp hrest
        obtain rfl := Except.ok.inj hcons
        exact .cons hy (ih.mp hzs)
      · rintro (_ | ⟨hy, hrest⟩)
        exact ⟨_, hy, bind_eq_ok_iff.mpr ⟨_, ih.mpr hrest, rfl⟩⟩

theorem exists_mapM_eq_ok {f : α → Outcome ε β} {xs : List α}
    (h : ∀ x ∈ xs, ∃ y, f x = .ok y) : ∃ ys, xs.mapM f = .ok ys := by
  induction xs with
  | nil => exact ⟨[], rfl⟩
  | cons x xs ih =>
      obtain ⟨y, hy⟩ := h x (List.mem_cons_self ..)
      obtain ⟨ys, hys⟩ := ih fun z hz => h z (List.mem_cons_of_mem _ hz)
      exact ⟨y :: ys, by rw [List.mapM_cons, hy, hys]; rfl⟩

/-! ## Bounded outcomes -/

/-- Besides an answer, the outcome can only be one of these refusals and faults. -/
def Within (refusals : ε → Prop) (faults : Fault → Prop) : Outcome ε α → Prop
  | .ok _ => True
  | .error (.refusal cause) => refusals cause
  | .error (.fault fault) => faults fault

namespace Within

theorem of_refuse {x : Outcome ε α} {cause : ε} (hx : x.Within refusals faults)
    (h : x = .refuse cause) : refusals cause := by
  rwa [h] at hx

theorem of_true (x : Outcome ε α) : x.Within (fun _ => True) (fun _ => True) := by
  rcases x with (fault | cause) | a <;> trivial

/-- A failure is bounded alike whatever the answer would have been. -/
theorem error {e : Failure ε} (h : Within refusals faults (.error e : Outcome ε α)) :
    Within refusals faults (.error e : Outcome ε β) := by
  rcases e with fault | cause
  · exact h
  · exact h

theorem imp {allowed : ε → Prop} {x : Outcome ε α} (hx : x.Within refusals faults)
    (himp : ∀ cause, refusals cause → allowed cause) : x.Within allowed faults := by
  rcases x with (fault | cause) | a
  · exact hx
  · exact himp cause hx
  · trivial

theorem bind {x : Outcome ε α} {f : α → Outcome ε β} (hx : x.Within refusals faults)
    (hf : ∀ a, x = .ok a → (f a).Within refusals faults) : (x >>= f).Within refusals faults := by
  rcases x with (fault | cause) | a
  · exact hx
  · exact hx
  · exact hf a rfl

theorem mapRefusal {allowed : δ → Prop} {f : ε → δ} {x : Outcome ε α}
    (hx : x.Within refusals faults) (hf : ∀ cause, refusals cause → allowed (f cause)) :
    (x.mapRefusal f).Within allowed faults := by
  rcases x with (fault | cause) | a
  · exact hx
  · exact hf cause hx
  · trivial

theorem mapRefusal_ofExcept {allowed : δ → Prop} {f : ε → δ} (hf : ∀ cause, allowed (f cause))
    (x : Except ε α) : ((Outcome.ofExcept x).mapRefusal f).Within allowed faults := by
  cases x with
  | error cause => exact hf cause
  | ok a => trivial

theorem mapM {xs : List α} {f : α → Outcome ε β}
    (hf : ∀ x ∈ xs, (f x).Within refusals faults) : (xs.mapM f).Within refusals faults := by
  induction xs with
  | nil => trivial
  | cons x xs ih =>
      rw [List.mapM_cons]
      refine (hf x (List.mem_cons_self ..)).bind fun y _ => ?_
      refine (ih fun z hz => hf z (List.mem_cons_of_mem _ hz)).bind fun ys _ => ?_
      trivial

end Within

end TraceDispute.Outcome
