import TraceDispute.Proofs.Machine.Boundary

/-!
# One trace, one order

Runs of one machine that stop in different places, or that treat the instruction
at their target differently, still walk along the same trace.  `Point.Leads p q`
says that `q` comes on the trace of `p`, now or later.

* `Point.leads_total`: of two points of a trace one leads to the other;
* `Point.Leads.eq_of_gas_le`: every step costs gas, so the gas used tells the
  points of a trace apart and orders them;
* `Point.Leads.counts_le`: what has been read, sent and logged only grows.

A trace that ends does so at one point (`Machine.EndsAt`).  Every run whose target
lies past that point rests there (`EndsAt.restAt_of_lt`), and a run with a target
up to it does not get as far as to find the end (`EndsAt.exists_next?`).
-/

namespace TraceDispute

namespace Point

variable {p q r : Point} {overshoot : Bool} {target : Nat}

/-- The trace of `p` comes to `q`. -/
def Leads (p q : Point) : Prop := ∃ k, p.walk k = some q

theorem Leads.refl (p : Point) : p.Leads p := ⟨0, rfl⟩

theorem leads_settle (overshoot : Bool) (target : Nat) (p : Point) :
    p.Leads (p.settle overshoot target) := by
  obtain ⟨k, hwalk, -⟩ := exists_walk_settle overshoot target p
  exact ⟨k, hwalk⟩

theorem leads_of_walk_le {j k : Nat} (hjk : j ≤ k) (hj : p.walk j = some q)
    (hk : p.walk k = some r) : q.Leads r := by
  obtain ⟨d, rfl⟩ := Nat.exists_eq_add_of_le hjk
  rw [walk_add, hj, Option.bind_some] at hk
  exact ⟨d, hk⟩

/-- Of two points of a trace one leads to the other. -/
theorem leads_total (hq : p.Leads q) (hr : p.Leads r) : q.Leads r ∨ r.Leads q := by
  obtain ⟨j, hj⟩ := hq
  obtain ⟨k, hk⟩ := hr
  rcases Nat.le_total j k with hjk | hkj
  · exact .inl (leads_of_walk_le hjk hj hk)
  · exact .inr (leads_of_walk_le hkj hk hj)

/-- A point leads to itself, or by way of the point after its next instruction. -/
theorem Leads.cases (h : p.Leads q) : q = p ∨ ∃ r, p.next? = some r ∧ r.Leads q := by
  obtain ⟨k, hk⟩ := h
  cases k with
  | zero => exact .inl (Option.some.inj hk).symm
  | succ k =>
      obtain ⟨r, hnext, hwalk⟩ := walk_succ_eq_some_iff.mp hk
      exact .inr ⟨r, hnext, k, hwalk⟩

theorem Leads.gas_le (h : p.Leads q) : p.gas ≤ q.gas := by
  obtain ⟨k, hk⟩ := h
  exact gas_le_of_walk hk

/-- Every step costs gas, so a point leads to no other one of the same gas. -/
theorem Leads.eq_of_gas_le (h : p.Leads q) (hgas : q.gas ≤ p.gas) : q = p := by
  rcases h.cases with heq | ⟨r, hnext, hlead⟩
  · exact heq
  · have hstep := gas_lt_of_next? hnext
    have hrest := hlead.gas_le
    omega

theorem Leads.eq_of_none (h : p.Leads q) (hnone : p.next? = none) : q = p := by
  rcases h.cases with heq | ⟨r, hnext, -⟩
  · exact heq
  · simp [hnone] at hnext

/-- What every step preserves is preserved from a point to all that it leads to. -/
theorem Leads.induction {motive : Point → Prop} (h : p.Leads q)
    (step : ∀ q r, q.next? = some r → motive q → motive r) (hp : motive p) : motive q := by
  obtain ⟨k, hk⟩ := h
  refine walk_induction (motive := fun _ p q => motive p → motive q) (fun _ hp => hp) ?_ hk hp
  intro p q r k hnext hrest hp
  exact hrest (step p q hnext hp)

theorem Leads.halted_eq (h : p.Leads q) (hp : p.machine.halted = false) :
    q.machine.halted = false := by
  obtain ⟨k, hk⟩ := h
  exact halted_of_walk hp hk

/-- A trace only adds to what has been read, sent and logged. -/
theorem Leads.counts_le (h : p.Leads q) :
    p.reads ≤ q.reads ∧ p.sends <+: q.sends ∧ p.logs <+: q.logs := by
  refine h.induction
    (motive := fun q => p.reads ≤ q.reads ∧ p.sends <+: q.sends ∧ p.logs <+: q.logs) ?_
    ⟨le_rfl, List.prefix_rfl, List.prefix_rfl⟩
  rintro q r hnext ⟨hreads, hsends, hlogs⟩
  obtain ⟨-, i, -, -, rfl⟩ := next?_eq_some_iff.mp hnext
  exact ⟨hreads.trans (Nat.le_add_right _ _), hsends.trans (List.prefix_append ..),
    hlogs.trans (List.prefix_append ..)⟩

end Point

namespace Machine

variable {m : Machine} {p q : Point} {overshoot flag : Bool} {target later : Nat}

theorem leads_restAt (m : Machine) (overshoot : Bool) (target : Nat) :
    (Point.start m).Leads (m.restAt overshoot target) :=
  Point.leads_settle overshoot target _

/-- Points at which runs of one machine rest, with the same gas used, are the same point. -/
theorem restAt_eq_of_gas_eq
    (h : (m.restAt overshoot target).gas = (m.restAt flag later).gas) :
    m.restAt overshoot target = m.restAt flag later := by
  rcases Point.leads_total (m.leads_restAt overshoot target) (m.leads_restAt flag later) with
    hlead | hlead
  · exact (hlead.eq_of_gas_le h.ge).symm
  · exact hlead.eq_of_gas_le h.le

/-- A run that has used less gas than another is behind it on the trace. -/
theorem leads_of_gas_lt (h : (m.restAt overshoot target).gas < (m.restAt flag later).gas) :
    (m.restAt overshoot target).Leads (m.restAt flag later) := by
  rcases Point.leads_total (m.leads_restAt overshoot target) (m.leads_restAt flag later) with
    hlead | hlead
  · exact hlead
  · exact absurd hlead.gas_le (not_le.mpr h)

/-! ## Where a trace ends -/

/-- The trace of a machine ends at a point. -/
structure EndsAt (m : Machine) (p : Point) : Prop where
  leads : (Point.start m).Leads p
  next?_eq : p.next? = none

theorem EndsAt.leads_end (h : m.EndsAt p) (hq : (Point.start m).Leads q) : q.Leads p := by
  rcases Point.leads_total hq h.leads with hlead | hlead
  · exact hlead
  · obtain rfl := hlead.eq_of_none h.next?_eq
    exact .refl q

/-- A run that is short of its target and of the end of the trace has a step to make, which it
would make with overshoot. -/
theorem lt_gas_of_next?_restAt (hgas : (m.restAt overshoot target).gas < target)
    (hnext : (m.restAt overshoot target).next? = some q) : target < q.gas := by
  cases overshoot with
  | true => exact absurd (Point.le_gas_settle_of_next? hnext) (not_le.mpr hgas)
  | false => exact Point.lt_gas_of_next?_settle hnext

/-- A run whose target lies past the end of the trace rests at the end. -/
theorem EndsAt.restAt_of_lt (h : m.EndsAt p) (hlt : p.gas < target) :
    m.restAt overshoot target = p := by
  have hlead := h.leads_end (m.leads_restAt overshoot target)
  rcases hlead.cases with heq | ⟨q, hnext, hq⟩
  · exact heq.symm
  · -- the next point is on the way to `p`, within the target
    have hpast := lt_gas_of_next?_restAt (hlead.gas_le.trans_lt hlt) hnext
    have hwithin := hq.gas_le
    omega

/-- A run that has not reached its target, when the end of the trace has, has a step to make. -/
theorem EndsAt.exists_next? (h : m.EndsAt p) (hle : target ≤ p.gas)
    (hgas : (m.restAt overshoot target).gas < target) :
    ∃ q, (m.restAt overshoot target).next? = some q := by
  rcases (h.leads_end (m.leads_restAt overshoot target)).cases with heq | ⟨q, hnext, -⟩
  · rw [← heq] at hgas
    exact absurd hgas (not_lt.mpr hle)
  · exact ⟨q, hnext⟩

end Machine

end TraceDispute
