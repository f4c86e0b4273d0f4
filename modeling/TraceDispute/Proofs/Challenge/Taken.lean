import TraceDispute.Proofs.Challenge.Divergence

/-!
# Cuts that were taken

`Challenge.Takes` says that a party that is asked for its cuts at some offsets
answers with a certain cut at one of them.  Which other offsets it is asked for
makes no difference to the cut (`Takes.unique`).

A search through claimed cuts takes own cuts on the way and keeps none of them.
Still, a search that finds a wrong cut could have been a request for the cuts
up to that one: the same machine runs to the same offsets, and the offsets that a
session is opened for do not decide what it answers there
(`cutsAt_of_firstDivergence`).
-/

namespace TraceDispute

namespace Session

variable (s : Session) (offsets : List UInt64) (offset : UInt64)

/-- The session, had it been opened for other offsets. -/
def openedFor : Session := { s with offsets }

theorem replay_openedFor :
    (s.openedFor offsets).replay offset = (s.replay offset).map fun s' => s'.openedFor offsets := by
  simp only [replay, openedFor]
  cases s.machine.execute (offset - s.progress.gasUsed) s.overshoot with
  | error f => rfl
  | ok run => cases h : s.progress.apply run.2 run.1.hash <;> simp [h, bind, Except.bind,
      Except.map, pure, Except.pure]

theorem answer_openedFor :
    (s.openedFor offsets).answer offset =
      ((s.answer offset).1, (s.answer offset).2.openedFor offsets) := by
  unfold answer
  rw [replay_openedFor]
  by_cases hlt : s.progress.gasUsed < offset
  · cases hreplay : s.replay offset with
    | error f => simp [openedFor, hlt, Except.map]
    | ok s' => by_cases hbeyond : s'.progress.gasUsed < offset ∧ s'.machine.halted <;>
        simp [openedFor, hlt, hbeyond, Except.map, remember]
  · simp [openedFor, hlt, remember]

theorem progressAt_openedFor :
    (s.openedFor offsets).progressAt offset =
      ((s.progressAt offset).1, (s.progressAt offset).2.openedFor offsets) := by
  have hlast : (s.openedFor offsets).last = s.last := rfl
  have hanswers : (s.openedFor offsets).answers = s.answers := rfl
  unfold progressAt
  rw [hlast]
  cases s.last.filter (fun previous => decide (offset < previous)) with
  | some previous => rfl
  | none =>
      simp only [hanswers]
      cases kept? offset s.answers with
      | some progress => rfl
      | none => exact answer_openedFor { s with last := some offset } offsets offset

end Session

namespace Challenge

variable {c : Challenge} {m : Machine} {s : Session} {offset : UInt64} {offsets : List UInt64}
  {claimed : List Cut} {index j k : Nat} {cut cut' : Cut}

theorem cutAt_openedFor (c : Challenge) (s : Session) (offsets : List UInt64) (offset : UInt64) :
    c.cutAt (s.openedFor offsets) offset =
      ((c.cutAt s offset).1, (c.cutAt s offset).2.openedFor offsets) := by
  simp only [cutAt, Session.progressAt_openedFor]

theorem cutsFrom_openedFor (c : Challenge) (s : Session) (offsets rest : List UInt64) :
    (c.cutsFrom (s.openedFor offsets) rest).1 = (c.cutsFrom s rest).1 := by
  induction rest generalizing s with
  | nil => rfl
  | cons o rest ih => rw [cutsFrom_cons, cutsFrom_cons, cutAt_openedFor, ih]

/-! ## Cuts that a request answers with -/

/-- Asked for its cuts at some offsets, the party answers with `cut` at `offset`. -/
def Takes (c : Challenge) (offset : UInt64) (cut : Cut) : Prop :=
  ∃ offsets cuts, (c.cutsAt offsets).outcome = .ok cuts ∧ (offset, cut) ∈ offsets.zip cuts

theorem Takes.resolves (h : c.Takes offset cut) : ∃ m, c.machine? = some m := by
  obtain ⟨offsets, cuts, hcuts, -⟩ := h
  obtain ⟨m, hm, -⟩ := machine?_of_cutsAt hcuts
  exact ⟨m, hm⟩

theorem Takes.ownCut_eq (h : c.Takes offset cut) (hm : c.machine? = some m) :
    c.ownCut m offset = .ok cut := by
  obtain ⟨offsets, cuts, hcuts, hmem⟩ := h
  exact (List.forall₂_iff_zip.mp (ownCut_of_cutsAt hm hcuts)).2 hmem

theorem Takes.fits (h : c.Takes offset cut) (hm : c.machine? = some m) : c.Fits m offset := by
  obtain ⟨offsets, cuts, hcuts, hmem⟩ := h
  exact fits_of_cutsAt hm hcuts offset (List.of_mem_zip hmem).1

/-- The cut at an offset is the same whatever other offsets are asked for. -/
theorem Takes.unique (h : c.Takes offset cut) (h' : c.Takes offset cut') : cut = cut' := by
  obtain ⟨m, hm⟩ := h.resolves
  have hown := h.ownCut_eq hm
  rw [h'.ownCut_eq hm] at hown
  exact (Except.ok.inj hown).symm

theorem takes_of_cutsAt {cuts : List Cut} (hcuts : (c.cutsAt offsets).outcome = .ok cuts)
    (ho : offsets[j]? = some offset) : ∃ cut, cuts[j]? = some cut ∧ c.Takes offset cut := by
  obtain ⟨m, hm, -⟩ := machine?_of_cutsAt hcuts
  have hlength := (ownCut_of_cutsAt hm hcuts).length_eq
  obtain ⟨hj, rfl⟩ := List.getElem?_eq_some_iff.mp ho
  have hcut : cuts[j]? = some cuts[j] := List.getElem?_eq_getElem (hlength ▸ hj)
  exact ⟨_, hcut, offsets, cuts, hcuts,
    List.mem_of_getElem? (List.getElem?_zip_eq_some.mpr ⟨ho, hcut⟩)⟩

/-! ## Cuts that a search takes -/

/-- A search that ends at a wrong cut has gone through the replay for all cuts up to it. -/
theorem cutsFrom_of_compareFrom {pairs : List (UInt64 × Cut)}
    (h : (c.compareFrom s index pairs).1 = .ok (.found k)) :
    ∃ j own, k = index + j ∧
      (c.cutsFrom s ((pairs.take (j + 1)).map Prod.fst)).1 = .ok own := by
  induction pairs generalizing s index with
  | nil => simp [compareFrom] at h
  | cons pair rest ih =>
      obtain ⟨o, claim⟩ := pair
      rw [compareFrom] at h
      rcases hcut : c.cutAt s o with ⟨_ | own, s'⟩
      · simp [hcut] at h
      · simp only [hcut] at h
        split at h
        · -- the claim agrees, and the search goes on in the session that is left
          obtain ⟨j, owns, rfl, howns⟩ := ih h
          refine ⟨j + 1, own :: owns, by omega, ?_⟩
          rw [List.take_succ_cons, List.map_cons, cutsFrom_cons, hcut, howns]
          rfl
        · split at h
          · cases h
          · obtain rfl : index = k := by simpa using h
            refine ⟨0, [own], rfl, ?_⟩
            rw [List.take_succ_cons, List.map_cons, cutsFrom_cons, hcut]
            rfl

theorem cutsAt_of_firstDivergence
    (h : (c.firstDivergence offsets claimed).outcome = .ok k) :
    ∃ own, (c.cutsAt (offsets.take (k + 1))).outcome = .ok own := by
  obtain ⟨hlength, s, hopen, hfound⟩ := firstDivergence_eq_ok_iff.mp h
  obtain ⟨m, hm, -⟩ := firstWrong_of_firstDivergence h
  obtain ⟨hsorted, rfl⟩ := Session.start_eq_ok_iff.mp ((openSession_eq_ok_iff hm).mp hopen)
  obtain ⟨j, own, hj, hown⟩ := cutsFrom_of_compareFrom hfound
  obtain rfl : k = j := by omega
  have hopen' := (openSession_eq_ok_iff hm).mpr
    (Session.start_eq_ok_iff.mpr ⟨hsorted.sublist (List.take_sublist (k + 1) _), rfl⟩)
  rw [List.map_take, List.map_fst_zip hlength.le] at hown
  rw [← cutsFrom_openedFor c _ (offsets.take (k + 1))] at hown
  refine ⟨own, ?_⟩
  rw [outcome_cutsAt, hopen', Outcome.ok_bind]
  exact hown

/-- A search that finds a wrong cut takes the party's own cut at every offset up to it. -/
theorem takes_of_firstDivergence (h : (c.firstDivergence offsets claimed).outcome = .ok k)
    (hj : j ≤ k) (ho : offsets[j]? = some offset) : ∃ own, c.Takes offset own := by
  obtain ⟨owns, howns⟩ := cutsAt_of_firstDivergence h
  have hget : (offsets.take (k + 1))[j]? = some offset := by
    rw [List.getElem?_take_of_lt (by omega)]
    exact ho
  obtain ⟨own, -, htakes⟩ := takes_of_cutsAt howns hget
  exact ⟨own, htakes⟩

/-- What a search finds, in cuts that the party takes: claims with their hashes up to
the one found, and one with another hash there. -/
theorem takes_of_found (h : (c.firstDivergence offsets claimed).outcome = .ok k) :
    (∀ j < k, ∃ o claim own, offsets[j]? = some o ∧ claimed[j]? = some claim ∧ c.Takes o own ∧
        own.hash = claim.hash) ∧
      ∃ o claim own, offsets[k]? = some o ∧ claimed[k]? = some claim ∧ c.Takes o own ∧
        own.hash ≠ claim.hash := by
  -- the claims up to the one found have been compared with cuts that the search took
  obtain ⟨m, hm, hfirst⟩ := firstWrong_of_firstDivergence h
  have hk := hfirst.lt_length
  have hlength := hfirst.length_eq
  refine ⟨fun j hj => ?_, ?_⟩
  · have ho := List.getElem?_eq_getElem (hj.trans hk)
    have hclaim := List.getElem?_eq_getElem (hlength ▸ hj.trans hk)
    obtain ⟨own, htakes⟩ := takes_of_firstDivergence h hj.le ho
    obtain ⟨own', hown', heq⟩ := hfirst.agrees j hj _ _ ho hclaim
    obtain rfl : own' = own := by simpa [htakes.ownCut_eq hm, eq_comm] using hown'
    exact ⟨_, _, own', ho, hclaim, htakes, heq⟩
  · obtain ⟨o, claim, ho, hclaim, own', hown', hne⟩ := hfirst.differs
    obtain ⟨own, htakes⟩ := takes_of_firstDivergence h le_rfl ho
    obtain rfl : own' = own := by simpa [htakes.ownCut_eq hm, eq_comm] using hown'
    exact ⟨o, claim, own', ho, hclaim, htakes, hne⟩

end Challenge

end TraceDispute
