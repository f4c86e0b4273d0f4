import TraceDispute.Proofs.Challenge.Cuts

/-!
# The first wrong cut

`Challenge.locate` compares claimed cuts with its own while it replays, and goes
no further than the first wrong one.  `Challenge.compareOwn` is the same search
over own cuts that are simply there, and `compareFrom_cases` says that the two
come out alike unless a sum of gas does not fit in a word.

`FirstWrong c m offsets claimed k` describes what the search is for, without a
search.  A search that answers has found it (`firstWrong_of_firstDivergence`),
and where it exists the search finds it (`firstDivergence_of_firstWrong`).
-/

namespace TraceDispute.Challenge

variable {c : Challenge} {m : Machine} {s : Session} {offset : UInt64} {offsets : List UInt64}
  {claimed : List Cut} {index k : Nat}

/-- The party's own cut at an offset has the hash of a claimed one. -/
def Agrees (c : Challenge) (m : Machine) (offset : UInt64) (claim : Cut) : Prop :=
  ∃ own, c.ownCut m offset = .ok own ∧ own.hash = claim.hash

/-- The party's own cut at an offset has another hash than a claimed one. -/
def Differs (c : Challenge) (m : Machine) (offset : UInt64) (claim : Cut) : Prop :=
  ∃ own, c.ownCut m offset = .ok own ∧ own.hash ≠ claim.hash

theorem Agrees.not_differs {claim : Cut} (h : c.Agrees m offset claim) :
    ¬ c.Differs m offset claim := by
  obtain ⟨own, hown, heq⟩ := h
  rintro ⟨own', hown', hne⟩
  obtain rfl : own = own' := by simpa [hown] using hown'
  exact hne heq

theorem agrees_or_differs {own : Cut} (hown : c.ownCut m offset = .ok own) (claim : Cut) :
    c.Agrees m offset claim ∨ c.Differs m offset claim := by
  by_cases h : own.hash = claim.hash
  · exact .inl ⟨own, hown, h⟩
  · exact .inr ⟨own, hown, h⟩

/-! ## The search without a session -/

/-- Compares claimed cuts with the party's own, the first of them with this index. -/
def compareOwn (c : Challenge) (m : Machine) :
    Nat → List (UInt64 × Cut) → Outcome ChallengeError Divergence
  | _, [] => .ok .noDivergence
  | index, (offset, claim) :: rest => do
    let cut ← c.ownCut m offset
    if cut.hash = claim.hash then compareOwn c m (index + 1) rest
    else return if index = 0 then .firstCutMismatch else .found index

theorem compareOwn_of_agrees {claim : Cut} {rest : List (UInt64 × Cut)}
    (h : c.Agrees m offset claim) :
    c.compareOwn m index ((offset, claim) :: rest) = c.compareOwn m (index + 1) rest := by
  obtain ⟨own, hown, heq⟩ := h
  simp [compareOwn, hown, heq, bind, Except.bind]

theorem compareOwn_of_differs {claim : Cut} {rest : List (UInt64 × Cut)}
    (h : c.Differs m offset claim) :
    c.compareOwn m index ((offset, claim) :: rest) =
      .ok (if index = 0 then .firstCutMismatch else .found index) := by
  obtain ⟨own, hown, hne⟩ := h
  simp [compareOwn, hown, hne, bind, Except.bind, pure, Except.pure]

theorem within_compareOwn {refusals : ChallengeError → Prop} {faults : Fault → Prop}
    (hown : ∀ o, (c.ownCut m o).Within refusals faults) (pairs : List (UInt64 × Cut)) :
    (c.compareOwn m index pairs).Within refusals faults := by
  induction pairs generalizing index with
  | nil => trivial
  | cons pair rest ih =>
      refine (hown pair.1).bind fun cut _ => ?_
      split
      · exact ih
      · trivial

/-- A search in a session comes out like one over own cuts, unless a sum of gas
does not fit. -/
theorem compareFrom_cases {pairs : List (UInt64 × Cut)} (hs : s.Sound m)
    (hover : s.overshoot = c.overshoot) (hsorted : (pairs.map Prod.fst).Pairwise (· ≤ ·))
    (horder : ∀ pair ∈ pairs, s.InOrder pair.1) :
    (c.compareFrom s index pairs).1 = c.compareOwn m index pairs ∨
      ((c.compareFrom s index pairs).1 = .error (.fault .addOverflow) ∧
        ∃ pair ∈ pairs, ¬ c.Counts m pair.1) := by
  -- the session after one comparison is in order for all that follow
  induction pairs generalizing s index with
  | nil => exact .inl rfl
  | cons pair rest ih =>
      obtain ⟨o, claim⟩ := pair
      rw [List.map_cons, List.pairwise_cons] at hsorted
      rw [compareFrom, compareOwn]
      rcases cutAt_of_inOrder hs hover (horder _ (List.mem_cons_self ..)) with
        ⟨s', hafter, heq⟩ | ⟨heq, hcount⟩
      · rw [heq]
        cases hcut : c.ownCut m o with
        | error e => exact .inl rfl
        | ok cut =>
            simp only [bind, Except.bind]
            by_cases hagree : cut.hash = claim.hash
            · have hrest := @ih s' (index + 1) hafter.sound (hafter.overshoot_eq.trans hover)
                hsorted.2 fun pair hpair =>
                  hafter.inOrder (hsorted.1 _ (List.mem_map_of_mem hpair))
              rw [if_pos hagree, if_pos hagree]
              exact hrest.imp_right fun ⟨hfault, pair, hpair, hcount⟩ =>
                ⟨hfault, pair, List.mem_cons_of_mem _ hpair, hcount⟩
            · rw [if_neg hagree, if_neg hagree]
              exact .inl rfl
      · rcases hcut : c.cutAt s o with ⟨outcome, s'⟩
        rw [hcut] at heq
        obtain rfl : outcome = _ := heq
        exact .inr ⟨rfl, _, List.mem_cons_self .., hcount⟩

/-- The search over own cuts finds the first claim that differs, if it is not the
first of all. -/
theorem compareOwn_eq_found_iff {pairs : List (UInt64 × Cut)} :
    c.compareOwn m index pairs = .ok (.found k) ↔
      0 < k ∧ ∃ j, k = index + j ∧
        (∀ i < j, ∀ pair, pairs[i]? = some pair → c.Agrees m pair.1 pair.2) ∧
        ∃ pair, pairs[j]? = some pair ∧ c.Differs m pair.1 pair.2 := by
  -- on the claims; an index below the first wrong one is an index into the rest, one less
  induction pairs generalizing index with
  | nil => simp [compareOwn]
  | cons pair rest ih =>
      obtain ⟨o, claim⟩ := pair
      cases hown : c.ownCut m o with
      | error e =>
          -- a claim that cannot be compared neither agrees nor differs
          have hagree : ¬ c.Agrees m o claim := by simp [Agrees, hown]
          have hdiffer : ¬ c.Differs m o claim := by simp [Differs, hown]
          simp only [compareOwn, hown, bind, Except.bind, reduceCtorEq, false_iff, not_and]
          rintro - ⟨j, -, hbefore, pair, hpair, hdiff⟩
          cases j with
          | zero =>
              obtain rfl : (o, claim) = pair := by simpa using hpair
              exact hdiffer hdiff
          | succ j => exact hagree (hbefore 0 (by omega) _ rfl)
      | ok own =>
          rcases agrees_or_differs hown claim with hagree | hdiffer
          · rw [compareOwn_of_agrees hagree, ih]
            refine and_congr_right fun _ => ⟨?_, ?_⟩
            · rintro ⟨j, hj, hbefore, hat⟩
              refine ⟨j + 1, by omega, ?_, hat⟩
              rintro (_ | i) hi pair hpair
              · obtain rfl : (o, claim) = pair := by simpa using hpair
                exact hagree
              · exact hbefore i (by omega) pair hpair
            · rintro ⟨_ | j, hj, hbefore, hat⟩
              · obtain ⟨pair, hpair, hdiff⟩ := hat
                obtain rfl : (o, claim) = pair := by simpa using hpair
                exact absurd hdiff hagree.not_differs
              · exact ⟨j, by omega, fun i hi pair hpair => hbefore (i + 1) (by omega) pair hpair,
                  hat⟩
          · rw [compareOwn_of_differs hdiffer]
            constructor
            · intro h
              split at h
              · cases h
              · rename_i hindex
                obtain rfl : index = k := by simpa using h
                exact ⟨by omega, 0, rfl, by omega, _, rfl, hdiffer⟩
            · rintro ⟨hpos, j, hj, hbefore, hat⟩
              cases j with
              | zero => rw [if_neg (by omega), hj, Nat.add_zero]
              | succ j => exact absurd hdiffer (hbefore 0 (by omega) _ rfl).not_differs

/-! ## What the search is for -/

/-- The claim with index `k` is the first that is not the party's own cut, and it
is not the first of all. -/
structure FirstWrong (c : Challenge) (m : Machine) (offsets : List UInt64) (claimed : List Cut)
    (k : Nat) : Prop where
  length_eq : offsets.length = claimed.length
  pos : 0 < k
  agrees : ∀ i < k, ∀ o claim, offsets[i]? = some o → claimed[i]? = some claim →
    c.Agrees m o claim
  differs : ∃ o claim, offsets[k]? = some o ∧ claimed[k]? = some claim ∧ c.Differs m o claim

theorem FirstWrong.lt_length (h : c.FirstWrong m offsets claimed k) : k < offsets.length := by
  obtain ⟨o, -, ho, -⟩ := h.differs
  exact (List.getElem?_eq_some_iff.mp ho).1

theorem compareOwn_zip_eq_found_iff (hlength : offsets.length = claimed.length) :
    c.compareOwn m 0 (offsets.zip claimed) = .ok (.found k) ↔ c.FirstWrong m offsets claimed k := by
  rw [compareOwn_eq_found_iff]
  constructor
  · rintro ⟨hpos, j, hj, hbefore, ⟨o, claim⟩, hpair, hdiff⟩
    obtain rfl : k = j := by omega
    obtain ⟨ho, hclaim⟩ := List.getElem?_zip_eq_some.mp hpair
    refine ⟨hlength, hpos, fun i hi o' claim' ho' hclaim' => ?_, o, claim, ho, hclaim, hdiff⟩
    exact hbefore i hi (o', claim') (List.getElem?_zip_eq_some.mpr ⟨ho', hclaim'⟩)
  · rintro ⟨-, hpos, hbefore, o, claim, ho, hclaim, hdiff⟩
    refine ⟨hpos, k, (Nat.zero_add k).symm, ?_, (o, claim), ?_, hdiff⟩
    · rintro i hi ⟨o', claim'⟩ hpair
      obtain ⟨ho', hclaim'⟩ := List.getElem?_zip_eq_some.mp hpair
      exact hbefore i hi o' claim' ho' hclaim'
    · exact List.getElem?_zip_eq_some.mpr ⟨ho, hclaim⟩

theorem exists_firstWrong (hlength : offsets.length = claimed.length)
    (hown : ∀ o ∈ offsets, ∃ own, c.ownCut m o = .ok own)
    (hfirst : ∀ o claim, offsets[0]? = some o → claimed[0]? = some claim → c.Agrees m o claim)
    (hsome : ∃ i : Nat, ∃ o claim, offsets[i]? = some o ∧ claimed[i]? = some claim ∧
      c.Differs m o claim) :
    ∃ k, c.FirstWrong m offsets claimed k := by
  classical
  refine ⟨Nat.find hsome, hlength, ?_, ?_, Nat.find_spec hsome⟩
  · rw [Nat.pos_iff_ne_zero]
    intro hzero
    obtain ⟨o, claim, ho, hclaim, hdiff⟩ := Nat.find_spec hsome
    rw [hzero] at ho hclaim
    exact (hfirst o claim ho hclaim).not_differs hdiff
  · intro i hi o claim ho hclaim
    obtain ⟨own, hown⟩ := hown o (List.mem_of_getElem? ho)
    refine (agrees_or_differs hown claim).resolve_right fun hdiff => ?_
    exact Nat.find_min hsome hi ⟨o, claim, ho, hclaim, hdiff⟩

/-! ## The search itself -/

theorem outcome_locate (hlength : offsets.length = claimed.length) :
    (c.locate offsets claimed).outcome = (do
      let s ← c.openSession offsets
      (c.compareFrom s 0 (offsets.zip claimed)).1) := by
  simp only [locate, hlength, ne_eq, not_true_eq_false, if_false, tellReplays,
    Report.outcome_bind, Report.outcome_of, Report.outcome_tell, Report.outcome_pure]
  refine congrArg _ (funext fun s => ?_)
  cases (c.compareFrom s 0 (offsets.zip claimed)).1 <;> rfl

theorem firstDivergence_eq_ok_iff :
    (c.firstDivergence offsets claimed).outcome = .ok k ↔
      offsets.length = claimed.length ∧
        ∃ s, c.openSession offsets = .ok s ∧
          (c.compareFrom s 0 (offsets.zip claimed)).1 = .ok (.found k) := by
  have hfound : (c.firstDivergence offsets claimed).outcome = .ok k ↔
      (c.locate offsets claimed).outcome = .ok (.found k) := by
    unfold firstDivergence
    rw [Report.outcome_bind, Outcome.bind_eq_ok_iff]
    constructor
    · rintro ⟨divergence, hlocate, hk⟩
      -- only a search that has found a cut past the first answers with its index
      cases divergence with
      | found j =>
          obtain rfl : j = k := by simpa using hk
          exact hlocate
      | firstCutMismatch => cases hk
      | noDivergence => cases hk
    · exact fun hlocate => ⟨_, hlocate, rfl⟩
  rw [hfound]
  by_cases hlength : offsets.length = claimed.length
  · rw [outcome_locate hlength, Outcome.bind_eq_ok_iff]
    simp [hlength]
  · simp [locate, hlength]

theorem compareFrom_of_start (hstart : Session.start m c.overshoot offsets = .ok s)
    (hlength : offsets.length = claimed.length) :
    (c.compareFrom s 0 (offsets.zip claimed)).1 = c.compareOwn m 0 (offsets.zip claimed) ∨
      ((c.compareFrom s 0 (offsets.zip claimed)).1 = .error (.fault .addOverflow) ∧
        ∃ o ∈ offsets, ¬ c.Counts m o) := by
  obtain ⟨hsorted, -⟩ := Session.start_eq_ok_iff.mp hstart
  obtain ⟨hsound, hlast, hover, -⟩ := Session.sound_start hstart
  have hmap : ((offsets.zip claimed).map Prod.fst).Pairwise (· ≤ ·) := by
    rw [List.map_fst_zip hlength.le]
    exact hsorted
  have horder : ∀ pair ∈ offsets.zip claimed, s.InOrder pair.1 :=
    fun pair _ => Session.inOrder_of_last hlast
  exact (compareFrom_cases hsound hover hmap horder).imp_right
    fun ⟨hfault, pair, hpair, hcount⟩ => ⟨hfault, pair.1, (List.of_mem_zip hpair).1, hcount⟩

/-- A search can fail only where own cuts can, unless a sum of gas does not fit. -/
theorem within_locate {refusals : ChallengeError → Prop} {faults : Fault → Prop}
    (hlength : ∀ n k, refusals (.violation (.lengthMismatch n k)))
    (hopen : (c.openSession offsets).Within refusals faults)
    (hown : ∀ m, c.machine? = some m → ∀ o, (c.ownCut m o).Within refusals faults)
    (hsum : ∀ m, c.machine? = some m → ∀ o, ¬ c.Counts m o → faults .addOverflow)
    (claimed : List Cut) : (c.locate offsets claimed).outcome.Within refusals faults := by
  by_cases hsame : offsets.length = claimed.length
  · rw [outcome_locate hsame]
    refine hopen.bind fun s hs => ?_
    obtain ⟨m, hm⟩ := machine?_of_openSession hs
    rcases compareFrom_of_start ((openSession_eq_ok_iff hm).mp hs) hsame with
      heq | ⟨hfault, o, -, hnot⟩
    · rw [heq]
      exact within_compareOwn (hown m hm) _
    · rw [hfault]
      exact hsum m hm o hnot
  · rw [locate, if_pos hsame]
    exact hlength _ _

theorem within_firstDivergence_of {refusals : ChallengeError → Prop} {faults : Fault → Prop}
    (hlocate : (c.locate offsets claimed).outcome.Within refusals faults)
    (hfirst : refusals (.violation .firstCutMismatch))
    (hnone : ∀ n, refusals (.violation (.noDivergence n))) :
    (c.firstDivergence offsets claimed).outcome.Within refusals faults := by
  rw [firstDivergence, Report.outcome_bind]
  refine hlocate.bind fun divergence _ => ?_
  cases divergence with
  | found index => trivial
  | firstCutMismatch => exact hfirst
  | noDivergence => exact hnone _

/-- A search that answers has found the first wrong cut. -/
theorem firstWrong_of_firstDivergence
    (h : (c.firstDivergence offsets claimed).outcome = .ok k) :
    ∃ m, c.machine? = some m ∧ c.FirstWrong m offsets claimed k := by
  obtain ⟨hlength, s, hopen, hfound⟩ := firstDivergence_eq_ok_iff.mp h
  obtain ⟨m, hm⟩ := machine?_of_openSession hopen
  refine ⟨m, hm, (compareOwn_zip_eq_found_iff hlength).mp ?_⟩
  rcases compareFrom_of_start ((openSession_eq_ok_iff hm).mp hopen) hlength with heq | ⟨hfault, -⟩
  · rw [← heq, hfound]
  · simp [hfault] at hfound

/-- Where there is a first wrong cut, the search finds it. -/
theorem firstDivergence_of_firstWrong (hm : c.machine? = some m)
    (hsorted : offsets.Pairwise (· ≤ ·)) (hcount : ∀ o ∈ offsets, c.Counts m o)
    (h : c.FirstWrong m offsets claimed k) :
    (c.firstDivergence offsets claimed).outcome = .ok k := by
  obtain ⟨s, hstart⟩ := Session.exists_start m c.overshoot hsorted
  refine firstDivergence_eq_ok_iff.mpr
    ⟨h.length_eq, s, (openSession_eq_ok_iff hm).mpr hstart, ?_⟩
  rcases compareFrom_of_start hstart h.length_eq with heq | ⟨-, o, ho, hnot⟩
  · rw [heq]
    exact (compareOwn_zip_eq_found_iff h.length_eq).mpr h
  · exact absurd (hcount o ho) hnot

end TraceDispute.Challenge
