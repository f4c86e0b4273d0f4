import TraceDispute.Proofs.Challenge.Independence
import TraceDispute.Proofs.Challenge.Taken

/-!
# The search reads no further than it has to

A claim departs from the party's cuts (`Challenge.Departs`) if the party, asked
for its cut at that one offset, has none to show or one with another hash.
`Challenge.locate` shares one session among all offsets and stops early, and
still its outcome is decided by the first claim that departs
(`Challenge.locate_decided_by_first_departure`): it names the index if there is
a cut to compare with, and fails as the request for all cuts up to there fails
if there is none.

What comes after that claim was never read.  So other claims and other offsets
may stand there, offsets past the end of the trace included, as long as the
offsets are sorted; a session refuses to be opened for any others.
-/

namespace TraceDispute

/-- The index that a comparison stopped at. -/
def Divergence.index? : Divergence → Option Nat
  | .found index => some index
  | .firstCutMismatch => some 0
  | .noDivergence => none

namespace Challenge

variable {c : Challenge} {m : Machine} {s : Session} {offset : UInt64} {offsets : List UInt64}
  {claimed : List Cut} {claim : Cut} {index k : Nat} {pairs : List (UInt64 × Cut)}
  {divergence : Divergence}

/-! ## A search reads its claims from front to back -/

/-- A search takes the first cut, and then the others as long as the claims agree. -/
theorem compareFrom_cons (c : Challenge) (s : Session) (index : Nat) (o : UInt64) (claim : Cut)
    (rest : List (UInt64 × Cut)) :
    (c.compareFrom s index ((o, claim) :: rest)).1 = (do
      let own ← (c.cutAt s o).1
      if own.hash = claim.hash then (c.compareFrom (c.cutAt s o).2 (index + 1) rest).1
      else return if index = 0 then .firstCutMismatch else .found index) := by
  rw [compareFrom]
  rcases c.cutAt s o with ⟨_ | own, s'⟩
  · rfl
  · by_cases hagree : own.hash = claim.hash
    · simp only [Outcome.ok_bind, if_pos hagree]
    · simp only [Outcome.ok_bind, if_neg hagree]
      rfl

theorem compareFrom_openedFor (c : Challenge) (s : Session) (offsets : List UInt64) (index : Nat)
    (pairs : List (UInt64 × Cut)) :
    (c.compareFrom (s.openedFor offsets) index pairs).1 = (c.compareFrom s index pairs).1 := by
  induction pairs generalizing s index with
  | nil => rfl
  | cons pair rest ih => rw [compareFrom_cons, compareFrom_cons, cutAt_openedFor, ih]

/-- A search that comes to an end within some claims does not read those after them. -/
theorem compareFrom_append (h : (c.compareFrom s index pairs).1 ≠ .ok .noDivergence)
    (rest : List (UInt64 × Cut)) :
    (c.compareFrom s index (pairs ++ rest)).1 = (c.compareFrom s index pairs).1 := by
  induction pairs generalizing s index with
  | nil => exact absurd rfl h
  | cons pair pairs ih =>
      rw [compareFrom_cons] at h
      rw [List.cons_append, compareFrom_cons, compareFrom_cons]
      cases hcut : (c.cutAt s pair.1).1 with
      | error e => rfl
      | ok own =>
          rw [hcut, Outcome.ok_bind] at h
          rw [Outcome.ok_bind, Outcome.ok_bind]
          by_cases hagree : own.hash = pair.2.hash
          · rw [if_pos hagree] at h ⊢
            rw [if_pos hagree, ih h]
          · rw [if_neg hagree, if_neg hagree]

theorem compareFrom_of_take {n : Nat}
    (h : (c.compareFrom s index (pairs.take n)).1 ≠ .ok .noDivergence) :
    (c.compareFrom s index pairs).1 = (c.compareFrom s index (pairs.take n)).1 := by
  have happend := compareFrom_append h (pairs.drop n)
  rwa [List.take_append_drop] at happend

/-- A search that stops at an index has read the claims up to it. -/
theorem compareFrom_take (h : (c.compareFrom s index pairs).1 = .ok divergence)
    (hk : divergence.index? = some k) :
    ∃ j, k = index + j ∧ (c.compareFrom s index (pairs.take (j + 1))).1 = .ok divergence := by
  -- on the claims; what is found in the rest has an index that is one more in the whole
  induction pairs generalizing s index with
  | nil =>
      obtain rfl : Divergence.noDivergence = divergence := Except.ok.inj h
      cases hk
  | cons pair rest ih =>
      rw [compareFrom_cons, Outcome.bind_eq_ok_iff] at h
      obtain ⟨own, hcut, h⟩ := h
      by_cases hagree : own.hash = pair.2.hash
      · rw [if_pos hagree] at h
        obtain ⟨j, rfl, hj⟩ := ih h
        refine ⟨j + 1, by omega, ?_⟩
        rw [List.take_succ_cons, compareFrom_cons, hcut, Outcome.ok_bind, if_pos hagree, hj]
      · rw [if_neg hagree] at h
        have hindex : index = k := by
          obtain rfl := Except.ok.inj h
          by_cases hzero : index = 0
          · simpa [hzero, Divergence.index?] using hk
          · simpa [hzero, Divergence.index?] using hk
        refine ⟨0, hindex.symm, ?_⟩
        rw [List.take_succ_cons, compareFrom_cons, hcut, Outcome.ok_bind, if_neg hagree, h]

/-- The outcome of a search that stops at an index is fixed by the offsets and claims
up to that index, and by the offsets being sorted. -/
theorem locate_congr {offsets' : List UInt64} {claimed' : List Cut} (hm : c.machine? = some m)
    (hlength : offsets.length = claimed.length)
    (h : (c.locate offsets claimed).outcome = .ok divergence)
    (hk : divergence.index? = some k) (hlength' : offsets'.length = claimed'.length)
    (hsorted' : offsets'.Pairwise (· ≤ ·))
    (hoffsets : offsets'.take (k + 1) = offsets.take (k + 1))
    (hclaimed : claimed'.take (k + 1) = claimed.take (k + 1)) :
    (c.locate offsets' claimed').outcome = .ok divergence := by
  rw [outcome_locate hlength, Outcome.bind_eq_ok_iff] at h
  obtain ⟨s, hopen, hfound⟩ := h
  obtain ⟨j, hj, hread⟩ := compareFrom_take hfound hk
  obtain rfl : k = j := by omega
  have hopen' : c.openSession offsets' = .ok (s.openedFor offsets') := by
    rw [openSession_eq_ok_iff hm] at hopen ⊢
    obtain ⟨-, rfl⟩ := Session.start_eq_ok_iff.mp hopen
    exact Session.start_eq_ok_iff.mpr ⟨hsorted', rfl⟩
  have hzip : (offsets'.zip claimed').take (k + 1) = (offsets.zip claimed).take (k + 1) := by
    rw [List.zip_eq_zipWith, List.zip_eq_zipWith, List.take_zipWith, List.take_zipWith, hoffsets,
      hclaimed]
  rw [← hzip] at hread
  -- the search has stopped within the claims that the two lists share
  have hstopped : (c.compareFrom s 0 ((offsets'.zip claimed').take (k + 1))).1 ≠
      .ok .noDivergence := by
    rw [hread]
    rintro heq
    obtain rfl := Except.ok.inj heq
    cases hk
  calc (c.locate offsets' claimed').outcome
      = (c.compareFrom (s.openedFor offsets') 0 (offsets'.zip claimed')).1 := by
        rw [outcome_locate hlength', hopen', Outcome.ok_bind]
    _ = (c.compareFrom s 0 (offsets'.zip claimed')).1 := compareFrom_openedFor ..
    _ = (c.compareFrom s 0 ((offsets'.zip claimed').take (k + 1))).1 :=
        compareFrom_of_take hstopped
    _ = .ok divergence := hread

/-! ## Own cuts and fresh replays -/

/-- Asked for a cut at a single offset, a party shows its own, unless a sum of gas does not
fit in a word. -/
theorem cutsAt_singleton_cases (hm : c.machine? = some m) (offset : UInt64) :
    ((c.cutsAt [offset]).outcome = [offset].mapM (c.ownCut m) ∧ c.Counts m offset) ∨
      ((c.cutsAt [offset]).outcome = .error (.fault .addOverflow) ∧
        UInt64.size ≤ gasSum m.program) := by
  have hsorted : [offset].Pairwise (· ≤ ·) := List.pairwise_singleton _ _
  by_cases hcount : c.Counts m offset
  · refine .inl ⟨cutsAt_of_countable hm hsorted fun o ho => ?_, hcount⟩
    rwa [List.mem_singleton.mp ho]
  · refine .inr ⟨?_, not_lt.mp fun hgas => hcount (Point.countable_of_gasSum hgas _)⟩
    obtain ⟨s, hstart⟩ := Session.exists_start m c.overshoot hsorted
    have hfault : (s.progressAt offset).1 = .error (.fault .addOverflow) := by
      by_contra hne
      exact hcount (Session.countable_of_start hstart hne)
    rw [outcome_cutsAt, (openSession_eq_ok_iff hm).mpr hstart, Outcome.ok_bind, cutsFrom_cons]
    simp [cutAt, hfault, bind, Except.bind]

theorem mapM_singleton_ownCut (c : Challenge) (m : Machine) (offset : UInt64) :
    [offset].mapM (c.ownCut m) = (c.ownCut m offset).map fun own => [own] := by
  cases h : c.ownCut m offset <;> simp [h, bind, Except.bind, pure, Except.pure, Except.map]

/-- Why a party has no cut of its own at an offset. -/
theorem ownCut_eq_error {failure : Failure ChallengeError}
    (h : c.ownCut m offset = .error failure) :
    ∃ e, failure = .refusal e ∧ ((∃ cause, e = .replay offset cause) ∨
      ∃ cause, e = .inboxBounds offset cause) := by
  unfold ownCut digestFor at h
  cases hpoint : m.pointAt c.overshoot offset with
  | error cause =>
      simp only [hpoint, Except.map, Outcome.ofExcept_error, Outcome.mapRefusal_refuse,
        Outcome.error_bind, Except.error.injEq] at h
      exact ⟨_, h.symm, .inl ⟨cause, rfl⟩⟩
  | ok p =>
      cases hdigest : c.inbox.digestAt p.progress.messagesRead with
      | error cause =>
          simp only [hpoint, hdigest, Except.map, Outcome.ofExcept_ok, Outcome.ofExcept_error,
            Outcome.mapRefusal_ok, Outcome.mapRefusal_refuse, Outcome.ok_bind, Outcome.error_bind,
            Except.error.injEq] at h
          exact ⟨_, h.symm, .inr ⟨cause, rfl⟩⟩
      | ok digest => simp [hpoint, hdigest, Except.map, pure, Except.pure] at h

/-- The claim with this index departs from the party's cuts: asked for its cut at that offset
alone, the party shows none with the same hash. -/
def Departs (c : Challenge) (offsets : List UInt64) (claimed : List Cut) (i : Nat) : Prop :=
  ∃ o claim, offsets[i]? = some o ∧ claimed[i]? = some claim ∧
    ∀ own, (c.cutsAt [o]).outcome = .ok [own] → own.hash ≠ claim.hash

theorem agrees_of_not_departs (hm : c.machine? = some m) {i : Nat}
    (h : ¬ c.Departs offsets claimed i) (ho : offsets[i]? = some offset)
    (hclaim : claimed[i]? = some claim) : c.Agrees m offset claim ∧ c.Counts m offset := by
  unfold Departs at h
  push Not at h
  obtain ⟨own, hown, heq⟩ := h offset claim ho hclaim
  rcases cutsAt_singleton_cases hm offset with ⟨hsame, hcount⟩ | ⟨hfault, -⟩
  · rw [hsame, mapM_singleton_ownCut] at hown
    cases hcut : c.ownCut m offset with
    | error e => simp [hcut, Except.map] at hown
    | ok own' =>
        obtain rfl : own' = own := by simpa [hcut, Except.map] using hown
        exact ⟨⟨own', hcut, heq⟩, hcount⟩
  · simp [hown] at hfault

/-! ## What decides a search -/

theorem compareOwn_append_of_agrees (h : ∀ pair ∈ pairs, c.Agrees m pair.1 pair.2)
    (rest : List (UInt64 × Cut)) :
    c.compareOwn m index (pairs ++ rest) = c.compareOwn m (index + pairs.length) rest := by
  induction pairs generalizing index with
  | nil => rfl
  | cons pair pairs ih =>
      have hpair : c.Agrees m pair.1 pair.2 := h pair (List.mem_cons_self ..)
      have hpairs : ∀ pair ∈ pairs, c.Agrees m pair.1 pair.2 :=
        fun pair hmem => h pair (List.mem_cons_of_mem _ hmem)
      rw [List.cons_append, compareOwn_of_agrees hpair, ih hpairs, List.length_cons]
      congr 1
      omega

/-- A session opened for sorted offsets compares what can be counted as if every cut were there. -/
theorem compareFrom_of_countable (hstart : Session.start m c.overshoot offsets = .ok s)
    (hpairs : (pairs.map Prod.fst).Pairwise (· ≤ ·))
    (hcount : ∀ pair ∈ pairs, c.Counts m pair.1) :
    (c.compareFrom s index pairs).1 = c.compareOwn m index pairs := by
  obtain ⟨hsound, hlast, hover, -⟩ := Session.sound_start hstart
  rcases compareFrom_cases hsound hover hpairs fun pair _ => Session.inOrder_of_last hlast with
    heq | ⟨-, pair, hpair, hnot⟩
  · exact heq
  · exact absurd (hcount pair hpair) hnot

/-- The claims before the first that departs agree with the party's own cuts. -/
theorem agrees_before (hm : c.machine? = some m)
    (hbefore : ∀ i < k, ¬ c.Departs offsets claimed i) :
    ∀ pair ∈ (offsets.zip claimed).take k, c.Agrees m pair.1 pair.2 ∧ c.Counts m pair.1 := by
  rintro ⟨o, claim⟩ hpair
  obtain ⟨i, hi⟩ := List.mem_iff_getElem?.mp hpair
  rw [List.getElem?_take, Option.ite_none_right_eq_some] at hi
  obtain ⟨hik, hget⟩ := hi
  obtain ⟨ho, hclaim⟩ := List.getElem?_zip_eq_some.mp hget
  exact agrees_of_not_departs hm (hbefore i hik) ho hclaim

theorem outcome_locate_of_start (hm : c.machine? = some m)
    (hlength : offsets.length = claimed.length)
    (hstart : Session.start m c.overshoot offsets = .ok s) :
    (c.locate offsets claimed).outcome = (c.compareFrom s 0 (offsets.zip claimed)).1 := by
  rw [outcome_locate hlength, (openSession_eq_ok_iff hm).mpr hstart, Outcome.ok_bind]

theorem pairwise_take_zip (hlength : offsets.length = claimed.length)
    (hsorted : offsets.Pairwise (· ≤ ·)) (n : Nat) :
    (((offsets.zip claimed).take n).map Prod.fst).Pairwise (· ≤ ·) := by
  rw [List.map_take, List.map_fst_zip hlength.le]
  exact hsorted.sublist (List.take_sublist _ _)

/-- If no claim departs, the search finds nothing. -/
theorem locate_of_none_departs (hm : c.machine? = some m)
    (hlength : offsets.length = claimed.length) (hsorted : offsets.Pairwise (· ≤ ·))
    (hnone : ∀ i, ¬ c.Departs offsets claimed i) :
    (c.locate offsets claimed).outcome = .ok .noDivergence := by
  obtain ⟨s, hstart⟩ := Session.exists_start m c.overshoot hsorted
  have hall : ∀ pair ∈ offsets.zip claimed, c.Agrees m pair.1 pair.2 ∧ c.Counts m pair.1 := by
    have htake := agrees_before (k := (offsets.zip claimed).length) hm fun i _ => hnone i
    rwa [List.take_length] at htake
  have hpairs := pairwise_take_zip hlength hsorted (offsets.zip claimed).length
  rw [List.take_length] at hpairs
  calc (c.locate offsets claimed).outcome
      = (c.compareFrom s 0 (offsets.zip claimed)).1 := outcome_locate_of_start hm hlength hstart
    _ = c.compareOwn m 0 (offsets.zip claimed) :=
        compareFrom_of_countable hstart hpairs fun pair hpair => (hall pair hpair).2
    _ = c.compareOwn m 0 (offsets.zip claimed ++ []) := by rw [List.append_nil]
    _ = .ok .noDivergence := by
        rw [compareOwn_append_of_agrees fun pair hpair => (hall pair hpair).1]
        rfl

/-- A search comes out like the comparison of the first claim that departs, if that can be
counted. -/
theorem locate_of_departs (hm : c.machine? = some m) (hlength : offsets.length = claimed.length)
    (hsorted : offsets.Pairwise (· ≤ ·)) (hbefore : ∀ i < k, ¬ c.Departs offsets claimed i)
    (ho : offsets[k]? = some offset) (hclaim : claimed[k]? = some claim)
    (hcount : c.Counts m offset)
    (hdecides : c.compareOwn m k [(offset, claim)] ≠ .ok .noDivergence) :
    (c.locate offsets claimed).outcome = c.compareOwn m k [(offset, claim)] := by
  obtain ⟨s, hstart⟩ := Session.exists_start m c.overshoot hsorted
  have hagrees := agrees_before hm hbefore
  have hget : (offsets.zip claimed)[k]? = some (offset, claim) :=
    List.getElem?_zip_eq_some.mpr ⟨ho, hclaim⟩
  have hupTo : (offsets.zip claimed).take (k + 1) =
      (offsets.zip claimed).take k ++ [(offset, claim)] := by
    rw [List.take_add_one, hget, Option.toList_some]
  have hk : ((offsets.zip claimed).take k).length = k := by
    rw [List.length_take]
    exact min_eq_left (List.getElem?_eq_some_iff.mp hget).1.le
  -- the comparison up to `k` agrees all the way and leaves the last claim to decide
  have hread : (c.compareFrom s 0 ((offsets.zip claimed).take (k + 1))).1 =
      c.compareOwn m k [(offset, claim)] := by
    rw [compareFrom_of_countable hstart (pairwise_take_zip hlength hsorted _), hupTo,
      compareOwn_append_of_agrees fun pair hpair => (hagrees pair hpair).1, hk, Nat.zero_add]
    intro pair hpair
    rw [hupTo, List.mem_append, List.mem_singleton] at hpair
    rcases hpair with hpair | rfl
    · exact (hagrees pair hpair).2
    · exact hcount
  calc (c.locate offsets claimed).outcome
      = (c.compareFrom s 0 (offsets.zip claimed)).1 := outcome_locate_of_start hm hlength hstart
    _ = (c.compareFrom s 0 ((offsets.zip claimed).take (k + 1))).1 :=
        compareFrom_of_take (by rwa [hread])
    _ = c.compareOwn m k [(offset, claim)] := hread

/-- The cuts up to the first claim that departs are refused as the last of them is. -/
theorem cutsAt_take_of_departs (hm : c.machine? = some m)
    (hlength : offsets.length = claimed.length) (hsorted : offsets.Pairwise (· ≤ ·))
    (hbefore : ∀ i < k, ¬ c.Departs offsets claimed i) (ho : offsets[k]? = some offset)
    (hcount : c.Counts m offset) {e : ChallengeError}
    (hown : c.ownCut m offset = .refuse e) :
    (c.cutsAt (offsets.take (k + 1))).outcome = .refuse e := by
  have hupTo : offsets.take (k + 1) = offsets.take k ++ [offset] := by
    rw [List.take_add_one, ho, Option.toList_some]
  -- what does not depart has been compared, so its own cut is there
  have hagrees : ∀ o ∈ offsets.take k, ∃ own, c.ownCut m o = .ok own := by
    intro o hmem
    rw [← List.map_fst_zip hlength.le, ← List.map_take] at hmem
    obtain ⟨pair, hpair, rfl⟩ := List.mem_map.mp hmem
    obtain ⟨⟨own, hcut, -⟩, -⟩ := agrees_before hm hbefore pair hpair
    exact ⟨own, hcut⟩
  have hcounts : ∀ o ∈ offsets.take (k + 1), c.Counts m o := by
    have hsorted' : (offsets.take k ++ [offset]).Pairwise (· ≤ ·) := by
      rw [← hupTo]
      exact hsorted.sublist (List.take_sublist _ _)
    intro o hmem
    rw [hupTo, List.mem_append, List.mem_singleton] at hmem
    rcases hmem with hmem | rfl
    · exact hcount.mono ((List.pairwise_append.mp hsorted').2.2 o hmem offset
        (List.mem_singleton_self _))
    · exact hcount
  obtain ⟨owns, howns⟩ := Outcome.exists_mapM_eq_ok hagrees
  rw [cutsAt_of_countable hm (hsorted.sublist (List.take_sublist _ _)) hcounts, hupTo,
    List.mapM_append, howns, mapM_singleton_ownCut, hown]
  rfl

/-- A list out of order has a descent, and that is where it is refused. -/
theorem firstDescent_of_not_pairwise (h : ¬ offsets.Pairwise (· ≤ ·)) :
    ∃ previous offset i, Session.firstDescent offsets = some (previous, offset) ∧
      offsets[i]? = some previous ∧ offsets[i + 1]? = some offset ∧ offset < previous := by
  rw [← Session.firstDescent_eq_none_iff] at h
  obtain ⟨⟨previous, offset⟩, hdescent⟩ := Option.ne_none_iff_exists'.mp h
  refine ⟨previous, offset, ?_⟩
  clear h
  -- on the list; a descent past the head is one of the tail, an index later
  induction offsets with
  | nil => simp [Session.firstDescent] at hdescent
  | cons x rest ih =>
      cases rest with
      | nil => simp [Session.firstDescent] at hdescent
      | cons y rest =>
          rw [Session.firstDescent] at hdescent ⊢
          by_cases hlt : y < x
          · rw [if_pos hlt] at hdescent ⊢
            obtain ⟨rfl, rfl⟩ := Prod.mk.inj (Option.some.inj hdescent)
            exact ⟨0, rfl, rfl, rfl, hlt⟩
          · rw [if_neg hlt] at hdescent ⊢
            obtain ⟨i, hfirst, hprevious, hoffset, hdesc⟩ := ih hdescent
            exact ⟨i + 1, hfirst, hprevious, hoffset, hdesc⟩

/-- The outcome of a comparison is decided at the claim with index `k`, about `offset`. -/
structure DecidedAt (c : Challenge) (m : Machine) (offsets : List UInt64) (claimed : List Cut)
    (k : Nat) (offset : UInt64) : Prop where
  offset_eq : offsets[k]? = some offset
  /-- If there is a cut to compare with, the outcome names the index. -/
  differs : ∀ own, (c.cutsAt [offset]).outcome = .ok own →
    (c.locate offsets claimed).outcome = .ok (if k = 0 then .firstCutMismatch else .found k)
  /-- If there is none, the comparison fails as the request for all cuts up to there does. -/
  refused : ∀ e, (c.cutsAt [offset]).outcome = .refuse e →
    ((∃ cause, e = .replay offset cause) ∨ ∃ cause, e = .inboxBounds offset cause) ∧
      (c.cutsAt (offsets.take (k + 1))).outcome = .refuse e ∧
      (c.locate offsets claimed).outcome = .refuse e
  /-- A replay is abandoned only if the gas of the program does not fit in a word. -/
  abandoned : ∀ f, (c.cutsAt [offset]).outcome = .error (.fault f) →
    UInt64.size ≤ gasSum m.program

theorem decidedAt_of_isLeast (hm : c.machine? = some m) (hlength : offsets.length = claimed.length)
    (hsorted : offsets.Pairwise (· ≤ ·)) (h : IsLeast {i | c.Departs offsets claimed i} k) :
    ∃ offset, c.DecidedAt m offsets claimed k offset := by
  obtain ⟨⟨offset, claim, ho, hclaim, hdeparts⟩, hleast⟩ := h
  have hbefore : ∀ i < k, ¬ c.Departs offsets claimed i :=
    fun i hi hdeparts => (hleast hdeparts).not_gt hi
  -- the offset that departs has a cut of its own, is refused, or cannot be counted up to
  rcases cutsAt_singleton_cases hm offset with ⟨hsame, hcount⟩ | ⟨hfault, hgas⟩
  · rw [mapM_singleton_ownCut] at hsame
    cases hown : c.ownCut m offset with
    | ok own =>
        have hone : (c.cutsAt [offset]).outcome = .ok [own] := by
          rw [hsame, hown]
          rfl
        have hdiffers : c.Differs m offset claim := ⟨own, hown, hdeparts own hone⟩
        have hcompare : c.compareOwn m k [(offset, claim)] =
            .ok (if k = 0 then .firstCutMismatch else .found k) :=
          compareOwn_of_differs hdiffers
        have hlocate := locate_of_departs hm hlength hsorted hbefore ho hclaim hcount
          (by rw [hcompare]; split <;> simp)
        exact ⟨offset, ho, fun _ _ => hlocate.trans hcompare, by simp [hone], by simp [hone]⟩
    | error failure =>
        obtain ⟨e, rfl, hcause⟩ := ownCut_eq_error hown
        have hone : (c.cutsAt [offset]).outcome = .refuse e := by
          rw [hsame, hown]
          rfl
        have hcompare : c.compareOwn m k [(offset, claim)] = .refuse e := by
          rw [compareOwn, hown, Outcome.error_bind]
        have hlocate := locate_of_departs hm hlength hsorted hbefore ho hclaim hcount
          (by simp [hcompare])
        refine ⟨offset, ho, by simp [hone], fun e' he' => ?_, by simp [hone]⟩
        obtain rfl : e = e' := by simpa [hone] using he'
        exact ⟨hcause, cutsAt_take_of_departs hm hlength hsorted hbefore ho hcount hown,
          hlocate.trans hcompare⟩
  · exact ⟨offset, ho, by simp [hfault], by simp [hfault], fun _ _ => hgas⟩

/-- A session is not opened for offsets out of order, whatever the claims. -/
theorem locate_of_not_pairwise (hm : c.machine? = some m)
    (hlength : offsets.length = claimed.length) (h : ¬ offsets.Pairwise (· ≤ ·)) :
    ∃ i previous offset, offsets[i]? = some previous ∧ offsets[i + 1]? = some offset ∧
      offset < previous ∧ (c.locate offsets claimed).outcome =
        .refuse (.replay (offsets.headD 0) (.outOfOrder offset previous)) := by
  obtain ⟨previous, offset, i, hdescent, hprevious, hoffset, hlt⟩ := firstDescent_of_not_pairwise h
  refine ⟨i, previous, offset, hprevious, hoffset, hlt, ?_⟩
  unfold machine? at hm
  have hopen : c.openSession offsets =
      .refuse (.replay (offsets.headD 0) (.outOfOrder offset previous)) := by
    simp [openSession, Checkpoints.openSession, hm, Session.start, hdescent]
  rw [outcome_locate hlength, hopen, Outcome.error_bind]

/-- Comparing lazily, in one session, comes out like replaying every cut on its own and looking
at the first claim that departs; and nothing after that claim makes a difference. -/
theorem locate_decided_by_first_departure (hm : c.machine? = some m)
    (hlength : offsets.length = claimed.length) :
    (offsets.Pairwise (· ≤ ·) →
      ((∀ i, ¬ c.Departs offsets claimed i) →
        (c.locate offsets claimed).outcome = .ok .noDivergence) ∧
      ∀ k, IsLeast {i | c.Departs offsets claimed i} k →
        ∃ offset, c.DecidedAt m offsets claimed k offset) ∧
    (¬ offsets.Pairwise (· ≤ ·) →
      ∃ i previous offset, offsets[i]? = some previous ∧ offsets[i + 1]? = some offset ∧
        offset < previous ∧ (c.locate offsets claimed).outcome =
          .refuse (.replay (offsets.headD 0) (.outOfOrder offset previous))) ∧
    ∀ divergence k, (c.locate offsets claimed).outcome = .ok divergence →
      divergence.index? = some k → ∀ offsets' claimed', offsets'.length = claimed'.length →
        offsets'.Pairwise (· ≤ ·) → offsets'.take (k + 1) = offsets.take (k + 1) →
          claimed'.take (k + 1) = claimed.take (k + 1) →
            (c.locate offsets' claimed').outcome = .ok divergence := by
  refine ⟨fun hsorted => ⟨?_, ?_⟩, ?_, ?_⟩
  · intro hnone
    exact locate_of_none_departs hm hlength hsorted hnone
  · intro k hleast
    exact decidedAt_of_isLeast hm hlength hsorted hleast
  · intro hnot
    exact locate_of_not_pairwise hm hlength hnot
  · intro divergence k hlocate hk offsets' claimed' hlength' hsorted' hoffsets hclaimed
    exact locate_congr hm hlength hlocate hk hlength' hsorted' hoffsets hclaimed

theorem reader_comparison_decided_past_end :
    readerChallenge.machine? = some readerMachine ∧
      ∃ own, (readerChallenge.cutsAt [1]).outcome = .ok [own] ∧
        [(1 : UInt64), 1000].length = [own, own].length ∧
        IsLeast {i | readerChallenge.Departs [1, 1000] [own, own] i} 1 ∧
        (readerChallenge.locate [1, 1000] [own, own]).outcome =
          .refuse (.replay 1000 (.beyondTrace 1000 18)) := by
  have hopen : ∀ offset, readerChallenge.openSession [offset] =
      .ok { machine := readerMachine, progress := .start readerMachine.hash, overshoot := true,
            offsets := [offset] } :=
    fun offset => (openSession_eq_ok_iff machine?_readerChallenge).mpr rfl
  have hpast : (readerChallenge.cutsAt [1000]).outcome =
      .refuse (.replay 1000 (.beyondTrace 1000 18)) := by
    rw [outcome_cutsAt, hopen, Outcome.ok_bind]
    rfl
  obtain ⟨own, hown⟩ : ∃ own, (readerChallenge.cutsAt [1]).outcome = .ok [own] := by
    rw [outcome_cutsAt, hopen, Outcome.ok_bind]
    exact ⟨_, rfl⟩
  -- the first claim is right, and the second is past the end of the trace
  have hleast : IsLeast {i | readerChallenge.Departs [1, 1000] [own, own] i} 1 := by
    refine ⟨⟨1000, own, rfl, rfl, by simp [hpast]⟩, ?_⟩
    rintro i ⟨o, claim, ho, hclaim, hdeparts⟩
    by_contra! hlt
    obtain rfl : i = 0 := by omega
    obtain rfl : 1 = o := Option.some.inj ho
    obtain rfl : own = claim := Option.some.inj hclaim
    exact hdeparts own hown rfl
  have hlength : [(1 : UInt64), 1000].length = [own, own].length := rfl
  have hsorted : [(1 : UInt64), 1000].Pairwise (· ≤ ·) := by decide
  obtain ⟨offset, hdecided⟩ :=
    ((locate_decided_by_first_departure machine?_readerChallenge hlength).1 hsorted).2 1 hleast
  obtain rfl : 1000 = offset := Option.some.inj hdecided.offset_eq
  exact ⟨machine?_readerChallenge, own, hown, hlength, hleast, (hdecided.refused _ hpast).2.2⟩

end Challenge

end TraceDispute
