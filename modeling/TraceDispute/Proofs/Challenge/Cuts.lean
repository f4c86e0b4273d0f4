import TraceDispute.Challenge.Basic
import TraceDispute.Proofs.Outcome
import TraceDispute.Proofs.Replay.Position

/-!
# A party's own cuts

`Challenge.ownCut` is the cut that a party's machine has at an offset, read off
its trace.  `Challenge.cutsAt` replays many offsets in one session, and comes out
as if every offset had been looked up by itself: the cuts at sorted offsets are
the own cuts, up to the first offset that has none (`cutsAt_cases`).

The only other outcome is the fault of a sum of gas that does not fit in a word.
An offset whose own cut can be replayed on its own is free of it
(`counts_of_cutsAt`), with all offsets before it (`Counts.mono`).
-/

namespace TraceDispute

namespace Challenge

variable {c : Challenge} {m : Machine} {s : Session} {offset : UInt64} {offsets : List UInt64}

/-- The machine that the challenge is about, if its cursor resolves. -/
def machine? (c : Challenge) : Option Machine := c.checkpoints.find? c.cursor.machineHash

/-- The cut that `m` has at an offset. -/
def ownCut (c : Challenge) (m : Machine) (offset : UInt64) : Outcome ChallengeError Cut := do
  let p ← (Outcome.ofExcept ((m.pointAt c.overshoot offset).map Point.progress)).mapRefusal
    (.replay offset)
  let inboxDelta ← c.digestFor offset p
  return Cut.ofProgress p inboxDelta

/-- Every sum of gas on the way to an offset fits in a word. -/
def Counts (c : Challenge) (m : Machine) (offset : UInt64) : Prop :=
  (m.restAt c.overshoot offset.toNat).Countable c.overshoot offset.toNat

theorem Counts.mono {later : UInt64} (h : c.Counts m later) (hle : offset ≤ later) :
    c.Counts m offset :=
  Point.Countable.mono (UInt64.le_iff_toNat_le.mp hle) h

/-- The gas used up to an offset fits in a word. -/
def Fits (c : Challenge) (m : Machine) (offset : UInt64) : Prop :=
  (m.restAt c.overshoot offset.toNat).gas < UInt64.size

theorem Counts.fits (h : c.Counts m offset) : c.Fits m offset := h.gas_lt

theorem ownCut_eq_ok_iff {cut : Cut} :
    c.ownCut m offset = .ok cut ↔
      ∃ p digest, m.pointAt c.overshoot offset = .ok p ∧
        c.inbox.digestAt p.progress.messagesRead = .ok digest ∧
        cut = Cut.ofProgress p.progress digest := by
  unfold ownCut digestFor
  rw [Outcome.bind_eq_ok_iff]
  simp only [Outcome.mapRefusal_eq_ok_iff, Outcome.ofExcept_eq_ok_iff, Outcome.bind_eq_ok_iff]
  cases m.pointAt c.overshoot offset with
  | error e => simp [Except.map]
  | ok p => simp [Except.map, pure, Except.pure, eq_comm]

theorem digestAt_of_le {table : InboxTable} {count fewer : UInt64} {digest : Word}
    (hle : fewer ≤ count) (h : table.digestAt count = .ok digest) :
    ∃ digest', table.digestAt fewer = .ok digest' := by
  rw [UInt64.le_iff_toNat_le] at hle
  unfold InboxTable.digestAt at h ⊢
  split at h
  · rename_i hget
    have hlt : fewer.toNat < table.digests.length :=
      hle.trans_lt (List.getElem?_eq_some_iff.mp hget).1
    exact ⟨table.digests[fewer.toNat], by simp [hlt]⟩
  · cases h

/-- Where a party has a cut, it has one at every earlier offset. -/
theorem ownCut_of_le {later : UInt64} {cut : Cut} (hle : offset ≤ later)
    (h : c.ownCut m later = .ok cut) : ∃ cut', c.ownCut m offset = .ok cut' := by
  obtain ⟨p, digest, hp, hdigest, -⟩ := ownCut_eq_ok_iff.mp h
  have hpoint := Machine.pointAt_of_le hle hp
  obtain ⟨rfl, -⟩ := Machine.pointAt_eq_ok_iff.mp hp
  have hreads : (m.restAt c.overshoot offset.toNat).progress.messagesRead ≤
      (m.restAt c.overshoot later.toNat).progress.messagesRead := by
    have hmono : (m.restAt c.overshoot offset.toNat).reads ≤
        (m.restAt c.overshoot later.toNat).reads := by
      rw [Machine.restAt, Machine.restAt, ← Point.settle_settle (UInt64.le_iff_toNat_le.mp hle)]
      exact Point.reads_le_settle
    rwa [UInt64.le_iff_toNat_le, (m.behind_restAt ..).toNat_messagesRead,
      (m.behind_restAt ..).toNat_messagesRead]
  obtain ⟨digest', hdigest'⟩ := digestAt_of_le hreads hdigest
  exact ⟨_, ownCut_eq_ok_iff.mpr ⟨_, digest', hpoint, hdigest', rfl⟩⟩

/-! ## Cuts from one session -/

theorem openSession_eq_ok_iff (hm : c.machine? = some m) :
    c.openSession offsets = .ok s ↔ Session.start m c.overshoot offsets = .ok s := by
  unfold machine? at hm
  simp [openSession, Checkpoints.openSession, hm]

theorem within_openSession {refusals : ChallengeError → Prop} {faults : Fault → Prop}
    (c : Challenge) (h : ∀ cause, refusals (.replay (offsets.headD 0) cause)) :
    (c.openSession offsets).Within refusals faults :=
  .mapRefusal_ofExcept h _

theorem machine?_of_openSession (h : c.openSession offsets = .ok s) :
    ∃ m, c.machine? = some m := by
  cases hm : c.machine? with
  | some m => exact ⟨m, rfl⟩
  | none =>
      unfold machine? at hm
      simp [openSession, Checkpoints.openSession, hm] at h

theorem cutAt_of_inOrder (hs : s.Sound m) (hover : s.overshoot = c.overshoot)
    (horder : s.InOrder offset) :
    (∃ s', s.After m offset s' ∧ c.cutAt s offset = (c.ownCut m offset, s')) ∨
      ((c.cutAt s offset).1 = .error (.fault .addOverflow) ∧ ¬ c.Counts m offset) := by
  unfold Counts
  rw [← hover]
  rcases Session.progressAt_of_inOrder hs horder with ⟨s', hafter, heq⟩ | ⟨heq, hcount⟩
  · exact .inl ⟨s', hafter, by rw [cutAt, heq, ownCut, hover]⟩
  · refine .inr ⟨?_, hcount⟩
    simp only [cutAt, heq, Outcome.mapRefusal_fault, bind, Except.bind]

theorem cutsFrom_cons (c : Challenge) (s : Session) (o : UInt64) (rest : List UInt64) :
    (c.cutsFrom s (o :: rest)).1 = (do
      let cut ← (c.cutAt s o).1
      let cuts ← (c.cutsFrom (c.cutAt s o).2 rest).1
      return cut :: cuts) := by
  rw [cutsFrom]
  rcases c.cutAt s o with ⟨_ | cut, s'⟩
  · rfl
  · rcases h : c.cutsFrom s' rest with ⟨_ | cuts, s''⟩ <;> simp [h, bind, Except.bind, pure,
      Except.pure]

theorem cutsFrom_cases (hs : s.Sound m) (hover : s.overshoot = c.overshoot)
    (hsorted : offsets.Pairwise (· ≤ ·)) (horder : ∀ o ∈ offsets, s.InOrder o) :
    (c.cutsFrom s offsets).1 = offsets.mapM (c.ownCut m) ∨
      ((c.cutsFrom s offsets).1 = .error (.fault .addOverflow) ∧
        ∃ o ∈ offsets, ¬ c.Counts m o) := by
  -- on the offsets; the session after one of them is in order for all that follow
  induction offsets generalizing s with
  | nil => exact .inl rfl
  | cons o rest ih =>
      rw [List.pairwise_cons] at hsorted
      rw [cutsFrom_cons, List.mapM_cons]
      rcases cutAt_of_inOrder hs hover (horder o (List.mem_cons_self ..)) with
        ⟨s', hafter, heq⟩ | ⟨heq, hcount⟩
      · rw [heq]
        cases hcut : c.ownCut m o with
        | error e => exact .inl rfl
        | ok cut =>
            have hrest := ih hafter.sound (hafter.overshoot_eq.trans hover) hsorted.2
              fun o' ho' => hafter.inOrder (hsorted.1 o' ho')
            rcases hrest with hrest | ⟨hrest, o', ho', hcount⟩
            · exact .inl (by rw [hrest])
            · exact .inr ⟨by rw [hrest]; rfl, o', List.mem_cons_of_mem _ ho', hcount⟩
      · exact .inr ⟨by rw [heq]; rfl, o, List.mem_cons_self .., hcount⟩

theorem fits_of_cutsFrom {cuts : List Cut} (hs : s.Sound m) (hover : s.overshoot = c.overshoot)
    (hsorted : offsets.Pairwise (· ≤ ·)) (horder : ∀ o ∈ offsets, s.InOrder o)
    (h : (c.cutsFrom s offsets).1 = .ok cuts) : ∀ o ∈ offsets, c.Fits m o := by
  induction offsets generalizing s cuts with
  | nil => simp
  | cons o rest ih =>
      rw [List.pairwise_cons] at hsorted
      rw [cutsFrom_cons, Outcome.bind_eq_ok_iff] at h
      obtain ⟨cut, hcut, hrest⟩ := h
      obtain ⟨cuts', hcuts', -⟩ := Outcome.bind_eq_ok_iff.mp hrest
      rcases cutAt_of_inOrder hs hover (horder o (List.mem_cons_self ..)) with
        ⟨s', hafter, heq⟩ | ⟨heq, -⟩
      · -- an offset that was reached is one up to which the machine could count
        rw [heq] at hcuts'
        have hfits := ih hafter.sound (hafter.overshoot_eq.trans hover) hsorted.2
          (fun o' ho' => hafter.inOrder (hsorted.1 o' ho')) hcuts'
        intro o' ho'
        rcases List.mem_cons.mp ho' with rfl | ho'
        · rw [Fits, ← hover]
          exact hafter.gas_lt
        · exact hfits o' ho'
      · simp [heq] at hcut

theorem outcome_cutsAt (c : Challenge) (offsets : List UInt64) :
    (c.cutsAt offsets).outcome = (do
      let s ← c.openSession offsets
      (c.cutsFrom s offsets).1) := by
  simp only [cutsAt, tellReplays, Report.outcome_bind, Report.outcome_of, Report.outcome_tell]
  rfl

/-- Cuts are replayed only from a cursor that resolves, at sorted offsets. -/
theorem machine?_of_cutsAt {cuts : List Cut} (h : (c.cutsAt offsets).outcome = .ok cuts) :
    ∃ m, c.machine? = some m ∧ offsets.Pairwise (· ≤ ·) := by
  rw [outcome_cutsAt, Outcome.bind_eq_ok_iff] at h
  obtain ⟨s, hs, -⟩ := h
  obtain ⟨m, hm⟩ := machine?_of_openSession hs
  rw [openSession_eq_ok_iff hm, Session.start_eq_ok_iff] at hs
  exact ⟨m, hm, hs.1⟩

/-- The cuts at sorted offsets are the own cuts, unless a sum of gas does not fit. -/
theorem cutsAt_cases (hm : c.machine? = some m) (hsorted : offsets.Pairwise (· ≤ ·)) :
    (c.cutsAt offsets).outcome = offsets.mapM (c.ownCut m) ∨
      ((c.cutsAt offsets).outcome = .error (.fault .addOverflow) ∧
        ∃ o ∈ offsets, ¬ c.Counts m o) := by
  obtain ⟨s, hstart⟩ := Session.exists_start m c.overshoot hsorted
  obtain ⟨hsound, hlast, hover, -⟩ := Session.sound_start hstart
  rw [outcome_cutsAt, (openSession_eq_ok_iff hm).mpr hstart]
  exact cutsFrom_cases hsound hover hsorted fun o _ => Session.inOrder_of_last hlast

/-- Cuts from a session can fail only where own cuts can, unless a sum of gas does not fit. -/
theorem within_cutsAt {refusals : ChallengeError → Prop} {faults : Fault → Prop}
    (hopen : (c.openSession offsets).Within refusals faults)
    (hown : ∀ m, c.machine? = some m → ∀ o, (c.ownCut m o).Within refusals faults)
    (hsum : faults .addOverflow) : (c.cutsAt offsets).outcome.Within refusals faults := by
  rw [outcome_cutsAt]
  refine hopen.bind fun s hs => ?_
  obtain ⟨m, hm⟩ := machine?_of_openSession hs
  obtain ⟨hsorted, -⟩ := Session.start_eq_ok_iff.mp ((openSession_eq_ok_iff hm).mp hs)
  have hcuts := cutsAt_cases hm hsorted
  rw [outcome_cutsAt, hs, Outcome.ok_bind] at hcuts
  rcases hcuts with heq | ⟨hfault, -⟩
  · rw [heq]
    exact .mapM fun o _ => hown m hm o
  · rw [hfault]
    exact hsum

theorem cutsAt_of_countable (hm : c.machine? = some m) (hsorted : offsets.Pairwise (· ≤ ·))
    (hcount : ∀ o ∈ offsets, c.Counts m o) :
    (c.cutsAt offsets).outcome = offsets.mapM (c.ownCut m) := by
  rcases cutsAt_cases hm hsorted with heq | ⟨-, o, ho, hnot⟩
  · exact heq
  · exact absurd (hcount o ho) hnot

theorem ownCut_of_cutsAt {cuts : List Cut} (hm : c.machine? = some m)
    (h : (c.cutsAt offsets).outcome = .ok cuts) :
    List.Forall₂ (fun o cut => c.ownCut m o = .ok cut) offsets cuts := by
  obtain ⟨-, -, hsorted⟩ := machine?_of_cutsAt h
  rcases cutsAt_cases hm hsorted with heq | ⟨hfault, -⟩
  · exact Outcome.mapM_eq_ok_iff.mp (heq ▸ h)
  · simp [h] at hfault

theorem fits_of_cutsAt {cuts : List Cut} (hm : c.machine? = some m)
    (h : (c.cutsAt offsets).outcome = .ok cuts) : ∀ o ∈ offsets, c.Fits m o := by
  rw [outcome_cutsAt, Outcome.bind_eq_ok_iff] at h
  obtain ⟨s, hs, h⟩ := h
  rw [openSession_eq_ok_iff hm] at hs
  obtain ⟨hsorted, -⟩ := Session.start_eq_ok_iff.mp hs
  obtain ⟨hsound, hlast, hover, -⟩ := Session.sound_start hs
  exact fits_of_cutsFrom hsound hover hsorted (fun o _ => Session.inOrder_of_last hlast) h

/-- A fresh replay of a single offset forms every sum of gas on the way to it. -/
theorem counts_of_cutsAt {cuts : List Cut} (hm : c.machine? = some m)
    (h : (c.cutsAt [offset]).outcome = .ok cuts) : c.Counts m offset := by
  rw [outcome_cutsAt, Outcome.bind_eq_ok_iff] at h
  obtain ⟨s, hs, h⟩ := h
  rw [openSession_eq_ok_iff hm] at hs
  rw [cutsFrom_cons, Outcome.bind_eq_ok_iff] at h
  obtain ⟨cut, hcut, -⟩ := h
  refine Session.countable_of_start hs fun hfault => ?_
  simp [cutAt, hfault, bind, Except.bind] at hcut

end Challenge

end TraceDispute
