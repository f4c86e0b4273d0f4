import TraceDispute.Proofs.Challenge.Moves

/-!
# A division leaves nothing out

Two players divide the same segment without telling each other where.  That works
because a division is an exact partition: the chunks of a segment, one after the
other, are its offsets, each of them once (`Segment.Division`), and the number of
chunks can be read back from the number of cuts.

What `Segment.split` and `Bisection.subSegment` answer depends on three things
only (`Segment.Divided`, `Bisection.Derived`):

* a segment whose end is not a word is refused, whatever it is divided into;
* a list of `chunkLimit` chunks or more has no room, and the run is abandoned
  before the first of them is made;
* in every other case there is a division, and no sum on the way to it fails.
-/

namespace TraceDispute

namespace Segment

variable {s : Segment} {degree n i j : Nat}

/-! ## The chunks of a division -/

/-- The offsets of a segment, in order. -/
def covered (s : Segment) : List Nat := List.range' s.start.toNat s.length.toNat

/-- A division of a segment into `n` consecutive parts, the first as wide as it takes. -/
structure Division (s : Segment) (n : Nat) (chunks : List Segment) : Prop where
  length_eq : chunks.length = n
  /-- One after the other, the parts are the whole, with no gap and no overlap. -/
  covered_eq : chunks.flatMap covered = s.covered
  consecutive : chunks.IsChain fun part next => part.stop = .ok next.start
  width_eq : ∀ i part, chunks[i]? = some part → part.length.toNat =
    s.length.toNat / n + if i = 0 then s.length.toNat % n else 0
  nonempty : 0 < s.length.toNat → ∀ part ∈ chunks, 0 < part.length.toNat

theorem covered_chunk (hs : s.Bounded) (hi : i < n) :
    (s.chunk n i).covered = List.range' (s.boundary n i) (s.width n i) := by
  have hn : 0 < n := Nat.zero_lt_of_lt hi
  rw [covered, start_chunk, toNat_mark hs hn hi.le, toNat_length_chunk s hn]

/-- The first chunks of a division are the offsets up to where the last of them stops. -/
theorem flatMap_covered_chunks (hs : s.Bounded) (hi : i ≤ n) :
    ((List.range i).map (s.chunk n)).flatMap covered =
      List.range' s.start.toNat (s.boundary n i - s.start.toNat) := by
  induction i with
  | zero => simp
  | succ i ih =>
      have hle : s.start.toNat ≤ s.boundary n i := boundary_mono (Nat.zero_le i)
      have hstart : s.start.toNat + 1 * (s.boundary n i - s.start.toNat) = s.boundary n i := by
        omega
      have hwidth : s.boundary n i - s.start.toNat + s.width n i =
          s.boundary n (i + 1) - s.start.toNat := by
        rw [boundary_succ]
        omega
      calc ((List.range (i + 1)).map (s.chunk n)).flatMap covered
          = ((List.range i).map (s.chunk n)).flatMap covered ++ (s.chunk n i).covered := by
            rw [List.range_succ, List.map_append, List.flatMap_append]
            simp
        _ = List.range' s.start.toNat (s.boundary n i - s.start.toNat) ++
              List.range' (s.start.toNat + 1 * (s.boundary n i - s.start.toNat))
                (s.width n i) := by
            rw [ih (Nat.le_of_succ_le hi), covered_chunk hs hi, hstart]
        _ = List.range' s.start.toNat (s.boundary n (i + 1) - s.start.toNat) := by
            rw [List.range'_append, hwidth]

theorem getElem?_chunks {part : Segment} (h : ((List.range n).map (s.chunk n))[i]? = some part) :
    i < n ∧ part = s.chunk n i := by
  rw [List.getElem?_map, Option.map_eq_some_iff] at h
  obtain ⟨k, hk, rfl⟩ := h
  obtain ⟨hlt, rfl⟩ := List.getElem?_eq_some_iff.mp hk
  simp only [List.length_range] at hlt
  simp [hlt]

theorem width_pos (h : 0 < s.length.toNat) (i : Nat) : 0 < s.width (s.parts degree) i :=
  Nat.add_pos_left (div_parts_pos h) _

/-- The chunks of a split are a division. -/
theorem division_chunks (hs : s.Bounded) (degree : Nat) :
    s.Division (s.parts degree) ((List.range (s.parts degree)).map (s.chunk (s.parts degree))) := by
  have hpos := s.parts_pos degree
  have hnonempty : ∀ i, 0 < s.length.toNat → 0 < s.width (s.parts degree) i :=
    fun i h => width_pos h i
  generalize s.parts degree = n at *
  refine ⟨by simp, ?_, ?_, ?_, ?_⟩
  · have hlength : s.boundary n n - s.start.toNat = s.length.toNat := by
      rw [boundary_last hpos, Nat.add_sub_cancel_left]
    rw [flatMap_covered_chunks hs le_rfl, hlength, covered]
  · rw [List.isChain_iff_getElem]
    intro i hi
    simp only [List.length_map, List.length_range] at hi
    simp only [List.getElem_map, List.getElem_range, start_chunk]
    exact stop_chunk hs hpos (by omega)
  · intro i part hpart
    obtain ⟨-, rfl⟩ := getElem?_chunks hpart
    exact toNat_length_chunk s hpos i
  · intro hlength part hmem
    obtain ⟨i, -, rfl⟩ := List.mem_map.mp hmem
    rw [toNat_length_chunk s hpos]
    exact hnonempty i hlength

theorem map_start_chunks (s : Segment) (n : Nat) :
    ((List.range n).map (s.chunk n)).map start ++ [s.mark n n] = s.marks n := by
  simp [marks, List.range_succ, Function.comp_def]

theorem marks_strictly_increasing (hs : s.Bounded) (h : 0 < s.length.toNat) :
    (s.marks (s.parts degree)).Pairwise (· < ·) := by
  have hpos := s.parts_pos degree
  have hwidth : ∀ i, 0 < s.width (s.parts degree) i := width_pos h
  generalize s.parts degree = n at *
  rw [List.pairwise_iff_getElem]
  intro i j hi hj hij
  rw [length_marks] at hj
  simp only [marks, List.getElem_map, List.getElem_range]
  rw [UInt64.lt_iff_toNat_lt, toNat_mark hs hpos (by omega), toNat_mark hs hpos (by omega)]
  calc s.boundary n i
      < s.boundary n i + s.width n i := Nat.lt_add_of_pos_right (hwidth i)
    _ = s.boundary n (i + 1) := (s.boundary_succ n i).symm
    _ ≤ s.boundary n j := boundary_mono hij

/-! ## What a split answers -/

theorem boundaries_of_split_error {failure : Failure SegmentError}
    (h : s.split degree = .error failure) : s.boundaries degree = .error failure := by
  rw [boundaries, h, Outcome.error_bind]

/-- What a segment divided by `degree` comes to. -/
structure Divided (s : Segment) (degree : Nat) : Prop where
  /-- The end is not a word. -/
  overflow : ¬ s.Bounded → s.split degree = .refuse (.overflow s.start s.length) ∧
    s.boundaries degree = .refuse (.overflow s.start s.length)
  /-- There are more chunks than a list has room for. -/
  overfull : s.Bounded → ¬ s.Roomy degree → s.split degree = .error (.fault .capacityOverflow) ∧
    s.boundaries degree = .error (.fault .capacityOverflow)
  /-- The number of chunks is the degree, but one for each offset at most, and one at least. -/
  divided : s.Bounded → s.Roomy degree → ∃ chunks last, s.split degree = .ok chunks ∧
    s.Division (max 1 (min degree s.length.toNat)) chunks ∧ s.stop = .ok last ∧
    s.boundaries degree = .ok (chunks.map start ++ [last]) ∧
    (0 < s.length.toNat → (chunks.map start ++ [last]).Pairwise (· < ·))
  no_overflow : s.split degree ≠ .error (.fault .addOverflow) ∧
    s.boundaries degree ≠ .error (.fault .addOverflow)
  /-- The boundaries can be derived again from how many there are. -/
  derived : ∀ offsets, s.boundaries degree = .ok offsets →
    s.boundaries (offsets.length - 1) = .ok offsets

theorem exists_division (hs : s.Bounded) (hroom : s.Roomy degree) :
    ∃ chunks last, s.split degree = .ok chunks ∧ s.Division (s.parts degree) chunks ∧
      s.stop = .ok last ∧ s.boundaries degree = .ok (chunks.map start ++ [last]) ∧
      (0 < s.length.toNat → (chunks.map start ++ [last]).Pairwise (· < ·)) := by
  refine ⟨_, _, split_eq hs hroom, division_chunks hs degree,
    stop_eq_mark hs (s.parts_pos degree), ?_, ?_⟩
  · rw [map_start_chunks]
    exact boundaries_eq hs hroom
  · rw [map_start_chunks]
    exact marks_strictly_increasing hs

theorem boundaries_of_length {offsets : List UInt64} (h : s.boundaries degree = .ok offsets) :
    s.boundaries (offsets.length - 1) = .ok offsets := by
  obtain ⟨hs, hroom⟩ := bounded_of_boundaries h
  rw [boundaries_eq hs hroom] at h
  obtain rfl := Except.ok.inj h
  have hroom' : s.Roomy (s.parts degree) := by
    rw [Roomy, parts_parts]
    exact hroom
  rw [length_marks, Nat.add_sub_cancel, boundaries_eq hs hroom', parts_parts]

theorem divided (s : Segment) (degree : Nat) : s.Divided degree := by
  -- the first of the checks of `split` that fails decides, and `boundaries` passes it on
  by_cases hs : s.Bounded
  · by_cases hroom : s.Roomy degree
    · obtain ⟨chunks, last, hsplit, hrest⟩ := exists_division hs hroom
      have hboundaries := hrest.2.2.1
      exact
        { overflow := fun h => absurd hs h
          overfull := fun _ h => absurd hroom h
          divided := fun _ _ => ⟨chunks, last, hsplit, hrest⟩
          no_overflow := by simp [hsplit, hboundaries]
          derived := fun _ => boundaries_of_length }
    · have hsplit := split_of_not_roomy hs hroom
      have hboundaries := boundaries_of_split_error hsplit
      exact
        { overflow := fun h => absurd hs h
          overfull := fun _ _ => ⟨hsplit, hboundaries⟩
          divided := fun _ h => absurd h hroom
          no_overflow := by simp [hsplit, hboundaries]
          derived := fun _ => boundaries_of_length }
  · have hsplit : s.split degree = .refuse (.overflow s.start s.length) :=
      split_of_not_bounded hs
    have hboundaries := boundaries_of_split_error hsplit
    exact
      { overflow := fun _ => ⟨hsplit, hboundaries⟩
        overfull := fun h => absurd h hs
        divided := fun h => absurd h hs
        no_overflow := by simp [hsplit, hboundaries]
        derived := fun _ => boundaries_of_length }

/-- The first chunk takes what does not divide evenly. -/
example : (Segment.mk 100 10).split 3 = .ok [⟨100, 4⟩, ⟨104, 3⟩, ⟨107, 3⟩] := by rfl

/-- As many chunks as a list has no room for, on a segment whose end is a word. -/
theorem split_overfull :
    (Segment.mk 0 576460752303423488).Bounded ∧
      (¬ ∃ chunks, (Segment.mk 0 576460752303423488).split 576460752303423488 = .ok chunks) ∧
      (Segment.mk 0 576460752303423488).split 576460752303423488 =
        .error (.fault .capacityOverflow) ∧
      (Segment.mk 0 576460752303423488).boundaries 576460752303423488 =
        .error (.fault .capacityOverflow) := by
  have hs : (Segment.mk 0 576460752303423488).Bounded := by
    unfold Bounded
    decide
  have hroom : ¬ (Segment.mk 0 576460752303423488).Roomy 576460752303423488 := by
    unfold Roomy
    decide
  have hsplit := split_of_not_roomy hs hroom
  refine ⟨hs, ?_, hsplit, boundaries_of_split_error hsplit⟩
  rintro ⟨chunks, hchunks⟩
  simp [hsplit] at hchunks

end Segment

namespace Bisection

variable {b : Bisection} {i : Nat}

/-! ## What a bisection derives from its cuts -/

theorem subSegment_of_le (h : b.segmentCount ≤ i) :
    b.subSegment i = .refuse (.outOfRange i b.segmentCount) :=
  if_pos h

theorem subSegment_of_split_error {failure : Failure SegmentError} (hi : i < b.segmentCount)
    (h : b.segment.split b.segmentCount = .error failure) : b.subSegment i = .error failure := by
  rw [subSegment, if_neg (not_le.mpr hi), h, Outcome.error_bind]

/-- The parts of a bisection are the chunks of a split; a cap on their number leaves some out. -/
theorem subSegment_of_split {chunks : List Segment} (hi : i < b.segmentCount)
    (h : b.segment.split b.segmentCount = .ok chunks) :
    b.subSegment i = match chunks[i]? with
      | some part => .ok part
      | none => .refuse (.outOfRange i b.segmentCount) := by
  rw [subSegment, if_neg (not_le.mpr hi), h, Outcome.ok_bind]
  rfl

/-- What a bisection derives from its segment and the number of its cuts. -/
structure Derived (b : Bisection) : Prop where
  overflow : ¬ b.segment.Bounded →
    b.offsets = .refuse (.overflow b.segment.start b.segment.length) ∧
      ∀ i < b.segmentCount,
        b.subSegment i = .refuse (.overflow b.segment.start b.segment.length)
  overfull : b.segment.Bounded → ¬ b.segment.Roomy b.segmentCount →
    b.offsets = .error (.fault .capacityOverflow) ∧
      ∀ i < b.segmentCount, b.subSegment i = .error (.fault .capacityOverflow)
  no_overflow : b.offsets ≠ .error (.fault .addOverflow) ∧
    ∀ i, b.subSegment i ≠ .error (.fault .addOverflow)
  out_of_range : ∀ i, b.segmentCount ≤ i → b.subSegment i = .refuse (.outOfRange i b.segmentCount)
  /-- An index below the number of parts names a part if the division really has so many. -/
  capped : b.segment.Bounded → b.segment.Roomy b.segmentCount → ∀ i < b.segmentCount,
    if i < max 1 (min b.segmentCount b.segment.length.toNat) then
      ∃ part, b.subSegment i = .ok part
    else b.subSegment i = .refuse (.outOfRange i b.segmentCount)
  /-- There is an offset for every cut if the segment is long enough for the number of parts, or
  is a single part; then every part lies between the offsets of its cuts. -/
  offsets_eq : b.segment.Bounded → b.segment.Roomy b.segmentCount → 0 < b.segmentCount →
    ∃ offsets, b.offsets = .ok offsets ∧
      (offsets.length = b.cuts.length ↔
        b.segmentCount ≤ b.segment.length.toNat ∨ b.segmentCount = 1) ∧
      (offsets.length = b.cuts.length → ∀ i < b.segmentCount, ∃ part first last,
        b.subSegment i = .ok part ∧ offsets[i]? = some first ∧ offsets[i + 1]? = some last ∧
          part.start = first ∧ part.stop = .ok last)

theorem capped_of_roomy (hs : b.segment.Bounded) (hroom : b.segment.Roomy b.segmentCount)
    (hi : i < b.segmentCount) :
    if i < max 1 (min b.segmentCount b.segment.length.toNat) then ∃ part, b.subSegment i = .ok part
    else b.subSegment i = .refuse (.outOfRange i b.segmentCount) := by
  change if i < b.segment.parts b.segmentCount then _ else _
  have hpart := subSegment_of_split hi (Segment.split_eq hs hroom)
  by_cases hlt : i < b.segment.parts b.segmentCount
  · rw [if_pos hlt, hpart]
    simp [hlt]
  · rw [if_neg hlt, hpart]
    simp [hlt]

theorem length_eq_iff {offsets : List UInt64} (hpos : 0 < b.segmentCount)
    (h : b.offsets = .ok offsets) :
    offsets.length = b.cuts.length ↔
      b.segmentCount ≤ b.segment.length.toNat ∨ b.segmentCount = 1 := by
  obtain ⟨hs, hroom⟩ := Segment.bounded_of_boundaries h
  rw [Bisection.offsets, Segment.boundaries_eq hs hroom] at h
  obtain rfl := Except.ok.inj h
  have hcuts : b.cuts.length = b.segmentCount + 1 := by
    unfold segmentCount at hpos ⊢
    omega
  rw [Segment.length_marks, hcuts, Segment.parts]
  omega

/-- Where there is an offset for every cut, a part runs from one offset to the next. -/
theorem subSegment_between {offsets : List UInt64} (h : b.offsets = .ok offsets)
    (hlength : offsets.length = b.cuts.length) (hi : i < b.segmentCount) :
    ∃ part first last, b.subSegment i = .ok part ∧ offsets[i]? = some first ∧
      offsets[i + 1]? = some last ∧ part.start = first ∧ part.stop = .ok last := by
  obtain ⟨hproper, rfl⟩ := proper_of_length h hlength
  exact ⟨_, _, _, hproper.subSegment_eq hi, Segment.getElem?_marks hi.le, Segment.getElem?_marks hi,
    rfl, Segment.stop_chunk hproper.bounded hproper.pos hi⟩

theorem subSegment_ne_addOverflow (b : Bisection) (i : Nat) :
    b.subSegment i ≠ .error (.fault .addOverflow) := by
  by_cases hi : i < b.segmentCount
  · cases hsplit : b.segment.split b.segmentCount with
    | ok chunks =>
        rw [subSegment_of_split hi hsplit]
        cases chunks[i]? <;> simp
    | error failure =>
        rw [subSegment_of_split_error hi hsplit]
        intro hfault
        obtain rfl := Except.error.inj hfault
        exact (b.segment.divided b.segmentCount).no_overflow.1 hsplit
  · rw [subSegment_of_le (not_lt.mp hi)]
    simp

theorem derived (b : Bisection) : b.Derived := by
  have hdivided := b.segment.divided b.segmentCount
  refine
    { overflow := fun hs => ?_
      overfull := fun hs hroom => ?_
      no_overflow := ⟨hdivided.no_overflow.2, b.subSegment_ne_addOverflow⟩
      out_of_range := fun i => subSegment_of_le
      capped := fun hs hroom i => capped_of_roomy hs hroom
      offsets_eq := fun hs hroom hpos => ?_ }
  · obtain ⟨hsplit, hboundaries⟩ := hdivided.overflow hs
    exact ⟨hboundaries, fun i hi => subSegment_of_split_error hi hsplit⟩
  · obtain ⟨hsplit, hboundaries⟩ := hdivided.overfull hs hroom
    exact ⟨hboundaries, fun i hi => subSegment_of_split_error hi hsplit⟩
  · obtain ⟨chunks, last, -, -, -, hboundaries, -⟩ := hdivided.divided hs hroom
    exact ⟨_, hboundaries, length_eq_iff hpos hboundaries,
      fun hlength i => subSegment_between hboundaries hlength⟩

/-- A segment and the number of cuts fix an exact partition, wherever there is room for it. -/
theorem partition_fixed_by_cuts :
    (∀ (s : Segment) (degree : Nat), s.Divided degree) ∧ ∀ b : Bisection, b.Derived :=
  ⟨Segment.divided, derived⟩

end Bisection

end TraceDispute
