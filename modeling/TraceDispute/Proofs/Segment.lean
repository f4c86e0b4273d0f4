import Mathlib
import TraceDispute.Segment

/-!
# Where a segment is divided

`Segment.boundary s n i` is the `i`-th boundary of `s` divided into `n` parts,
over the natural numbers: the first part takes the remainder, the others are
`length / n` wide.  `split_eq` and `boundaries_eq` say that the words computed by
`Segment.split` and `Segment.boundaries` are these numbers, for every segment
that ends below `2 ^ 64` and has room for its chunks.

The number of parts decides everything, so a division can be derived again from
the number of its cuts (`parts_parts`), and a part of a proper division is at
most half as wide as the whole, rounded up (`width_le_half`).
-/

namespace TraceDispute.Segment

variable {s : Segment} {degree n i j : Nat}

/-- The segment ends at a 64-bit word. -/
def Bounded (s : Segment) : Prop := s.start.toNat + s.length.toNat < UInt64.size

/-- There is room for the chunks of a split. -/
def Roomy (s : Segment) (degree : Nat) : Prop := s.parts degree < chunkLimit

theorem stop_eq_ok_iff {last : UInt64} :
    s.stop = .ok last ↔ s.Bounded ∧ last.toNat = s.start.toNat + s.length.toNat := by
  unfold stop Bounded
  split
  · rename_i h
    have hstop : (s.start + s.length).toNat = s.start.toNat + s.length.toNat := by
      rw [UInt64.toNat_add, Nat.mod_eq_of_lt h]
    constructor
    · intro hok
      obtain rfl := Except.ok.inj hok
      exact ⟨h, hstop⟩
    · rintro ⟨-, heq⟩
      exact congrArg Except.ok (UInt64.toNat_inj.mp (hstop.trans heq.symm))
  · simp_all

/-! ## Boundaries as numbers -/

/-- The `i`-th boundary of a division into `n` parts. -/
def boundary (s : Segment) (n i : Nat) : Nat :=
  s.start.toNat + if i = 0 then 0 else s.length.toNat % n + i * (s.length.toNat / n)

/-- The width of the `i`-th part of a division into `n` parts. -/
def width (s : Segment) (n i : Nat) : Nat :=
  s.length.toNat / n + if i = 0 then s.length.toNat % n else 0

@[simp] theorem boundary_zero (s : Segment) (n : Nat) : s.boundary n 0 = s.start.toNat := rfl

theorem boundary_last (hn : 0 < n) : s.boundary n n = s.start.toNat + s.length.toNat := by
  rw [boundary, if_neg hn.ne', Nat.mod_add_div]

theorem boundary_succ (s : Segment) (n i : Nat) :
    s.boundary n (i + 1) = s.boundary n i + s.width n i := by
  unfold boundary width
  by_cases hi : i = 0
  · simp only [hi, Nat.zero_add, one_ne_zero, if_false, if_true, Nat.one_mul]
    omega
  · simp only [hi, Nat.succ_ne_zero, if_false, Nat.succ_mul]
    omega

theorem boundary_mono (h : i ≤ j) : s.boundary n i ≤ s.boundary n j := by
  induction j, h using Nat.le_induction with
  | base => exact le_rfl
  | succ j _ ih =>
      rw [boundary_succ]
      omega

/-! ## The number of parts -/

theorem parts_parts (s : Segment) (degree : Nat) : s.parts (s.parts degree) = s.parts degree := by
  unfold parts
  omega

theorem div_parts_pos (h : 0 < s.length.toNat) : 0 < s.length.toNat / s.parts degree := by
  refine Nat.div_pos ?_ (s.parts_pos degree)
  have := s.parts_le degree
  omega

theorem width_le (s : Segment) (hn : 0 < n) (i : Nat) : s.width n i ≤ s.length.toNat := by
  have hsum := Nat.div_add_mod s.length.toNat n
  have hmul : s.length.toNat / n ≤ n * (s.length.toNat / n) := Nat.le_mul_of_pos_left _ hn
  unfold width
  split <;> omega

/-- In a division into two or more parts, none empty, every part is at most half as
wide as the whole, rounded up. -/
theorem width_le_half (htwo : 2 ≤ n) (hn : n ≤ s.length.toNat) (i : Nat) :
    2 * s.width n i ≤ s.length.toNat + 1 := by
  have hsum := Nat.div_add_mod s.length.toNat n
  have hmod : s.length.toNat % n < n := Nat.mod_lt _ (by omega)
  have hquot : 1 ≤ s.length.toNat / n := (Nat.one_le_div_iff (by omega)).mpr hn
  -- the first part takes the remainder, which is what may make it the wide one
  have hcase : s.width n i ≤ s.length.toNat / n + s.length.toNat % n := by
    unfold width
    split <;> omega
  generalize s.length.toNat / n = q at *
  generalize s.length.toNat % n = r at *
  obtain ⟨k, rfl⟩ : ∃ k, n = k + 2 := ⟨n - 2, by omega⟩
  -- with `n = k + 2` the remainder is at most `k + 1`, and `k ≤ k * q`
  have hk : k ≤ k * q := Nat.le_mul_of_pos_right _ hquot
  have hexpand : (k + 2) * q = k * q + 2 * q := Nat.add_mul ..
  omega

/-! ## Boundaries as words -/

/-- The `i`-th boundary as an offset. -/
def mark (s : Segment) (n i : Nat) : UInt64 := UInt64.ofNat (s.boundary n i)

/-- Every boundary of a division into `n` parts. -/
def marks (s : Segment) (n : Nat) : List UInt64 := (List.range (n + 1)).map (s.mark n)

/-- The `i`-th chunk of a division into `n` parts. -/
def chunk (s : Segment) (n i : Nat) : Segment := ⟨s.mark n i, UInt64.ofNat (s.width n i)⟩

theorem chunks_eq {width start : UInt64} {n : Nat}
    (h : start.toNat + n * width.toNat < UInt64.size) :
    chunks width n start =
      .ok ((List.range n).map fun i => ⟨UInt64.ofNat (start.toNat + i * width.toNat), width⟩) := by
  -- on the chunks left; the next one starts where this one ends
  induction n generalizing start with
  | zero => rfl
  | succ n ih =>
      rw [Nat.succ_mul] at h
      have hadd : Checked.add start width = .ok (start + width) := Checked.add_of_lt (by omega)
      have hnext : (start + width).toNat = start.toNat + width.toNat :=
        Checked.toNat_of_add_eq_ok hadd
      have hrest := @ih (start + width) (by rw [hnext]; omega)
      have hshift : ∀ i, start.toNat + width.toNat + i * width.toNat =
          start.toNat + (i + 1) * width.toNat := by
        intro i
        rw [Nat.succ_mul]
        omega
      simp only [chunks, hadd, hrest, hnext, hshift, bind, Except.bind, pure, Except.pure,
        List.range_succ_eq_map, List.map_cons, List.map_map, Nat.zero_mul, Nat.add_zero,
        UInt64.ofNat_toNat]
      rfl

theorem boundary_lt (hs : s.Bounded) (hn : 0 < n) (hi : i ≤ n) : s.boundary n i < UInt64.size :=
  (boundary_mono hi).trans_lt ((boundary_last hn).trans_lt hs)

theorem toNat_mark (hs : s.Bounded) (hn : 0 < n) (hi : i ≤ n) :
    (s.mark n i).toNat = s.boundary n i := by
  rw [mark]
  exact UInt64.toNat_ofNat_of_lt' (boundary_lt hs hn hi)

theorem toNat_width (s : Segment) (hn : 0 < n) (i : Nat) :
    (UInt64.ofNat (s.width n i)).toNat = s.width n i :=
  UInt64.toNat_ofNat_of_lt' ((s.width_le hn i).trans_lt s.length.toNat_lt)

theorem first_chunk (s : Segment) (hn : 0 < n) (hsize : n < UInt64.size) :
    Checked.add (s.length / UInt64.ofNat n) (s.length % UInt64.ofNat n) =
      .ok (UInt64.ofNat (s.width n 0)) := by
  have hcount : (UInt64.ofNat n).toNat = n := UInt64.toNat_ofNat_of_lt' hsize
  have hle := (s.width_le hn 0).trans_lt s.length.toNat_lt
  have hsum : (s.length / UInt64.ofNat n).toNat + (s.length % UInt64.ofNat n).toNat =
      s.width n 0 := by
    rw [UInt64.toNat_div, UInt64.toNat_mod, hcount]
    rfl
  rw [Checked.add_of_lt (hsum ▸ hle), ← hsum, UInt64.ofNat_add, UInt64.ofNat_toNat,
    UInt64.ofNat_toNat]

theorem later_chunks (hs : s.Bounded) (hn : 0 < n) (hsize : n < UInt64.size) :
    chunks (s.length / UInt64.ofNat n) (n - 1) (s.mark n 1) =
      .ok ((List.range (n - 1)).map fun i => s.chunk n (i + 1)) := by
  have hcount : (UInt64.ofNat n).toNat = n := UInt64.toNat_ofNat_of_lt' hsize
  have hwidth : (s.length / UInt64.ofNat n).toNat = s.length.toNat / n := by
    rw [UInt64.toNat_div, hcount]
  have hstart : (s.mark n 1).toNat = s.boundary n 1 := toNat_mark hs hn hn
  have hboundary : ∀ i, s.boundary n 1 + i * (s.length.toNat / n) = s.boundary n (i + 1) := by
    intro i
    simp only [boundary, one_ne_zero, Nat.succ_ne_zero, if_false, Nat.succ_mul]
    omega
  rw [chunks_eq]
  · rw [hstart, hwidth]
    refine congrArg Except.ok (List.map_congr_left fun i _ => ?_)
    have hlater : s.width n (i + 1) = s.length.toNat / n := by simp [width]
    rw [hboundary, chunk, mark, hlater, ← hwidth, UInt64.ofNat_toNat]
  · rw [hstart, hwidth, hboundary, Nat.sub_add_cancel hn, boundary_last hn]
    exact hs

theorem split_eq (hs : s.Bounded) (hroom : s.Roomy degree) :
    s.split degree = .ok ((List.range (s.parts degree)).map (s.chunk (s.parts degree))) := by
  have hpos := s.parts_pos degree
  unfold Roomy at hroom
  have hsize : s.parts degree < UInt64.size :=
    hroom.trans (show chunkLimit < UInt64.size by decide)
  generalize hn : s.parts degree = n at *
  have hstop : s.stop = .ok (s.start + s.length) := if_pos hs
  have hnext : Checked.add s.start (UInt64.ofNat (s.width n 0)) =
      .ok (s.mark n 1) := by
    have hsum : s.start.toNat + (UInt64.ofNat (s.width n 0)).toNat = s.boundary n 1 := by
      rw [toNat_width s hpos, boundary_succ, boundary_zero]
    rw [Checked.add_of_lt (hsum ▸ boundary_lt hs hpos hpos), mark, ← hsum, UInt64.ofNat_add,
      UInt64.ofNat_toNat, UInt64.ofNat_toNat]
  have hchunk : s.chunk n 0 = ⟨s.start, UInt64.ofNat (s.width n 0)⟩ := by
    simp [chunk, mark]
  -- only the first part takes the remainder, so it is split off from the range
  have hrange : List.range n = 0 :: (List.range (n - 1)).map Nat.succ := by
    rw [← List.range_succ_eq_map, Nat.sub_add_cancel hpos]
  simp only [split, hn, hstop, reserve, if_pos hroom, first_chunk s hpos hsize, hnext,
    later_chunks hs hpos hsize, Outcome.ofExcept_ok, Outcome.ofChecked_ok, bind, Except.bind, pure,
    Except.pure, hrange, List.map_cons, List.map_map, hchunk]
  rfl

@[simp] theorem length_marks (s : Segment) (n : Nat) : (s.marks n).length = n + 1 := by
  simp [marks]

theorem getElem?_marks (hi : i ≤ n) : (s.marks n)[i]? = some (s.mark n i) := by
  simp [marks, Nat.lt_succ_iff.mpr hi]

theorem mem_marks {o : UInt64} : o ∈ s.marks n ↔ ∃ i ≤ n, s.mark n i = o := by
  simp [marks]

theorem mark_zero (s : Segment) (n : Nat) : s.mark n 0 = s.start := by
  simp [mark]

theorem mark_mono (hs : s.Bounded) (hn : 0 < n) (hij : i ≤ j) (hj : j ≤ n) :
    s.mark n i ≤ s.mark n j := by
  rw [UInt64.le_iff_toNat_le, toNat_mark hs hn (hij.trans hj), toNat_mark hs hn hj]
  exact boundary_mono hij

theorem stop_eq_mark (hs : s.Bounded) (hn : 0 < n) : s.stop = .ok (s.mark n n) := by
  rw [stop_eq_ok_iff]
  exact ⟨hs, by rw [toNat_mark hs hn le_rfl, boundary_last hn]⟩

theorem pairwise_marks (hs : s.Bounded) (hn : 0 < n) : (s.marks n).Pairwise (· ≤ ·) := by
  rw [List.pairwise_iff_getElem]
  intro i j hi hj hij
  rw [length_marks] at hj
  simpa [marks] using mark_mono hs hn hij.le (by omega)

theorem boundaries_eq (hs : s.Bounded) (hroom : s.Roomy degree) :
    s.boundaries degree = .ok (s.marks (s.parts degree)) := by
  simp only [boundaries, split_eq hs hroom, stop_eq_mark hs (s.parts_pos degree),
    Outcome.ofExcept_ok, bind, Except.bind, pure, Except.pure, List.map_map, marks,
    List.range_succ, List.map_append, List.map_cons, List.map_nil]
  rfl

@[simp] theorem start_chunk (s : Segment) (n i : Nat) : (s.chunk n i).start = s.mark n i := rfl

theorem toNat_length_chunk (s : Segment) (hn : 0 < n) (i : Nat) :
    (s.chunk n i).length.toNat = s.width n i :=
  toNat_width s hn i

theorem stop_chunk (hs : s.Bounded) (hn : 0 < n) (hi : i < n) :
    (s.chunk n i).stop = .ok (s.mark n (i + 1)) := by
  have hnext := toNat_mark hs hn (i := i + 1) hi
  have hsum : (s.chunk n i).start.toNat + (s.chunk n i).length.toNat = s.boundary n (i + 1) := by
    rw [start_chunk, toNat_mark hs hn hi.le, toNat_length_chunk s hn, boundary_succ]
  rw [stop_eq_ok_iff, Bounded, hsum, hnext]
  exact ⟨boundary_lt hs hn hi, rfl⟩

theorem bounded_chunk (hs : s.Bounded) (hn : 0 < n) (hi : i < n) : (s.chunk n i).Bounded :=
  (stop_eq_ok_iff.mp (stop_chunk hs hn hi)).1

theorem mark_chunk_last {parts : Nat} (hs : s.Bounded) (hn : 0 < n) (hi : i < n)
    (hparts : 0 < parts) : (s.chunk n i).mark parts parts = s.mark n (i + 1) := by
  have hstop := stop_eq_mark (bounded_chunk hs hn hi) hparts
  rw [stop_chunk hs hn hi] at hstop
  exact (Except.ok.inj hstop).symm

/-! ## A single part -/

theorem parts_one (s : Segment) : s.parts 1 = 1 := by
  unfold parts
  omega

theorem chunk_one (s : Segment) : s.chunk 1 0 = s := by
  simp [chunk, mark_zero, width, Nat.mod_one]

theorem marks_one {last : UInt64} (h : s.stop = .ok last) : s.marks 1 = [s.start, last] := by
  obtain ⟨hs, -⟩ := stop_eq_ok_iff.mp h
  rw [stop_eq_mark hs Nat.one_pos] at h
  rw [← s.mark_zero 1, ← Except.ok.inj h]
  rfl

/-! ## When there is no division -/

theorem split_of_not_bounded (hs : ¬ s.Bounded) :
    s.split degree = .refuse (.overflow s.start s.length) := by
  have hstop : s.stop = .error (.overflow s.start s.length) := if_neg hs
  simp [split, hstop, bind, Except.bind]

theorem split_of_not_roomy (hs : s.Bounded) (hroom : ¬ s.Roomy degree) :
    s.split degree = .error (.fault .capacityOverflow) := by
  have hstop : s.stop = .ok (s.start + s.length) := if_pos hs
  have hreserve : reserve (s.parts degree) = .error .capacityOverflow := if_neg hroom
  simp [split, hstop, hreserve, bind, Except.bind]

theorem bounded_of_split {segments : List Segment} (h : s.split degree = .ok segments) :
    s.Bounded ∧ s.Roomy degree := by
  by_cases hs : s.Bounded
  · by_cases hroom : s.Roomy degree
    · exact ⟨hs, hroom⟩
    · simp [split_of_not_roomy hs hroom] at h
  · simp [split_of_not_bounded hs] at h

theorem bounded_of_boundaries {offsets : List UInt64} (h : s.boundaries degree = .ok offsets) :
    s.Bounded ∧ s.Roomy degree := by
  cases hsplit : s.split degree with
  | ok segments => exact bounded_of_split hsplit
  | error e => simp [boundaries, hsplit, bind, Except.bind] at h

theorem ends_of_boundaries {offsets : List UInt64} (h : s.boundaries degree = .ok offsets) :
    offsets[0]? = some s.start ∧
      ∃ last, s.stop = .ok last ∧ offsets[offsets.length - 1]? = some last := by
  obtain ⟨hs, hroom⟩ := bounded_of_boundaries h
  rw [boundaries_eq hs hroom] at h
  obtain rfl := Except.ok.inj h
  refine ⟨by rw [getElem?_marks (Nat.zero_le _), mark_zero], _,
    stop_eq_mark hs (s.parts_pos degree), ?_⟩
  rw [length_marks, Nat.add_sub_cancel]
  exact getElem?_marks le_rfl

end TraceDispute.Segment
