import Mathlib
import TraceDispute.Node

/-!
# Texts that stand for a hash

A transaction hash arrives as text: marks, as many as the node cares to write,
and then two digits of either case for each byte.  `readTransaction_eq_ok_iff`
says that these texts and no others are read, and as which word.

The reader works on the bytes of the text.  That it cannot be misled by them
comes from UTF-8 keeping digits apart from everything else
(`Hex.utf8EncodeChar_cases`): a digit is one byte, and no byte of any other
character is a digit.
-/

namespace TraceDispute

namespace Hex

/-- The text stands for the bytes: two digits of either case for each. -/
def Spells (digits : List Char) (bytes : Bytes) : Prop :=
  digits.map Char.toLower = encodeChars bytes

/-- The bytes of a text. -/
def utf8 (text : List Char) : Bytes := text.flatMap String.utf8EncodeChar

theorem toUTF8_ofList (text : List Char) :
    (String.ofList text).toUTF8.data.toList = utf8 text := by
  simp [String.toUTF8, List.utf8Encode, utf8]

/-! ## Digits -/

theorem digit_inj {m n : Nat} (hm : m < 16) (hn : n < 16) (h : digit m = digit n) : m = n := by
  have hall : ∀ m < 16, ∀ n < 16, digit m = digit n → m = n := by decide
  exact hall m hm n hn h

theorem toLower_of_lt {c : Char} (hc : 127 < c.toNat) : c.toLower = c := by
  have hz : ¬ c.val ≤ 'Z'.val := by
    rw [UInt32.le_iff_toNat_le]
    have : 'Z'.val.toNat = 90 := rfl
    have : c.val.toNat = c.toNat := rfl
    omega
  rw [Char.toLower, dif_neg (fun h => hz h.2)]

theorem digitValue?_of_le {n : Nat} (h : 128 ≤ n) (hn : n < 256) :
    digitValue? (UInt8.ofNat n) = none := by
  have hall : ∀ n < 256, 128 ≤ n → digitValue? (UInt8.ofNat n) = none := by
    decide +kernel
  exact hall n hn h

/-- A plain character is a digit with the value that its byte is read as, or none. -/
theorem digitValue?_of_lt {n : Nat} (h : n < 128) :
    (∃ v < 16, digitValue? (UInt8.ofNat n) = some (UInt8.ofNat v) ∧
        (Char.ofNat n).toLower = digit v) ∨
      digitValue? (UInt8.ofNat n) = none ∧ ∀ v < 16, (Char.ofNat n).toLower ≠ digit v := by
  have hall : ∀ n < 128,
      (∃ v < 16, digitValue? (UInt8.ofNat n) = some (UInt8.ofNat v) ∧
          (Char.ofNat n).toLower = digit v) ∨
        digitValue? (UInt8.ofNat n) = none ∧ ∀ v < 16, (Char.ofNat n).toLower ≠ digit v := by
    decide +kernel
  exact hall n h

/-- The first byte of a character beyond the plain ones is no digit. -/
theorem utf8EncodeChar_of_lt {c : Char} (h : 127 < c.toNat) :
    ∃ b rest, String.utf8EncodeChar c = b :: rest ∧ digitValue? b = none := by
  have hv : c.val.toNat = c.toNat := rfl
  unfold String.utf8EncodeChar
  simp only [hv, if_neg (Nat.not_le.mpr h)]
  split
  · exact ⟨_, _, rfl, digitValue?_of_le (by omega) (by omega)⟩
  · split
    · exact ⟨_, _, rfl, digitValue?_of_le (by omega) (by omega)⟩
    · exact ⟨_, _, rfl, digitValue?_of_le (by omega) (by omega)⟩

/-- A digit is one byte, and the first byte of any other character is no digit. -/
theorem utf8EncodeChar_cases (c : Char) :
    (∃ b, ∃ v < 16, String.utf8EncodeChar c = [b] ∧ digitValue? b = some (UInt8.ofNat v) ∧
        c.toLower = digit v) ∨
      (∃ b rest, String.utf8EncodeChar c = b :: rest ∧ digitValue? b = none) ∧
        ∀ v < 16, c.toLower ≠ digit v := by
  -- beyond ASCII the first byte is no digit, and `toLower` changes nothing
  by_cases hc : c.toNat ≤ 127
  · have hbyte : String.utf8EncodeChar c = [UInt8.ofNat c.toNat] := if_pos hc
    have hplain := digitValue?_of_lt (Nat.lt_succ_of_le hc)
    rw [Char.ofNat_toNat] at hplain
    rcases hplain with ⟨v, hv, hvalue, hlower⟩ | ⟨hvalue, hlower⟩
    · exact .inl ⟨_, v, hv, hbyte, hvalue, hlower⟩
    · exact .inr ⟨⟨_, [], hbyte, hvalue⟩, hlower⟩
  · have hc : 127 < c.toNat := Nat.lt_of_not_le hc
    refine .inr ⟨utf8EncodeChar_of_lt hc, ?_⟩
    intro n hn heq
    have hall : ∀ n < 16, (digit n).toNat ≤ 127 := by decide
    rw [toLower_of_lt hc] at heq
    have := hall n hn
    rw [← heq] at this
    omega

/-! ## Pairs of digits -/

theorem byte_eq_iff {b : UInt8} {high low : Nat} (hhigh : high < 16) (hlow : low < 16) :
    16 * UInt8.ofNat high + UInt8.ofNat low = b ↔ high = b.toNat / 16 ∧ low = b.toNat % 16 := by
  have hb : b.toNat < 256 := b.toNat_lt
  have hsum : (16 * UInt8.ofNat high + UInt8.ofNat low).toNat = 16 * high + low := by
    simp [UInt8.toNat_add, UInt8.toNat_mul]
    omega
  rw [← UInt8.toNat_inj, hsum]
  omega

/-- Two digits stand for one byte. -/
theorem spells_cons_cons {high low : Char} {rest : List Char} {bytes : Bytes} {h l : Nat}
    (hhigh : h < 16) (hlow : l < 16) (hh : high.toLower = digit h) (hl : low.toLower = digit l) :
    Spells (high :: low :: rest) bytes ↔
      ∃ tail, Spells rest tail ∧ (16 * UInt8.ofNat h + UInt8.ofNat l) :: tail = bytes := by
  cases bytes with
  | nil => simp [Spells, encodeChars]
  | cons b bytes =>
      have hb : b.toNat < 256 := b.toNat_lt
      have hdigit : ∀ {m n : Nat}, m < 16 → n < 16 → (digit m = digit n ↔ m = n) :=
        fun hm hn => ⟨digit_inj hm hn, fun h => h ▸ rfl⟩
      simp only [Spells, encodeChars, List.map_cons, List.cons.injEq, hh, hl,
        hdigit hhigh (show b.toNat / 16 < 16 by omega),
        hdigit hlow (show b.toNat % 16 < 16 by omega), byte_eq_iff hhigh hlow]
      constructor
      · rintro ⟨hhigh, hlow, hrest⟩
        exact ⟨bytes, hrest, ⟨hhigh, hlow⟩, rfl⟩
      · rintro ⟨tail, htail, ⟨hhigh, hlow⟩, rfl⟩
        exact ⟨hhigh, hlow, htail⟩

theorem exists_digit_of_mem_encodeChars {c : Char} {bytes : Bytes} (h : c ∈ encodeChars bytes) :
    ∃ n < 16, c = digit n := by
  induction bytes with
  | nil => cases h
  | cons b bytes ih =>
      have hb : b.toNat < 256 := b.toNat_lt
      simp only [encodeChars, List.mem_cons] at h
      rcases h with hhigh | hlow | h
      · exact ⟨b.toNat / 16, by omega, hhigh⟩
      · exact ⟨b.toNat % 16, by omega, hlow⟩
      · exact ih h

theorem Spells.exists_digit {c : Char} {text : List Char} {bytes : Bytes} (h : Spells text bytes)
    (hc : c ∈ text) : ∃ n < 16, c.toLower = digit n :=
  exists_digit_of_mem_encodeChars (h ▸ List.mem_map_of_mem hc)

theorem not_spells_of_ne {c : Char} {text : List Char} {bytes : Bytes} (hc : c ∈ text)
    (hne : ∀ n < 16, c.toLower ≠ digit n) : ¬ Spells text bytes := by
  intro h
  obtain ⟨n, hn, heq⟩ := h.exists_digit hc
  exact hne n hn heq

theorem not_spells_singleton {c : Char} {bytes : Bytes} : ¬ Spells [c] bytes := by
  cases bytes <;> simp [Spells, encodeChars]

theorem decodePairs_of_digitValue?_eq_none {b : UInt8} {rest bytes : Bytes} {position : Nat}
    (hb : digitValue? b = none) (heven : (b :: rest).length % 2 = 0) :
    decodePairs position (b :: rest) ≠ .ok bytes := by
  cases rest with
  | nil => simp at heven
  | cons low rest => simp [decodePairs, digitAt, hb, bind, Except.bind]

/-- Reading two digits, and then the rest. -/
theorem decodePairs_cons_cons {b₁ b₂ : UInt8} {h l position : Nat} {rest bytes : Bytes}
    (hh : digitValue? b₁ = some (UInt8.ofNat h)) (hl : digitValue? b₂ = some (UInt8.ofNat l)) :
    decodePairs position (b₁ :: b₂ :: rest) = .ok bytes ↔
      ∃ tail, decodePairs (position + 2) rest = .ok tail ∧
        (16 * UInt8.ofNat h + UInt8.ofNat l) :: tail = bytes := by
  simp only [decodePairs, digitAt, hh, hl, bind, Except.bind]
  cases decodePairs (position + 2) rest with
  | error e => simp
  | ok tail => simp [pure, Except.pure]

/-- What is read is what is spelled, wherever the reading starts. -/
theorem decodePairs_utf8_iff (text : List Char) (position : Nat) (bytes : Bytes) :
    (utf8 text).length % 2 = 0 ∧ decodePairs position (utf8 text) = .ok bytes ↔
      Spells text bytes := by
  -- two characters at a time, as the decoder reads; none of them need be a single byte
  induction text using List.twoStepInduction generalizing position bytes with
  | nil =>
      cases bytes <;> simp [utf8, decodePairs, Spells, encodeChars]
  | singleton c =>
      simp only [not_spells_singleton, iff_false, not_and]
      intro heven
      rcases utf8EncodeChar_cases c with ⟨b, v, -, hc, -⟩ | ⟨⟨b, rest, hc, hb⟩, -⟩
      · simp [utf8, hc] at heven
      · simp only [utf8, List.flatMap_singleton, hc] at heven ⊢
        exact decodePairs_of_digitValue?_eq_none hb heven
  | cons_cons high low text ih =>
      have hsplit : utf8 (high :: low :: text) =
          String.utf8EncodeChar high ++ (String.utf8EncodeChar low ++ utf8 text) := rfl
      rw [hsplit]
      rcases utf8EncodeChar_cases high with
        ⟨b₁, h, hh, hhigh, hb₁, hlower₁⟩ | ⟨⟨b₁, rest, hhigh, hb₁⟩, hlower₁⟩
      · rcases utf8EncodeChar_cases low with
          ⟨b₂, l, hl, hlow, hb₂, hlower₂⟩ | ⟨⟨b₂, rest, hlow, hb₂⟩, hlower₂⟩
        · -- two digits: both sides go on with the rest
          rw [hhigh, hlow, spells_cons_cons hh hl hlower₁ hlower₂]
          simp only [← ih (position + 2)]
          have hparity : ([b₁] ++ ([b₂] ++ utf8 text)).length % 2 = (utf8 text).length % 2 :=
            Nat.add_mod_right _ 2
          rw [hparity, List.singleton_append, List.singleton_append,
            decodePairs_cons_cons hb₁ hb₂]
          constructor
          · rintro ⟨heven, tail, htail, hbytes⟩
            exact ⟨tail, ⟨heven, htail⟩, hbytes⟩
          · rintro ⟨tail, ⟨heven, htail⟩, hbytes⟩
            exact ⟨heven, tail, htail, hbytes⟩
        · have hmem : low ∈ high :: low :: text := by simp
          simp only [not_spells_of_ne hmem hlower₂, iff_false, not_and]
          intro _
          simp [hhigh, hlow, decodePairs, digitAt, hb₁, hb₂, bind, Except.bind]
      · simp only [not_spells_of_ne List.mem_cons_self hlower₁, iff_false, not_and]
        intro heven
        rw [hhigh] at heven ⊢
        exact decodePairs_of_digitValue?_eq_none hb₁ heven

theorem decode_utf8_eq_ok_iff {text : List Char} {bytes : Bytes} :
    decode (utf8 text) = .ok bytes ↔ Spells text bytes := by
  rw [← decodePairs_utf8_iff text 0, decode]
  rcases Nat.mod_two_eq_zero_or_one (utf8 text).length with h | h <;> simp [h]

end Hex

/-! ## Marks -/

theorem exists_dropMarks (text : List Char) :
    ∃ marks, text = (List.replicate marks ['0', 'x']).flatten ++ dropMarks text := by
  fun_induction dropMarks text with
  | case1 rest ih =>
      obtain ⟨marks, hmarks⟩ := ih
      refine ⟨marks + 1, ?_⟩
      rw [List.replicate_succ, List.flatten_cons, List.append_assoc, ← hmarks]
      rfl
  | case2 => exact ⟨0, rfl⟩

theorem dropMarks_of_spells {digits : List Char} {bytes : Bytes} (h : Hex.Spells digits bytes)
    (marks : Nat) :
    dropMarks ((List.replicate marks ['0', 'x']).flatten ++ digits) = digits := by
  induction marks with
  | zero =>
      change dropMarks digits = digits
      unfold dropMarks
      split
      · rename_i rest
        have hmem : 'x' ∈ '0' :: 'x' :: rest := by simp
        exact absurd h (Hex.not_spells_of_ne hmem (by decide))
      · rfl
  | succ marks ih =>
      rw [List.replicate_succ, List.flatten_cons, List.append_assoc]
      exact ih

/-- The text is the hash: marks, and then sixty-four digits of either case. -/
def Word.WrittenAs (w : Word) (text : String) : Prop :=
  ∃ marks digits, text.toList = (List.replicate marks ['0', 'x']).flatten ++ digits ∧
    Hex.Spells digits w.bytes

theorem readTransaction_eq_ok_iff {text : String} {w : Word} :
    readTransaction text = .ok w ↔ w.WrittenAs text := by
  -- marks before the digits are dropped, and no digit is a mark
  have hwritten : w.WrittenAs text ↔ Hex.Spells (dropMarks text.toList) w.bytes := by
    constructor
    · rintro ⟨marks, digits, htext, hspells⟩
      rwa [htext, dropMarks_of_spells hspells]
    · intro hspells
      obtain ⟨marks, htext⟩ := exists_dropMarks text.toList
      exact ⟨marks, _, htext, hspells⟩
  rw [hwritten, ← Hex.decode_utf8_eq_ok_iff, ← Hex.toUTF8_ofList, readTransaction]
  cases Hex.decode (String.ofList (dropMarks text.toList)).toUTF8.data.toList with
  | error e => simp
  | ok bytes =>
      by_cases hlength : bytes.length = 32
      · simp [Word.ofBytes?, hlength, Word.ext_iff]
      · have hne : bytes ≠ w.bytes := fun h => hlength (h ▸ w.length_eq)
        simp [Word.ofBytes?, hlength, hne]

end TraceDispute
