import Mathlib
import TraceDispute.CallData.Reader

/-!
# Call data can be read back

What `encodeCall` writes, a reader that knows the types of the arguments reads
back (`calls_decode_to_arguments`).  The head of an argument of variable size
names a position that depends on every tail before it, so the induction over the
arguments carries the bytes already behind that position: `readTokens?_heads`
reads some arguments from data that ends in exactly their tails.

The tails leave no gap and do not overlap.  `readExtents?` takes the positions
out of the heads, as a reader finds them, and `Tiles` says that they divide what
follows the heads among the arguments, in their order and to the last byte.
-/

namespace TraceDispute

namespace Bytes

theorem ofLittleEndian_append_zeros (bytes : Bytes) (n : Nat) :
    ofLittleEndian (bytes ++ List.replicate n 0) = ofLittleEndian bytes := by
  induction bytes with
  | nil =>
      induction n with
      | zero => rfl
      | succ n ih =>
          rw [List.nil_append] at ih ⊢
          simp [List.replicate_succ, ofLittleEndian, ih]
  | cons b bytes ih => simp [ofLittleEndian, ih]

end Bytes

/-- The number in the word of a counter is the counter. -/
theorem Word.ofBigEndian_ofUInt64 (x : UInt64) :
    Bytes.ofBigEndian (Word.ofUInt64 x).bytes = x.toNat := by
  have hlow : Bytes.ofLittleEndian (Bytes.littleEndian 8 x.toNat) = x.toNat := by
    rw [Bytes.ofLittleEndian_littleEndian]
    exact Nat.mod_eq_of_lt x.toNat_lt
  simp only [Word.ofUInt64, Bytes.ofBigEndian, Bytes.ofUInt64, Bytes.bigEndian,
    List.reverse_append, List.reverse_reverse, List.reverse_replicate,
    Bytes.ofLittleEndian_append_zeros, hlow]

namespace CallData

/-! ## Words and numbers -/

theorem readWord?_append (w : Word) (rest : Bytes) :
    readWord? (w.bytes ++ rest) = some (w, rest) := by
  have htake : (w.bytes ++ rest).take 32 = w.bytes := List.take_left' w.length_eq
  have hdrop : (w.bytes ++ rest).drop 32 = rest := List.drop_left' w.length_eq
  rw [readWord?, htake, hdrop, Word.ofBytes?_bytes]
  rfl

theorem readUint?_append (x : UInt64) (rest : Bytes) :
    readUint? ((Word.ofUInt64 x).bytes ++ rest) = some (x, rest) := by
  have hlt : x.toNat < UInt64.size := x.toNat_lt
  simp [readUint?, readWord?_append, Word.ofBigEndian_ofUInt64, hlt]

theorem readUint?_sizeWord (n : Nat) (rest : Bytes) :
    readUint? (sizeWord n ++ rest) = some (UInt64.ofNat n, rest) :=
  readUint?_append _ rest

theorem readWords?_concatWords (ws : List Word) (rest : Bytes) :
    readWords? ws.length (concatWords ws ++ rest) = some (ws, rest) := by
  induction ws with
  | nil => rfl
  | cons w ws ih =>
      rw [concatWords, List.flatMap_cons, List.append_assoc, List.length_cons, readWords?,
        readWord?_append]
      simp only [bind, Option.bind]
      rw [← concatWords, ih]
      rfl

theorem readUints?_concatWords (xs : List UInt64) (rest : Bytes) :
    readUints? xs.length (concatWords (xs.map Word.ofUInt64) ++ rest) = some (xs, rest) := by
  induction xs with
  | nil => rfl
  | cons x xs ih =>
      rw [concatWords, List.map_cons, List.flatMap_cons, List.append_assoc, List.length_cons,
        readUints?, readUint?_append]
      simp only [bind, Option.bind]
      rw [← concatWords, ih]
      rfl

/-! ## Lengths -/

@[simp] theorem length_sizeWord (n : Nat) : (sizeWord n).length = 32 := Word.length_bytes _

@[simp] theorem length_concatWords (ws : List Word) : (concatWords ws).length = ws.length * 32 := by
  induction ws with
  | nil => rfl
  | cons w ws ih =>
      rw [concatWords, List.flatMap_cons, List.length_append, ← concatWords, ih,
        Word.length_bytes, List.length_cons, Nat.succ_mul, Nat.add_comm]

/-- The padding fills up to whole words. -/
theorem dvd_add_padding (n : Nat) : 32 ∣ n + padding n := by
  unfold padding
  omega

namespace Token

variable (t : Token)

@[simp] theorem length_head (position : Nat) : (t.head position).length = t.headLength := by
  cases t <;> simp [head, headLength]

theorem dvd_headLength : 32 ∣ t.headLength := by
  cases t <;> simp [headLength]

/-- The number of bytes in the tail of an argument: a length and, in whole words, the items
or bytes after it. -/
def tailLength : Token → Nat
  | .words values => 32 + values.length * 32
  | .bytes value => 32 + value.length + padding value.length
  | .uint _ | .word _ | .fixedUints _ | .fixedWords _ => 0

@[simp] theorem length_tail : t.tail.length = t.tailLength := by
  cases t <;> simp [tail, tailLength, Nat.add_assoc]

theorem dvd_tailLength : 32 ∣ t.tailLength := by
  cases t with
  | bytes value =>
      have hpad := dvd_add_padding value.length
      simp only [tailLength]
      omega
  | _ => simp [tailLength]

end Token

@[simp] theorem length_heads (position : Nat) (tokens : List Token) :
    (heads position tokens).length = headLength tokens := by
  induction tokens generalizing position with
  | nil => rfl
  | cons t ts ih => simp [heads, headLength, ih]

theorem dvd_headLength (tokens : List Token) : 32 ∣ headLength tokens := by
  induction tokens with
  | nil => exact dvd_zero 32
  | cons t ts ih => exact dvd_add t.dvd_headLength ih

theorem dvd_length_tails (tokens : List Token) : 32 ∣ (tokens.flatMap Token.tail).length := by
  induction tokens with
  | nil => exact dvd_zero 32
  | cons t ts ih =>
      rw [List.flatMap_cons, List.length_append, Token.length_tail]
      exact dvd_add t.dvd_tailLength ih

theorem length_encodeArguments (tokens : List Token) :
    (encodeArguments tokens).length = headLength tokens + (tokens.flatMap Token.tail).length := by
  rw [encodeArguments, List.length_append, length_heads]

/-! ## Arguments of variable size -/

theorem readArray?_tail {values : List Word} (h : values.length < UInt64.size) (rest : Bytes) :
    readArray? ((Token.words values).tail ++ rest) = some values := by
  simp only [Token.tail, List.append_assoc, readArray?, readUint?_sizeWord, bind, Option.bind,
    UInt64.toNat_ofNat_of_lt' h, readWords?_concatWords]
  rfl

theorem readString?_tail {value : Bytes} (h : value.length < UInt64.size) (rest : Bytes) :
    readString? ((Token.bytes value).tail ++ rest) = some value := by
  have hfill : (List.replicate (padding value.length) (0 : UInt8) ++ rest).take
      (padding value.length) = List.replicate (padding value.length) 0 :=
    List.take_left' List.length_replicate
  simp only [Token.tail, List.append_assoc, readString?, readUint?_sizeWord, bind, Option.bind,
    UInt64.toNat_ofNat_of_lt' h, List.take_left, List.drop_left, hfill, and_self, if_true]

/-- An argument is read from its head, and from the data at the position that the head names. -/
theorem readToken?_head {data rest after : Bytes} {position : Nat} (t : Token)
    (hdata : data.drop position = t.tail ++ after) (hposition : position ≤ data.length)
    (hsize : data.length < UInt64.size) :
    readToken? data (t.head position ++ rest) t.kind = some (t, rest) := by
  have htail : t.tailLength ≤ data.length := by
    have hlength := congrArg List.length hdata
    rw [List.length_drop, List.length_append, Token.length_tail] at hlength
    omega
  have hword : (UInt64.ofNat position).toNat = position :=
    UInt64.toNat_ofNat_of_lt' (hposition.trans_lt hsize)
  -- a static value is read where its head stands, a dynamic one where its head points
  cases t with
  | uint value => simp [readToken?, Token.head, Token.kind, readUint?_append]
  | word value => simp [readToken?, Token.head, Token.kind, readWord?_append]
  | fixedUints values => simp [readToken?, Token.head, Token.kind, readUints?_concatWords]
  | fixedWords values => simp [readToken?, Token.head, Token.kind, readWords?_concatWords]
  | words values =>
      have hvalues : values.length < UInt64.size := by
        simp only [Token.tailLength] at htail
        omega
      simp [readToken?, Token.head, Token.kind, readUint?_sizeWord, hword, hdata,
        readArray?_tail hvalues]
  | bytes value =>
      have hvalue : value.length < UInt64.size := by
        simp only [Token.tailLength] at htail
        omega
      simp [readToken?, Token.head, Token.kind, readUint?_sizeWord, hword, hdata,
        readString?_tail hvalue]

/-! ## Whole argument lists -/

theorem drop_tails {data : Bytes} {position : Nat} {t : Token} {ts : List Token}
    (hdata : data.drop position = (t :: ts).flatMap Token.tail) :
    data.drop (position + t.tail.length) = ts.flatMap Token.tail := by
  rw [← List.drop_drop, hdata, List.flatMap_cons, List.drop_left]

theorem add_tail_le {data : Bytes} {position : Nat} {t : Token} {ts : List Token}
    (hdata : data.drop position = (t :: ts).flatMap Token.tail)
    (hposition : position ≤ data.length) : position + t.tail.length ≤ data.length := by
  have hlength := congrArg List.length hdata
  rw [List.length_drop, List.flatMap_cons, List.length_append] at hlength
  omega

/-- Arguments are read back from data that ends in their tails. -/
theorem readTokens?_heads {data rest : Bytes} {position : Nat} {tokens : List Token}
    (hdata : data.drop position = tokens.flatMap Token.tail) (hposition : position ≤ data.length)
    (hsize : data.length < UInt64.size) :
    readTokens? data (heads position tokens ++ rest) (tokens.map Token.kind) = some tokens := by
  induction tokens generalizing position with
  | nil => rfl
  | cons t ts ih =>
      have hrest := ih (drop_tails hdata) (add_tail_le hdata hposition)
      rw [heads, List.append_assoc, List.map_cons, readTokens?,
        readToken?_head t hdata hposition hsize]
      simp only [bind, Option.bind, hrest]
      rfl

theorem drop_headLength (tokens : List Token) :
    (encodeArguments tokens).drop (headLength tokens) = tokens.flatMap Token.tail :=
  List.drop_left' (length_heads _ tokens)

theorem headLength_le (tokens : List Token) :
    headLength tokens ≤ (encodeArguments tokens).length := by
  rw [length_encodeArguments]
  exact Nat.le_add_right _ _

theorem decodeArguments?_encodeArguments {tokens : List Token}
    (hsize : (encodeArguments tokens).length < UInt64.size) :
    decodeArguments? (tokens.map Token.kind) (encodeArguments tokens) = some tokens :=
  readTokens?_heads (drop_headLength tokens) (headLength_le tokens) hsize

/-! ## Where the tails stand -/

namespace Token

/-- The argument stands in the tail. -/
def isDynamic : Token → Bool
  | .words _ | .bytes _ => true
  | .uint _ | .word _ | .fixedUints _ | .fixedWords _ => false

variable {t : Token}

theorem tailLength_of_static (h : t.isDynamic = false) : t.tailLength = 0 := by
  cases t <;> simp_all [isDynamic, tailLength]

theorem readUint?_head (h : t.isDynamic = true) (position : Nat) (rest : Bytes) :
    readUint? (t.head position ++ rest) = some (UInt64.ofNat position, rest) := by
  cases t with
  | words values => exact readUint?_sizeWord position rest
  | bytes value => exact readUint?_sizeWord position rest
  | _ => cases h

end Token

/-- The stretches of the data that the tails of some arguments take up.  Each starts at the
position that stands in the argument's head, and is as long as the argument needs. -/
def readExtents? : (head : Bytes) → List Token → Option (List (Nat × Nat))
  | _, [] => some []
  | head, t :: ts => do
    let extents ← readExtents? (head.drop t.headLength) ts
    if t.isDynamic then do
      let (position, _) ← readUint? head
      return (position.toNat, position.toNat + t.tailLength) :: extents
    else return extents

/-- Stretches that follow one another without gaps, from `start` to `stop`. -/
def Tiles (stop : Nat) : (start : Nat) → List (Nat × Nat) → Prop
  | start, [] => start = stop
  | start, (first, last) :: rest => first = start ∧ first ≤ last ∧ Tiles stop last rest

theorem exists_readExtents? {rest : Bytes} {position stop : Nat} {tokens : List Token}
    (hstop : position + (tokens.flatMap Token.tail).length = stop) (hsize : stop < UInt64.size) :
    ∃ extents, readExtents? (heads position tokens ++ rest) tokens = some extents ∧
      Tiles stop position extents := by
  -- on the tokens; each tail starts where the one before has ended
  induction tokens generalizing position with
  | nil => exact ⟨[], rfl, hstop⟩
  | cons t ts ih =>
      rw [List.flatMap_cons, List.length_append, ← Nat.add_assoc] at hstop
      obtain ⟨extents, hextents, htiles⟩ := ih hstop
      rw [Token.length_tail] at htiles
      have hdrop : (t.head position ++ (heads (position + t.tail.length) ts ++ rest)).drop
          t.headLength = heads (position + t.tail.length) ts ++ rest :=
        List.drop_left' (t.length_head position)
      rw [heads, List.append_assoc, readExtents?, hdrop, hextents]
      cases hdynamic : t.isDynamic with
      | false =>
          rw [Token.tailLength_of_static hdynamic, Nat.add_zero] at htiles
          exact ⟨extents, rfl, htiles⟩
      | true =>
          have hword : (UInt64.ofNat position).toNat = position :=
            UInt64.toNat_ofNat_of_lt' (by omega)
          refine ⟨(position, position + t.tailLength) :: extents, ?_, rfl,
            Nat.le_add_right _ _, htiles⟩
          simp [Token.readUint?_head hdynamic, hword]

/-! ## Calls -/

theorem length_selector (signature : String) : (selector signature).length = 4 := by
  simp [selector]

theorem length_arguments_le (signature : String) (tokens : List Token) :
    (encodeArguments tokens).length ≤ (encodeCall signature tokens).length := by
  rw [encodeCall, List.length_append]
  exact Nat.le_add_left _ _

/-- Two calls with arguments of the same types differ if an argument does. -/
theorem eq_of_encodeCall {signature : String} {tokens tokens' : List Token}
    (hsize : (encodeCall signature tokens).length < UInt64.size)
    (h : encodeCall signature tokens = encodeCall signature tokens')
    (hkinds : tokens.map Token.kind = tokens'.map Token.kind) : tokens = tokens' := by
  have harguments : encodeArguments tokens = encodeArguments tokens' := List.append_cancel_left h
  have hread := decodeArguments?_encodeArguments
    ((length_arguments_le signature tokens).trans_lt hsize)
  have hread' := decodeArguments?_encodeArguments
    ((length_arguments_le signature tokens').trans_lt (h ▸ hsize))
  rw [harguments, hkinds, hread'] at hread
  exact (Option.some.inj hread).symm

theorem bisect_inj {previous previous' cutHashes cutHashes' : List Word}
    {index index' start start' length length' : UInt64}
    (hsize : (bisect previous index start length cutHashes).length < UInt64.size)
    (h : bisect previous index start length cutHashes =
      bisect previous' index' start' length' cutHashes') :
    previous = previous' ∧ index = index' ∧ start = start' ∧ length = length' ∧
      cutHashes.tail = cutHashes'.tail := by
  have htokens := eq_of_encodeCall hsize h rfl
  simpa only [List.cons.injEq, Token.words.injEq, Token.uint.injEq, and_true] using htokens

theorem prove_inj {previous previous' : List Word} {index index' : UInt64} {p p' : Progress}
    {inboxDelta inboxDelta' : Word} {machineProof machineProof' bufferProof bufferProof' : Bytes}
    (hsize : (prove previous index p inboxDelta machineProof bufferProof).length < UInt64.size)
    (h : prove previous index p inboxDelta machineProof bufferProof =
      prove previous' index' p' inboxDelta' machineProof' bufferProof') :
    previous = previous' ∧ index = index' ∧ p = p' ∧ inboxDelta = inboxDelta' ∧
      machineProof = machineProof' ∧ bufferProof = bufferProof' := by
  have htokens := eq_of_encodeCall hsize h rfl
  simp only [List.cons.injEq, Token.words.injEq, Token.uint.injEq, Token.fixedUints.injEq,
    Token.fixedWords.injEq, Token.word.injEq, Token.bytes.injEq, and_true] at htokens
  obtain ⟨hprevious, hindex, ⟨hgas, hread, hsends, hlogs⟩, ⟨hsendAcc, hlogAcc, hmachine⟩, hdelta,
    hmachineProof, hbufferProof⟩ := htokens
  refine ⟨hprevious, hindex, ?_, hdelta, hmachineProof, hbufferProof⟩
  cases p
  cases p'
  simp_all

/-- A call is four bytes and whole words, from which a reader that goes by the types of the
arguments takes the arguments back; their tails fill everything after the heads.  So the two
calls of a dispute say what they are made from. -/
theorem calls_decode_to_arguments :
    (∀ signature tokens, (encodeCall signature tokens).length < UInt64.size →
      ∃ data, encodeCall signature tokens = selector signature ++ data ∧
        (selector signature).length = 4 ∧ 32 ∣ data.length ∧
        decodeArguments? (tokens.map Token.kind) data = some tokens ∧
        ∃ extents, readExtents? data tokens = some extents ∧
          Tiles data.length (headLength tokens) extents) ∧
    (∀ previous previous' index index' start start' length length' cutHashes cutHashes',
      (bisect previous index start length cutHashes).length < UInt64.size →
      bisect previous index start length cutHashes =
        bisect previous' index' start' length' cutHashes' →
      previous = previous' ∧ index = index' ∧ start = start' ∧ length = length' ∧
        cutHashes.tail = cutHashes'.tail) ∧
    (∀ previous previous' index index' p p' inboxDelta inboxDelta' machineProof machineProof'
        bufferProof bufferProof',
      (prove previous index p inboxDelta machineProof bufferProof).length < UInt64.size →
      prove previous index p inboxDelta machineProof bufferProof =
        prove previous' index' p' inboxDelta' machineProof' bufferProof' →
      previous = previous' ∧ index = index' ∧ p = p' ∧ inboxDelta = inboxDelta' ∧
        machineProof = machineProof' ∧ bufferProof = bufferProof') := by
  refine ⟨fun signature tokens hsize => ?_, ?_, ?_⟩
  · -- the arguments are shorter than the call, so every offset in them fits a word
    have hdata : (encodeArguments tokens).length < UInt64.size :=
      (length_arguments_le signature tokens).trans_lt hsize
    refine ⟨encodeArguments tokens, rfl, length_selector signature, ?_,
      decodeArguments?_encodeArguments hdata, ?_⟩
    · rw [length_encodeArguments]
      exact dvd_add (dvd_headLength tokens) (dvd_length_tails tokens)
    · exact exists_readExtents? (length_encodeArguments tokens).symm hdata
  · intros _ _ _ _ _ _ _ _ _ _ hsize h
    exact bisect_inj hsize h
  · intros _ _ _ _ _ _ _ _ _ _ _ _ hsize h
    exact prove_inj hsize h

/-- A call with arguments of every type, among them an empty array and a byte string that
does not fill its word. -/
theorem mixed_call_decodes :
    let tokens : List Token :=
      [.words [], .uint 7, .bytes [1, 2, 3], .fixedUints [4, 5], .word .zero, .fixedWords [.zero],
        .words [.zero]]
    (encodeCall "f" tokens).length < UInt64.size ∧
      ∃ data extents, encodeCall "f" tokens = selector "f" ++ data ∧
        decodeArguments? (tokens.map Token.kind) data = some tokens ∧
        readExtents? data tokens = some extents ∧
        Tiles data.length (headLength tokens) extents := by
  intro tokens
  have hsize : (encodeCall "f" tokens).length < UInt64.size := by
    simp [tokens, encodeCall, length_selector, length_encodeArguments, headLength,
      Token.headLength, Token.tailLength, padding, UInt64.size]
  obtain ⟨data, hcall, -, -, hread, extents, hextents, htiles⟩ :=
    calls_decode_to_arguments.1 "f" tokens hsize
  exact ⟨hsize, data, extents, hcall, hread, hextents, htiles⟩

end CallData

end TraceDispute
