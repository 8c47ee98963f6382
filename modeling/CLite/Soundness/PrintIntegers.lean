import CLite.Proofs.PrintDirectives
import CLite.Proofs.ScanNumbers
import CLite.Spec.IntegerFields

/-! # Printing integers

The digits of a number are produced from the last to the first and emitted from the end of their array. Together
with the padding this gives the field that the directive asks for, wherever the directive stands in the format.
-/

namespace CLite

open ByteMemory BoundedSink

variable {args : Arguments} {cursor : ℕ} {d : FormatDirective}

/-! ## Numerals -/

theorem digitGlyph_eq : ∀ uppercase, ∀ digit < 16, digitGlyph uppercase digit = digitByte uppercase digit := by
  decide

/-- The canonical numeral of a number has the digits that the loop produces, and no other. -/
theorem isNumeral_iff {base val : ℕ} (positive : 1 < base) (digits : List ℕ) :
    IsNumeral base val digits ↔ digits = leadDigits base val := by
  constructor
  · rintro ⟨nonempty, within, canonical, rfl⟩
    rcases em (digits = [0]) with rfl | proper
    · simp [leadDigits]
    · obtain ⟨first, rest, rfl⟩ := List.exists_cons_of_ne_nil nonempty
      have leading : first ≠ 0 := by
        rintro rfl
        exact proper (canonical rfl)
      have produced : Nat.digits base (Nat.ofDigits base (first :: rest).reverse) = (first :: rest).reverse := by
        apply Nat.digits_ofDigits base positive
        · intro digit member
          exact within digit (List.mem_reverse.mp member)
        · intro _
          simpa using leading
      have nonzero : Nat.ofDigits base (first :: rest).reverse ≠ 0 := by
        intro zero
        rw [zero, Nat.digits_zero] at produced
        simp at produced
      rw [leadDigits, if_neg nonzero, produced, List.reverse_reverse]
  · rintro rfl
    refine ⟨leadDigits_ne_nil base val, leadDigits_lt positive, ?_, ?_⟩
    · intro leading
      rw [leadDigits, if_pos (leadDigits_head_zero_iff.mp leading)]
    · rw [← digitsValue_eq_ofDigits, digitsValue_leadDigits]

theorem numeral_leadDigits (d : FormatDirective) (val : ℕ) :
    d.numeral (leadDigits d.conversion.radix val) =
      (numBuf val d.conversion.radix (d.conversion = .X) false).reverse := by
  have bounds : 1 < d.conversion.radix ∧ d.conversion.radix ≤ 16 := by
    cases d.conversion <;> decide
  rw [numBuf_leadDigits, FormatDirective.numeral]
  apply List.map_congr_left
  intro digit member
  exact digitGlyph_eq _ digit ((leadDigits_lt bounds.1 digit member).trans_le bounds.2)

/-! ## Widths -/

theorem digitChar_value : ∀ digit : Fin 10, (digitChar digit.val).plain - 48 = digit.val := by decide

/-- The digits of a width are read modulo 2 to the 32. -/
theorem numberLoop_value (digits : List (Fin 10)) (value : ℕ) :
    (numberLoop (int32 value) (digitsText digits)).1 =
      int32 ((digits.map Fin.val).foldl (fun value digit => value * 10 + digit) value : ℕ) := by
  induction digits generalizing value with
  | nil => simp [digitsText, numberLoop]
  | cons digit digits ih =>
    rw [digitsText, List.map_cons, numberLoop, if_pos (isDecimal_digitChar digit), digitChar_value, int32_step]
    exact ih (value * 10 + digit.val)

theorem numberLoop_zero (digits : List (Fin 10)) :
    (numberLoop 0 (digitsText digits)).1 = int32 (Nat.ofDigits 10 (digits.map Fin.val).reverse : ℕ) := by
  rw [← digitsValue_eq_ofDigits]
  exact numberLoop_value digits 0

/-- A width is parsed modulo 2 to the 32, and its sign goes into the alignment. -/
theorem parsed_width (d : FormatDirective) (args : Arguments) (cursor : ℕ) :
    d.width.parsed args cursor = int32 (d.widthAt args cursor).natAbs ∧
      (d.width.alignsLeft args cursor = true ↔ d.widthAt args cursor < 0) := by
  rw [FormatDirective.widthAt]
  cases d.width with
  | absent => simp [Width.parsed, Width.alignsLeft, int32]
  | star =>
    have low := BitVec.le_toInt (args.word cursor)
    have high := (args.word cursor).toInt_lt
    simp only [Width.parsed, Width.alignsLeft, true_and, decide_eq_true_eq, and_true]
    split
    · rw [show ((args.word cursor).toInt.natAbs : ℤ) = -(args.word cursor).toInt by omega]
    · rw [show ((args.word cursor).toInt.natAbs : ℤ) = (args.word cursor).toInt by omega, int32]
      rw [Int.bmod_eq_of_le] <;> omega
  | number first more => exact ⟨numberLoop_zero (first.succ :: more), by simp [Width.alignsLeft]⟩

/-- A width below 2 to the 31 is parsed without a wrap. -/
theorem parsed_widthAt (bounded : (d.widthAt args cursor).natAbs < 2 ^ 31) :
    d.width.parsed args cursor = (d.widthAt args cursor).natAbs ∧
      (d.width.alignsLeft args cursor = true ↔ d.widthAt args cursor < 0) := by
  obtain ⟨parsed, aligns⟩ := parsed_width d args cursor
  rw [int32_of_lt bounded] at parsed
  exact ⟨parsed, aligns⟩

/-! ## Fields -/

/-- The magnitude of a negative word is its negation, also for the least one. -/
theorem natAbs_toInt (word : BitVec 32) :
    word.toInt.natAbs = if word.toInt < 0 then (-word).toNat else word.toNat := by
  have bound := word.isLt
  rw [BitVec.toNat_neg, BitVec.toInt_eq_toNat_cond]
  split
  · rw [if_neg (by omega)]
    omega
  · rw [if_pos (by omega)]
    omega

/-- The piece of an integer conversion is the text of the value that its argument has. -/
theorem FormatDirective.IntegerField.piece_eq (integer : d.IntegerField) (args : Arguments) (cursor : ℕ)
    {parsed : Directive} (there : parsed.cursor = cursor + d.stars) :
    parsed.piece args d.conversion.char =
      .text (numberText (d.valueAt args cursor).natAbs d.conversion.radix (d.conversion = .X) parsed.width
        parsed.pad (d.valueAt args cursor < 0) parsed.leftAlign) := by
  have signed (value : d.valueAt args cursor = (args.word parsed.cursor).toInt) :
      parsed.signedText args = numberText (d.valueAt args cursor).natAbs 10 false parsed.width parsed.pad
        (d.valueAt args cursor < 0) parsed.leftAlign := by
    rw [Directive.signedText, value, natAbs_toInt]
    split
    next negative => simp [negative]
    next positive => simp [positive]
  have unsigned (base : ℕ) (uppercase : Bool)
      (value : d.valueAt args cursor = (args.word parsed.cursor).toNat) :
      parsed.unsignedText args base uppercase = numberText (d.valueAt args cursor).natAbs base uppercase
        parsed.width parsed.pad (d.valueAt args cursor < 0) parsed.leftAlign := by
    have positive : ¬ ((args.word parsed.cursor).toNat : ℤ) < 0 := by omega
    rw [Directive.unsignedText, value]
    simp only [positive, decide_false, Int.natAbs_natCast]
  simp only [FormatDirective.valueAt, ← there] at signed unsigned ⊢
  rcases integer.conversion with same | same | same | same | same | same <;> rw [same] at signed unsigned ⊢
  · exact congrArg Piece.text (signed rfl)
  · exact congrArg Piece.text (signed rfl)
  · exact congrArg Piece.text (unsigned 10 false rfl)
  · exact congrArg Piece.text (unsigned 16 false rfl)
  · exact congrArg Piece.text (unsigned 16 true rfl)
  · exact congrArg Piece.text (unsigned 8 false rfl)

/-- With the options that parsing finds, the text of the number is the field that the directive asks for. -/
theorem numberText_integerField (bounded : (d.widthAt args cursor).natAbs < 2 ^ 31) :
    numberText (d.valueAt args cursor).natAbs d.conversion.radix (d.conversion = .X)
        (d.widthAt args cursor).natAbs
        (if .minus ∈ d.flags then ascii ' ' else if .zero ∈ d.flags then ascii '0' else ascii ' ')
        (d.valueAt args cursor < 0) (decide (.minus ∈ d.flags) || decide (d.widthAt args cursor < 0)) =
      d.integerField args cursor (leadDigits d.conversion.radix (d.valueAt args cursor).natAbs) := by
  have sign : (if decide (d.valueAt args cursor < 0) then [ascii '-'] else []) = d.sign args cursor := by
    simp [FormatDirective.sign]
  simp only [numberText, FormatDirective.integerField, sign, numeral_leadDigits, padCount_of_small _ bounded]
  rcases em (.minus ∈ d.flags ∨ d.widthAt args cursor < 0) with left | right
  · have aligned : (decide (.minus ∈ d.flags) || decide (d.widthAt args cursor < 0)) = true := by
      simpa using left
    rw [if_pos aligned, if_pos left]
  · have aligned : ¬ (decide (.minus ∈ d.flags) || decide (d.widthAt args cursor < 0)) = true := by
      simpa using right
    rw [if_neg aligned, if_neg right, if_neg (not_or.mp right).1]
    rcases em (.zero ∈ d.flags) with zeros | blanks
    · rw [if_pos zeros, if_pos zeros, if_pos rfl]
    · rw [if_neg blanks, if_neg blanks, if_neg (show ascii ' ' ≠ ascii '0' by decide)]

theorem readPiece_integerField (integer : d.IntegerField) (bounded : (d.widthAt args cursor).natAbs < 2 ^ 31)
    (rest : CString) :
    readPiece args (chr '%') (d.text ++ rest) cursor =
      ⟨.text (d.integerField args cursor (leadDigits d.conversion.radix (d.valueAt args cursor).natAbs)), rest,
        cursor + d.words⟩ := by
  obtain ⟨width, aligns⟩ := parsed_widthAt bounded
  have left : d.width.alignsLeft args cursor = decide (d.widthAt args cursor < 0) := by
    rw [Bool.eq_iff_iff, aligns, decide_eq_true_iff]
  have words : d.stars + Directive.reads d.conversion.char = d.words := by
    rw [FormatDirective.words, FormatDirective.argType]
    rcases integer.modifier with plain | long <;>
      rcases integer.conversion with same | same | same | same | same | same <;> simp only [*] <;> rfl
  have cursors : (parseDirective args (d.text ++ rest) cursor).cursor = cursor + d.stars := by
    rw [parseDirective_options]
  rw [readPiece_text, integer.piece_eq args cursor cursors, parseDirective_options, Nat.add_assoc, words]
  dsimp only
  rw [width, left, numberText_integerField bounded]

/-- A field is as long as the width or the number with its sign, whichever is longer. -/
theorem FormatDirective.integerField_length (d : FormatDirective) (args : Arguments) (cursor : ℕ)
    (digits : List ℕ) :
    (d.integerField args cursor digits).length =
      max (d.widthAt args cursor).natAbs (d.sign args cursor ++ d.numeral digits).length := by
  rw [FormatDirective.integerField]
  split_ifs <;> simp only [List.length_append, List.length_replicate] <;> omega

theorem valueAt_word (d : FormatDirective) (args : Arguments) (cursor : ℕ) :
    (d.valueAt args cursor).natAbs < 2 ^ 32 := by
  have bound := (args.word (cursor + d.stars)).isLt
  rw [FormatDirective.valueAt]
  split
  · rw [natAbs_toInt]
    split
    · exact (-args.word (cursor + d.stars)).isLt
    · exact bound
  · exact bound

/-- A field is not empty, and the returned count does not overflow. -/
theorem integerField_bounds (bounded : (d.widthAt args cursor).natAbs < 2 ^ 31) :
    let field := d.integerField args cursor (leadDigits d.conversion.radix (d.valueAt args cursor).natAbs)
    0 < field.length ∧ field.length < 2 ^ 31 := by
  have radix : 8 ≤ d.conversion.radix := by cases d.conversion <;> decide
  have short := numBuf_length_le (valueAt_word d args cursor) radix (d.conversion = .X) false
  have sign : (d.sign args cursor).length ≤ 1 := by
    rw [FormatDirective.sign]
    split <;> simp
  have digits : 0 < (d.numeral (leadDigits d.conversion.radix (d.valueAt args cursor).natAbs)).length := by
    rw [FormatDirective.numeral, List.length_map]
    exact List.length_pos_of_ne_nil (leadDigits_ne_nil _ _)
  rw [← List.length_reverse, ← numeral_leadDigits] at short
  simp only [d.integerField_length args cursor, List.length_append]
  omega

/-- A directive as a format of its own prints its field. -/
theorem vsnprintf_integerField (integer : d.IntegerField) (bounded : (d.widthAt args cursor).natAbs < 2 ^ 31)
    (memory : Memory) {str size : ℕ} (nonnull : str ≠ 0)
    (fits : (d.integerField args cursor
      (leadDigits d.conversion.radix (d.valueAt args cursor).natAbs)).length < size) :
    ∃ after, vsnprintf args memory str size (chr '%' :: d.text) cursor =
        some (((d.integerField args cursor
          (leadDigits d.conversion.radix (d.valueAt args cursor).natAbs)).length : ℤ), after) ∧
      Printed memory str size (d.integerField args cursor
        (leadDigits d.conversion.radix (d.valueAt args cursor).natAbs)) after := by
  have read := readPiece_integerField integer bounded []
  rw [List.append_nil] at read
  have whole : fullText (formatPieces args (chr '%' :: d.text) cursor) = d.integerField args cursor
      (leadDigits d.conversion.radix (d.valueAt args cursor).natAbs) := by
    rw [formatPieces_cons, read, formatPieces_nil, fullText, fullText, List.append_nil]
  have regular : ∀ piece ∈ formatPieces args (chr '%' :: d.text) cursor, piece.Regular := by
    rw [formatPieces_cons, read, formatPieces_nil]
    simp [Piece.Regular]
  rw [← whole] at fits
  obtain ⟨after, result, printed⟩ := vsnprintf_whole memory nonnull regular fits
  rw [whole] at result printed
  rw [int32_of_lt (integerField_bounds bounded).2] at result
  exact ⟨after, result, printed⟩

/-- The field of an integer directive, at any place of a format with room for it and as a format of its own. There
is one canonical numeral, and what is emitted is its field. -/
theorem integer_field_printed (integer : d.IntegerField) (bounded : (d.widthAt args cursor).natAbs < 2 ^ 31) :
    (∃ digits, IsNumeral d.conversion.radix (d.valueAt args cursor).natAbs digits) ∧
    ∀ digits, IsNumeral d.conversion.radix (d.valueAt args cursor).natAbs digits →
      (d.integerField args cursor digits).length =
          max (d.widthAt args cursor).natAbs (d.sign args cursor ++ d.numeral digits).length ∧
        (∀ rest sink, (d.integerField args cursor digits).length < sink.rem →
          printStep args (chr '%') (d.text ++ rest) cursor sink =
            some ⟨rest, cursor + d.words, sink.puts (d.integerField args cursor digits)⟩) ∧
        ∀ memory str size, str ≠ 0 → (d.integerField args cursor digits).length < size →
          ∃ after, vsnprintf args memory str size (chr '%' :: d.text) cursor =
              some (((d.integerField args cursor digits).length : ℤ), after) ∧
            Printed memory str size (d.integerField args cursor digits) after := by
  have positive : 1 < d.conversion.radix := by cases d.conversion <;> decide
  refine ⟨⟨_, (isNumeral_iff positive _).mpr rfl⟩, ?_⟩
  intro digits numeral
  obtain rfl := (isNumeral_iff positive digits).mp numeral
  have nonempty := (integerField_bounds bounded).1
  refine ⟨d.integerField_length args cursor _, ?_, ?_⟩
  · intro rest sink fits
    rw [printStep_eq (by omega), readPiece_integerField integer bounded rest, Piece.emit, Piece.bytes,
      Option.map_some, Option.map_some, Sink.fill, List.take_of_length_le (by omega)]
  · intro memory str size nonnull fits
    exact vsnprintf_integerField integer bounded memory nonnull fits

/-- The directive `%0*ld`. -/
def zeroStar : FormatDirective := ⟨[.zero], .star, .absent, .l, .d⟩

theorem integer_field_printed_least :
    ∃ after, vsnprintf (.ofWords [12, 0x80000000]) (fun _ => 0) 1 20 (chr '%' :: zeroStar.text) 0 =
        some (12, after) ∧
      Printed (fun _ => 0) 1 20 ("-02147483648".toList.map ascii) after := by
  have numeral : IsNumeral zeroStar.conversion.radix (zeroStar.valueAt (.ofWords [12, 0x80000000]) 0).natAbs
      [2, 1, 4, 7, 4, 8, 3, 6, 4, 8] := ⟨by decide, by decide, by decide, by decide⟩
  have field : zeroStar.integerField (.ofWords [12, 0x80000000]) 0 [2, 1, 4, 7, 4, 8, 3, 6, 4, 8] =
      "-02147483648".toList.map ascii := by decide
  have printed := ((@integer_field_printed (.ofWords [12, 0x80000000]) 0 zeroStar
    ⟨by decide, rfl, .inr rfl, .inl rfl⟩ (by decide)).2 _ numeral).2.2 (fun _ => 0) 1 20 (by decide)
  rw [field] at printed
  exact printed (by decide)

end CLite
