import CLite.Proofs.ScanFields

/-! # Printing and scanning integers

What `snprintf` prints for an integer is read back by `sscanf`, with any flags, width and following text.
-/

namespace CLite

open ByteMemory BoundedSink LongestPrefix

variable {args : Arguments} {memory : Memory} {str size cursor : ℕ}

theorem digitValue_of_not_isAlnum {x : CChar} (other : isAlnum x = false) : digitValue x = none := by
  simp only [isAlnum, decide_eq_false_iff_not, not_or] at other
  rw [digitValue, if_neg other.1, if_neg other.2.1, if_neg other.2.2]

def blanks (count : ℕ) : CString := List.replicate count (chr ' ')

/-- A printed number: blanks, the sign, zeros and digits, and blanks. -/
def numberShape (before zeros after base val : ℕ) (uppercase negative : Bool) : CString :=
  blanks before ++ (signText negative ++
    ((List.replicate zeros 0 ++ leadDigits base val).map (digitText uppercase) ++ blanks after))

/-- The text of a number has that shape, with any width, alignment and padding. -/
theorem numberText_shape {base : ℕ} (positive : 1 < base) (small : base ≤ 16) (val : ℕ) (uppercase : Bool)
    (width : ℤ) {pad : Byte} (padding : pad = ascii ' ' ∨ pad = ascii '0') (negative leftAlign : Bool) :
    ∃ before zeros after, numberText val base uppercase width pad negative leftAlign =
      (numberShape before zeros after base val uppercase negative).map CChar.byte := by
  have sign : (signText negative).map CChar.byte = if negative then [ascii '-'] else [] := by
    cases negative <;> rfl
  have zero : (digitText uppercase 0).byte = ascii '0' := by cases uppercase <;> rfl
  have blank : (chr ' ').byte = ascii ' ' := rfl
  simp only [numberText, numBuf_reverse positive small]
  generalize padCount _ _ = count
  cases leftAlign with
  | true => exact ⟨0, 0, count, by simp [numberShape, blanks, sign, blank]⟩
  | false =>
    rcases padding with rfl | rfl
    · exact ⟨count, 0, 0, by simp [numberShape, blanks, sign, blank, show ascii ' ' ≠ ascii '0' by decide]⟩
    · exact ⟨0, count, 0, by simp [numberShape, blanks, sign, zero]⟩

theorem flagsLoop_pad (leftAlign : Bool) {pad : Byte} (padding : pad = ascii ' ' ∨ pad = ascii '0')
    (format : CString) :
    (flagsLoop leftAlign pad format).2.1 = ascii ' ' ∨ (flagsLoop leftAlign pad format).2.1 = ascii '0' := by
  fun_induction flagsLoop leftAlign pad format <;> simp_all

theorem parseDirective_pad (args : Arguments) (format : CString) (cursor : ℕ) :
    (parseDirective args format cursor).pad = ascii ' ' ∨ (parseDirective args format cursor).pad = ascii '0' := by
  rw [parseDirective_eq]
  dsimp only
  split
  · exact .inl rfl
  · exact flagsLoop_pad false (.inl rfl) format

/-- The conversion that scans what a conversion prints. -/
def Conversion.scan : Conversion → CChar
  | .u => chr 'u'
  | .x | .X => chr 'x'
  | _ => chr 'd'

/-- The base in which a conversion prints. -/
def Conversion.base : Conversion → ℕ
  | .x | .X => 16
  | _ => 10

/-- The conversions and modifiers of integers that are printed and scanned alike. -/
structure FormatDirective.Scannable (d : FormatDirective) : Prop where
  conversion : d.conversion = .d ∨ d.conversion = .u ∨ d.conversion = .x ∨ d.conversion = .X
  modifier : d.modifier = .none ∨ d.modifier = .l

/-- The format that scans what a directive prints. -/
def FormatDirective.scanFormat (d : FormatDirective) : CString :=
  chr '%' :: (d.modifier.text ++ [d.conversion.scan])

/-- The store of a value through the pointer that the format asks for. -/
def FormatDirective.store (d : FormatDirective) (value : BitVec 32) : Store :=
  if d.modifier = .l then .long value else .int value

/-- What scans a printed integer is an integer directive without a width. -/
theorem FormatDirective.Scannable.exists_scan {d : FormatDirective} (scannable : d.Scannable) :
    ∃ (length : ScanLength) (conversion : IntegerConversion),
      d.modifier.text ++ [d.conversion.scan] = IntegerDirective.text ⟨false, [], length, conversion⟩ ++ [] ∧
      IntegerDirective.base ⟨false, [], length, conversion⟩ = d.conversion.base ∧
      ∀ val, storeInteger length.isLong val = d.store (BitVec.ofInt 32 val) := by
  obtain ⟨flags, width, precision, modifier, conversion⟩ := d
  obtain ⟨conversions, modifiers⟩ := scannable
  dsimp only at conversions modifiers
  have length : ∃ length : ScanLength, length.text = modifier.text ∧ ∀ val, storeInteger length.isLong val =
      FormatDirective.store ⟨flags, width, precision, modifier, conversion⟩ (BitVec.ofInt 32 val) := by
    rcases modifiers with rfl | rfl
    · exact ⟨.none, rfl, fun _ => rfl⟩
    · exact ⟨.l, rfl, fun _ => rfl⟩
  obtain ⟨length, sameText, store⟩ := length
  rcases conversions with rfl | rfl | rfl | rfl
  · exact ⟨length, .d, by rw [← sameText, List.append_nil]; rfl, rfl, store⟩
  · exact ⟨length, .u, by rw [← sameText, List.append_nil]; rfl, rfl, store⟩
  · exact ⟨length, .x, by rw [← sameText, List.append_nil]; rfl, rfl, store⟩
  · exact ⟨length, .x, by rw [← sameText, List.append_nil]; rfl, rfl, store⟩

theorem scanRound_integer {d : FormatDirective} (scannable : d.Scannable) {text number rest : CString} {val : ℤ}
    (skipped : text.dropWhile isSpace = number) (read : strtol number d.conversion.base = (val, rest))
    (shorter : rest.length ≠ number.length) :
    scanRound text (chr '%') (d.modifier.text ++ [d.conversion.scan]) ⟨text, 0, []⟩ =
      .next [] ⟨rest, 1, [d.store (BitVec.ofInt 32 val)]⟩ := by
  obtain ⟨length, conversion, sameText, sameBase, store⟩ := scannable.exists_scan
  rw [sameText, IntegerDirective.round_eq, sameBase, IntegerDirective.skipped, IntegerDirective.input]
  simp [Scanning.integer, skipped, read, shorter, store]

section Digits

variable {base : ℕ} (small : base ≤ 16) (uppercase : Bool) {digits : List ℕ} (within : ∀ digit ∈ digits, digit < base)
  {tail : CString} (ended : ∀ x ∈ tail.head?, digitValue x = none)
include small within ended

/-- The digits are taken up to what follows, and they are those of the number. -/
theorem span_digitText :
    (digits.map (digitText uppercase) ++ tail).takeWhile (IsDigit base) = digits.map (digitText uppercase) ∧
      (digits.map (digitText uppercase) ++ tail).dropWhile (IsDigit base) = tail ∧
      digitsRead base (digits.map (digitText uppercase) ++ tail) = digitsValue base digits := by
  have printed : ∀ digit ∈ digits, digitValue (digitText uppercase digit) = some (digit : ℤ) :=
    fun digit member => digitValue_digitText uppercase digit ((within digit member).trans_le small)
  have all := isDigit_digitText printed within
  have stop : ∀ x ∈ tail.head?, IsDigit base x = false := by
    intro x first
    rw [IsDigit, ended x first]
    rfl
  have taken := takeWhile_append_stop all stop
  refine ⟨taken, dropWhile_append_stop all stop, ?_⟩
  rw [digitsRead, taken, digitNumber_digitText printed, digitsValue_eq_ofDigits]

end Digits

/-- `strtol` of a number in base 10 or 16 without blanks in front. -/
theorem strtol_number {base : ℕ} (decimal : base = 10 ∨ base = 16) (uppercase negative : Bool)
    {digits : List ℕ} (nonempty : digits ≠ []) (within : ∀ digit ∈ digits, digit < base) {tail : CString}
    (ended : ∀ x ∈ tail.head?, digitValue x = none) :
    strtol (signText negative ++ (digits.map (digitText uppercase) ++ tail)) base =
      (int32 (if negative then -(digitsValue base digits : ℤ) else digitsValue base digits), tail) := by
  have hexadecimal (digit : ℕ) (member : digit ∈ digits) : digit < 16 :=
    (within digit member).trans_le (by omega)
  obtain ⟨noBlanks, front⟩ := takeSign_number uppercase negative hexadecimal nonempty tail
  obtain ⟨taken, left, read⟩ := span_digitText (by omega) uppercase within ended
  have plain := hasHexPrefix_digits uppercase hexadecimal nonempty ended
  have sign : negative = decide ((if negative then Sign.minus else .none) = .minus) := by cases negative <;> rfl
  have someTaken : digits.map (digitText uppercase) ≠ [] := by simpa using nonempty
  rw [← noBlanks] at front
  rw [strtol_plain (by simp [plain]) (front.trans (congrArg (·, _) sign)) (if_neg (by omega)).symm, read, left,
    taken, if_neg someTaken]
  cases negative <;> rfl

/-- Behind its blanks a number of the printed shape is read up to its last digit. -/
theorem strtol_numberShape {base : ℕ} (decimal : base = 10 ∨ base = 16) (before zeros after val : ℕ)
    (uppercase negative : Bool) {following : CString} (ended : ∀ x ∈ following.head?, isAlnum x = false) :
    ∃ number rest,
      (numberShape before zeros after base val uppercase negative ++ following).dropWhile isSpace = number ∧
      rest.length ≠ number.length ∧
      strtol number base = (int32 (if negative then -(val : ℤ) else val), rest) := by
  have within : ∀ digit ∈ List.replicate zeros 0 ++ leadDigits base val, digit < base := by
    intro digit member
    rcases List.mem_append.mp member with zero | digit
    · rw [List.eq_of_mem_replicate zero]
      omega
    · exact leadDigits_lt (by omega) _ digit
  have nonempty : List.replicate zeros 0 ++ leadDigits base val ≠ [] := by simp [leadDigits_ne_nil]
  have tail : ∀ x ∈ (blanks after ++ following).head?, digitValue x = none := by
    intro x first
    cases after with
    | zero => exact digitValue_of_not_isAlnum (ended x first)
    | succ after =>
      obtain rfl : chr ' ' = x := Option.some.inj first
      decide
  have read := strtol_number decimal uppercase negative nonempty within tail
  rw [digitsValue_zeros, digitsValue_leadDigits] at read
  obtain ⟨noBlanks, -⟩ := takeSign_number uppercase negative
    (fun digit member => (within digit member).trans_le (by omega)) nonempty (blanks after ++ following)
  refine ⟨_, _, ?_, ?_, read⟩
  · simp only [numberShape, List.append_assoc] at noBlanks ⊢
    rw [List.dropWhile_append_of_pos, noBlanks]
    intro x member
    rw [List.eq_of_mem_replicate member]
    decide
  · have positive := List.length_pos_of_ne_nil nonempty
    simp only [List.length_append, List.length_map] at positive ⊢
    omega

theorem ofInt_signed (negative : Bool) (val : ℕ) :
    BitVec.ofInt 32 (int32 (if negative then -(val : ℤ) else val)) =
      if negative then -BitVec.ofNat 32 val else BitVec.ofNat 32 val := by
  rw [ofInt_int32]
  cases negative with
  | false => exact BitVec.ofInt_natCast ..
  | true => exact (BitVec.ofInt_neg ..).trans (congrArg Neg.neg (BitVec.ofInt_natCast ..))

/-- Scanning a number of the printed shape gives its value back. -/
theorem vsscanf_numberShape {d : FormatDirective} (scannable : d.Scannable) (before zeros after val : ℕ)
    (uppercase negative : Bool) {following : CString} (ended : ∀ x ∈ following.head?, isAlnum x = false) :
    vsscanf (numberShape before zeros after d.conversion.base val uppercase negative ++ following)
        d.scanFormat =
      some (1, [d.store (if negative then -BitVec.ofNat 32 val else BitVec.ofNat 32 val)]) := by
  have decimal : d.conversion.base = 10 ∨ d.conversion.base = 16 := by
    rcases scannable.conversion with same | same | same | same <;> rw [same] <;> decide
  obtain ⟨number, rest, skipped, shorter, read⟩ :=
    strtol_numberShape decimal before zeros after val uppercase negative ended
  rw [vsscanf, FormatDirective.scanFormat, scanLoop_next (scanRound_integer scannable skipped read shorter),
    scanLoop_nil, Option.map_some, ofInt_signed]

/-- What an integer directive prints: the text of a number that stands for its argument. -/
theorem FormatDirective.Scannable.piece_eq {d : FormatDirective} (scannable : d.Scannable) (args : Arguments)
    (p : Directive) :
    ∃ val uppercase negative,
      p.piece args d.conversion.char =
        .text (numberText val d.conversion.base uppercase p.width p.pad negative p.leftAlign) ∧
      (if negative then -BitVec.ofNat 32 val else BitVec.ofNat 32 val) = args.word p.cursor := by
  rcases scannable.conversion with same | same | same | same
  · rw [same]
    have signed : p.piece args (chr 'd') = .text (p.signedText args) := rfl
    rcases lt_or_ge (args.word p.cursor).toInt 0 with negative | positive
    · refine ⟨(-args.word p.cursor).toNat, false, true, ?_, ?_⟩
      rotate_left
      · rw [if_pos rfl, BitVec.ofNat_toNat, BitVec.setWidth_eq, BitVec.neg_neg]
      rw [Directive.signedText, if_pos negative] at signed
      exact signed
    · refine ⟨(args.word p.cursor).toNat, false, false, ?_, by simp⟩
      rw [Directive.signedText, if_neg (by omega)] at signed
      exact signed
  · rw [same]
    exact ⟨_, false, false, rfl, by simp⟩
  · rw [same]
    exact ⟨_, false, false, rfl, by simp⟩
  · rw [same]
    exact ⟨_, true, false, rfl, by simp⟩

/-- Printing an integer and scanning the text, whatever follows it, stores the integer back. -/
theorem sscanf_snprintf {d : FormatDirective} (scannable : d.Scannable) (nonnull : str ≠ 0)
    (fits : (fullText (formatPieces args (chr '%' :: d.text) cursor)).length < size) {following : CString}
    (ended : ∀ x ∈ following.head?, isAlnum x = false) :
    ∃ text ret after, vsnprintf args memory str size (chr '%' :: d.text) cursor = some (ret, after) ∧
      Printed memory str size (text.map CChar.byte) after ∧
      vsscanf (text ++ following) d.scanFormat = some (1, [d.store (args.word (cursor + d.stars))]) := by
  have padding := parseDirective_pad args d.text cursor
  have read := readPiece_text args d [] cursor
  obtain ⟨-, stars, -⟩ := parseDirective_text args d [] cursor
  rw [List.append_nil] at read stars
  generalize parseDirective args d.text cursor = parsed at read stars padding
  obtain ⟨val, uppercase, negative, piece, value⟩ := scannable.piece_eq args parsed
  have bounds : 1 < d.conversion.base ∧ d.conversion.base ≤ 16 := by
    cases d.conversion <;> decide
  obtain ⟨before, zeros, after, shape⟩ := numberText_shape bounds.1 bounds.2 val uppercase parsed.width padding
    negative parsed.leftAlign
  have only : formatPieces args (chr '%' :: d.text) cursor =
      [.text ((numberShape before zeros after d.conversion.base val uppercase negative).map CChar.byte)] := by
    rw [formatPieces_cons, read, formatPieces_nil, piece, shape]
  have whole : fullText (formatPieces args (chr '%' :: d.text) cursor) =
      (numberShape before zeros after d.conversion.base val uppercase negative).map CChar.byte := by
    rw [only, fullText, fullText, List.append_nil]
  obtain ⟨memory', result, printed⟩ := vsnprintf_whole memory nonnull (by rw [only]; simp [Piece.Regular]) fits
  rw [whole] at result printed
  refine ⟨_, _, memory', result, printed, ?_⟩
  rw [vsscanf_numberShape scannable before zeros after val uppercase negative ended, value, stars]

/-- The directive `%08d`. -/
def zeroPadded : FormatDirective := ⟨[.zero], .number 7 [], .absent, .none, .d⟩

theorem sscanf_snprintf_intMin :
    ∃ text ret after, vsnprintf (.ofWords [0x80000000]) (fun _ => 0) 1 20 (chr '%' :: zeroPadded.text) 0 =
        some (ret, after) ∧
      Printed (fun _ => 0) 1 20 (text.map CChar.byte) after ∧
      vsscanf (text ++ [chr ',']) zeroPadded.scanFormat = some (1, [.int 0x80000000]) :=
  sscanf_snprintf ⟨.inl rfl, .inl rfl⟩ (by decide) (by decide +kernel) (by decide)

end CLite
