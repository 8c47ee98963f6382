import Mathlib.Tactic.FinCases
import CLite.Spec.PrintDirectives
import CLite.Proofs.PrintFormats

/-! # Parsing a directive of the grammar -/

namespace CLite

open ByteMemory BoundedSink

variable {args : Arguments} {cursor : ℕ}

/-- The characters at which flags, width and precision have ended. -/
def EndsOptions (x : CChar) : Prop :=
  x ≠ chr '-' ∧ x ≠ chr '0' ∧ x ≠ chr '+' ∧ x ≠ chr ' ' ∧ x ≠ chr '#' ∧ x ≠ chr '*' ∧ x ≠ chr '.' ∧
    isDecimal x = false

instance (x : CChar) : Decidable (EndsOptions x) := inferInstanceAs (Decidable (_ ∧ _))

theorem isDecimal_digitChar (digit : Fin 10) : isDecimal (digitChar digit.val) = true := by
  revert digit
  decide

/-- What the flags say: a minus sign aligns to the left, a zero pads with zeros. -/
theorem flagsLoop_flags (rest : CString) (flags : List Flag) (leftAlign : Bool) (pad : Byte) {x : CChar}
    (ended : x ≠ chr '-' ∧ x ≠ chr '0' ∧ x ≠ chr '+' ∧ x ≠ chr ' ' ∧ x ≠ chr '#') :
    flagsLoop leftAlign pad (flags.map Flag.char ++ x :: rest) =
      (leftAlign || decide (.minus ∈ flags), if .zero ∈ flags then ascii '0' else pad, x :: rest) := by
  induction flags generalizing leftAlign pad with
  | nil => simp [flagsLoop, ended]
  | cons flag flags ih =>
    rw [List.map_cons, List.cons_append, flagsLoop]
    cases flag with
    | minus => simp [Flag.char, ih]
    | zero => simp [Flag.char, ih, show chr '0' ≠ chr '-' by decide]
    | plus => simp [Flag.char, ih, show chr '+' ≠ chr '-' by decide, show chr '+' ≠ chr '0' by decide]
    | space => simp [Flag.char, ih, show chr ' ' ≠ chr '-' by decide, show chr ' ' ≠ chr '0' by decide]
    | sharp => simp [Flag.char, ih, show chr '#' ≠ chr '-' by decide, show chr '#' ≠ chr '0' by decide]

theorem numberLoop_digits (rest : CString) (digits : List (Fin 10)) (value : ℤ) {x : CChar}
    (ended : isDecimal x = false) :
    numberLoop value (digitsText digits ++ x :: rest) =
      ((numberLoop value (digitsText digits)).1, x :: rest) := by
  induction digits generalizing value with
  | nil => simp [digitsText, numberLoop, ended]
  | cons digit digits ih =>
    simp only [digitsText, List.map_cons, List.cons_append, numberLoop, isDecimal_digitChar, if_true]
    exact ih _

theorem Conversion.endsOptions (conversion : Conversion) : EndsOptions conversion.char := by
  cases conversion <;> decide

theorem modifiersLoop_modifier (rest : CString) (modifier : Modifier) (conversion : Conversion) (isLong : ℕ) :
    (modifiersLoop isLong (modifier.text ++ conversion.char :: rest)).2 = conversion.char :: rest := by
  have ended : (modifiersLoop isLong (conversion.char :: rest)).2 = conversion.char :: rest := by
    cases conversion <;> rfl
  rw [modifiersLoop_format] at ended ⊢
  rw [List.dropWhile_append_of_pos]
  · exact ended
  · intro y member
    cases modifier <;> simp_all [Modifier.text]

/-- After the precision comes a modifier or the conversion. -/
theorem modifier_endsOptions (rest : CString) (modifier : Modifier) (conversion : Conversion) :
    ∃ x more, modifier.text ++ conversion.char :: rest = x :: more ∧ EndsOptions x := by
  cases modifier with
  | none => exact ⟨_, _, rfl, conversion.endsOptions⟩
  | _ => exact ⟨_, _, rfl, by decide⟩

/-- Digits after which something else follows do not start with a star. -/
theorem digitsText_head (rest : CString) (digits : List (Fin 10)) {x : CChar} (notStar : x ≠ chr '*') :
    ∃ y more, digitsText digits ++ x :: rest = y :: more ∧ y ≠ chr '*' := by
  cases digits with
  | nil => exact ⟨x, rest, rfl, notStar⟩
  | cons digit digits =>
    refine ⟨_, _, rfl, ?_⟩
    revert digit
    decide

/-- The precision that parsing computes. -/
def Precision.parsed (precision : Precision) (args : Arguments) (cursor : ℕ) : ℤ :=
  match precision with
  | .absent => -1
  | .star => (args.word cursor).toInt
  | .number digits => (numberLoop 0 (digitsText digits)).1

theorem FormatDirective.precisionAt_eq (d : FormatDirective) :
    d.precisionAt args cursor = d.precision.parsed args (cursor + if d.width = .star then 1 else 0) := by
  rw [FormatDirective.precisionAt]
  cases d.precision <;> rfl

theorem parsePrecision_text (rest : CString) (precision : Precision) {x : CChar} (ended : EndsOptions x) :
    parsePrecision args (precision.text ++ x :: rest) cursor =
      (precision.parsed args cursor, x :: rest, cursor + if precision = .star then 1 else 0) := by
  obtain ⟨-, -, -, -, -, notStar, notDot, notDigit⟩ := ended
  cases precision with
  | absent => simp [Precision.text, Precision.parsed, parsePrecision, notDot]
  | star => simp [Precision.text, Precision.parsed, parsePrecision]
  | number digits =>
    obtain ⟨y, more, shape, notStar⟩ := digitsText_head rest digits notStar
    have number := numberLoop_digits rest digits 0 notDigit
    rw [shape] at number
    simp [Precision.text, Precision.parsed, shape, parsePrecision, notStar, number]

/-- The width that parsing computes, in the arithmetic of `int`. -/
def Width.parsed (width : Width) (args : Arguments) (cursor : ℕ) : ℤ :=
  match width with
  | .absent => 0
  | .star => if (args.word cursor).toInt < 0 then int32 (-(args.word cursor).toInt) else (args.word cursor).toInt
  | .number first more => (numberLoop 0 (digitChar (first.val + 1) :: digitsText more)).1

/-- The width aligns to the left when it is a star with a negative argument. -/
def Width.alignsLeft (width : Width) (args : Arguments) (cursor : ℕ) : Bool :=
  width = .star ∧ (args.word cursor).toInt < 0

theorem parseWidth_text (rest : CString) (width : Width) (leftAlign : Bool) {x : CChar} (notStar : x ≠ chr '*')
    (notDigit : isDecimal x = false) :
    parseWidth args leftAlign (width.text ++ x :: rest) cursor =
      (leftAlign || width.alignsLeft args cursor, width.parsed args cursor, x :: rest,
        cursor + if width = .star then 1 else 0) := by
  cases width with
  | absent => simp [Width.text, Width.parsed, Width.alignsLeft, parseWidth, notStar, numberLoop, notDigit]
  | star =>
    simp only [Width.text, Width.parsed, Width.alignsLeft, List.cons_append, List.nil_append, parseWidth, if_true,
      true_and]
    split
    next negative => simp [negative]
    next positive => simp [positive]
  | number first more =>
    have digit : digitChar (first.val + 1) ≠ chr '*' ∧ isDecimal (digitChar (first.val + 1)) = true := by
      revert first
      decide
    simp [Width.text, Width.parsed, Width.alignsLeft, parseWidth, digit, numberLoop,
      numberLoop_digits rest more _ notDigit]

/-- After the width comes the precision or what ends the options. -/
theorem precision_head (rest : CString) (precision : Precision) {x : CChar} (ended : EndsOptions x) :
    ∃ y more, precision.text ++ x :: rest = y :: more ∧ y ≠ chr '*' ∧ isDecimal y = false ∧
      (y ≠ chr '-' ∧ y ≠ chr '0' ∧ y ≠ chr '+' ∧ y ≠ chr ' ' ∧ y ≠ chr '#') := by
  cases precision with
  | absent =>
    obtain ⟨h1, h2, h3, h4, h5, notStar, notDot, notDigit⟩ := ended
    exact ⟨x, rest, rfl, notStar, notDigit, h1, h2, h3, h4, h5⟩
  | _ => exact ⟨_, _, rfl, by decide⟩

/-- After the flags comes something that is not a flag. -/
theorem width_head (rest : CString) (width : Width) {x : CChar}
    (ended : x ≠ chr '-' ∧ x ≠ chr '0' ∧ x ≠ chr '+' ∧ x ≠ chr ' ' ∧ x ≠ chr '#') :
    ∃ y more, width.text ++ x :: rest = y :: more ∧
      (y ≠ chr '-' ∧ y ≠ chr '0' ∧ y ≠ chr '+' ∧ y ≠ chr ' ' ∧ y ≠ chr '#') := by
  cases width with
  | absent => exact ⟨x, rest, rfl, ended⟩
  | star => exact ⟨_, _, rfl, by decide⟩
  | number first more =>
    refine ⟨_, _, rfl, ?_⟩
    revert first
    decide

theorem parseDirective_eq (format : CString) :
    parseDirective args format cursor =
      let flags := flagsLoop false (ascii ' ') format
      let width := parseWidth args flags.1 flags.2.2 cursor
      let precision := parsePrecision args width.2.2.1 width.2.2.2
      let modifiers := modifiersLoop 0 precision.2.1
      ⟨width.1, if flags.1 then ascii ' ' else flags.2.1, width.2.1, precision.1, modifiers.1, modifiers.2,
        precision.2.2⟩ := rfl

/-- What parsing finds in a directive of the grammar. -/
theorem parseDirective_options (args : Arguments) (d : FormatDirective) (rest : CString) (cursor : ℕ) :
    parseDirective args (d.text ++ rest) cursor =
      { leftAlign := decide (.minus ∈ d.flags) || d.width.alignsLeft args cursor
        pad := if .minus ∈ d.flags then ascii ' ' else if .zero ∈ d.flags then ascii '0' else ascii ' '
        width := d.width.parsed args cursor
        precision := d.precisionAt args cursor
        isLong := (modifiersLoop 0 (d.modifier.text ++ d.conversion.char :: rest)).1
        format := d.conversion.char :: rest
        cursor := cursor + d.stars } := by
  obtain ⟨x, more, modifiers, ended⟩ := modifier_endsOptions rest d.modifier d.conversion
  obtain ⟨y, tail, precisions, notStar, notDigit, notFlag⟩ := precision_head more d.precision ended
  obtain ⟨w, others, widths, started⟩ := width_head tail d.width notFlag
  have shape : d.text ++ rest = d.flags.map Flag.char ++ w :: others := by
    rw [← widths, ← precisions, ← modifiers]
    simp only [FormatDirective.text, List.append_assoc, List.cons_append, List.nil_append]
  have flags := flagsLoop_flags others d.flags false (ascii ' ') started
  rw [shape, parseDirective_eq]
  dsimp only
  rw [flags, ← widths, parseWidth_text tail d.width _ notStar notDigit]
  dsimp only
  rw [← precisions, parsePrecision_text more d.precision ended]
  dsimp only
  rw [← modifiers, modifiersLoop_modifier, FormatDirective.stars, Nat.add_assoc]
  simp only [Bool.false_or, decide_eq_true_eq, FormatDirective.precisionAt_eq]

/-- The format, the cursor and the precision after a directive of the grammar. -/
theorem parseDirective_text (args : Arguments) (d : FormatDirective) (rest : CString) (cursor : ℕ) :
    (parseDirective args (d.text ++ rest) cursor).format = d.conversion.char :: rest ∧
      (parseDirective args (d.text ++ rest) cursor).cursor = cursor + d.stars ∧
      (parseDirective args (d.text ++ rest) cursor).precision = d.precisionAt args cursor := by
  rw [parseDirective_options]
  exact ⟨rfl, rfl, rfl⟩

theorem FormatDirective.text_head (d : FormatDirective) (rest : CString) :
    ∃ y more, d.text ++ rest = y :: more ∧ y ≠ chr '%' := by
  obtain ⟨flags, width, precision, modifier, conversion⟩ := d
  cases flags with
  | cons flag flags => exact ⟨_, _, rfl, by cases flag <;> decide⟩
  | nil =>
    cases width with
    | star => exact ⟨_, _, rfl, by decide⟩
    | number first more =>
      refine ⟨_, _, rfl, ?_⟩
      revert first
      decide
    | absent =>
      cases precision with
      | star => exact ⟨_, _, rfl, by decide⟩
      | number digits => exact ⟨_, _, rfl, by decide⟩
      | absent =>
        cases modifier with
        | none => exact ⟨_, _, rfl, by cases conversion <;> decide⟩
        | _ => exact ⟨_, _, rfl, by decide⟩

/-- The piece of a directive of the grammar, and the words it reads. -/
theorem readPiece_text (args : Arguments) (d : FormatDirective) (rest : CString) (cursor : ℕ) :
    readPiece args (chr '%') (d.text ++ rest) cursor =
      ⟨(parseDirective args (d.text ++ rest) cursor).piece args d.conversion.char, rest,
        cursor + d.stars + Directive.reads d.conversion.char⟩ := by
  obtain ⟨format, stars, -⟩ := parseDirective_text args d rest cursor
  obtain ⟨y, more, shape, opened⟩ := d.text_head rest
  rw [← stars]
  rw [shape, parseDirective_format] at format
  rw [shape, readPiece_directive opened format]

/-- What `f` prints fits its buffer. -/
def FormatDirective.FixedFits (d : FormatDirective) (args : Arguments) (cursor : ℕ) : Prop :=
  let prec := if 0 ≤ d.precisionAt args cursor then (d.precisionAt args cursor).toNat else 6
  fixedField (args.rounded (args.double (cursor + d.stars)) prec) prec ≠ none

theorem FormatDirective.piece_ne_stuck_iff (d : FormatDirective) (rest : CString) :
    (parseDirective args (d.text ++ rest) cursor).piece args d.conversion.char ≠ .stuck ↔
      (d.conversion = .f → d.FixedFits args cursor) := by
  by_cases fixed : d.conversion = .f
  · obtain ⟨-, stars, precision⟩ := parseDirective_text args d rest cursor
    have piece : (parseDirective args (d.text ++ rest) cursor).piece args d.conversion.char =
        (parseDirective args (d.text ++ rest) cursor).fixedPiece args := by
      rw [fixed]
      rfl
    rw [piece, Directive.fixedPiece, stars, precision, FormatDirective.FixedFits]
    generalize (if 0 ≤ d.precisionAt args cursor then (d.precisionAt args cursor).toNat else 6) = prec
    cases fixedField (args.rounded (args.double (cursor + d.stars)) prec) prec <;> simp [fixed]
  · have notF : d.conversion.char ≠ chr 'f' := by
      cases conversion : d.conversion <;> first | decide | exact absurd conversion fixed
    refine iff_of_true (fun stuck => ?_) (fun same => absurd same fixed)
    have regular := @Directive.piece_regular args (parseDirective args (d.text ++ rest) cursor) _ notF
    rw [stuck] at regular
    exact regular

end CLite
