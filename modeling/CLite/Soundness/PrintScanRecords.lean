import CLite.Soundness.PrintScan
import Mathlib.Data.List.DropRight

/-! # Printing and scanning records

A record is a line of numbers and words with a blank behind each. Read field by field, `sscanf` stores what `snprintf`
has printed. The padding of a field consists of blanks, which the conversion of the next field skips; so only the part
of the input behind its blanks matters from one field to the next.
-/

namespace CLite

open ByteMemory

variable {args : Arguments} {memory : Memory} {str size cursor : ℕ}

/-- The text that `%s` prints, without its padding. -/
def FormatDirective.word (d : FormatDirective) (args : Arguments) (cursor : ℕ) : CString :=
  let text := args.string (cursor + d.stars)
  if 0 ≤ d.precisionAt args cursor then text.take (d.precisionAt args cursor).toNat else text

/-- A number or a word, and the blank behind it. -/
structure RecordField where
  directive : FormatDirective
  readable : directive.Scannable ∨ directive.conversion = .s
  separator : CChar
  space : isSpace separator = true

namespace RecordField

def scanText (field : RecordField) : CString :=
  if field.directive.conversion = .s then [chr 's']
  else field.directive.modifier.text ++ [field.directive.conversion.scan]

/-- What is stored for the field. -/
def store (field : RecordField) (args : Arguments) (cursor : ℕ) : Store :=
  if field.directive.conversion = .s then .string (field.directive.word args cursor)
  else field.directive.store (args.word (cursor + field.directive.stars))

/-- A word is one word: it is not empty and has no blanks. -/
def OneWord (field : RecordField) (args : Arguments) (cursor : ℕ) : Prop :=
  field.directive.conversion = .s →
    field.directive.word args cursor ≠ [] ∧ ∀ x ∈ field.directive.word args cursor, isSpace x = false

end RecordField

/-- The format that prints a record. -/
def printRecord : List RecordField → CString
  | [] => []
  | field :: rest => chr '%' :: (field.directive.text ++ field.separator :: printRecord rest)

/-- The format that scans it. -/
def scanRecord : List RecordField → CString
  | [] => []
  | field :: rest => chr '%' :: (field.scanText ++ field.separator :: scanRecord rest)

/-- What is stored for all fields; each has one argument behind those of its stars. -/
def recordStores (args : Arguments) : ℕ → List RecordField → List Store
  | _, [] => []
  | cursor, field :: rest =>
    field.store args cursor :: recordStores args (cursor + field.directive.stars + 1) rest

def Words (args : Arguments) : ℕ → List RecordField → Prop
  | _, [] => True
  | cursor, field :: rest => field.OneWord args cursor ∧ Words args (cursor + field.directive.stars + 1) rest

/-! ## One field -/

/-- Only what is behind the blanks matters. -/
def SameInput (first second : CString) : Prop := first.dropWhile isSpace = second.dropWhile isSpace

theorem blanks_space (count : ℕ) : ∀ x ∈ blanks count, isSpace x = true := by
  intro x member
  rw [List.eq_of_mem_replicate member]
  decide

theorem sameInput_blanks (count : ℕ) (text : CString) : SameInput (blanks count ++ text) text :=
  List.dropWhile_append_of_pos (blanks_space count)

/-- A round of a conversion takes the text of a field from any input that begins with it behind its blanks, and leaves
what follows. -/
def TakesField (str scan text : CString) (stored : Store) : Prop :=
  ∀ (input following rest : CString) (matched : ℕ) (stores : List Store), (∀ x ∈ following.head?, isSpace x = true) →
    SameInput input (text ++ following) → ∃ left, SameInput left following ∧
      scanRound str (chr '%') (scan ++ rest) ⟨input, matched, stores⟩ =
        .next rest ⟨left, matched + 1, stores ++ [stored]⟩

theorem numberShape_append (before zeros after base val : ℕ) (uppercase negative : Bool) (following : CString) :
    numberShape before zeros after base val uppercase negative ++ following =
      blanks before ++ (signText negative ++
        ((List.replicate zeros 0 ++ leadDigits base val).map (digitText uppercase) ++
          (blanks after ++ following))) := by
  simp only [numberShape, List.append_assoc]

/-- A number of the printed shape is taken up to its last digit. -/
theorem takesField_number (str : CString) {d : FormatDirective} (scannable : d.Scannable)
    (before zeros after val : ℕ) (uppercase negative : Bool) :
    TakesField str (d.modifier.text ++ [d.conversion.scan])
      (numberShape before zeros after d.conversion.base val uppercase negative)
      (d.store (if negative then -BitVec.ofNat 32 val else BitVec.ofNat 32 val)) := by
  intro input following rest matched stores separated same
  have decimal : d.conversion.base = 10 ∨ d.conversion.base = 16 := by
    rcases scannable.conversion with same | same | same | same <;> rw [same] <;> decide
  have within : ∀ digit ∈ List.replicate zeros 0 ++ leadDigits d.conversion.base val, digit < d.conversion.base := by
    intro digit member
    rcases List.mem_append.mp member with zero | digit
    · rw [List.eq_of_mem_replicate zero]
      omega
    · exact leadDigits_lt (by omega) _ digit
  have nonempty : List.replicate zeros 0 ++ leadDigits d.conversion.base val ≠ [] := by simp [leadDigits_ne_nil]
  have ended : ∀ x ∈ (blanks after ++ following).head?, digitValue x = none := by
    intro x first
    cases after with
    | zero => exact digitValue_of_isSpace (separated x first)
    | succ after =>
      obtain rfl : chr ' ' = x := Option.some.inj first
      decide
  have read := strtol_number decimal uppercase negative nonempty within ended
  obtain ⟨noBlanks, -⟩ := takeSign_number uppercase negative
    (fun digit member => (within digit member).trans_le (by omega)) nonempty (blanks after ++ following)
  rw [SameInput, numberShape_append, sameInput_blanks, noBlanks] at same
  rw [digitsValue_zeros, digitsValue_leadDigits] at read
  refine ⟨blanks after ++ following, sameInput_blanks after following, ?_⟩
  obtain ⟨length, conversion, sameText, sameBase, store⟩ := scannable.exists_scan
  have shorter := List.length_pos_of_ne_nil nonempty
  rw [sameText, List.append_nil, IntegerDirective.round_eq, sameBase, IntegerDirective.skipped,
    IntegerDirective.input, same, Scanning.integer]
  simp only [read]
  rw [if_neg (by simp only [List.length_append, List.length_map] at shorter ⊢; omega), store, ofInt_signed]
  rfl

/-- A word with blanks around it is taken as a whole. -/
theorem takesField_word (str : CString) (before after : ℕ) {word : CString} (nonempty : word ≠ [])
    (oneWord : ∀ x ∈ word, isSpace x = false) :
    TakesField str [chr 's'] (blanks before ++ (word ++ blanks after)) (.string word) := by
  intro input following rest matched stores separated same
  have ended : ∀ x ∈ (blanks after ++ following).head?, (!isSpace x) = false := by
    intro x first
    cases after with
    | zero => rw [separated x first, Bool.not_true]
    | succ after =>
      obtain rfl : chr ' ' = x := Option.some.inj first
      decide
  have plain : ∀ x ∈ word, (!isSpace x) = true := fun x member => by rw [oneWord x member, Bool.not_false]
  have front : (word ++ (blanks after ++ following)).dropWhile isSpace = word ++ (blanks after ++ following) := by
    obtain ⟨x, more, rfl⟩ := List.exists_cons_of_ne_nil nonempty
    exact List.dropWhile_cons_of_neg (by simp [oneWord x (List.mem_cons_self ..)])
  rw [SameInput, List.append_assoc, List.append_assoc, sameInput_blanks, front] at same
  refine ⟨blanks after ++ following, sameInput_blanks after following, ?_⟩
  have read : readDirective (chr 's' :: rest) = some (⟨false, [], .none, chr 's'⟩, rest) := rfl
  have taken := LongestPrefix.takeWhile_append_stop plain ended
  have length : wordLength (word ++ (blanks after ++ following)) 0 = word.length := by
    rw [wordLength, taken]
    rfl
  rw [List.singleton_append, scanRound_directive (by simp only [List.head?_cons]; decide) read, Scanning.conversion,
    if_neg (by decide), if_neg (by decide), Scanning.afterBlanks]
  simp only [same]
  rw [if_neg (by simp [nonempty]), if_pos trivial, Scanning.take]
  simp only [widthParsed, numberLoop, length, List.drop_left, List.take_left, Bool.false_eq_true, if_false]

/-- What a word directive prints: blanks around the word. -/
theorem stringText_eq (d : Directive) (args : Arguments) {word : CString}
    (same : stringField (args.string d.cursor) d.precision = word.map CChar.byte) :
    ∃ before after, d.stringText args = (blanks before ++ (word ++ blanks after)).map CChar.byte := by
  have blank : (chr ' ').byte = ascii ' ' := rfl
  rw [Directive.stringText, same]
  simp only [fieldText]
  generalize padCount _ _ = count
  cases d.leftAlign with
  | true => exact ⟨0, count, by simp [blanks, blank]⟩
  | false => exact ⟨count, 0, by simp [blanks, blank]⟩

/-- What a field prints is what its conversion takes. -/
theorem RecordField.piece_eq (field : RecordField) (oneWord : field.OneWord args cursor) (rest : CString) :
    ∃ text : CString, (parseDirective args (field.directive.text ++ rest) cursor).piece args
        field.directive.conversion.char = .text (text.map CChar.byte) ∧
      Directive.reads field.directive.conversion.char = 1 ∧
      ∀ str, TakesField str field.scanText text (field.store args cursor) := by
  have padding := parseDirective_pad args (field.directive.text ++ rest) cursor
  obtain ⟨-, stars, precision⟩ := parseDirective_text args field.directive rest cursor
  generalize parseDirective args (field.directive.text ++ rest) cursor = parsed at stars precision padding
  by_cases isWord : field.directive.conversion = .s
  · obtain ⟨nonempty, plain⟩ := oneWord isWord
    have same : stringField (args.string parsed.cursor) parsed.precision =
        (field.directive.word args cursor).map CChar.byte := by
      rw [stringField, FormatDirective.word, stars, precision]
    obtain ⟨before, after, text⟩ := stringText_eq parsed args same
    refine ⟨blanks before ++ (field.directive.word args cursor ++ blanks after), ?_, by rw [isWord]; decide,
      fun str => ?_⟩
    · rw [isWord, ← text]
      rfl
    · rw [scanText, store, if_pos isWord, if_pos isWord]
      exact takesField_word str before after nonempty plain
  · have scannable := field.readable.resolve_right isWord
    obtain ⟨val, uppercase, negative, piece, value⟩ := scannable.piece_eq args parsed
    have bounds : 1 < field.directive.conversion.base ∧ field.directive.conversion.base ≤ 16 := by
      cases field.directive.conversion <;> decide
    obtain ⟨before, zeros, after, shape⟩ := numberText_shape bounds.1 bounds.2 val uppercase parsed.width padding
      negative parsed.leftAlign
    refine ⟨numberShape before zeros after field.directive.conversion.base val uppercase negative,
      by rw [piece, shape], ?_, fun str => ?_⟩
    · rcases scannable.conversion with same | same | same | same <;> rw [same] <;> decide
    · rw [scanText, store, if_neg isWord, if_neg isWord, ← stars, ← value]
      exact takesField_number str scannable before zeros after val uppercase negative

/-! ## Whole records -/

theorem scanRecord_dropWhile (fields : List RecordField) :
    (scanRecord fields).dropWhile isSpace = scanRecord fields := by
  cases fields with
  | nil => rfl
  | cons field rest => exact List.dropWhile_cons_of_neg (by decide)

/-- The text of a record is scanned field by field. -/
theorem printRecord_pieces (fields : List RecordField) (words : Words args cursor fields) :
    ∃ text : CString, fullText (formatPieces args (printRecord fields) cursor) = text.map CChar.byte ∧
      (∀ piece ∈ formatPieces args (printRecord fields) cursor, piece.Regular) ∧
      ∀ str input matched stores, SameInput input text →
        ∃ left, scanLoop str (scanRecord fields) ⟨input, matched, stores⟩ =
          some ⟨left, matched + fields.length, stores ++ recordStores args cursor fields⟩ := by
  induction fields generalizing cursor with
  | nil =>
    refine ⟨[], by rw [printRecord, formatPieces_nil]; rfl, by simp [printRecord, formatPieces_nil], ?_⟩
    intro str input matched stores _
    exact ⟨input, by rw [scanRecord, scanLoop_nil, recordStores, List.append_nil]; rfl⟩
  | cons field rest ih =>
    obtain ⟨oneWord, words⟩ := words
    obtain ⟨text, piece, reads, takes⟩ := field.piece_eq oneWord (field.separator :: printRecord rest)
    obtain ⟨more, whole, regular, scanned⟩ := ih words
    have ordinary : field.separator ≠ chr '%' := by
      intro percent
      have space := field.space
      rw [percent] at space
      exact absurd space (by decide)
    have pieces : formatPieces args (printRecord (field :: rest)) cursor = .text (text.map CChar.byte) ::
        .text [field.separator.byte] ::
          formatPieces args (printRecord rest) (cursor + field.directive.stars + 1) := by
      rw [printRecord, formatPieces_cons, readPiece_text, piece, reads, formatPieces_cons,
        readPiece_literal ordinary]
    refine ⟨text ++ field.separator :: more, ?_, ?_, ?_⟩
    · rw [pieces, fullText, fullText, whole, List.map_append, List.map_cons]
      rfl
    · rw [pieces]
      intro item member
      rcases List.mem_cons.mp member with rfl | member
      · trivial
      · rcases List.mem_cons.mp member with rfl | member
        · trivial
        · exact regular item member
    · intro str input matched stores same
      have separated : ∀ x ∈ (field.separator :: more).head?, isSpace x = true := by
        intro x first
        obtain rfl := Option.some.inj first
        exact field.space
      obtain ⟨left, behind, round⟩ :=
        takes str input (field.separator :: more) (field.separator :: scanRecord rest) matched stores separated same
      have blank (state : Scanning) : scanRound str field.separator (scanRecord rest) state =
          .next (scanRecord rest) { state with s := state.s.dropWhile isSpace } := by
        rw [scanRound, if_pos field.space, scanRecord_dropWhile]
      have next : SameInput (left.dropWhile isSpace) more := by
        rw [SameInput, List.dropWhile_idempotent, behind, List.dropWhile_cons_of_pos field.space]
      obtain ⟨final, read⟩ := scanned str _ (matched + 1) (stores ++ [field.store args cursor]) next
      refine ⟨final, ?_⟩
      rw [scanRecord, scanLoop_next round, scanLoop_next (blank _), read, recordStores, List.length_cons,
        List.append_assoc, Nat.add_assoc, Nat.add_comm 1]
      rfl

/-- Every record of numbers and words that `snprintf` has room for is read back by `sscanf`: all of its fields are
matched, and the values are stored in their order. -/
theorem sscanf_record (fields : List RecordField) (words : Words args cursor fields) (nonnull : str ≠ 0)
    (fits : (fullText (formatPieces args (printRecord fields) cursor)).length < size) :
    ∃ text ret after, vsnprintf args memory str size (printRecord fields) cursor = some (ret, after) ∧
      Printed memory str size (text.map CChar.byte) after ∧
      vsscanf text (scanRecord fields) = some (fields.length, recordStores args cursor fields) := by
  obtain ⟨text, whole, regular, scanned⟩ := printRecord_pieces fields words
  obtain ⟨after, result, printed⟩ := vsnprintf_whole memory nonnull regular fits
  rw [whole] at result printed
  refine ⟨text, _, after, result, printed, ?_⟩
  obtain ⟨left, read⟩ := scanned text text 0 [] rfl
  rw [vsscanf, read, Option.map_some, Nat.zero_add, List.nil_append]

theorem zeroPadded_scannable : zeroPadded.Scannable := ⟨.inl rfl, .inl rfl⟩

def leftWord : FormatDirective := { zeroPadded with flags := [.minus], conversion := .s }

/-- `%08d`, a blank, `%-8s` and a newline. -/
def numberAndWord : List RecordField :=
  [⟨zeroPadded, .inl zeroPadded_scannable, chr ' ', by decide⟩, ⟨leftWord, .inr rfl, chr '\n', by decide⟩]

/-- The number -5 and the word `ab`. -/
def numberAndWordArguments : Arguments :=
  { Arguments.ofWords [0xFFFFFFFB, 1] with text := fun _ => cstr "ab", text_fits := fun _ => by decide }

theorem numberAndWord_words : Words numberAndWordArguments 0 numberAndWord := by
  refine ⟨fun isWord => ?_, fun _ => ⟨?_, ?_⟩, trivial⟩
  · cases isWord
  · decide
  · decide

theorem sscanf_record_line :
    ∃ text ret after, vsnprintf numberAndWordArguments (fun _ => 0) 1 20 (printRecord numberAndWord) 0 =
        some (ret, after) ∧
      Printed (fun _ => 0) 1 20 (text.map CChar.byte) after ∧
      vsscanf text (scanRecord numberAndWord) = some (2, [.int 0xFFFFFFFB, .string (cstr "ab")]) :=
  sscanf_record numberAndWord numberAndWord_words (by decide) (by decide +kernel)

end CLite
