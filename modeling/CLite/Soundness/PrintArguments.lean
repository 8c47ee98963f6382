import Mathlib.Logic.Relation
import CLite.Proofs.PrintDirectives

/-! # Argument alignment

The k-th directive of a format should read the words of the k-th argument. Stars, characters, strings,
pointers, doubles and integers of one word do; an integer with `ll` or `j` has two words, of which
`vsnprintf` reads one.
-/

namespace CLite

open ByteMemory BoundedSink

variable {args : Arguments} {cursor : ℕ} {rest : CString} {sink : Sink Byte}

/-- One round of the main loop. -/
def Round (args : Arguments) (before after : Printing) : Prop :=
  ∃ x format, before.format = x :: format ∧ 1 < before.sink.rem ∧
    printStep args x format before.cursor before.sink = some after

/-- The rounds are those that the loop takes. -/
theorem printLoop_round {before after : Printing} (round : Round args before after) :
    printLoop args before.format before.cursor before.sink =
      printLoop args after.format after.cursor after.sink := by
  obtain ⟨x, format, shape, room, step⟩ := round
  rw [shape, printLoop_cons, if_pos room, step, Option.bind_some]

/-- Each directive is reached with the cursor at its own arguments and left with the cursor behind them. -/
def ReadsOwnWords (args : Arguments) (items : List FormatItem) (start : ℕ) (sink : Sink Byte) : Prop :=
  ∀ before d after, items = before ++ .directive d :: after →
    ∃ reached left, Relation.ReflTransGen (Round args) ⟨formatText items, start, sink⟩ reached ∧
      reached.format = formatText (.directive d :: after) ∧ reached.cursor = start + formatWords before ∧
      Round args reached left ∧ left.format = formatText after ∧ left.cursor = reached.cursor + d.words

/-- An integer has one word, and the text of a double fits the local buffer. -/
def FormatDirective.Handled (d : FormatDirective) (args : Arguments) (cursor : ℕ) : Prop :=
  (d.conversion.IsInteger → d.modifier ≠ .ll ∧ d.modifier ≠ .j) ∧
    (d.conversion = .f → d.FixedFits args cursor)

/-- The destination has room for the text and more. -/
def LargeEnough (args : Arguments) (format : CString) (cursor : ℕ) (sink : Sink Byte) : Prop :=
  (fullText (formatPieces args format cursor)).length + 1 < sink.rem

theorem FormatDirective.words_eq_iff (d : FormatDirective) :
    d.stars + Directive.reads d.conversion.char = d.words ↔
      (d.conversion.IsInteger → d.modifier ≠ .ll ∧ d.modifier ≠ .j) := by
  obtain ⟨flags, width, precision, modifier, conversion⟩ := d
  rw [FormatDirective.words, Nat.add_left_cancel_iff]
  dsimp only [FormatDirective.argType]
  cases conversion <;> cases modifier <;> decide

/-- A round on a piece that is not stuck prints all of it and keeps room for the rest. -/
theorem round_of_readPiece {x : CChar} {format : CString} {reading : Reading}
    (read : readPiece args x format cursor = reading) (defined : reading.piece ≠ .stuck)
    (large : LargeEnough args (x :: format) cursor sink) :
    ∃ after, Round args ⟨x :: format, cursor, sink⟩ ⟨reading.format, reading.cursor, after⟩ ∧
      LargeEnough args reading.format reading.cursor after := by
  subst read
  rw [LargeEnough, formatPieces_cons] at large
  generalize kind : (readPiece args x format cursor).piece = piece at large defined
  have emitted : ∃ bytes, piece.bytes (sink.rem - 1) = some bytes ∧
      bytes.length + (fullText (formatPieces args (readPiece args x format cursor).format
        (readPiece args x format cursor).cursor)).length + 1 < sink.rem := by
    cases piece with
    | text bytes =>
      rw [fullText, List.length_append] at large
      exact ⟨bytes, rfl, large⟩
    | pointer digits =>
      rw [fullText, List.length_append] at large
      refine ⟨_, congrArg some (if_pos ?_), large⟩
      rw [List.length_cons, List.length_cons] at large
      omega
    | stuck => exact absurd rfl defined
  obtain ⟨bytes, has, room⟩ := emitted
  have roomy : 1 < sink.rem := by omega
  refine ⟨sink.fill bytes, ⟨x, format, rfl, roomy, ?_⟩, ?_⟩
  · rw [printStep_eq roomy, kind, Piece.emit, has]
    rfl
  · rw [LargeEnough, Sink.fill, Sink.puts_rem, List.length_take]
    omega

/-- An item whose directive is handled takes one round, which reads its words. -/
theorem item_round (item : FormatItem) (handled : ∀ d, item = .directive d → d.Handled args cursor)
    (large : LargeEnough args (item.text ++ rest) cursor sink) :
    ∃ after, Round args ⟨item.text ++ rest, cursor, sink⟩ ⟨rest, cursor + item.words, after⟩ ∧
      LargeEnough args rest (cursor + item.words) after := by
  cases item with
  | literal x ordinary => exact round_of_readPiece (readPiece_literal ordinary rest cursor) (by simp) large
  | percent => exact round_of_readPiece (readPiece_percent rest cursor) (by simp) large
  | directive d =>
    obtain ⟨oneWord, fits⟩ := handled d rfl
    have read := readPiece_text args d rest cursor
    rw [Nat.add_assoc, d.words_eq_iff.mpr oneWord] at read
    exact round_of_readPiece read ((d.piece_ne_stuck_iff rest).mpr fits) large

theorem formatText_cons (item : FormatItem) (items : List FormatItem) :
    formatText (item :: items) = item.text ++ formatText items := List.flatMap_cons

theorem formatWords_cons (item : FormatItem) (items : List FormatItem) :
    formatWords (item :: items) = item.words + formatWords items := List.sum_cons

/-- If every directive is handled at its own words, each reads its own words. -/
theorem readsOwnWords_of_handled {items : List FormatItem} {start : ℕ}
    (large : LargeEnough args (formatText items) start sink)
    (handled : ∀ before d after, items = before ++ .directive d :: after →
      d.Handled args (start + formatWords before)) :
    ReadsOwnWords args items start sink := by
  -- Each item takes one round from where the previous ones have left the cursor.
  induction items generalizing start sink with
  | nil =>
    intro before d after shape
    simp at shape
  | cons item items ih =>
    rw [formatText_cons] at large
    have first (d : FormatDirective) (same : item = .directive d) : d.Handled args start :=
      handled [] d items (by rw [same]; rfl)
    obtain ⟨next, round, room⟩ := item_round item first large
    have later := ih room (fun before d after shape => by
      have := handled (item :: before) d after (by rw [shape]; rfl)
      rwa [formatWords_cons, ← Nat.add_assoc] at this)
    intro before d after shape
    rw [formatText_cons]
    cases before with
    | nil =>
      simp only [List.nil_append, List.cons.injEq] at shape
      obtain ⟨rfl, rfl⟩ := shape
      exact ⟨_, _, .refl, by rw [formatText_cons], rfl, round, rfl, rfl⟩
    | cons first before =>
      simp only [List.cons_append, List.cons.injEq] at shape
      obtain ⟨rfl, shape⟩ := shape
      obtain ⟨reached, left, rounds, format, position, last, leftFormat, leftCursor⟩ := later before d after shape
      refine ⟨reached, left, .head round rounds, format, ?_, last, leftFormat, leftCursor⟩
      rw [position, formatWords_cons, Nat.add_assoc]

/-- A directive that reads its own words is handled at them. -/
theorem ReadsOwnWords.handled {items before after : List FormatItem} {start : ℕ} {d : FormatDirective}
    (reads : ReadsOwnWords args items start sink) (shape : items = before ++ .directive d :: after) :
    d.Handled args (start + formatWords before) := by
  obtain ⟨reached, left, -, format, position, ⟨x, tail, reachedFormat, room, step⟩, -, moved⟩ :=
    reads before d after shape
  rw [format, formatText_cons, FormatItem.text, List.cons_append, List.cons.injEq] at reachedFormat
  obtain ⟨rfl, rfl⟩ := reachedFormat
  rw [← position]
  have read := readPiece_text args d (formatText after) reached.cursor
  rw [printStep_eq room, read] at step
  obtain ⟨sink', emitted, rfl⟩ := Option.map_eq_some_iff.mp step
  refine ⟨d.words_eq_iff.mp ?_, (d.piece_ne_stuck_iff (formatText after)).mp fun stuck => ?_⟩
  · rw [Nat.add_assoc] at moved
    exact Nat.add_left_cancel moved
  · rw [stuck] at emitted
    cases emitted

/-- Each directive reads its own words exactly when none has an integer of two words or an overlong double. -/
theorem readsOwnWords_iff {items : List FormatItem} {start : ℕ}
    (large : LargeEnough args (formatText items) start sink) :
    ReadsOwnWords args items start sink ↔ ∀ before d after, items = before ++ .directive d :: after →
      d.Handled args (start + formatWords before) :=
  ⟨fun reads _ _ _ shape => reads.handled shape, readsOwnWords_of_handled large⟩

/-- The format `%*ld%c`. -/
def starFormat : List FormatItem :=
  [.directive ⟨[], .star, .absent, .l, .d⟩, .directive ⟨[], .absent, .absent, .none, .c⟩]

theorem readsOwnWords_iff_star :
    ReadsOwnWords (.ofWords [4, 7, 65]) starFormat 0 ⟨fun _ => 0, 1, 100⟩ ↔
      ∀ before d after, starFormat = before ++ .directive d :: after →
        d.Handled (.ofWords [4, 7, 65]) (0 + formatWords before) :=
  readsOwnWords_iff (by unfold LargeEnough; decide +kernel)

/-- The format `%lld%d`. -/
def longLongFormat : List FormatItem :=
  [.directive ⟨[], .absent, .absent, .ll, .d⟩, .directive ⟨[], .absent, .absent, .none, .d⟩]

/-- Of the two words of the first argument one is read, and the second directive prints the other. -/
theorem longLong_misaligned :
    LargeEnough (.ofWords [1, 0, 7]) (formatText longLongFormat) 0 ⟨fun _ => 0, 1, 100⟩ ∧
      ¬ ReadsOwnWords (.ofWords [1, 0, 7]) longLongFormat 0 ⟨fun _ => 0, 1, 100⟩ := by
  refine ⟨by unfold LargeEnough; decide +kernel, fun reads => ?_⟩
  have handled : FormatDirective.Handled _ _ (0 + formatWords []) := reads.handled rfl
  obtain ⟨oneWord, -⟩ := handled
  exact (oneWord (by decide)).1 rfl

end CLite
