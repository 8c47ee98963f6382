import Mathlib.Data.Nat.Digits.Lemmas
import CLite.Proofs.PrintLayout

/-! # The pieces of completed formats

Where a directive ends depends on the format alone. A completed format has one piece for each character
and directive, and none of them is stuck unless a conversion is.
-/

namespace CLite

open ByteMemory BoundedSink

variable {args : Arguments}

theorem flagsLoop_format (leftAlign : Bool) (pad : Byte) (format : CString) :
    (flagsLoop leftAlign pad format).2.2 = format.dropWhile fun x =>
      x = chr '-' ∨ x = chr '0' ∨ x = chr '+' ∨ x = chr ' ' ∨ x = chr '#' := by
  fun_induction flagsLoop leftAlign pad format <;> simp_all

theorem numberLoop_format (value : ℤ) (format : CString) :
    (numberLoop value format).2 = format.dropWhile isDecimal := by
  fun_induction numberLoop value format <;> simp_all

theorem modifiersLoop_format (isLong : ℕ) (format : CString) :
    (modifiersLoop isLong format).2 = format.dropWhile fun x =>
      x = chr 'l' ∨ x = chr 'h' ∨ x = chr 'z' ∨ x = chr 'j' ∨ x = chr 't' := by
  fun_induction modifiersLoop isLong format <;> simp_all

theorem parseWidth_format (leftAlign : Bool) (format : CString) (cursor : ℕ) :
    (parseWidth args leftAlign format cursor).2.2.1 =
      if format.head? = some (chr '*') then format.tail else format.dropWhile isDecimal := by
  cases format with
  | nil => rfl
  | cons x rest =>
    simp only [parseWidth, List.head?_cons, Option.some.injEq, List.tail_cons]
    split
    · split <;> rfl
    · exact numberLoop_format ..

theorem parsePrecision_format (format : CString) (cursor : ℕ) :
    (parsePrecision args format cursor).2.1 =
      if format.head? = some (chr '.') then
        if format.tail.head? = some (chr '*') then format.tail.tail else format.tail.dropWhile isDecimal
      else format := by
  cases format with
  | nil => rfl
  | cons x rest =>
    simp only [parsePrecision, List.head?_cons, Option.some.injEq, List.tail_cons]
    split
    · cases rest with
      | nil => rfl
      | cons y rest =>
        simp only [List.head?_cons, Option.some.injEq, List.tail_cons]
        split
        · rfl
        · exact numberLoop_format ..
    · rfl

/-- The options of a directive end at a place that no argument moves. -/
theorem parseDirective_format (format : CString) (cursor : ℕ) :
    (parseDirective args format cursor).format = afterOptions format := by
  simp only [parseDirective, afterOptions, modifiersLoop_format, parsePrecision_format, parseWidth_format,
    flagsLoop_format]

theorem readPiece_literal {x : CChar} (ordinary : x ≠ chr '%') (format : CString) (cursor : ℕ) :
    readPiece args x format cursor = ⟨.text [x.byte], format, cursor⟩ := by
  unfold readPiece
  rw [if_pos ordinary]

theorem readPiece_percent (rest : CString) (cursor : ℕ) :
    readPiece args (chr '%') (chr '%' :: rest) cursor = ⟨.text [ascii '%'], rest, cursor⟩ := by
  simp only [readPiece, ne_eq, not_true_eq_false, if_false, if_true]

theorem readPiece_directive {y conv : CChar} {rest tail : CString} (opened : y ≠ chr '%')
    (reached : afterOptions (y :: rest) = conv :: tail) (cursor : ℕ) :
    readPiece args (chr '%') (y :: rest) cursor =
      ⟨(parseDirective args (y :: rest) cursor).piece args conv, tail,
        (parseDirective args (y :: rest) cursor).cursor + Directive.reads conv⟩ := by
  have shape : (parseDirective args (y :: rest) cursor).format = conv :: tail := by
    rw [parseDirective_format, reached]
  simp only [readPiece, ne_eq, not_true_eq_false, if_false, opened]
  rw [shape]

/-- A property of the pieces of a completed format, from those of its characters and directives. -/
theorem Completed.forall_pieces {accept : CChar → Prop} {format : CString} (good : Piece → Prop)
    (completed : Completed accept format) (text : ∀ bytes, good (.text bytes))
    (converted : ∀ d : Directive, ∀ conv, accept conv → good (d.piece args conv)) (cursor : ℕ) :
    ∀ piece ∈ formatPieces args format cursor, good piece := by
  induction completed generalizing cursor with
  | nil => simp [formatPieces_nil]
  | literal ordinary _ ih =>
    rw [formatPieces_cons, readPiece_literal ordinary]
    exact List.forall_mem_cons.mpr ⟨text _, ih cursor⟩
  | percent _ ih =>
    rw [formatPieces_cons, readPiece_percent]
    exact List.forall_mem_cons.mpr ⟨text _, ih cursor⟩
  | directive opened reached accepted _ ih =>
    rw [formatPieces_cons, readPiece_directive opened reached]
    exact List.forall_mem_cons.mpr ⟨converted _ _ accepted, ih _⟩

/-- The 32 bytes of `buf` hold every number of one word with its sign, in every base that is used. -/
theorem numBuf_length_le {val base : ℕ} (word : val < 2 ^ 32) (eight : 8 ≤ base) (uppercase negative : Bool) :
    (numBuf val base uppercase negative).length ≤ 32 := by
  have digits : (Nat.digits base val).length ≤ 11 := by
    rw [Nat.digits_length_le_iff (by omega)]
    calc val < 8 ^ 11 := by omega
      _ ≤ base ^ 11 := Nat.pow_le_pow_left eight 11
  have sign : (if negative then [ascii '-'] else []).length ≤ 1 := by cases negative <;> simp
  unfold numBuf
  rw [List.length_append]
  split
  · rw [List.length_singleton]
    omega
  · rw [List.length_map]
    omega

theorem digitByte_ne_x : ∀ digit < 16, digitByte false digit ≠ ascii 'x' := by decide

theorem numBuf_ne_x (val : ℕ) : ascii 'x' ∉ numBuf val 16 false false := by
  intro member
  simp only [numBuf, Bool.false_eq_true, if_false, List.append_nil] at member
  split at member
  · revert member
    decide
  · obtain ⟨digit, isDigit, same⟩ := List.mem_map.mp member
    exact digitByte_ne_x digit (Nat.digits_lt_base (by decide) isDigit) same

theorem padCount_of_small {width : ℕ} (used : ℕ) (small : width < 2 ^ 31) : padCount width used = width - used := by
  unfold padCount int32
  split
  · rw [Int.bmod_eq_of_le] <;> omega
  · omega

/-- A pointer has its eight digits. -/
theorem pointer_regular (val : ℕ) :
    (Piece.pointer (numberText val 16 false 8 (ascii '0') false false)).Regular := by
  have count := padCount_of_small (numBuf val 16 false false).length (show 8 < 2 ^ 31 by decide)
  simp only [Piece.Regular, numberText, Bool.false_eq_true, if_false, if_true, List.nil_append,
    List.length_append, List.length_replicate, List.length_reverse, List.mem_append, List.mem_replicate,
    List.mem_reverse, not_or]
  refine ⟨?_, ?_, numBuf_ne_x val⟩
  · push_cast at count
    omega
  · rintro ⟨-, same⟩
    revert same
    decide

/-- What a conversion can yield: a text, the digits of a pointer, or what `f` makes of a double. -/
def Directive.Yields (args : Arguments) (d : Directive) (conv : CChar) (piece : Piece) : Prop :=
  (∃ bytes, piece = .text bytes) ∨
    piece = .pointer (numberText (args.word d.cursor).toNat 16 false 8 (ascii '0') false false) ∨
    conv = chr 'f' ∧ piece = d.fixedPiece args

theorem Directive.piece_yields (args : Arguments) (d : Directive) (conv : CChar) :
    d.Yields args conv (d.piece args conv) := by
  have text (bytes : List Byte) : d.Yields args conv (.text bytes) := .inl ⟨bytes, rfl⟩
  unfold Directive.piece
  -- the conversions before `p` yield a text
  iterate 7
    apply iteInduction
    · exact fun _ => text _
    intro _
  apply iteInduction
  · exact fun _ => .inr (.inl rfl)
  intro _
  apply iteInduction
  · exact fun isF => .inr (.inr ⟨isF, rfl⟩)
  · exact fun _ => text _

/-- Only `f` can get stuck. -/
theorem Directive.piece_regular (d : Directive) {conv : CChar} (notF : conv ≠ chr 'f') :
    (d.piece args conv).Regular := by
  rcases d.piece_yields args conv with ⟨bytes, text⟩ | pointer | ⟨isF, -⟩
  · rw [text]
    trivial
  · rw [pointer]
    exact pointer_regular _
  · exact absurd isF notF

theorem Completed.regular {accept : CChar → Prop} {format : CString} (completed : Completed accept format)
    (notF : ∀ conv, accept conv → conv ≠ chr 'f') (args : Arguments) (cursor : ℕ) :
    ∀ piece ∈ formatPieces args format cursor, piece.Regular :=
  completed.forall_pieces Piece.Regular (fun _ => True.intro)
    (fun d conv accepted => d.piece_regular (notF conv accepted)) cursor

/-- Pieces that have a text have a layout in every room. -/
theorem layout_isSome {items : List Piece} (regular : ∀ piece ∈ items, piece.Regular) (room : ℕ) :
    ∃ text, layout room items = some text := by
  induction items generalizing room with
  | nil => exact ⟨_, rfl⟩
  | cons piece items ih =>
    rw [List.forall_mem_cons] at regular
    obtain ⟨bytes, has⟩ : ∃ bytes, piece.bytes room = some bytes := by
      cases piece with
      | text bytes => exact ⟨_, rfl⟩
      | pointer digits => exact ⟨_, rfl⟩
      | stuck => exact regular.1.elim
    obtain ⟨rest, laid⟩ := ih regular.2 (room - bytes.length)
    rw [layout, has, Option.bind_some, laid, Option.map_some]
    split
    · exact ⟨_, rfl⟩
    · exact ⟨_, rfl⟩

/-- With room for all of it the layout is the full text. -/
theorem layout_of_room {items : List Piece} (regular : ∀ piece ∈ items, piece.Regular) {room : ℕ}
    (fits : (fullText items).length ≤ room) : layout room items = some (fullText items) := by
  induction items generalizing room with
  | nil => rfl
  | cons piece items ih =>
    rw [List.forall_mem_cons] at regular
    cases piece with
    | text bytes =>
      rw [fullText, List.length_append] at fits
      rw [layout, fullText]
      split
      · next empty =>
        have nothing : (bytes ++ fullText items).length = 0 := by
          rw [List.length_append]
          omega
        rw [List.eq_nil_of_length_eq_zero nothing]
      · rw [Piece.bytes, Option.bind_some, ih regular.2 (by omega), List.take_of_length_le (by omega)]
        rfl
    | pointer digits =>
      obtain ⟨⟨two, -⟩, rest⟩ := regular
      rw [fullText, List.length_append, List.length_cons, List.length_cons] at fits
      rw [layout, fullText, if_neg (by omega), Piece.bytes, if_pos (by omega), Option.bind_some,
        List.length_cons, List.length_cons, ih rest (by omega), List.take_of_length_le (by
          rw [List.length_cons, List.length_cons]
          omega)]
      rfl
    | stuck => exact regular.1.elim

/-- A destination with room for it holds the full text. -/
theorem vsnprintf_whole (memory : Memory) {str size cursor : ℕ} {format : CString} (nonnull : str ≠ 0)
    (regular : ∀ piece ∈ formatPieces args format cursor, piece.Regular)
    (fits : (fullText (formatPieces args format cursor)).length < size) :
    ∃ after, vsnprintf args memory str size format cursor =
        some (int32 (fullText (formatPieces args format cursor)).length, after) ∧
      Printed memory str size (fullText (formatPieces args format cursor)) after := by
  refine ⟨_, ?_, printed_puts memory str fits⟩
  rw [vsnprintf_eq_layout nonnull (by omega), layout_of_room regular (by omega), Option.map_some]

end CLite
