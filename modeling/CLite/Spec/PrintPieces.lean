import CLite.Model.Printf

/-! # What a format asks to be printed

A format and its arguments are a list of pieces, each of which says what its field looks like when there
is room for it. The layout of the pieces in a given room is the text that fits. The only piece whose text
depends on the room is a pointer, which comes without its prefix when less than three characters fit.
-/

namespace CLite

open ByteMemory BoundedSink

inductive Piece where
  | text (bytes : List Byte)
  | pointer (digits : List Byte)
  | stuck

/-- The text of a piece at a place with the given room; a stuck piece has none. -/
def Piece.bytes (room : ℕ) : Piece → Option (List Byte)
  | .text bytes => some bytes
  | .pointer digits => some (if 2 < room then ascii '0' :: ascii 'x' :: digits else digits)
  | .stuck => none

/-- The text of the pieces that fits in the room. -/
def layout (room : ℕ) : List Piece → Option (List Byte)
  | [] => some []
  | piece :: rest =>
    if room = 0 then some []
    else (piece.bytes room).bind fun bytes =>
      (layout (room - bytes.length) rest).map (bytes.take room ++ ·)

/-- The text of the pieces when there is room for all of it. -/
def fullText : List Piece → List Byte
  | [] => []
  | .text bytes :: rest => bytes ++ fullText rest
  | .pointer digits :: rest => ascii '0' :: ascii 'x' :: digits ++ fullText rest
  | .stuck :: rest => fullText rest

/-- Pieces that have a text; the digits of a pointer are at least two and none of them is an `x`. -/
def Piece.Regular : Piece → Prop
  | .text _ => True
  | .pointer digits => 2 ≤ digits.length ∧ ascii 'x' ∉ digits
  | .stuck => False

/-- A number in its field: the sign stands before zeros and after blanks. -/
def numberText (val base : ℕ) (uppercase : Bool) (width : ℤ) (pad : Byte) (negative leftAlign : Bool) :
    List Byte :=
  let digits := (numBuf val base uppercase false).reverse
  let sign := if negative then [ascii '-'] else []
  let count := padCount width (sign ++ digits).length
  if leftAlign then sign ++ digits ++ List.replicate count (ascii ' ')
  else if pad = ascii '0' then sign ++ List.replicate count pad ++ digits
  else List.replicate count pad ++ sign ++ digits

def fieldText (text : List Byte) (width used : ℤ) (leftAlign : Bool) : List Byte :=
  let padding := List.replicate (padCount width used) (ascii ' ')
  if leftAlign then text ++ padding else padding ++ text

namespace Directive

variable (args : Arguments) (d : Directive)

def signedText : List Byte :=
  let val := args.word d.cursor
  if val.toInt < 0 then numberText (-val).toNat 10 false d.width d.pad true d.leftAlign
  else numberText val.toNat 10 false d.width d.pad false d.leftAlign

def unsignedText (base : ℕ) (uppercase : Bool) : List Byte :=
  numberText (args.word d.cursor).toNat base uppercase d.width d.pad false d.leftAlign

def stringText : List Byte :=
  let text := stringField (args.string d.cursor) d.precision
  fieldText text d.width (int32 text.length) d.leftAlign

def fixedPiece : Piece :=
  let prec := if 0 ≤ d.precision then d.precision.toNat else 6
  match fixedField (args.rounded (args.double d.cursor) prec) prec with
  | none => .stuck
  | some text => .text (fieldText text d.width (int32 text.length) d.leftAlign)

def piece (conv : CChar) : Piece :=
  if conv = chr 'c' then .text (fieldText [(args.word d.cursor).setWidth 8] d.width 1 d.leftAlign)
  else if conv = chr 's' then .text (d.stringText args)
  else if conv = chr 'd' ∨ conv = chr 'i' then .text (d.signedText args)
  else if conv = chr 'u' then .text (d.unsignedText args 10 false)
  else if conv = chr 'x' then .text (d.unsignedText args 16 false)
  else if conv = chr 'X' then .text (d.unsignedText args 16 true)
  else if conv = chr 'o' then .text (d.unsignedText args 8 false)
  else if conv = chr 'p' then
    .pointer (numberText (args.word d.cursor).toNat 16 false 8 (ascii '0') false false)
  else if conv = chr 'f' then d.fixedPiece args
  else .text [conv.byte]

/-- The number of words that a conversion reads. -/
def reads (conv : CChar) : ℕ :=
  if conv = chr 'c' ∨ conv = chr 's' ∨ conv = chr 'd' ∨ conv = chr 'i' ∨ conv = chr 'u' ∨
    conv = chr 'x' ∨ conv = chr 'X' ∨ conv = chr 'o' ∨ conv = chr 'p' then 1
  else if conv = chr 'f' then 2
  else 0

end Directive

/-- The first piece of a format, and where the format and the arguments go on. -/
structure Reading where
  piece : Piece
  format : CString
  cursor : ℕ

def readPiece (args : Arguments) (x : CChar) (format : CString) (cursor : ℕ) : Reading :=
  if x ≠ chr '%' then ⟨.text [x.byte], format, cursor⟩
  else
    match format with
    | [] => ⟨.text [], [], cursor⟩
    | y :: rest =>
      if y = chr '%' then ⟨.text [ascii '%'], rest, cursor⟩
      else
        let d := parseDirective args (y :: rest) cursor
        match d.format with
        | [] => ⟨.stuck, [], cursor⟩
        | conv :: rest => ⟨d.piece args conv, rest, d.cursor + Directive.reads conv⟩

theorem readPiece_length (args : Arguments) (x : CChar) (format : CString) (cursor : ℕ) :
    (readPiece args x format cursor).format.length ≤ format.length := by
  unfold readPiece
  split
  · exact le_refl _
  · split
    · exact le_refl _
    · next y rest =>
      split
      · simp
      · have parsed := parseDirective_length args (y :: rest) cursor
        dsimp only
        split
        · simp
        · next conv tail shape =>
          rw [shape, List.length_cons] at parsed
          exact (Nat.le_succ _).trans parsed

/-- The pieces of a format. -/
def formatPieces (args : Arguments) (format : CString) (cursor : ℕ) : List Piece :=
  match format with
  | [] => []
  | x :: format =>
    let reading := readPiece args x format cursor
    reading.piece :: formatPieces args reading.format reading.cursor
termination_by format.length
decreasing_by exact Nat.lt_succ_of_le (readPiece_length ..)

/-- What remains of a format after flags, width, precision and length modifiers. -/
def afterOptions (format : CString) : CString :=
  let format := format.dropWhile fun x =>
    x = chr '-' ∨ x = chr '0' ∨ x = chr '+' ∨ x = chr ' ' ∨ x = chr '#'
  let format := if format.head? = some (chr '*') then format.tail else format.dropWhile isDecimal
  let format :=
    if format.head? = some (chr '.') then
      if format.tail.head? = some (chr '*') then format.tail.tail else format.tail.dropWhile isDecimal
    else format
  format.dropWhile fun x => x = chr 'l' ∨ x = chr 'h' ∨ x = chr 'z' ∨ x = chr 'j' ∨ x = chr 't'

/-- Formats in which every directive is completed by a conversion character that is accepted. -/
inductive Completed (accept : CChar → Prop) : CString → Prop where
  | nil : Completed accept []
  | literal {x rest} (ordinary : x ≠ chr '%') (completed : Completed accept rest) :
      Completed accept (x :: rest)
  | percent {rest} (completed : Completed accept rest) :
      Completed accept (chr '%' :: chr '%' :: rest)
  | directive {y rest conv tail} (opened : y ≠ chr '%') (reached : afterOptions (y :: rest) = conv :: tail)
      (accepted : accept conv) (completed : Completed accept tail) :
      Completed accept (chr '%' :: y :: rest)

end CLite
