import CLite.Spec.Numerals

/-! # Directives of scanning formats

A directive stands behind its percent sign: a star that suppresses the store, a width, a length modifier and a
conversion character. A format that ends before the conversion character is cut short. Each directive that is not
suppressed has a pointer among the arguments, and its modifier says what the pointer points to.
-/

namespace CLite

inductive ScanLength where
  | none | h | hh | l | ll
deriving DecidableEq

namespace ScanLength

def text : ScanLength → CString
  | .none => []
  | .h => [chr 'h']
  | .hh => [chr 'h', chr 'h']
  | .l => [chr 'l']
  | .ll => [chr 'l', chr 'l']

/-- The value that `is_long` has for a modifier. -/
def isLong : ScanLength → ℤ
  | .none => 0
  | .h => -1
  | .hh => -2
  | .l => 1
  | .ll => 2

/-- An integer stored through a pointer of the type that the modifier asks for. -/
def store (value : ℤ) : ScanLength → Store
  | .none => .int (BitVec.ofInt 32 value)
  | .h => .short (BitVec.ofInt 16 value)
  | .hh => .char (BitVec.ofInt 8 value)
  | .l => .long (BitVec.ofInt 32 value)
  | .ll => .longLong (BitVec.ofInt 64 value)

end ScanLength

/-- The modifier that a text starts with, and what follows. -/
def readLength (f : CString) : ScanLength × CString :=
  match f with
  | [] => (.none, [])
  | x :: rest =>
    if x = chr 'l' then if rest.head? = some (chr 'l') then (.ll, rest.tail) else (.l, rest)
    else if x = chr 'h' then if rest.head? = some (chr 'h') then (.hh, rest.tail) else (.h, rest)
    else (.none, x :: rest)

structure ScanDirective where
  suppress : Bool
  width : CString
  length : ScanLength
  conversion : CChar

/-- What a directive says up to its conversion, from behind the percent sign. -/
def readOptions (f : CString) : Bool × CString × ScanLength × CString :=
  let suppress : Bool := f.head? = some (chr '*')
  let f := if suppress then f.tail else f
  let (length, rest) := readLength (f.dropWhile isDecimal)
  (suppress, f.takeWhile isDecimal, length, rest)

/-- The directive that a format starts with, and the format behind it; there is none if the format is cut short. -/
def readDirective (f : CString) : Option (ScanDirective × CString) :=
  match readOptions f with
  | (_, _, _, []) => none
  | (suppress, width, length, conversion :: rest) => some (⟨suppress, width, length, conversion⟩, rest)

/-- What a pointer argument is for. -/
inductive Slot where
  | count
  | characters
  | string
  | integer (length : ScanLength)
deriving DecidableEq

/-- What may be stored through a pointer. -/
def Slot.Holds : Slot → Store → Prop
  | .count, .int _ => True
  | .characters, .characters _ => True
  | .string, .string _ => True
  | .integer length, store => ∃ value, store = length.store value
  | _, _ => False

/-- The base of an integer conversion. -/
def integerBase (conversion : CChar) : Option ℕ :=
  if conversion = chr 'x' ∨ conversion = chr 'X' then some 16
  else if conversion = chr 'i' then some 0
  else if conversion = chr 'd' ∨ conversion = chr 'u' then some 10
  else none

namespace ScanDirective

/-- What a directive asks to be stored, suppressed or not; an unknown conversion asks for nothing. -/
def slot (d : ScanDirective) : Option Slot :=
  if d.conversion = chr 'n' then some .count
  else if d.conversion = chr 'c' then some .characters
  else if d.conversion = chr 's' then some .string
  else (integerBase d.conversion).map fun _ => .integer d.length

/-- The pointer arguments of a directive. -/
def slots (d : ScanDirective) : List Slot := if d.suppress then [] else d.slot.toList

/-- The input at a directive has what it asks for: a character, a word or a numeral. -/
def Matches (d : ScanDirective) (input : CString) : Prop :=
  match d.slot with
  | none | some .count => False
  | some .characters => input ≠ []
  | some .string => input.dropWhile isSpace ≠ []
  | some (.integer _) => ∃ base n, integerBase d.conversion = some base ∧
      Starts base n (input.dropWhile isSpace) ∧ ¬ BarePrefix base (input.dropWhile isSpace)

end ScanDirective

/-- Formats in which every directive is completed, with the pointer arguments that they ask for. -/
inductive ScanFormat : CString → List Slot → Prop where
  | nil : ScanFormat [] []
  | blank {x rest slots} (space : isSpace x = true) (format : ScanFormat rest slots) : ScanFormat (x :: rest) slots
  | literal {x rest slots} (plain : isSpace x = false) (ordinary : x ≠ chr '%') (format : ScanFormat rest slots) :
      ScanFormat (x :: rest) slots
  | percent {rest slots} (format : ScanFormat rest slots) : ScanFormat (chr '%' :: chr '%' :: rest) slots
  | directive {f d rest slots} (opened : f.head? ≠ some (chr '%')) (read : readDirective f = some (d, rest))
      (format : ScanFormat rest slots) : ScanFormat (chr '%' :: f) (d.slots ++ slots)

end CLite
