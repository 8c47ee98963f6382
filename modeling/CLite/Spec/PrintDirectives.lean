import CLite.Spec.PrintPieces

/-! # Formats by their grammar

A format is a list of literal characters, doubled percent signs and directives, and a directive is made
of flags, width, precision, length modifier and conversion. The caller pushes the arguments that the
grammar asks for, each in one or two words.
-/

namespace CLite

inductive Flag where
  | minus | zero | plus | space | sharp
deriving DecidableEq

def Flag.char : Flag → CChar
  | .minus => chr '-'
  | .zero => chr '0'
  | .plus => chr '+'
  | .space => chr ' '
  | .sharp => chr '#'

def digitChar (digit : ℕ) : CChar := chr (Char.ofNat (48 + digit))

def digitsText (digits : List (Fin 10)) : CString := digits.map fun digit => digitChar digit.val

/-- A width has no leading zero: that would be a flag. -/
inductive Width where
  | absent
  | star
  | number (first : Fin 9) (more : List (Fin 10))
deriving DecidableEq

def Width.text : Width → CString
  | .absent => []
  | .star => [chr '*']
  | .number first more => digitChar (first.val + 1) :: digitsText more

inductive Precision where
  | absent
  | star
  | number (digits : List (Fin 10))
deriving DecidableEq

def Precision.text : Precision → CString
  | .absent => []
  | .star => [chr '.', chr '*']
  | .number digits => chr '.' :: digitsText digits

inductive Modifier where
  | none | h | hh | l | ll | z | j | t
deriving DecidableEq

def Modifier.text : Modifier → CString
  | .none => []
  | .h => [chr 'h']
  | .hh => [chr 'h', chr 'h']
  | .l => [chr 'l']
  | .ll => [chr 'l', chr 'l']
  | .z => [chr 'z']
  | .j => [chr 'j']
  | .t => [chr 't']

inductive Conversion where
  | c | s | d | i | u | x | X | o | p | f
deriving DecidableEq

def Conversion.char : Conversion → CChar
  | .c => chr 'c'
  | .s => chr 's'
  | .d => chr 'd'
  | .i => chr 'i'
  | .u => chr 'u'
  | .x => chr 'x'
  | .X => chr 'X'
  | .o => chr 'o'
  | .p => chr 'p'
  | .f => chr 'f'

/-- The conversions of integers, whose argument depends on the length modifier. -/
def Conversion.IsInteger (conversion : Conversion) : Prop :=
  conversion = .d ∨ conversion = .i ∨ conversion = .u ∨ conversion = .x ∨ conversion = .X ∨ conversion = .o

instance (conversion : Conversion) : Decidable conversion.IsInteger := inferInstanceAs (Decidable (_ ∨ _))

/-- The types of arguments that a caller passes. -/
inductive ArgType where
  | int | long | sizeT | ptrdiffT | pointer | longLong | intmaxT | double
deriving DecidableEq

/-- The words that an argument takes on i386. -/
def ArgType.words : ArgType → ℕ
  | .longLong | .intmaxT | .double => 2
  | _ => 1

/-- The type of an integer with the given length modifier. -/
def Modifier.argType : Modifier → ArgType
  | .none | .h | .hh => .int
  | .l => .long
  | .ll => .longLong
  | .z => .sizeT
  | .j => .intmaxT
  | .t => .ptrdiffT

structure FormatDirective where
  flags : List Flag
  width : Width
  precision : Precision
  modifier : Modifier
  conversion : Conversion

namespace FormatDirective

/-- The characters after the percent sign. -/
def text (d : FormatDirective) : CString :=
  d.flags.map Flag.char ++ (d.width.text ++ (d.precision.text ++ (d.modifier.text ++ [d.conversion.char])))

/-- The type of the converted argument. -/
def argType (d : FormatDirective) : ArgType :=
  match d.conversion with
  | .c => .int
  | .s | .p => .pointer
  | .f => .double
  | .d | .i | .u | .x | .X | .o => d.modifier.argType

/-- The arguments of the stars, one word each. -/
def stars (d : FormatDirective) : ℕ :=
  (if d.width = .star then 1 else 0) + if d.precision = .star then 1 else 0

/-- The words of all arguments of the directive. -/
def words (d : FormatDirective) : ℕ := d.stars + d.argType.words

/-- The precision of a directive whose arguments start at `cursor`; a negative one is none at all. -/
def precisionAt (d : FormatDirective) (args : Arguments) (cursor : ℕ) : ℤ :=
  match d.precision with
  | .absent => -1
  | .star => (args.word (cursor + if d.width = .star then 1 else 0)).toInt
  | .number digits => (numberLoop 0 (digitsText digits)).1

end FormatDirective

inductive FormatItem where
  | literal (x : CChar) (ordinary : x ≠ chr '%')
  | percent
  | directive (d : FormatDirective)

def FormatItem.text : FormatItem → CString
  | .literal x _ => [x]
  | .percent => [chr '%', chr '%']
  | .directive d => chr '%' :: d.text

def FormatItem.words : FormatItem → ℕ
  | .directive d => d.words
  | _ => 0

def formatText (items : List FormatItem) : CString := items.flatMap FormatItem.text

/-- The words that the caller pushes for a format. -/
def formatWords (items : List FormatItem) : ℕ := (items.map FormatItem.words).sum

end CLite
