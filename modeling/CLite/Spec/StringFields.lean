import CLite.Model.StringReads
import CLite.Spec.IntegerFields

/-! # String fields

What a `%s` with a precision should print of an array of bytes, which need not hold a terminator: the bytes before
the first zero, at most as many as the precision says, padded with blanks to the width.
-/

namespace CLite

open ByteMemory

/-- The arguments' strings are those in memory. -/
def Arguments.ReadFrom (args : Arguments) (memory : Memory) : Prop :=
  ∀ (address : BitVec 32) (text : CString), Holds memory address.toNat (text.map CChar.byte ++ [0]) →
    address.toNat + text.length < 2 ^ 32 → args.text address = text

/-- The bytes that are shown of an array. -/
def shownBytes (array : List Byte) (precision : ℕ) : List Byte := (array.take precision).takeWhile (· ≠ 0)

namespace FormatDirective

variable (d : FormatDirective) (args : Arguments) (cursor : ℕ)

/-- The directive says `.p` or `.*` with the argument `p`. -/
def HasPrecision (p : ℕ) : Prop :=
  match d.precision with
  | .absent => False
  | .star => (args.word (cursor + if d.width = .star then 1 else 0)).toInt = p
  | .number digits => Nat.ofDigits 10 (digits.map Fin.val).reverse = p

/-- The field of a text; flags other than `-` mean nothing for strings. -/
def textField (text : List Byte) : List Byte :=
  let padding := List.replicate ((d.widthAt args cursor).natAbs - text.length) (ascii ' ')
  if .minus ∈ d.flags ∨ d.widthAt args cursor < 0 then text ++ padding else padding ++ text

end FormatDirective

/-- A directive `%s` with a precision, and an array of at least so many bytes as its argument. -/
structure StringCall where
  args : Arguments
  memory : Memory
  cursor : ℕ
  directive : FormatDirective
  array : List Byte
  precision : ℕ
  read_from : args.ReadFrom memory
  conversion : directive.conversion = .s
  has_precision : directive.HasPrecision args cursor precision
  nonnull : args.word (cursor + directive.stars) ≠ 0
  stored : Holds memory (args.word (cursor + directive.stars)).toNat array
  inside : (args.word (cursor + directive.stars)).toNat + array.length ≤ 2 ^ 32
  covered : precision ≤ array.length

namespace StringCall

variable (call : StringCall)

/-- Where the array begins. -/
def address : ℕ := (call.args.word (call.cursor + call.directive.stars)).toNat

/-- The width without its sign. -/
def width : ℕ := (call.directive.widthAt call.args call.cursor).natAbs

def format : CString := chr '%' :: call.directive.text

def field : List Byte := call.directive.textField call.args call.cursor (shownBytes call.array call.precision)

/-- The array has its first zero at the offset `k`. -/
def FirstZero (k : ℕ) : Prop := call.array[k]? = some 0 ∧ ∀ i < k, call.array[i]? ≠ some 0

end StringCall

/-- The widths with which the padding of `k` characters does not overflow an `int`. -/
def PaddingFits (width k : ℕ) : Prop :=
  if k < 2 ^ 31 then width < 2 ^ 31 else k ≤ width + 2 ^ 31 ∧ width < k + 2 ^ 31

end CLite
