import Mathlib.Data.Nat.Digits.Defs
import CLite.Spec.PrintDirectives

/-! # Integer fields

The field of an integer directive in words of its own: the canonical numeral of the value, the sign, and the
padding that flags and width ask for. Nothing here refers to how a field is printed.
-/

namespace CLite

open ByteMemory

/-- The digits of a number, most significant first, without a zero in front unless it is the only digit. -/
structure IsNumeral (base val : ℕ) (digits : List ℕ) : Prop where
  nonempty : digits ≠ []
  within : ∀ digit ∈ digits, digit < base
  canonical : digits.head? = some 0 → digits = [0]
  value : Nat.ofDigits base digits.reverse = val

/-- The character of a digit. -/
def digitGlyph (uppercase : Bool) (digit : ℕ) : Byte :=
  ascii ((if uppercase then "0123456789ABCDEF" else "0123456789abcdef").toList.getD digit ' ')

def Conversion.radix : Conversion → ℕ
  | .x | .X => 16
  | .o => 8
  | _ => 10

def Conversion.Signed (conversion : Conversion) : Prop := conversion = .d ∨ conversion = .i

instance (conversion : Conversion) : Decidable conversion.Signed := inferInstanceAs (Decidable (_ ∨ _))

namespace FormatDirective

/-- An integer conversion with the flags `-` and `0`, no precision and at most one `l`. -/
structure IntegerField (d : FormatDirective) : Prop where
  flags : ∀ flag ∈ d.flags, flag = .minus ∨ flag = .zero
  precision : d.precision = .absent
  modifier : d.modifier = .none ∨ d.modifier = .l
  conversion : d.conversion.IsInteger

variable (d : FormatDirective) (args : Arguments) (cursor : ℕ)

/-- The width, which only a star makes negative. -/
def widthAt : ℤ :=
  match d.width with
  | .absent => 0
  | .star => (args.word cursor).toInt
  | .number first more => (Nat.ofDigits 10 ((first.val + 1) :: more.map Fin.val).reverse : ℕ)

/-- The value of the argument, in the type that the conversion gives it. -/
def valueAt : ℤ :=
  if d.conversion.Signed then (args.word (cursor + d.stars)).toInt else (args.word (cursor + d.stars)).toNat

def sign : List Byte := if d.valueAt args cursor < 0 then [ascii '-'] else []

def numeral (digits : List ℕ) : List Byte := digits.map (digitGlyph (d.conversion = .X))

/-- The field of the numeral with the given digits. -/
def integerField (digits : List ℕ) : List Byte :=
  let sign := d.sign args cursor
  let numeral := d.numeral digits
  let missing := (d.widthAt args cursor).natAbs - (sign ++ numeral).length
  if .minus ∈ d.flags ∨ d.widthAt args cursor < 0 then sign ++ numeral ++ List.replicate missing (ascii ' ')
  else if .zero ∈ d.flags then sign ++ List.replicate missing (ascii '0') ++ numeral
  else List.replicate missing (ascii ' ') ++ sign ++ numeral

end FormatDirective

end CLite
