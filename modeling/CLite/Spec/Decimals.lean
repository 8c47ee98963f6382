import CLite.Spec.Numerals

/-! # Decimal numbers

What counts as a decimal number in a text: blanks, a sign, and digits with or without a point and more digits
behind it, at least one digit in all.
-/

namespace CLite

/-- A decimal number with its parts; `fraction` holds the digits behind the point, if there is one. -/
structure Decimal where
  blanks : CString
  sign : Sign
  whole : CString
  fraction : Option CString

namespace Decimal

/-- The digits and the point. -/
def core (n : Decimal) : CString := n.whole ++ n.fraction.elim [] (chr '.' :: ·)

def text (n : Decimal) : CString := n.blanks ++ (n.sign.text ++ n.core)

structure Valid (n : Decimal) : Prop where
  blanks : ∀ x ∈ n.blanks, isSpace x = true
  whole : ∀ x ∈ n.whole, IsDigit 10 x = true
  fraction : ∀ digits ∈ n.fraction, ∀ x ∈ digits, IsDigit 10 x = true
  nonempty : n.whole ≠ [] ∨ n.fraction.getD [] ≠ []

end Decimal

def IsDecimalText (text : CString) : Prop := ∃ n : Decimal, n.Valid ∧ n.text = text

/-- Behind blanks and a sign the string goes on with a digit, or with a point and a digit. -/
def StartsDecimal (nptr : CString) : Prop :=
  ∃ (blanks : CString) (sign : Sign) (point : CString) (digit : CChar) (rest : CString),
    nptr = blanks ++ (sign.text ++ (point ++ digit :: rest)) ∧ (∀ x ∈ blanks, isSpace x = true) ∧
      (point = [] ∨ point = [chr '.']) ∧ IsDigit 10 digit = true

/-- The string starts with nothing that could be part of a number. -/
def NoFront (nptr : CString) : Prop :=
  ∀ x ∈ nptr.head?, isSpace x = false ∧ x ≠ chr '-' ∧ x ≠ chr '+' ∧ x ≠ chr '.'

end CLite
