import Mathlib.Data.Nat.Digits.Defs
import CLite.Lib.LongestPrefix
import CLite.Model.Scanf

/-! # Numerals

What counts as a number in a text: blanks, a sign, a hexadecimal prefix where the base allows it, and digits of
the base. Nothing here refers to how a number is read.
-/

namespace CLite

inductive Sign where
  | none | plus | minus
deriving DecidableEq

def Sign.text : Sign → CString
  | .none => []
  | .plus => [chr '+']
  | .minus => [chr '-']

def Sign.apply : Sign → ℕ → ℤ
  | .minus, magnitude => -magnitude
  | _, magnitude => magnitude

/-- The digits of a base. -/
def IsDigit (base : ℕ) (x : CChar) : Bool := (digitValue x).any fun digit => digit < (base : ℤ)

/-- The number that a digit stands for. -/
def digitNumber (x : CChar) : ℕ := ((digitValue x).getD 0).toNat

/-- A number with its parts; `hex` is the letter of the prefix. -/
structure Numeral where
  blanks : CString
  sign : Sign
  hex : Option CChar
  digits : CString

namespace Numeral

/-- The prefix and the digits. -/
def core (n : Numeral) : CString := (n.hex.elim [] fun letter => [chr '0', letter]) ++ n.digits

def text (n : Numeral) : CString := n.blanks ++ (n.sign.text ++ n.core)

/-- The base of the digits: base 0 leaves it to the prefix and to a leading zero. -/
def radix (base : ℕ) (n : Numeral) : ℕ :=
  if n.hex.isSome then 16 else if base = 0 then if n.digits.head? = some (chr '0') then 8 else 10 else base

/-- A numeral in the given base. A prefix is followed by a digit, as all numerals have one. -/
structure Valid (base : ℕ) (n : Numeral) : Prop where
  blanks : ∀ x ∈ n.blanks, isSpace x = true
  hex : ∀ letter ∈ n.hex, (letter = chr 'x' ∨ letter = chr 'X') ∧ (base = 0 ∨ base = 16)
  nonempty : n.digits ≠ []
  digits : ∀ x ∈ n.digits, IsDigit (n.radix base) x = true

/-- The number that a numeral denotes. -/
def value (base : ℕ) (n : Numeral) : ℤ :=
  n.sign.apply (Nat.ofDigits (n.radix base) (n.digits.map digitNumber).reverse)

end Numeral

/-- The texts of numerals. -/
def IsNumeralText (base : ℕ) (text : CString) : Prop := ∃ n : Numeral, n.Valid base ∧ n.text = text

/-- The numeral is the longest one that the string starts with. -/
def Starts (base : ℕ) (n : Numeral) (nptr : CString) : Prop :=
  n.Valid base ∧ LongestPrefix.Longest (IsNumeralText base) nptr n.text

/-- The string starts, behind blanks and sign, with a hexadecimal prefix that no digit follows. -/
def BarePrefix (base : ℕ) (nptr : CString) : Prop :=
  (base = 0 ∨ base = 16) ∧ ∃ (blanks : CString) (sign : Sign) (letter : CChar) (rest : CString),
    nptr = blanks ++ (sign.text ++ chr '0' :: letter :: rest) ∧ (∀ x ∈ blanks, isSpace x = true) ∧
      (letter = chr 'x' ∨ letter = chr 'X') ∧ ∀ x ∈ rest.head?, IsDigit 16 x = false

/-- The range of a 32-bit `long`. -/
def LONG_MAX : ℤ := 2 ^ 31 - 1

def LONG_MIN : ℤ := -2 ^ 31

def ULONG_MAX : ℤ := 2 ^ 32 - 1

end CLite
