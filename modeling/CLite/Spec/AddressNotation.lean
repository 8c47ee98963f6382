import CLite.Model.Inet
import CLite.Spec.Numerals

/-! # Addresses in numbers-and-dots notation

One to four parts with dots between them, up to the first white space. A part is decimal unless it starts with a
zero, which makes it octal, or hexadecimal if an `x` follows. All parts but the last are one octet each, and the last
is all the octets that remain. Values are natural numbers without a bound.
-/

namespace CLite

/-- A part of an address with its digits, and with the letter of the prefix if it is hexadecimal. -/
inductive AddressPart where
  | decimal (digits : CString)
  | octal (digits : CString)
  | hex (letter : CChar) (digits : CString)

namespace AddressPart

def digits : AddressPart → CString
  | .decimal digits | .octal digits | .hex _ digits => digits

def base : AddressPart → ℕ
  | .decimal _ => 10
  | .octal _ => 8
  | .hex _ _ => 16

def text : AddressPart → CString
  | .decimal digits => digits
  | .octal digits => chr '0' :: digits
  | .hex letter digits => chr '0' :: letter :: digits

/-- The digits evaluated in the base of the part. -/
def value (part : AddressPart) : ℕ := Nat.ofDigits part.base (part.digits.map digitNumber).reverse

/-- A part of which only the base is settled: behind a leading zero there may be any decimal digits. -/
def Loose : AddressPart → Prop
  | .decimal digits => digits ≠ [] ∧ digits.head? ≠ some (chr '0') ∧ ∀ x ∈ digits, IsDigit 10 x = true
  | .octal digits => ∀ x ∈ digits, IsDigit 10 x = true
  | .hex letter digits => (letter = chr 'x' ∨ letter = chr 'X') ∧ digits ≠ [] ∧ ∀ x ∈ digits, IsDigit 16 x = true

instance : DecidablePred Loose
  | .decimal _ => inferInstanceAs (Decidable (_ ∧ _ ∧ _))
  | .octal _ => inferInstanceAs (Decidable (∀ _ ∈ _, _))
  | .hex _ _ => inferInstanceAs (Decidable (_ ∧ _ ∧ _))

/-- The digit zero alone. -/
def zero : AddressPart := .octal []

end AddressPart

/-- What of a string is the address. -/
def addressText (cp : CString) : CString := cp.takeWhile fun x => !isSpace x

/-- The string is made of these parts. -/
structure MadeOf (cp : CString) (parts : List AddressPart) : Prop where
  nonempty : parts ≠ []
  four : parts.length ≤ 4
  loose : ∀ part ∈ parts, part.Loose
  text : addressText cp = [chr '.'].intercalate (parts.map AddressPart.text)

/-- All parts but the last are octets, and the last fits in the octets that remain. -/
def InBounds (values : List ℕ) : Prop :=
  (∀ value ∈ values.dropLast, value ≤ 255) ∧ ∀ value ∈ values.getLast?, value ≤ 2 ^ (8 * (5 - values.length)) - 1

/-- The parts are of the notation: the digits are those of their base and the values are in bounds. -/
def InNotation (parts : List AddressPart) : Prop :=
  (∀ part ∈ parts, ∀ x ∈ part.digits, IsDigit part.base x = true) ∧ InBounds (parts.map AddressPart.value)

instance (values : List ℕ) : Decidable (InBounds values) := inferInstanceAs (Decidable (_ ∧ _))

instance (parts : List AddressPart) : Decidable (InNotation parts) := inferInstanceAs (Decidable (_ ∧ _))

/-- The address as a number, from the values of its parts. -/
def hostValue : List ℕ → ℕ
  | [a] => a
  | [a, b] => a * 2 ^ 24 + b
  | [a, b, c] => a * 2 ^ 24 + (b * 2 ^ 16 + c)
  | [a, b, c, d] => a * 2 ^ 24 + (b * 2 ^ 16 + (c * 2 ^ 8 + d))
  | _ => 0

/-- The octets of a number from the most significant one on, which is network order. -/
def networkOctets (host : ℕ) : List (BitVec 32) :=
  [24, 16, 8, 0].map fun shift => BitVec.ofNat 32 (host / 2 ^ shift % 256)

/-- The string denotes an address. -/
def Denotes (cp : CString) (addr : BitVec 32) : Prop :=
  ∃ parts, MadeOf cp parts ∧ InNotation parts ∧ octets addr = networkOctets (hostValue (parts.map AddressPart.value))

/-- The bounds that are left of the notation if the values are taken modulo 2 to the 32 and those before the last
count only among four. -/
def InWrappedBounds (values : List ℕ) : Prop :=
  (values.length = 4 → ∀ value ∈ values.dropLast, value % 2 ^ 32 ≤ 255) ∧
    ∀ value ∈ values.getLast?, value % 2 ^ 32 ≤ 2 ^ (8 * (5 - values.length)) - 1

end CLite
