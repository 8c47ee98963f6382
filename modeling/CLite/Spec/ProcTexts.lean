import Mathlib.Algebra.Order.Field.Rat
import CLite.Model.Sysinfo
import CLite.Spec.Numerals
import CLite.Spec.PrintDirectives

/-! # The texts below `/proc`

What the files stand for that `sysinfo` reads: the load averages are three decimal numbers between blanks, and the
sizes of the memory stand in lines behind their keys.
-/

namespace CLite

/-! ## Load averages -/

/-- A decimal number with a point and an integer part of 15 bits. -/
structure LoadNumber where
  whole : List (Fin 10)
  fraction : List (Fin 10)
  nonempty : whole ≠ []
  small : Nat.ofDigits 10 (whole.map Fin.val).reverse < 2 ^ 15

namespace LoadNumber

variable (n : LoadNumber)

def text : CString := digitsText n.whole ++ chr '.' :: digitsText n.fraction

def floor : ℕ := Nat.ofDigits 10 (n.whole.map Fin.val).reverse

/-- The exact value. -/
def value : ℚ := n.floor + (Nat.ofDigits 10 (n.fraction.map Fin.val).reverse : ℕ) / 10 ^ n.fraction.length

/-- A fixed-point number of 16 binary places stands for the decimal number. -/
structure FixedPoint (r : ℕ) : Prop where
  floor_le : n.floor * 65536 ≤ r
  lt_floor : r < (n.floor + 1) * 65536
  le_value : (r : ℚ) ≤ n.value * 65536
  value_lt : n.value * 65536 < r + 26

end LoadNumber

def IsBlank (x : CChar) : Prop := x = chr ' ' ∨ x = chr '\t'

/-- Three numbers between blanks, and what follows them. -/
structure LoadLine where
  lead : CString
  first : LoadNumber
  gap : CString
  second : LoadNumber
  gap' : CString
  third : LoadNumber
  tail : CString
  lead_blank : ∀ x ∈ lead, IsBlank x
  gap_blank : ∀ x ∈ gap, IsBlank x
  gap_nonempty : gap ≠ []
  gap'_blank : ∀ x ∈ gap', IsBlank x
  gap'_nonempty : gap' ≠ []
  tail_ends : ∀ x ∈ tail.head?, isDecimal x = false

namespace LoadLine

variable (line : LoadLine)

def behindSecond : CString := line.gap' ++ (line.third.text ++ line.tail)

def behindFirst : CString := line.gap ++ (line.second.text ++ line.behindSecond)

def text : CString := line.lead ++ (line.first.text ++ line.behindFirst)

end LoadLine

/-! ## Sizes of the memory -/

def newline (x : CChar) : Bool := x = chr '\n'

def memTotalKey : CString := cstr "MemTotal:"

def memFreeKey : CString := cstr "MemFree:"

/-- What follows the key and white space on a line. -/
def behindKey (key line : CString) : CString := (line.drop key.length).dropWhile isSpace

/-- The number behind the key of a line that starts with it. -/
def keyNumber (key line : CString) : Option ℕ :=
  let digits := (behindKey key line).takeWhile (IsDigit 10)
  if key <+: line ∧ digits ≠ [] then some (Nat.ofDigits 10 (digits.map digitNumber).reverse) else none

/-- What follows the key and white space is no number, or an unsigned one of 31 bits with anything behind it. -/
def KeyReadable (key line : CString) : Prop :=
  key <+: line → ∀ n, Starts 10 n (behindKey key line) → n.sign = .none ∧ n.value 10 < 2 ^ 31

/-- The bytes that the last number behind the key stands for, or zero. -/
def keyBytes (key contents : CString) : ℕ :=
  (((contents.splitOnP newline).filterMap (keyNumber key)).getLast?.getD 0) * 1024 % 2 ^ 32

end CLite
