import CLite.Model.Scanf

/-! # `strtod`

The arithmetic on `double` is a parameter: where the conversion ends does not depend on it.
-/

namespace CLite

/-- The operations on `double` that `strtod` uses. -/
structure DoubleOps (δ : Type*) where
  ofInt : ℤ → δ
  tenth : δ
  add : δ → δ → δ
  mul : δ → δ → δ

/-- `isdigit` of `ctype.h`, on an `unsigned char`. -/
def isdigit (c : CChar) : Bool := 48 ≤ c.unsigned ∧ c.unsigned ≤ 57

variable {δ : Type*} (double : DoubleOps δ)

/-- The loop over the digits before the point. -/
def strtodWhole (val : δ) : CString → δ × CString
  | [] => (val, [])
  | c :: nptr =>
    if isdigit c then
      strtodWhole (double.add (double.mul val (double.ofInt 10)) (double.ofInt (c.plain - 48))) nptr
    else (val, c :: nptr)

/-- The loop over the digits behind the point. -/
def strtodFraction (val frac : δ) : CString → δ × CString
  | [] => (val, [])
  | c :: nptr =>
    if isdigit c then
      strtodFraction (double.add val (double.mul (double.ofInt (c.plain - 48)) frac)) (double.mul frac double.tenth)
        nptr
    else (val, c :: nptr)

/-- The value and `*endptr`. -/
def strtod (nptr : CString) : δ × CString :=
  let (negative, nptr) := takeSign (nptr.dropWhile isSpace)
  let sign := double.ofInt (if negative then -1 else 1)
  let (val, nptr) := strtodWhole double (double.ofInt 0) nptr
  let (val, nptr) :=
    if nptr.head? = some (chr '.') then strtodFraction double val double.tenth nptr.tail else (val, nptr)
  (double.mul sign val, nptr)

end CLite
