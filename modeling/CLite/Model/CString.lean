import Mathlib.Data.Int.Notation
import Mathlib.Tactic.Common

/-! # C strings

A C string is the list of its bytes before the terminator, so none of them is zero. A pointer into a
string is the part of the string that remains from there on. Plain `char` is signed on the target, so
a byte has two integer values: the one of the plain character and the one after a cast to
`unsigned char`; they agree exactly below 128.
-/

namespace CLite

structure CChar where
  byte : BitVec 8
  nonzero : byte ≠ 0
deriving DecidableEq

abbrev CString := List CChar

/-- A character constant of the source; none of them is the terminator. -/
def chr (c : Char) : CChar :=
  if nonzero : BitVec.ofNat 8 c.toNat ≠ 0 then ⟨BitVec.ofNat 8 c.toNat, nonzero⟩ else ⟨1, by decide⟩

/-- A string constant of the source. -/
def cstr (s : String) : CString := s.toList.map chr

namespace CChar

/-- The value of a plain `char` promoted to `int`. -/
def plain (c : CChar) : ℤ := c.byte.toInt

/-- The value of `(unsigned char)c`. -/
def unsigned (c : CChar) : ℤ := c.byte.toNat

/-- The bytes on which both readings agree. -/
def Ascii (c : CChar) : Prop := c.byte.toNat < 128

instance (c : CChar) : Decidable c.Ascii := inferInstanceAs (Decidable (_ < _))

theorem unsigned_injective : Function.Injective unsigned := by
  rintro ⟨a, _⟩ ⟨b, _⟩ same
  have values : a.toNat = b.toNat := by
    simp only [unsigned] at same
    omega
  simpa only [CChar.mk.injEq] using BitVec.eq_of_toNat_eq values

/-- Comparing a plain character with an unsigned one is an equality test only below 128. -/
theorem plain_eq_unsigned_iff {a b : CChar} : a.plain = b.unsigned ↔ a = b ∧ a.Ascii := by
  have bound := b.byte.isLt
  constructor
  · intro same
    have small : a.byte.toNat < 128 := by
      simp only [plain, unsigned, BitVec.toInt] at same
      split at same <;> omega
    refine ⟨unsigned_injective ?_, small⟩
    rw [← same, plain, unsigned, BitVec.toInt, if_pos (by omega)]
  · rintro ⟨rfl, small⟩
    simp only [Ascii] at small
    rw [plain, unsigned, BitVec.toInt, if_pos (by omega)]

end CChar

/-- `isalnum` of `ctype.h`. -/
def isAlnum (x : CChar) : Bool :=
  48 ≤ x.plain ∧ x.plain ≤ 57 ∨ 97 ≤ x.plain ∧ x.plain ≤ 122 ∨ 65 ≤ x.plain ∧ x.plain ≤ 90

end CLite
