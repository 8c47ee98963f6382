import Mathlib.Data.Nat.Digits.Lemmas
import CLite.Model.Scanf
import CLite.Spec.PrintPieces

/-! # Printed numbers

A printed number is blanks, a sign, digits and blanks, and the digits may have zeros in front. These lemmas say
what its characters are to a scanner and what its digits are worth.
-/

namespace CLite

open ByteMemory

theorem one_byte_ne_zero : (1 : Byte) ≠ 0 := by decide

/-- A byte of the output as a character of a string. -/
def byteChar (byte : Byte) : CChar := if nonzero : byte ≠ 0 then ⟨byte, nonzero⟩ else ⟨1, one_byte_ne_zero⟩

/-- A digit as it is printed. -/
def digitText (uppercase : Bool) (digit : ℕ) : CChar := byteChar (digitByte uppercase digit)

theorem digitValue_digitText : ∀ uppercase, ∀ digit < 16,
    digitValue (digitText uppercase digit) = some (digit : ℤ) := by decide

theorem digitText_plain : ∀ uppercase, ∀ digit < 16, isSpace (digitText uppercase digit) = false ∧
    digitText uppercase digit ≠ chr '-' ∧ digitText uppercase digit ≠ chr '+' ∧
    digitText uppercase digit ≠ chr 'x' ∧ digitText uppercase digit ≠ chr 'X' := by decide

/-- The number that digits stand for, most significant first. -/
def digitsValue (base : ℕ) (digits : List ℕ) : ℕ := digits.foldl (fun value digit => value * base + digit) 0

theorem digitsValue_eq_ofDigits (base : ℕ) (digits : List ℕ) :
    digitsValue base digits = Nat.ofDigits base digits.reverse := by
  rw [digitsValue, Nat.ofDigits_eq_foldr, List.foldr_reverse]
  congr 1
  funext value digit
  rw [Nat.cast_id, Nat.mul_comm, Nat.add_comm]

theorem digitsValue_digits (base val : ℕ) : digitsValue base (Nat.digits base val).reverse = val := by
  rw [digitsValue_eq_ofDigits, List.reverse_reverse, Nat.ofDigits_digits]

theorem digitsValue_zeros (base count : ℕ) (digits : List ℕ) :
    digitsValue base (List.replicate count 0 ++ digits) = digitsValue base digits := by
  have zeros : (List.replicate count 0).foldl (fun value digit => value * base + digit) 0 = 0 := by
    induction count with
    | zero => rfl
    | succ count ih => simpa [List.replicate_succ] using ih
  rw [digitsValue, List.foldl_append, zeros, digitsValue]

theorem int32_step (value base digit : ℤ) : int32 (int32 value * base + digit) = int32 (value * base + digit) := by
  unfold int32
  rw [← Int.bmod_add_bmod, Int.bmod_mul_bmod, Int.bmod_add_bmod]

theorem ofInt_int32 (value : ℤ) : BitVec.ofInt 32 (int32 value) = BitVec.ofInt 32 value := by
  apply BitVec.eq_of_toInt_eq
  simp [int32]

/-- The sign of a number. -/
def signText (negative : Bool) : CString := if negative then [chr '-'] else []

/-- Digits are not taken for a hexadecimal prefix. -/
theorem hasHexPrefix_digits (uppercase : Bool) {digits : List ℕ} (within : ∀ digit ∈ digits, digit < 16)
    (nonempty : digits ≠ []) {tail : CString} (ended : ∀ x ∈ tail.head?, digitValue x = none) :
    hasHexPrefix (digits.map (digitText uppercase) ++ tail) = false := by
  obtain ⟨first, digits, rfl⟩ := List.exists_cons_of_ne_nil nonempty
  have second (x : CChar) (next : (digits.map (digitText uppercase) ++ tail).head? = some x) :
      x ≠ chr 'x' ∧ x ≠ chr 'X' := by
    cases digits with
    | nil =>
      have none := ended x next
      refine ⟨fun same => ?_, fun same => ?_⟩ <;> rw [same] at none <;> revert none <;> decide
    | cons digit digits =>
      obtain rfl : digitText uppercase digit = x := Option.some.inj next
      exact (digitText_plain uppercase digit (within digit (by simp))).2.2.2
  simp only [hasHexPrefix, List.map_cons, List.cons_append, List.tail_cons, decide_eq_false_iff_not, not_and,
    not_or]
  exact fun _ => ⟨fun next => (second _ next).1 rfl, fun next => (second _ next).2 rfl⟩

/-- No blanks stand before the sign and the digits. -/
theorem takeSign_number (uppercase negative : Bool) {digits : List ℕ}
    (within : ∀ digit ∈ digits, digit < 16) (nonempty : digits ≠ []) (tail : CString) :
    (signText negative ++ (digits.map (digitText uppercase) ++ tail)).dropWhile isSpace =
        signText negative ++ (digits.map (digitText uppercase) ++ tail) ∧
      takeSign (signText negative ++ (digits.map (digitText uppercase) ++ tail)) =
        (negative, digits.map (digitText uppercase) ++ tail) := by
  obtain ⟨first, digits, rfl⟩ := List.exists_cons_of_ne_nil nonempty
  obtain ⟨notSpace, notMinus, notPlus, -, -⟩ := digitText_plain uppercase first (within first (by simp))
  cases negative with
  | true => exact ⟨rfl, rfl⟩
  | false => simp [signText, takeSign, notSpace, notMinus, notPlus]

/-- The digits of a number, most significant first. -/
def leadDigits (base val : ℕ) : List ℕ := if val = 0 then [0] else (Nat.digits base val).reverse

theorem digitsValue_leadDigits (base val : ℕ) : digitsValue base (leadDigits base val) = val := by
  unfold leadDigits
  split
  · next zero => simp [digitsValue, zero]
  · exact digitsValue_digits base val

theorem leadDigits_lt {base val : ℕ} (positive : 1 < base) : ∀ digit ∈ leadDigits base val, digit < base := by
  intro digit member
  unfold leadDigits at member
  split at member
  · rw [List.mem_singleton.mp member]
    omega
  · exact Nat.digits_lt_base positive (List.mem_reverse.mp member)

theorem leadDigits_ne_nil (base val : ℕ) : leadDigits base val ≠ [] := by
  unfold leadDigits
  split
  · simp
  · next nonzero => simpa using Nat.digits_ne_nil_iff_ne_zero.mpr nonzero

theorem leadDigits_head_zero_iff {base val : ℕ} : (leadDigits base val).head? = some 0 ↔ val = 0 := by
  unfold leadDigits
  split
  · next zero => exact iff_of_true rfl zero
  · next nonzero =>
    refine iff_of_false ?_ nonzero
    rw [List.head?_reverse, List.getLast?_eq_some_getLast (Nat.digits_ne_nil_iff_ne_zero.mpr nonzero)]
    intro zero
    exact Nat.getLast_digit_ne_zero base nonzero (Option.some.inj zero)

theorem leadDigits_length_le {base val count : ℕ} (positive : 1 < base) (nonempty : 0 < count)
    (bound : val < base ^ count) : (leadDigits base val).length ≤ count := by
  unfold leadDigits
  split
  · exact nonempty
  · rw [List.length_reverse]
    exact (Nat.digits_length_le_iff positive val).mpr bound

theorem digitText_byte : ∀ uppercase, ∀ digit < 16, (digitText uppercase digit).byte = digitByte uppercase digit := by
  decide

/-- The array `buf` from its end to its start. -/
theorem numBuf_leadDigits (base val : ℕ) (uppercase : Bool) :
    (numBuf val base uppercase false).reverse = (leadDigits base val).map (digitByte uppercase) := by
  rw [numBuf, leadDigits]
  split
  · cases uppercase <;> rfl
  · simp

theorem numBuf_reverse {base : ℕ} (positive : 1 < base) (small : base ≤ 16) (val : ℕ) (uppercase : Bool) :
    (numBuf val base uppercase false).reverse =
      ((leadDigits base val).map (digitText uppercase)).map CChar.byte := by
  rw [numBuf_leadDigits, List.map_map]
  apply List.map_congr_left
  intro digit member
  exact (digitText_byte uppercase digit ((leadDigits_lt positive digit member).trans_le small)).symm

end CLite
