import CLite.Model.Printf

/-! # Text from numbers

`itoa` of `stdlib.c`, on a buffer in memory. The buffer has room for the text and lies in the address space, so
that no address in it wraps; `int` and `unsigned int` are machine words.
-/

namespace CLite

open ByteMemory

/-- The character that `itoa` stores for a remainder. -/
def itoaDigit (rem : ℕ) : Byte :=
  BitVec.ofNat 8 (if rem < 10 then '0'.toNat + rem else 'a'.toNat + rem - 10)

/-- The digit loop of `itoa`, least significant digit first: `ptr` and the memory after it. -/
def itoaLoop (base : ℕ) (valid : 2 ≤ base) (memory : Memory) (ptr uval : ℕ) : ℕ × Memory :=
  let memory := Function.update memory ptr (itoaDigit (uval % base))
  if uval / base ≠ 0 then itoaLoop base valid memory (ptr + 1) (uval / base) else (ptr + 1, memory)
termination_by uval
decreasing_by
  refine Nat.div_lt_self ?_ valid
  apply Nat.pos_of_ne_zero
  rintro rfl
  exact absurd (Nat.zero_div base) (by assumption)

/-- The loop that inverts the digits. -/
def invertLoop (memory : Memory) (low ptr : ℕ) : Memory :=
  if low < ptr then
    let tmp := memory low
    invertLoop (Function.update (Function.update memory low (memory ptr)) ptr tmp) (low + 1) (ptr - 1)
  else memory
termination_by ptr - low

/-- What `itoa` returns, and the memory after it. -/
def itoa (memory : Memory) (value : BitVec 32) (str : ℕ) (base : ℤ) : ℕ × Memory :=
  if valid : base < 2 ∨ 36 < base then (str, Function.update memory str 0)
  else
    let (low, memory, uval) :=
      if value.toInt < 0 ∧ base = 10 then (str + 1, Function.update memory str (ascii '-'), (-value).toNat)
      else (str, memory, value.toNat)
    let (ptr, memory) := itoaLoop base.toNat (by omega) memory low uval
    (str, invertLoop (Function.update memory ptr 0) low (ptr - 1))

end CLite
