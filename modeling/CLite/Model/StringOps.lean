import CLite.Lib.ByteMemory

/-! # The memory loops of `string.c`

`memcpy` and `memset` are the source's byte loops, run forward one byte at a time. A copy reads the
bytes it has already written, so the effect of `memcpy` is stated for ranges that do not overlap;
`memmove` chooses the direction of its loop by the order of the two addresses.
-/

namespace CLite

open ByteMemory

/-- `memcpy`: the memory after the first `n` iterations of `d[i] = s[i]`. -/
def memcpy (memory : Memory) (dest src : ℕ) : ℕ → Memory
  | 0 => memory
  | n + 1 =>
      let copied := memcpy memory dest src n
      Function.update copied (dest + n) (copied (src + n))

/-- `memset`: the memory after the first `n` iterations of `p[i] = (unsigned char)c`. -/
def memset (memory : Memory) (dest : ℕ) (c : ℤ) : ℕ → Memory
  | 0 => memory
  | n + 1 => Function.update (memset memory dest c n) (dest + n) (BitVec.ofInt 8 c)

/-- The second loop of `memmove`: `d[i - 1] = s[i - 1]` for `i` from `n` down to one. -/
def copyDown (memory : Memory) (dest src : ℕ) : ℕ → Memory
  | 0 => memory
  | i + 1 => copyDown (Function.update memory (dest + i) (memory (src + i))) dest src i

/-- `memmove`: the returned pointer and the memory after the call. -/
def memmove (memory : Memory) (dest src n : ℕ) : ℕ × Memory :=
  if dest < src then
    -- the forward loop `d[i] = s[i]` is the one of `memcpy`
    (dest, memcpy memory dest src n)
  else if src < dest then
    (dest, copyDown memory dest src n)
  else
    (dest, memory)

theorem memcpy_outside (memory : Memory) (dest src n query : ℕ)
    (outside : query < dest ∨ dest + n ≤ query) : memcpy memory dest src n query = memory query := by
  induction n with
  | zero => rfl
  | succ n ih => rw [memcpy, Function.update_of_ne (by omega), ih (by omega)]

theorem memcpy_inside (memory : Memory) (dest src n offset : ℕ) (bound : offset < n)
    (disjoint : src + n ≤ dest ∨ dest + n ≤ src) :
    memcpy memory dest src n (dest + offset) = memory (src + offset) := by
  induction n with
  | zero => omega
  | succ n ih =>
    rw [memcpy]
    rcases Nat.lt_succ_iff_lt_or_eq.mp bound with earlier | rfl
    · rw [Function.update_of_ne (by omega), ih earlier (by omega)]
    · rw [Function.update_self, memcpy_outside _ _ _ _ _ (by omega)]

theorem memset_outside (memory : Memory) (dest : ℕ) (c : ℤ) (n query : ℕ)
    (outside : query < dest ∨ dest + n ≤ query) : memset memory dest c n query = memory query := by
  induction n with
  | zero => rfl
  | succ n ih => rw [memset, Function.update_of_ne (by omega), ih (by omega)]

end CLite
