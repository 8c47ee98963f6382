import CLite.Model.StringOps

/-! # `memmove` is a simultaneous copy

Both loops of `memmove` overwrite source bytes when the ranges overlap, but only source bytes that
they have read already. The forward loop runs when the destination is below the source, so what it
has written ends below the next byte that it reads; the backward loop runs when the destination is
above the source, so what it has written starts above the next byte that it reads. Addresses are
natural numbers here, so no range wraps.
-/

namespace CLite

open ByteMemory

/-- The memory with `n` bytes at `dest` replaced by the bytes that `memory` has at `src`. -/
def Copied (memory after : Memory) (dest src n : ℕ) : Prop :=
  (∀ offset < n, after (dest + offset) = memory (src + offset)) ∧
    ∀ query, query < dest ∨ dest + n ≤ query → after query = memory query

/-- Copying upwards, a destination below the source never covers a byte that is still to be read. -/
theorem memcpy_copied_of_lt {dest src : ℕ} (below : dest < src) (memory : Memory) (n : ℕ) :
    Copied memory (memcpy memory dest src n) dest src n := by
  refine ⟨?_, fun query outside => memcpy_outside memory dest src n query outside⟩
  induction n with
  | zero => exact fun offset bound => absurd bound (Nat.not_lt_zero offset)
  | succ n ih =>
    intro offset bound
    rw [memcpy]
    rcases Nat.lt_succ_iff_lt_or_eq.mp bound with earlier | rfl
    · rw [Function.update_of_ne (by omega), ih offset earlier]
    · rw [Function.update_self, memcpy_outside _ _ _ _ _ (by omega)]

/-- Copying downwards, a destination above the source never covers a byte that is still to be read. -/
theorem copyDown_copied_of_lt {dest src : ℕ} (above : src < dest) (memory : Memory) (n : ℕ) :
    Copied memory (copyDown memory dest src n) dest src n := by
  -- The memory changes along the loop; the bytes below the written part are those of the start.
  induction n generalizing memory with
  | zero => exact ⟨fun offset bound => absurd bound (Nat.not_lt_zero offset), fun _ _ => rfl⟩
  | succ n ih =>
    obtain ⟨inside, outside⟩ := ih (Function.update memory (dest + n) (memory (src + n)))
    refine ⟨?_, ?_⟩
    · intro offset bound
      rw [copyDown]
      rcases Nat.lt_succ_iff_lt_or_eq.mp bound with earlier | rfl
      · rw [inside offset earlier, Function.update_of_ne (by omega)]
      · rw [outside _ (by omega), Function.update_self]
    · intro query away
      rw [copyDown, outside query (by omega), Function.update_of_ne (by omega)]

/-- `memmove` returns the destination, where the bytes that were at the source now are, at any distance
of the two ranges; no other byte changes. -/
theorem memmove_simultaneous (memory : Memory) (dest src n : ℕ) :
    (memmove memory dest src n).1 = dest ∧ Copied memory (memmove memory dest src n).2 dest src n := by
  rw [memmove]
  split_ifs with below above
  · exact ⟨rfl, memcpy_copied_of_lt below memory n⟩
  · exact ⟨rfl, copyDown_copied_of_lt above memory n⟩
  · have same : dest = src := by omega
    refine ⟨rfl, ?_, fun _ _ => rfl⟩
    intro offset _
    rw [same]

end CLite
