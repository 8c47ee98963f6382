import CLite.Lib.ByteMemory

/-! # Regions of memory

A region is a range of addresses. What is written into one region does not change what stands in another that is
apart from it.
-/

namespace ByteMemory

structure Region where
  base : ℕ
  size : ℕ

namespace Region

/-- The address does not belong to the region. -/
def Outside (region : Region) (query : ℕ) : Prop := query < region.base ∨ region.base + region.size ≤ query

def Within (inner outer : Region) : Prop :=
  outer.base ≤ inner.base ∧ inner.base + inner.size ≤ outer.base + outer.size

def Apart (first second : Region) : Prop :=
  first.base + first.size ≤ second.base ∨ second.base + second.size ≤ first.base

variable {first second inner outer : Region} {query : ℕ}

theorem within_add {region : Region} {offset size : ℕ} (fits : offset + size ≤ region.size) :
    Within ⟨region.base + offset, size⟩ region := ⟨Nat.le_add_right _ _, by simp only; omega⟩

theorem Within.outside (within : inner.Within outer) (outside : outer.Outside query) : inner.Outside query := by
  obtain ⟨lower, upper⟩ := within
  rcases outside with left | right
  · exact .inl (by omega)
  · exact .inr (by omega)

theorem Apart.mono {part part' : Region} (apart : first.Apart second) (within : part.Within first)
    (within' : part'.Within second) : part.Apart part' := by
  obtain ⟨lower, upper⟩ := within
  obtain ⟨lower', upper'⟩ := within'
  rcases apart with left | right
  · exact .inl (by omega)
  · exact .inr (by omega)

/-- What is apart from a region is outside of it. -/
theorem Apart.outside (apart : first.Apart second) (lower : second.base ≤ query)
    (upper : query < second.base + second.size) : first.Outside query := by
  rcases apart with left | right
  · exact .inr (by omega)
  · exact .inl (by omega)

end Region

/-- Only addresses of the region may have changed. -/
def ChangesOnly (region : Region) (before after : Memory) : Prop :=
  ∀ query, region.Outside query → after query = before query

variable {before middle after : Memory} {address : ℕ} {byte : Byte} {bytes front back : List Byte}

/-- Bytes that are apart from the change are still there. -/
theorem ChangesOnly.holds {region : Region} (changes : ChangesOnly region before after)
    (apart : region.Apart ⟨address, bytes.length⟩) (holds : Holds before address bytes) :
    Holds after address bytes := by
  apply holds.congr
  intro query lower upper
  exact (changes query (apart.outside lower upper)).symm

/-- The bytes have been stored from the address on, and nothing else has changed. -/
def Wrote (before after : Memory) (address : ℕ) (bytes : List Byte) : Prop :=
  Holds after address bytes ∧ ChangesOnly ⟨address, bytes.length⟩ before after

theorem wrote_nil (memory : Memory) (address : ℕ) : Wrote memory memory address [] := ⟨trivial, fun _ _ => rfl⟩

theorem wrote_update (memory : Memory) (address : ℕ) (byte : Byte) :
    Wrote memory (Function.update memory address byte) address [byte] := by
  refine ⟨⟨Function.update_self .., trivial⟩, ?_⟩
  intro query outside
  apply Function.update_of_ne
  rintro rfl
  rcases outside with left | right
  · exact Nat.lt_irrefl _ left
  · exact Nat.not_succ_le_self _ right

theorem Wrote.append (wrote : Wrote before middle address front)
    (more : Wrote middle after (address + front.length) back) : Wrote before after address (front ++ back) := by
  have total : (front ++ back).length = front.length + back.length := List.length_append
  refine ⟨holds_append.mpr ⟨more.2.holds (.inr (Nat.le_refl _)) wrote.1, more.1⟩, ?_⟩
  intro query outside
  have later : Region.Within ⟨address + front.length, back.length⟩ ⟨address, (front ++ back).length⟩ :=
    ⟨by simp only; omega, by simp only; omega⟩
  have earlier : Region.Within ⟨address, front.length⟩ ⟨address, (front ++ back).length⟩ :=
    ⟨Nat.le_refl _, by simp only; omega⟩
  rw [more.2 query (later.outside outside), wrote.2 query (earlier.outside outside)]

/-- One byte, and then the others behind it. -/
theorem Wrote.cons (wrote : Wrote (Function.update before address byte) after (address + 1) bytes) :
    Wrote before after address (byte :: bytes) := (wrote_update before address byte).append wrote

end ByteMemory
