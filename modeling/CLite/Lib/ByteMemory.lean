import Mathlib.Data.BitVec
import Mathlib.Tactic.Common

/-! # Flat byte memory with little-endian words

A memory is a total map from natural addresses to bytes, so interval conditions are stated before
any narrowing to a machine address width. A 32-bit word occupies four consecutive bytes, least
significant first. Reads observe only their own four bytes and writes change only theirs, which is
all that frame arguments about in-place data structures need.
-/

namespace ByteMemory

abbrev Byte := BitVec 8

abbrev Memory := ℕ → Byte

/-- The little-endian word stored in the four bytes from `address`. -/
def read32 (memory : Memory) (address : ℕ) : ℕ :=
  (memory address).toNat + 256 * (memory (address + 1)).toNat +
    65536 * (memory (address + 2)).toNat + 16777216 * (memory (address + 3)).toNat

/-- Store the low 32 bits of `value` in the four bytes from `address`. -/
def write32 (memory : Memory) (address value : ℕ) : Memory := fun query =>
  if address ≤ query ∧ query < address + 4 then BitVec.ofNat 8 (value / 256 ^ (query - address))
  else memory query

theorem read32_lt (memory : Memory) (address : ℕ) : read32 memory address < 2 ^ 32 := by
  have b0 := (memory address).isLt
  have b1 := (memory (address + 1)).isLt
  have b2 := (memory (address + 2)).isLt
  have b3 := (memory (address + 3)).isLt
  simp only [read32]
  omega

/-- A word depends on its own four bytes only. -/
theorem read32_congr {first second : Memory} {address : ℕ}
    (agree : ∀ query, address ≤ query → query < address + 4 → first query = second query) :
    read32 first address = read32 second address := by
  simp only [read32, agree address (by omega) (by omega), agree (address + 1) (by omega) (by omega),
    agree (address + 2) (by omega) (by omega), agree (address + 3) (by omega) (by omega)]

/-- A word write changes nothing outside its four bytes. -/
theorem write32_outside (memory : Memory) (address value query : ℕ)
    (outside : query < address ∨ address + 4 ≤ query) :
    write32 memory address value query = memory query := by
  rw [write32, if_neg (by omega)]

private theorem write32_inside (memory : Memory) (address value offset : ℕ) (bound : offset < 4) :
    write32 memory address value (address + offset) = BitVec.ofNat 8 (value / 256 ^ offset) := by
  rw [write32, if_pos (by omega), Nat.add_sub_cancel_left]

@[simp] theorem read32_write32_same (memory : Memory) (address value : ℕ) :
    read32 (write32 memory address value) address = value % 2 ^ 32 := by
  have b0 := write32_inside memory address value 0 (by omega)
  rw [Nat.add_zero] at b0
  simp only [read32, b0, write32_inside memory address value 1 (by omega),
    write32_inside memory address value 2 (by omega), write32_inside memory address value 3 (by omega),
    BitVec.toNat_ofNat]
  omega

/-- Disjoint words do not observe one another. -/
theorem read32_write32_disjoint (memory : Memory) (address other value : ℕ)
    (disjoint : other + 4 ≤ address ∨ address + 4 ≤ other) :
    read32 (write32 memory address value) other = read32 memory other :=
  read32_congr fun query lower upper => write32_outside memory address value query (by omega)

/-! ## Bytes in memory -/

/-- The bytes stand in memory from `address` on. -/
def Holds (memory : Memory) : ℕ → List Byte → Prop
  | _, [] => True
  | address, byte :: rest => memory address = byte ∧ Holds memory (address + 1) rest

theorem holds_append {memory : Memory} {address : ℕ} {first second : List Byte} :
    Holds memory address (first ++ second) ↔
      Holds memory address first ∧ Holds memory (address + first.length) second := by
  induction first generalizing address with
  | nil => simp [Holds]
  | cons byte rest ih =>
    have moved : address + 1 + rest.length = address + (byte :: rest).length := by
      rw [List.length_cons]
      omega
    rw [List.cons_append, Holds, Holds, ih, moved, and_assoc]

/-- Bytes in memory, each at its own address. -/
theorem holds_iff {memory : Memory} {address : ℕ} {bytes : List Byte} :
    Holds memory address bytes ↔ ∀ i < bytes.length, bytes[i]? = some (memory (address + i)) := by
  induction bytes generalizing address with
  | nil => simp [Holds]
  | cons byte rest ih =>
    rw [Holds, ih]
    constructor
    · rintro ⟨rfl, later⟩ i bound
      cases i with
      | zero => rfl
      | succ i =>
        rw [List.getElem?_cons_succ, later i (Nat.lt_of_succ_lt_succ bound), Nat.add_right_comm, Nat.add_assoc]
    · intro each
      refine ⟨(Option.some.inj (each 0 (Nat.succ_pos _))).symm, ?_⟩
      intro i bound
      have next := each (i + 1) (Nat.succ_lt_succ bound)
      rwa [List.getElem?_cons_succ, ← Nat.add_assoc, Nat.add_right_comm] at next

/-- Whether bytes stand in memory depends on their own addresses only. -/
theorem Holds.congr {first second : Memory} {address : ℕ} {bytes : List Byte} (holds : Holds first address bytes)
    (agree : ∀ query, address ≤ query → query < address + bytes.length → first query = second query) :
    Holds second address bytes := by
  rw [holds_iff] at holds ⊢
  intro i bound
  rw [holds i bound, agree (address + i) (by omega) (by omega)]

/-- The bytes of a word, least significant first. -/
def word32 (value : ℕ) : List Byte :=
  [BitVec.ofNat 8 value, BitVec.ofNat 8 (value / 256), BitVec.ofNat 8 (value / 65536),
    BitVec.ofNat 8 (value / 16777216)]

theorem Holds.read32 {memory : Memory} {address value : ℕ} (holds : Holds memory address (word32 value)) :
    read32 memory address = value % 2 ^ 32 := by
  obtain ⟨b0, b1, b2, b3, _⟩ := holds
  simp only [ByteMemory.read32, b0, b1, b2, b3, BitVec.toNat_ofNat]
  omega

/-- The memory after the bytes have been stored from address zero on. -/
def overlay (memory : Memory) (bytes : List Byte) : Memory := fun query => bytes.getD query (memory query)

theorem holds_overlay (memory : Memory) (bytes : List Byte) : Holds (overlay memory bytes) 0 bytes := by
  suffices stored : ∀ before, Holds (overlay memory (before ++ bytes)) before.length bytes from stored []
  induction bytes with
  | nil => exact fun _ => trivial
  | cons byte rest ih =>
    intro before
    refine ⟨by simp [overlay], ?_⟩
    have later := ih (before ++ [byte])
    simpa using later

end ByteMemory
