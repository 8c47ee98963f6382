import CLite.Lib.FreeList
import CLite.Model.Malloc

/-! # What the allocator is for

An arena is an address-ordered list of blocks below the break. The conditions that make it a heap
are fields: the blocks are disjoint, nonempty, 8-aligned and below a break that fits in a word, and
no two contiguous free blocks are neighbours. Allocation takes the first free block that fits or
extends the break; release merges. Arithmetic is that of natural numbers, so nothing here can wrap;
when the byte-level allocator agrees with this one is the subject of the refinement proofs.
-/

namespace CLite

open FreeList

/-- Block addresses and sizes are multiples of eight and no payload is empty. -/
def Aligned (e : Extent) : Prop := 8 ∣ e.addr ∧ 8 ∣ e.size ∧ 0 < e.size

@[ext] structure Arena where
  blocks : List Extent
  brk : ℕ
  layout : Between headerSize 1 brk blocks
  brk_lt : brk < 2 ^ 32
  brk_aligned : 8 ∣ brk
  aligned : ∀ e ∈ blocks, Aligned e
  merged : Merged headerSize blocks

/-- `(n + 7) & ~7` without overflow. -/
def rounded (n : ℕ) : ℕ := (n + 7) / 8 * 8

theorem le_rounded (n : ℕ) : n ≤ rounded n := by
  simp only [rounded]
  omega

theorem dvd_rounded (n : ℕ) : 8 ∣ rounded n := Nat.dvd_mul_left 8 _

theorem rounded_pos {n : ℕ} (request : n ≠ 0) : 0 < rounded n :=
  lt_of_lt_of_le (Nat.pos_of_ne_zero request) (le_rounded n)

namespace Arena

/-- The empty heap below an initial break. -/
def empty (brk : ℕ) (positive : 0 < brk) (bound : brk < 2 ^ 32) (aligned : 8 ∣ brk) : Arena where
  blocks := []
  brk := brk
  layout := positive
  brk_lt := bound
  brk_aligned := aligned
  aligned := by simp
  merged := .nil

/-- Every byte of a block lies in a word-addressable place below the break. -/
theorem bounds (arena : Arena) {e : Extent} (member : e ∈ arena.blocks) :
    1 ≤ e.addr ∧ e.addr + 16 + e.size ≤ arena.brk :=
  arena.layout.mem_bounds member

/-- Two blocks with their headers lie apart. -/
theorem apart (arena : Arena) {a b : Extent} (first : a ∈ arena.blocks) (second : b ∈ arena.blocks)
    (different : a ≠ b) : a.addr + 16 + a.size ≤ b.addr ∨ b.addr + 16 + b.size ≤ a.addr :=
  arena.layout.disjoint first second different

private theorem aligned_carve {size : ℕ} {e : Extent} (granule : 8 ∣ size) (positive : 0 < size)
    (aligned : Aligned e) : ∀ b ∈ carve headerSize 16 size e, Aligned b := by
  obtain ⟨addr, len, pos⟩ := aligned
  unfold carve
  split
  · intro b member
    simp only [List.mem_cons, List.not_mem_nil, or_false] at member
    rcases member with rfl | rfl
    · exact ⟨addr, granule, positive⟩
    · simp only [Aligned, headerSize] at *
      omega
  · intro b member
    obtain rfl := List.mem_singleton.mp member
    exact ⟨addr, len, pos⟩

/-- Carve a request out of a free block. -/
def reuse (arena : Arena) (size : ℕ) (granule : 8 ∣ size) (positive : 0 < size)
    (pre : List Extent) (e : Extent) (post : List Extent) (shape : arena.blocks = pre ++ e :: post)
    (free : e.free = true) : Arena where
  blocks := pre ++ (carve headerSize 16 size e ++ post)
  brk := arena.brk
  layout := carve_between (shape ▸ arena.layout)
  brk_lt := arena.brk_lt
  brk_aligned := arena.brk_aligned
  aligned := by
    have old := shape ▸ arena.aligned
    intro b member
    rcases List.mem_append.mp member with before | member
    · exact old b (by simp [before])
    rcases List.mem_append.mp member with carved | after
    · exact aligned_carve granule positive (old e (by simp)) b carved
    · exact old b (by simp [after])
  merged := carve_merged (shape ▸ arena.merged) free

/-- Append a busy block at the break and move the break past it. -/
def grow (arena : Arena) (size : ℕ) (granule : 8 ∣ size) (positive : 0 < size)
    (room : arena.brk + 16 + size < 2 ^ 32) : Arena where
  blocks := arena.blocks ++ [⟨arena.brk, size, false⟩]
  brk := arena.brk + 16 + size
  layout := arena.layout.concat le_rfl le_rfl
  brk_lt := room
  brk_aligned := by have := arena.brk_aligned; omega
  aligned := by
    intro b member
    rcases List.mem_append.mp member with old | new
    · exact arena.aligned b old
    · obtain rfl := List.mem_singleton.mp new
      exact ⟨arena.brk_aligned, granule, positive⟩
  merged := by
    refine List.isChain_append.mpr ⟨arena.merged, .singleton _, ?_⟩
    rintro a - b ⟨⟩ joinable
    exact Bool.false_ne_true joinable.2.1

/-- The program itself moves the break up, leaving a gap above the last block. -/
def extend (arena : Arena) (increment : ℕ) (granule : 8 ∣ increment)
    (room : arena.brk + increment < 2 ^ 32) : Arena :=
  { arena with
    brk := arena.brk + increment
    layout := arena.layout.mono le_rfl (by omega)
    brk_lt := room
    brk_aligned := by have := arena.brk_aligned; omega }

/-- Give a block back and merge. -/
def release (arena : Arena) (addr : ℕ) : Arena :=
  { arena with
    blocks := merge headerSize (FreeList.release addr arena.blocks)
    layout := merge_between (release_between addr arena.layout)
    aligned := by
      apply merge_forall
      · rintro a b ⟨addr, size, positive⟩ ⟨-, other, -⟩
        simp only [Aligned, headerSize]
        omega
      · intro e member
        obtain ⟨old, present, rfl⟩ := List.mem_map.mp member
        have kept := arena.aligned old present
        split
        · exact kept
        · exact kept
    merged := merge_merged _ }

section Fields

variable (arena : Arena) {size addr : ℕ} (granule : 8 ∣ size) (positive : 0 < size)

@[simp] theorem reuse_blocks (pre : List Extent) (e : Extent) (post : List Extent)
    (shape : arena.blocks = pre ++ e :: post) (free : e.free = true) :
    (arena.reuse size granule positive pre e post shape free).blocks =
      pre ++ (carve headerSize 16 size e ++ post) := rfl

@[simp] theorem grow_blocks (room : arena.brk + 16 + size < 2 ^ 32) :
    (arena.grow size granule positive room).blocks = arena.blocks ++ [⟨arena.brk, size, false⟩] := rfl

@[simp] theorem grow_brk (room : arena.brk + 16 + size < 2 ^ 32) :
    (arena.grow size granule positive room).brk = arena.brk + 16 + size := rfl

@[simp] theorem extend_brk (room : arena.brk + size < 2 ^ 32) :
    (arena.extend size granule room).brk = arena.brk + size := rfl

@[simp] theorem release_blocks :
    (arena.release addr).blocks = merge headerSize (FreeList.release addr arena.blocks) := rfl

end Fields

/-- Whether the kernel lets a block of the given size be appended at the break. -/
def Grants (kernel : Kernel) (arena : Arena) (size : ℕ) : Prop :=
  arena.brk < 2 ^ 31 ∧ arena.brk + 16 + size < 2 ^ 32 ∧
    kernel arena.brk (arena.brk + 16 + size) = arena.brk + 16 + size

/-- Allocation: the pointer handed out, or zero, and the arena afterwards. -/
inductive Allocates (kernel : Kernel) (arena : Arena) (n : ℕ) : ℕ → Arena → Prop
  /-- Nothing is requested, or there is neither a block that fits nor room to grow. -/
  | refused (reason : n = 0 ∨ (∀ e ∈ arena.blocks, e.free = true → e.size < rounded n) ∧
      ¬ arena.Grants kernel (rounded n)) : Allocates kernel arena n 0 arena
  | reused (request : n ≠ 0) (pre : List Extent) (e : Extent) (post : List Extent)
      (shape : arena.blocks = pre ++ e :: post) (free : e.free = true) (fits : rounded n ≤ e.size)
      (first : ∀ a ∈ pre, a.free = true → a.size < rounded n) :
      Allocates kernel arena n (e.addr + 16)
        (arena.reuse (rounded n) (dvd_rounded n) (rounded_pos request) pre e post shape free)
  | grown (request : n ≠ 0) (unfit : ∀ e ∈ arena.blocks, e.free = true → e.size < rounded n)
      (granted : arena.Grants kernel (rounded n)) :
      Allocates kernel arena n (arena.brk + 16)
        (arena.grow (rounded n) (dvd_rounded n) (rounded_pos request) granted.2.1)

end Arena

end CLite
