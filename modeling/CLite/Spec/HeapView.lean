import CLite.Spec.Arena

/-! # The block list a heap holds

Starting at `free_list` and following `next` words, the memory holds a chain of headers. `blockList`
reads that chain out as data, with all its raw words. `Segment` relates a stretch of the chain to
abstract blocks, and `Represents` relates a whole heap to an arena. A segment reads only the headers
of its blocks, so it survives every write that stays away from them.
-/

namespace CLite

open ByteMemory FreeList

/-- The words of a header, less the link that leads to the next one. -/
structure Header where
  addr : ℕ
  size : ℕ
  free : ℕ
  magic : ℕ
deriving DecidableEq, Repr

/-- Follow the links from a pointer to `NULL`. -/
def walk (memory : Memory) : ℕ → ℕ → Option (List Header)
  | 0, _ => none
  | fuel + 1, block =>
      if block = 0 then some []
      else (walk memory fuel (nextOf memory block)).map
        (⟨block, sizeOf memory block, freeOf memory block, magicOf memory block⟩ :: ·)

/-- The list reachable from `free_list`; a cyclic list has no value. -/
def Heap.blockList (heap : Heap) : Option (List Header) := walk heap.mem walkFuel heap.freeList

/-- Some free block of the list has at least the given size. -/
def Heap.HasFit (heap : Heap) (size : ℕ) : Prop :=
  ∃ headers, heap.blockList = some headers ∧ ∃ h ∈ headers, h.free ≠ 0 ∧ size ≤ h.size

/-- `sbrk` fails: the break is not a positive `long`, or the kernel does not move it to the target.
A target of zero is a query and moves nothing. -/
def Refuses (kernel : Kernel) (brk increment : ℕ) : Prop :=
  2 ^ 31 ≤ brk ∨ increment ≠ 0 ∧
    (wrap (brk + increment) = 0 ∨ kernel brk (wrap (brk + increment)) ≠ wrap (brk + increment))

/-- The size arithmetic of a request cannot go wrong in the given heap. With a candidate block, the sum that decides
whether to split it stays in the address space; without one, the new break does, or `sbrk` fails anyway. -/
def SafeRequest (kernel : Kernel) (heap : Heap) (n : ℕ) : Prop :=
  heap.HasFit (roundUp n) ∧ rounded n + 32 < 2 ^ 32 ∨
    ¬ heap.HasFit (roundUp n) ∧
      (heap.brk + 16 + rounded n < 2 ^ 32 ∨ Refuses kernel heap.brk (wrap (headerSize + roundUp n)))

/-- The header words of a block, as the allocator writes them. -/
def header (e : Extent) : Header := ⟨e.addr, e.size, e.free.toNat, BLOCK_MAGIC⟩

/-- The memory holds a valid header for the block. -/
structure HeaderAt (memory : Memory) (e : Extent) : Prop where
  size : sizeOf memory e.addr = e.size
  free : freeOf memory e.addr = e.free.toNat
  magic : magicOf memory e.addr = BLOCK_MAGIC

/-- The links lead from one pointer through exactly the given blocks to another pointer. -/
def Segment (memory : Memory) : ℕ → List Extent → ℕ → Prop
  | start, [], stop => start = stop
  | start, e :: es, stop =>
      start = e.addr ∧ HeaderAt memory e ∧ Segment memory (nextOf memory e.addr) es stop

structure Represents (heap : Heap) (arena : Arena) : Prop where
  chain : Segment heap.mem heap.freeList arena.blocks 0
  brk : heap.brk = arena.brk

variable {memory other : Memory} {start stop : ℕ} {e : Extent} {es : List Extent}

theorem HeaderAt.frame (present : HeaderAt memory e)
    (agree : ∀ x, e.addr ≤ x → x < e.addr + 16 → other x = memory x) : HeaderAt other e where
  size := by
    rw [← present.size]
    exact read32_congr fun x _ _ => agree x (by omega) (by omega)
  free := by
    rw [← present.free]
    exact read32_congr fun x _ _ => agree x (by omega) (by omega)
  magic := by
    rw [← present.magic]
    exact read32_congr fun x _ _ => agree x (by omega) (by omega)

theorem nextOf_frame {block : ℕ} (agree : ∀ x, block ≤ x → x < block + 16 → other x = memory x) :
    nextOf other block = nextOf memory block :=
  read32_congr fun x _ _ => agree x (by omega) (by omega)

namespace Segment

theorem append {middle : ℕ} {first second : List Extent}
    (left : Segment memory start first middle) (right : Segment memory middle second stop) :
    Segment memory start (first ++ second) stop := by
  induction first generalizing start with
  | nil => exact (show start = middle from left) ▸ right
  | cons e es ih => exact ⟨left.1, left.2.1, ih left.2.2⟩

/-- Cut a segment where one of its parts ends. -/
theorem split {first second : List Extent} (whole : Segment memory start (first ++ second) stop) :
    ∃ middle, Segment memory start first middle ∧ Segment memory middle second stop := by
  induction first generalizing start with
  | nil => exact ⟨start, rfl, whole⟩
  | cons e es ih =>
    obtain ⟨middle, left, right⟩ := ih whole.2.2
    exact ⟨middle, ⟨whole.1, whole.2.1, left⟩, right⟩

/-- A segment depends on the headers of its blocks only. -/
theorem frame (segment : Segment memory start es stop)
    (agree : ∀ e ∈ es, ∀ x, e.addr ≤ x → x < e.addr + 16 → other x = memory x) :
    Segment other start es stop := by
  induction es generalizing start with
  | nil => exact segment
  | cons e es ih =>
    have head := agree e (List.mem_cons_self ..)
    refine ⟨segment.1, segment.2.1.frame head, ?_⟩
    rw [nextOf_frame head]
    exact ih segment.2.2 fun b member => agree b (List.mem_cons_of_mem e member)

theorem headerAt (segment : Segment memory start es stop) (member : e ∈ es) : HeaderAt memory e := by
  induction es generalizing start with
  | nil => cases member
  | cons b es ih =>
    rcases List.mem_cons.mp member with rfl | member
    · exact segment.2.1
    · exact ih segment.2.2 member

theorem walk_eq (segment : Segment memory start es 0) (nonnull : ∀ e ∈ es, e.addr ≠ 0) {fuel : ℕ}
    (enough : es.length < fuel) : walk memory fuel start = some (es.map header) := by
  induction es generalizing start fuel with
  | nil =>
    obtain ⟨fuel, rfl⟩ := Nat.exists_eq_add_of_lt enough
    rw [show start = 0 from segment]
    simp [walk]
  | cons e es ih =>
    obtain ⟨rfl, present, rest⟩ := segment
    cases fuel with
    | zero => omega
    | succ fuel =>
      have tail := ih rest (fun b member => nonnull b (List.mem_cons_of_mem e member))
        (by simpa using enough)
      rw [walk, if_neg (nonnull e (List.mem_cons_self ..)), tail]
      simp only [Option.map_some, List.map_cons, header, present.size, present.free, present.magic]

end Segment

theorem Arena.addr_ne_zero (arena : Arena) : ∀ e ∈ arena.blocks, e.addr ≠ 0 := by
  intro e member
  have := (arena.bounds member).1
  omega

theorem Arena.length_lt (arena : Arena) : arena.blocks.length < walkFuel := by
  have count := arena.layout.length_le (by decide)
  have bound := arena.brk_lt
  simp only [walkFuel]
  omega

namespace Represents

variable {heap : Heap} {arena : Arena}

/-- Reading the list out of memory gives exactly the blocks of the arena. -/
theorem blockList (represents : Represents heap arena) :
    heap.blockList = some (arena.blocks.map header) :=
  represents.chain.walk_eq arena.addr_ne_zero arena.length_lt

theorem headerAt (represents : Represents heap arena) (member : e ∈ arena.blocks) :
    HeaderAt heap.mem e :=
  represents.chain.headerAt member

theorem hasFit_iff (represents : Represents heap arena) {size : ℕ} :
    heap.HasFit size ↔ ∃ e ∈ arena.blocks, e.free = true ∧ size ≤ e.size := by
  simp [Heap.HasFit, represents.blockList, header]

end Represents

end CLite
