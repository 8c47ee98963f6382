import CLite.Model.StringOps

/-! # The allocator of `stdlib.c` on byte memory

The heap is the process memory, the static `free_list` pointer and the break the kernel keeps. All
words are 32 bits wide: sizes and pointers are natural numbers below `2 ^ 32`, every sum the source
forms in `size_t` or `long` is reduced modulo `2 ^ 32`, and a `long` is read in two's complement.
The headers live in the memory they describe, so a walk of the list reads the very bytes that clients
could overwrite. Loops carry fuel; a walk that has not ended after `2 ^ 32` pointers is a cycle, so
running out of fuel stands for a call that does not return.
-/

namespace CLite

open ByteMemory

/-- Reduction of a sum or difference to the machine's 32-bit word. -/
def wrap (n : ℕ) : ℕ := n % 2 ^ 32

/-- The value of a word read as a `long`. -/
def long (word : ℕ) : ℤ := if word < 2 ^ 31 then word else (word : ℤ) - 2 ^ 32

def BLOCK_MAGIC : ℕ := 0x4C425344

/-- `sizeof(block_header_t)`: four words. -/
def headerSize : ℕ := 16

/-- `(void*)-1`. -/
def failed : ℕ := 2 ^ 32 - 1

/-- The loops' fuel: more steps than there are pointers. -/
def walkFuel : ℕ := 2 ^ 32

/-! ## The fields of `block_header_t` -/

def sizeOf (memory : Memory) (block : ℕ) : ℕ := read32 memory block
def nextOf (memory : Memory) (block : ℕ) : ℕ := read32 memory (block + 4)
def freeOf (memory : Memory) (block : ℕ) : ℕ := read32 memory (block + 8)
def magicOf (memory : Memory) (block : ℕ) : ℕ := read32 memory (block + 12)

def setSize (memory : Memory) (block value : ℕ) : Memory := write32 memory block value
def setNext (memory : Memory) (block value : ℕ) : Memory := write32 memory (block + 4) value
def setFree (memory : Memory) (block value : ℕ) : Memory := write32 memory (block + 8) value
def setMagic (memory : Memory) (block value : ℕ) : Memory := write32 memory (block + 12) value

structure Heap where
  mem : Memory
  freeList : ℕ
  brk : ℕ

/-- What the kernel answers to a request to move the break from its current value to a target. -/
abbrev Kernel := ℕ → ℕ → ℕ

/-- `syscall(9, t)`: zero queries the break; otherwise the kernel moves the break and returns the
target, or answers something else and leaves the break alone. -/
def sysBrk (kernel : Kernel) (heap : Heap) (target : ℕ) : ℕ × Heap :=
  if target = 0 then (heap.brk, heap)
  else if kernel heap.brk target = target then (target, { heap with brk := target })
  else (kernel heap.brk target, heap)

/-- `sbrk`, with the increment as the 32-bit word it is passed in. -/
def sbrk (kernel : Kernel) (heap : Heap) (increment : ℕ) : ℕ × Heap :=
  let (cur, heap) := sysBrk kernel heap 0
  if long cur ≤ 0 then (failed, heap)
  else if increment = 0 then (cur, heap)
  else
    let target := wrap (cur + increment)
    let (res, heap) := sysBrk kernel heap target
    if res ≠ target then (failed, heap) else (cur, heap)

/-- `(size + 7) & ~7` in `size_t`. -/
def roundUp (size : ℕ) : ℕ := wrap (size + 7) &&& 0xFFFFFFF8

/-- How the search loop of `malloc` ends: at a block that fits, or past the last block. -/
inductive Scan where
  | fit (curr : ℕ)
  | exhausted (prev : ℕ)
deriving DecidableEq, Repr

/-- The `while (curr)` loop of `malloc`, up to the first block that fits. -/
def mallocScan (memory : Memory) (size : ℕ) : ℕ → ℕ → ℕ → Option Scan
  | 0, _, _ => none
  | fuel + 1, curr, prev =>
      if curr = 0 then some (.exhausted prev)
      else if magicOf memory curr = BLOCK_MAGIC ∧ freeOf memory curr ≠ 0 ∧ size ≤ sizeOf memory curr then
        some (.fit curr)
      else mallocScan memory size fuel (nextOf memory curr) curr

/-- The header that a split writes into the middle of the block being given out. -/
def splitBlock (memory : Memory) (curr size : ℕ) : Memory :=
  let nextBlock := wrap (curr + headerSize + size)
  let memory := setSize memory nextBlock (wrap (sizeOf memory curr + 2 ^ 32 - size + 2 ^ 32 - headerSize))
  let memory := setNext memory nextBlock (nextOf memory curr)
  let memory := setFree memory nextBlock 1
  let memory := setMagic memory nextBlock BLOCK_MAGIC
  let memory := setSize memory curr size
  setNext memory curr nextBlock

/-- The body of the search loop at a block that fits. -/
def takeBlock (memory : Memory) (curr size : ℕ) : Memory :=
  let memory :=
    if wrap (wrap (size + headerSize) + 16) ≤ sizeOf memory curr then splitBlock memory curr size
    else memory
  setFree memory curr 0

/-- The header written at the old break. -/
def newBlock (memory : Memory) (block size : ℕ) : Memory :=
  let memory := setSize memory block size
  let memory := setNext memory block 0
  let memory := setFree memory block 0
  setMagic memory block BLOCK_MAGIC

def malloc (kernel : Kernel) (heap : Heap) (size : ℕ) : Option (ℕ × Heap) :=
  if size = 0 then some (0, heap)
  else
    let size := roundUp size
    match mallocScan heap.mem size walkFuel heap.freeList 0 with
    | none => none
    | some (.fit curr) =>
        some (wrap (curr + headerSize), { heap with mem := takeBlock heap.mem curr size })
    | some (.exhausted prev) =>
        let totalSize := wrap (headerSize + size)
        let (mem, heap) := sbrk kernel heap totalSize
        if mem = failed then some (0, heap)
        else
          let memory := newBlock heap.mem mem size
          if prev ≠ 0 then
            some (wrap (mem + headerSize), { heap with mem := setNext memory prev mem })
          else some (wrap (mem + headerSize), { heap with mem := memory, freeList := mem })

/-- `((block_header_t*)ptr) - 1`. -/
def headerOf (ptr : ℕ) : ℕ := wrap (ptr + 2 ^ 32 - headerSize)

/-- The coalescing loop of `free`. -/
def freeLoop : ℕ → Memory → ℕ → Option Memory
  | 0, _, _ => none
  | fuel + 1, memory, curr =>
      if curr = 0 ∨ nextOf memory curr = 0 then some memory
      else if (freeOf memory curr ≠ 0 ∧ freeOf memory (nextOf memory curr) ≠ 0) ∧
          wrap (curr + headerSize + sizeOf memory curr) = nextOf memory curr then
        let memory := setSize memory curr
          (wrap (sizeOf memory curr + (headerSize + sizeOf memory (nextOf memory curr))))
        let memory := setNext memory curr (nextOf memory (nextOf memory curr))
        freeLoop fuel memory curr
      else freeLoop fuel memory (nextOf memory curr)

def free (heap : Heap) (ptr : ℕ) : Option Heap :=
  if ptr = 0 then some heap
  else
    let block := headerOf ptr
    if magicOf heap.mem block ≠ BLOCK_MAGIC then some heap
    else
      let memory := setFree heap.mem block 1
      (freeLoop walkFuel memory heap.freeList).map fun memory => { heap with mem := memory }

def calloc (kernel : Kernel) (heap : Heap) (nmemb size : ℕ) : Option (ℕ × Heap) :=
  if nmemb ≠ 0 ∧ (2 ^ 32 - 1) / nmemb < size then some (0, heap)
  else
    let total := wrap (nmemb * size)
    match malloc kernel heap total with
    | none => none
    | some (ptr, heap) =>
        if ptr ≠ 0 then some (ptr, { heap with mem := memset heap.mem ptr 0 total })
        else some (ptr, heap)

def realloc (kernel : Kernel) (heap : Heap) (ptr size : ℕ) : Option (ℕ × Heap) :=
  if ptr = 0 then malloc kernel heap size
  else if size = 0 then (free heap ptr).map fun heap => (0, heap)
  else
    let block := headerOf ptr
    if magicOf heap.mem block ≠ BLOCK_MAGIC then some (0, heap)
    else if size ≤ sizeOf heap.mem block then some (ptr, heap)
    else
      match malloc kernel heap size with
      | none => none
      | some (newPtr, heap) =>
          if newPtr = 0 then some (0, heap)
          else
            let heap := { heap with mem := memcpy heap.mem newPtr ptr (sizeOf heap.mem block) }
            (free heap ptr).map fun heap => (newPtr, heap)

end CLite
