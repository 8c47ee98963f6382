import CLite.Model.HeapRun

/-! # Programs with nested allocations

A program that frees its blocks in the reverse order of their allocation, as the calls of functions with local
buffers do. It stores into the blocks that are open, and it stops when a request is refused.
-/

namespace CLite

open ByteMemory

inductive Nested where
  | done
  /-- Store a byte into an open block; blocks are counted from the innermost one. -/
  | store (depth offset : ℕ) (value : Byte) (rest : Nested)
  /-- `p = malloc(n)`, the inner program, `free(p)`, and the rest. -/
  | block (n : ℕ) (inner rest : Nested)

namespace Nested

/-- All requests of the program have the property. -/
def Requests (P : ℕ → Prop) : Nested → Prop
  | done => True
  | store _ _ _ rest => rest.Requests P
  | block n inner rest => P n ∧ inner.Requests P ∧ rest.Requests P

/-- Every store stays inside of what was requested for an open block. -/
def Scoped : List ℕ → Nested → Prop
  | _, done => True
  | sizes, store depth offset _ rest => (∃ n, sizes[depth]? = some n ∧ offset < n) ∧ rest.Scoped sizes
  | sizes, block n inner rest => inner.Scoped (n :: sizes) ∧ rest.Scoped sizes

/-- Run the program with the pointers of the open blocks. -/
def run (kernel : Kernel) : List ℕ → Nested → State → Option State
  | _, done, state => some state
  | ptrs, store depth offset value rest, state => do
    let ptr ← ptrs[depth]?
    let (_, state) ← exec state (.store (ptr + offset) value)
    rest.run kernel ptrs state
  | ptrs, block n inner rest, state => do
    let (ptr, state) ← exec state (.malloc kernel n)
    if ptr = 0 then none
    else
      let state ← inner.run kernel (ptr :: ptrs) state
      let (_, state) ← exec state (.free ptr)
      rest.run kernel ptrs state

end Nested

end CLite
