import CLite.Lib.CallRun
import CLite.Spec.HeapView

/-! # Programs that use the allocator

A run is a sequence of calls: the four allocator functions, `sbrk` by the program itself, and stores
of single bytes. Every call that may reach the kernel carries the kernel's behaviour during that call,
so a run allows any pattern of granted and refused extensions. Beside the heap, the state records the
pointers handed out and not yet given back, with the size last requested for each.
-/

namespace CLite

open ByteMemory

structure State where
  heap : Heap
  live : ℕ → Option ℕ

/-- The state in which a process starts: no list, nothing handed out, and a break set by the kernel. -/
def State.initial (memory : Memory) (brk : ℕ) : State := ⟨⟨memory, 0, brk⟩, fun _ => none⟩

inductive Call where
  | malloc (kernel : Kernel) (n : ℕ)
  | calloc (kernel : Kernel) (nmemb size : ℕ)
  | realloc (kernel : Kernel) (ptr n : ℕ)
  | free (ptr : ℕ)
  | sbrk (kernel : Kernel) (increment : ℕ)
  | store (address : ℕ) (value : Byte)

/-- Record a pointer that an allocator call returned for a request. -/
def handOut (live : ℕ → Option ℕ) (ptr n : ℕ) : ℕ → Option ℕ :=
  if ptr = 0 then live else Function.update live ptr (some n)

/-- Forget a pointer that was given back. -/
def giveBack (live : ℕ → Option ℕ) (ptr : ℕ) : ℕ → Option ℕ := Function.update live ptr none

/-- Execute one call: its result and the state afterwards, or nothing when it does not return. -/
def exec (state : State) : Call → Option (ℕ × State)
  | .malloc kernel n =>
      (CLite.malloc kernel state.heap n).map fun (ptr, heap) => (ptr, ⟨heap, handOut state.live ptr n⟩)
  | .calloc kernel nmemb size =>
      (CLite.calloc kernel state.heap nmemb size).map fun (ptr, heap) =>
        (ptr, ⟨heap, handOut state.live ptr (nmemb * size)⟩)
  | .realloc kernel ptr n =>
      (CLite.realloc kernel state.heap ptr n).map fun (newPtr, heap) =>
        (newPtr, ⟨heap,
          if newPtr = 0 ∧ n ≠ 0 then state.live else handOut (giveBack state.live ptr) newPtr n⟩)
  | .free ptr => (CLite.free state.heap ptr).map fun heap => (0, ⟨heap, giveBack state.live ptr⟩)
  | .sbrk kernel increment =>
      let (result, heap) := CLite.sbrk kernel state.heap increment
      some (result, ⟨heap, state.live⟩)
  | .store address value =>
      some (0, ⟨{ state.heap with mem := Function.update state.heap.mem address value }, state.live⟩)

/-- The state after a call. -/
def step (state : State) (call : Call) : Option State := (exec state call).map Prod.snd

/-- The size word of the block behind a pointer. -/
def Heap.blockSize (heap : Heap) (ptr : ℕ) : ℕ := sizeOf heap.mem (headerOf ptr)

/-- A pointer a program may pass to `free` or `realloc`. -/
def State.Returnable (state : State) (ptr : ℕ) : Prop := ptr = 0 ∨ ∃ n, state.live ptr = some n

/-- An address a program may write: inside a live payload, or in no block at all. -/
def State.Writable (state : State) (address : ℕ) : Prop :=
  (∃ ptr n, state.live ptr = some n ∧ ptr ≤ address ∧ address < ptr + state.heap.blockSize ptr) ∨
    ∀ headers, state.heap.blockList = some headers →
      ∀ h ∈ headers, address < h.addr ∨ h.addr + 16 + h.size ≤ address

/-- What the program promises about pointers, its own break movements and its stores. -/
def Respects (state : State) : Call → Prop
  | .malloc _ _ => True
  | .calloc _ _ _ => True
  | .realloc _ ptr _ => state.Returnable ptr
  | .free ptr => state.Returnable ptr
  | .sbrk _ increment => 8 ∣ increment ∧ increment < 2 ^ 31
  | .store address _ => state.Writable address

/-- A request whose header and rounded size together stay below `2 ^ 31`. -/
def SmallRequest (n : ℕ) : Prop := 16 + rounded n < 2 ^ 31

/-- The requests of a call are small; a product that `calloc` itself rejects is not a request. -/
def Small : Call → Prop
  | .malloc _ n => SmallRequest n
  | .calloc _ nmemb size => nmemb * size < 2 ^ 32 → SmallRequest (nmemb * size)
  | .realloc _ _ n => SmallRequest n
  | _ => True

/-- The requests of a call are safe in the heap they meet; `realloc` allocates only when the block it
is given is too small. -/
def Safe (state : State) : Call → Prop
  | .malloc kernel n => SafeRequest kernel state.heap n
  | .calloc kernel nmemb size =>
      nmemb * size < 2 ^ 32 → SafeRequest kernel state.heap (nmemb * size)
  | .realloc kernel ptr n =>
      (ptr = 0 ∨ state.heap.blockSize ptr < n) → SafeRequest kernel state.heap n
  | _ => True

/-- The discipline of runs with small requests. -/
def Disciplined (state : State) (call : Call) : Prop := Respects state call ∧ Small call

/-- The discipline of runs with safe requests of any size. -/
def Guarded (state : State) (call : Call) : Prop := Respects state call ∧ Safe state call

/-- The number of bytes a call asks the allocator for. -/
def Call.request : Call → Option ℕ
  | .malloc _ n => some n
  | .calloc _ nmemb size => some (nmemb * size)
  | .realloc _ _ n => some n
  | _ => none

/-- The call may move the break on the program's own behalf. -/
def Call.IsSbrk : Call → Prop
  | .sbrk _ _ => True
  | _ => False

/-- The call is a store by the program, not a call to the allocator. -/
def Call.IsStore : Call → Prop
  | .store _ _ => True
  | _ => False

/-- Run a sequence of calls. -/
def runCalls (state : State) (calls : List Call) : Option State := CallRun.run step state calls

end CLite
