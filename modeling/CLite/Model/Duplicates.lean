import CLite.Model.HeapRun
import CLite.Spec.Texts

/-! # Copies of strings on the heap

`strdup` and `strndup` of `string.c`, in programs that also call the allocator themselves.
-/

namespace CLite.Text

open ByteMemory

/-- Store into the heap what is to be in a block that has just been allocated. -/
def withMemory (state : State) (memory : Memory) : State :=
  { state with heap := { state.heap with mem := memory } }

def strdup (kernel : Kernel) (state : State) (s : ℕ) : Option (ℕ × State) := do
  let length ← strlen state.heap.mem s addressSpace
  let len := wrap (length + 1)
  let (p, state) ← exec state (.malloc kernel len)
  if p = 0 then some (0, state) else some (p, withMemory state (memcpy state.heap.mem p s len))

/-- The loop of `strndup` that counts the characters is that of `strnlen`. -/
def strndup (kernel : Kernel) (state : State) (s n : ℕ) : Option (ℕ × State) := do
  let len := strnlen state.heap.mem s n
  let (p, state) ← exec state (.malloc kernel (wrap (len + 1)))
  if p = 0 then some (0, state)
  else some (p, withMemory state (Function.update (memcpy state.heap.mem p s len) (p + len) 0))

inductive CopyCall where
  | strdup (kernel : Kernel) (s : ℕ)
  | strndup (kernel : Kernel) (s n : ℕ)
  | other (call : Call)

/-- The returned value and the state after a call. -/
def execCopy (state : State) : CopyCall → Option (ℕ × State)
  | .strdup kernel s => Text.strdup kernel state s
  | .strndup kernel s n => Text.strndup kernel state s n
  | .other call => exec state call

def copyStep (state : State) (call : CopyCall) : Option State := (execCopy state call).map Prod.snd

/-- The bytes stand in a live block. -/
def Readable (state : State) (s : ℕ) (bytes : List Byte) : Prop :=
  Holds state.heap.mem s bytes ∧
    ∃ q m, state.live q = some m ∧ q ≤ s ∧ s + bytes.length ≤ q + state.heap.blockSize q

/-- The call would copy the text, which is in a live block: for `strndup`, up to the terminator or the bound. -/
def Copies (state : State) (text : CString) : CopyCall → Prop
  | .strdup kernel s => Readable state s (stored text) ∧ SafeRequest kernel state.heap (text.length + 1)
  | .strndup kernel s n =>
    text.length ≤ n ∧ Readable state s (if text.length = n then text.map CChar.byte else stored text) ∧
      SafeRequest kernel state.heap (text.length + 1)
  | .other _ => False

/-- What the program promises about its calls. -/
def CopyGuarded (state : State) : CopyCall → Prop
  | .other call => Guarded state call
  | call => ∃ text, Copies state text call

/-- The call leaves the text at `p` to its owner: it does not give the block back and does not store into the text. -/
def Spares (p : ℕ) (text : CString) : CopyCall → Prop
  | .other (.free q) => q ≠ p
  | .other (.realloc _ q _) => q ≠ p
  | .other (.store address _) => address < p ∨ p + text.length < address
  | _ => True

end CLite.Text
