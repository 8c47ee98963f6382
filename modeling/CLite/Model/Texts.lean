import CLite.Model.CString
import CLite.Model.Printf
import CLite.Model.StringOps

/-! # Strings in memory

The functions of `string.c` that copy, join, compare and search strings, and `stpncpy` of `compat.c`, on the bytes of
memory. A copy reads memory that it may itself have changed. A loop without a count of its own ends at a terminator;
it is bounded by the size of the address space, and `none` says that it has found none.
-/

namespace CLite.Text

open ByteMemory

/-- The number of addresses. -/
def addressSpace : ℕ := 2 ^ 32

/-- The loop of `strcpy`, `stpcpy` and `strcat` with the terminator behind it: the memory, and where `d` ends. -/
def copyLoop : ℕ → Memory → ℕ → ℕ → Option (Memory × ℕ)
  | 0, _, _, _ => none
  | fuel + 1, memory, d, src =>
    if memory src = 0 then some (Function.update memory d 0, d)
    else copyLoop fuel (Function.update memory d (memory src)) (d + 1) (src + 1)

/-- The returned pointer and the memory. -/
def strcpy (memory : Memory) (dest src : ℕ) : Option (ℕ × Memory) := do
  let (memory, _) ← copyLoop addressSpace memory dest src
  some (dest, memory)

def stpcpy (memory : Memory) (dest src : ℕ) : Option (ℕ × Memory) := do
  let (memory, d) ← copyLoop addressSpace memory dest src
  some (d, memory)

def strcat (memory : Memory) (dest src : ℕ) : Option (ℕ × Memory) := do
  let len ← strlen memory dest addressSpace
  let (memory, _) ← copyLoop addressSpace memory (dest + len) src
  some (dest, memory)

/-- The loop of `strncat`, and the first loop of `strncpy` and `stpncpy`, with `n` characters to go. -/
def copyAtMost : ℕ → Memory → ℕ → ℕ → Memory × ℕ
  | 0, memory, d, _ => (memory, d)
  | n + 1, memory, d, src =>
    if memory src = 0 then (memory, d)
    else copyAtMost n (Function.update memory d (memory src)) (d + 1) (src + 1)

def strncat (memory : Memory) (dest src n : ℕ) : Option (ℕ × Memory) := do
  let len ← strlen memory dest addressSpace
  let (memory, d) := copyAtMost n memory (dest + len) src
  some (dest, Function.update memory d 0)

/-- The second loop stores zeros, as `memset` does. -/
def strncpy (memory : Memory) (dest src n : ℕ) : ℕ × Memory :=
  let (memory, d) := copyAtMost n memory dest src
  (dest, memset memory d 0 (dest + n - d))

def strnlen (memory : Memory) (s : ℕ) : ℕ → ℕ
  | 0 => 0
  | maxlen + 1 => if memory s = 0 then 0 else strnlen memory (s + 1) maxlen + 1

def stpncpy (memory : Memory) (dest src n : ℕ) : ℕ × Memory :=
  let (_, memory) := strncpy memory dest src n
  (dest + if strnlen memory src n < n then strnlen memory src n else n, memory)

def strcmpLoop (memory : Memory) : ℕ → ℕ → ℕ → Option ℤ
  | 0, _, _ => none
  | fuel + 1, a, b =>
    if memory a ≠ 0 ∧ memory a = memory b then strcmpLoop memory fuel (a + 1) (b + 1)
    else some ((memory a).toNat - (memory b).toNat)

def strcmp (memory : Memory) (a b : ℕ) : Option ℤ := strcmpLoop memory addressSpace a b

def strncmp (memory : Memory) (s1 s2 : ℕ) : ℕ → ℤ
  | 0 => 0
  | n + 1 =>
    if memory s1 ≠ memory s2 ∨ memory s1 = 0 then (memory s1).toNat - (memory s2).toNat
    else strncmp memory (s1 + 1) (s2 + 1) n

/-- The inner `none` is a null pointer. -/
def strchrLoop (memory : Memory) (c : Byte) : ℕ → ℕ → Option (Option ℕ)
  | 0, _ => none
  | fuel + 1, s =>
    if memory s = c then some (some s) else if memory s = 0 then some none else strchrLoop memory c fuel (s + 1)

def strchr (memory : Memory) (s : ℕ) (c : Byte) : Option (Option ℕ) := strchrLoop memory c addressSpace s

def strchrnulLoop (memory : Memory) (c : Byte) : ℕ → ℕ → Option ℕ
  | 0, _ => none
  | fuel + 1, s => if memory s ≠ 0 ∧ memory s ≠ c then strchrnulLoop memory c fuel (s + 1) else some s

def strchrnul (memory : Memory) (s : ℕ) (c : Byte) : Option ℕ := strchrnulLoop memory c addressSpace s

def strrchrLoop (memory : Memory) (c : Byte) : ℕ → ℕ → Option ℕ → Option (Option ℕ)
  | 0, _, _ => none
  | fuel + 1, s, last =>
    let last := if memory s = c then some s else last
    if memory s = 0 then some last else strrchrLoop memory c fuel (s + 1) last

def strrchr (memory : Memory) (s : ℕ) (c : Byte) : Option (Option ℕ) := strrchrLoop memory c addressSpace s none

/-! ## Programs on buffers -/

/-- Calls whose arguments are buffers. -/
inductive StringCall (ι : Type) where
  | strcpy (dest src : ι)
  | stpcpy (dest src : ι)
  | strncpy (dest src : ι) (n : ℕ)
  | stpncpy (dest src : ι) (n : ℕ)
  | strcat (dest src : ι)
  | strncat (dest src : ι) (n : ℕ)
  | strlen (s : ι)
  | strnlen (s : ι) (maxlen : ℕ)
  | strcmp (a b : ι)
  | strncmp (a b : ι) (n : ℕ)
  | strchr (s : ι) (c : Byte)
  | strchrnul (s : ι) (c : Byte)
  | strrchr (s : ι) (c : Byte)

/-- A returned pointer is told by its distance from the start of the buffer that it points into. -/
inductive StringReply where
  | pointer (offset : ℕ)
  | null
  | value (number : ℤ)
deriving DecidableEq

def StringReply.ofPointer (base : ℕ) : Option ℕ → StringReply
  | none => .null
  | some p => .pointer (p - base)

/-- The call at the addresses where the buffers begin. -/
def stringStep {ι : Type} (base : ι → ℕ) (memory : Memory) : StringCall ι → Option (StringReply × Memory)
  | .strcpy dest src => do
    let (p, memory) ← strcpy memory (base dest) (base src)
    some (.ofPointer (base dest) p, memory)
  | .stpcpy dest src => do
    let (p, memory) ← stpcpy memory (base dest) (base src)
    some (.ofPointer (base dest) p, memory)
  | .strncpy dest src n =>
    let (p, memory) := strncpy memory (base dest) (base src) n
    some (.ofPointer (base dest) p, memory)
  | .stpncpy dest src n =>
    let (p, memory) := stpncpy memory (base dest) (base src) n
    some (.ofPointer (base dest) p, memory)
  | .strcat dest src => do
    let (p, memory) ← strcat memory (base dest) (base src)
    some (.ofPointer (base dest) p, memory)
  | .strncat dest src n => do
    let (p, memory) ← strncat memory (base dest) (base src) n
    some (.ofPointer (base dest) p, memory)
  | .strlen s => do
    let len ← strlen memory (base s) addressSpace
    some (.value len, memory)
  | .strnlen s maxlen => some (.value (strnlen memory (base s) maxlen), memory)
  | .strcmp a b => do
    let order ← strcmp memory (base a) (base b)
    some (.value order, memory)
  | .strncmp a b n => some (.value (strncmp memory (base a) (base b) n), memory)
  | .strchr s c => do
    let p ← strchr memory (base s) c
    some (.ofPointer (base s) p, memory)
  | .strchrnul s c => do
    let p ← strchrnul memory (base s) c
    some (.ofPointer (base s) p, memory)
  | .strrchr s c => do
    let p ← strrchr memory (base s) c
    some (.ofPointer (base s) p, memory)

end CLite.Text
