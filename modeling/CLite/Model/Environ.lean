import CLite.Model.HeapRun
import Mathlib.Data.List.Basic

/-! # The environment

`getenv`, `setenv`, `putenv` and `unsetenv` of `stdlib.c` and `clearenv` of `compat.c`, with valid pointers.
Strings are kept by reference: memory is a list of objects, and a pointer is an object and an offset, so the
entries and the arguments may point into one another. `malloc` is the one of `stdlib.c`, on whatever heap and kernel
a call of it meets; a block that it gives is a new object if it has the room for what is written into it. `free` of
an object that nothing points to is left out. The array of pointers is a list.
-/

namespace CLite

open ByteMemory

/-- The objects of memory, each the bytes it holds. -/
abbrev Objects := List (List Byte)

structure Pointer where
  object : ℕ
  offset : ℕ
deriving DecidableEq

def Pointer.add (p : Pointer) (n : ℕ) : Pointer := ⟨p.object, p.offset + n⟩

/-- The bytes from a pointer to the end of its object. -/
def bytesAt (objects : Objects) (p : Pointer) : List Byte := (objects.getD p.object []).drop p.offset

/-- The string at a pointer. -/
def textAt (objects : Objects) (p : Pointer) : List Byte := (bytesAt objects p).takeWhile (· ≠ 0)

/-- `*p = byte`. -/
def poke (objects : Objects) (p : Pointer) (byte : Byte) : Objects :=
  objects.modify p.object (·.set p.offset byte)

def equalsSign : Byte := 61

/-- `strncmp`, from the bytes at its two pointers. -/
def strncmp : List Byte → List Byte → ℕ → ℤ
  | _, _, 0 => 0
  | s1, s2, n + 1 =>
    if s1.headD 0 ≠ s2.headD 0 ∨ s1.headD 0 = 0 then (s1.headD 0).toNat - (s2.headD 0).toNat
    else strncmp s1.tail s2.tail n

structure Environ where
  objects : Objects
  environ : Option (List Pointer)
  mallocs : ℕ
deriving DecidableEq

/-- What a call of `malloc` meets. -/
structure MallocCall where
  kernel : Kernel
  heap : Heap

/-- What the calls of `malloc` meet; between two of them the program may do anything to the heap. -/
abbrev MallocSchedule := ℕ → MallocCall

/-- The bytes that a pointer from `malloc` may be used for: those of its block that lie below the break. -/
def Heap.room (heap : Heap) (ptr : ℕ) : ℕ := min (heap.blockSize ptr) (heap.brk - ptr)

/-- A call of `malloc` for an object of this size, which is then written as a whole: whether there is one. The result
is `none` if the call does not return, or if the object is written past its block. -/
def MallocCall.allocate (call : MallocCall) (size : ℕ) : Option Bool :=
  match malloc call.kernel call.heap (wrap size) with
  | none => none
  | some (ptr, heap) => if ptr = 0 then some false else if heap.room ptr < size then none else some true

/-- `sizeof(char*)`. -/
def pointerSize : ℕ := 4

/-- The test of an entry that `getenv`, `setenv` and `unsetenv` share. -/
def entryMatches (objects : Objects) (name : List Byte) (entry : Pointer) : Bool :=
  strncmp (bytesAt objects entry) name name.length = 0 ∧
    (bytesAt objects entry).getD name.length 0 = equalsSign

/-- The loop of `getenv` over the entries. -/
def getenvLoop (objects : Objects) (entries : List Pointer) (name : List Byte) : Option Pointer :=
  (entries.find? (entryMatches objects name)).map (·.add (name.length + 1))

def getenv (st : Environ) (name : Pointer) : Option Pointer :=
  match st.environ with
  | none => none
  | some entries =>
    if textAt st.objects name = [] then none else getenvLoop st.objects entries (textAt st.objects name)

/-- `setenv` from its first `malloc` on. -/
def setenvStore (schedule : MallocSchedule) (st : Environ) (name value : List Byte) : Option (ℤ × Environ) :=
  match (schedule st.mallocs).allocate (name.length + value.length + 2) with
  | none => none
  | some false => some (-1, { st with mallocs := st.mallocs + 1 })
  | some true =>
    let new_entry : Pointer := ⟨st.objects.length, 0⟩
    let objects := st.objects ++ [name ++ equalsSign :: value ++ [0]]
    let mallocs := st.mallocs + 1
    match st.environ with
    | none =>
      match (schedule mallocs).allocate (pointerSize * 2) with
      | none => none
      | some false => some (-1, ⟨objects, none, mallocs + 1⟩)
      | some true => some (0, ⟨objects, some [new_entry], mallocs + 1⟩)
    | some entries =>
      if entries.any (entryMatches objects name) then
        some (0, ⟨objects, some (entries.replaceF fun entry =>
          if entryMatches objects name entry then some new_entry else none), mallocs⟩)
      else
        match (schedule mallocs).allocate (pointerSize * (entries.length + 2)) with
        | none => none
        | some false => some (-1, ⟨objects, some entries, mallocs + 1⟩)
        | some true => some (0, ⟨objects, some (entries ++ [new_entry]), mallocs + 1⟩)

/-- A null `value` is the empty string. -/
def setenv (schedule : MallocSchedule) (st : Environ) (name : Pointer) (value : Option Pointer)
    (overwrite : Bool) : Option (ℤ × Environ) :=
  if textAt st.objects name = [] ∨ equalsSign ∈ textAt st.objects name then some (-1, st)
  else if (getenv st name).isSome ∧ overwrite = false then some (0, st)
  else setenvStore schedule st (textAt st.objects name) ((value.map (textAt st.objects)).getD [])

/-- `putenv` ends the string at its first `=` while `setenv` runs, and then puts the `=` back. -/
def putenv (schedule : MallocSchedule) (st : Environ) (string : Pointer) : Option (ℤ × Environ) :=
  if equalsSign ∉ textAt st.objects string then some (-1, st)
  else
    let eq := string.add ((textAt st.objects string).idxOf equalsSign)
    match setenv schedule { st with objects := poke st.objects eq 0 } string (some (eq.add 1)) true with
    | none => none
    | some (ret, st) => some (ret, { st with objects := poke st.objects eq equalsSign })

def unsetenv (st : Environ) (name : Pointer) : ℤ × Environ :=
  match st.environ with
  | none => (-1, st)
  | some entries =>
    if textAt st.objects name = [] ∨ equalsSign ∈ textAt st.objects name then (-1, st)
    else (0, { st with environ := some (entries.eraseP (entryMatches st.objects (textAt st.objects name))) })

/-- The inner loop of `unsetenv`, from `environ[i]` on: each pointer is replaced by the one behind it. -/
def shiftLoop : List (Option Pointer) → List (Option Pointer)
  | some _ :: next :: array => next :: shiftLoop (next :: array)
  | array => array

/-- The loop of `unsetenv` over the array, of which a null pointer marks the end. -/
def unsetenvLoop (objects : Objects) (name : List Byte) : List (Option Pointer) → List (Option Pointer)
  | some entry :: array =>
    if entryMatches objects name entry then shiftLoop (some entry :: array)
    else some entry :: unsetenvLoop objects name array
  | array => array

def clearenv (st : Environ) : ℤ × Environ := (0, { st with environ := st.environ.map fun _ => [] })

inductive EnvCall where
  | setenv (name : Pointer) (value : Option Pointer) (overwrite : Bool)
  | putenv (string : Pointer)
  | unsetenv (name : Pointer)
  | clearenv
  | getenv (name : Pointer)

/-- What a call returns; a pointer is given by the string it points to. -/
inductive EnvReply where
  | status (ret : ℤ)
  | string (answer : Option (List Byte))
deriving DecidableEq

def execEnv (schedule : MallocSchedule) (st : Environ) : EnvCall → Option (EnvReply × Environ)
  | .setenv name value overwrite =>
    (setenv schedule st name value overwrite).map fun (ret, st) => (.status ret, st)
  | .putenv string => (putenv schedule st string).map fun (ret, st) => (.status ret, st)
  | .unsetenv name => let (ret, st) := unsetenv st name; some (.status ret, st)
  | .clearenv => let (ret, st) := clearenv st; some (.status ret, st)
  | .getenv name => some (.string ((getenv st name).map (textAt st.objects)), st)

end CLite
