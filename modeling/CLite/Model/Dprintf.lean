import CLite.Model.Printf
import CLite.Model.Streams

/-! # Printing to a descriptor

`vdprintf`, `dprintf`, `printf`, `vfprintf` and `fprintf` of `stdio.c`, with streams that are not null. What
`write` returns is given by a function of the bytes; the bytes it accepts are the first ones.
-/

namespace CLite

open ByteMemory

def STDOUT_FILENO : ℤ := 1

/-- The bytes of an object in memory. -/
def memoryBytes (memory : Memory) (address n : ℕ) : List Byte := (List.range n).map fun k => memory (address + k)

/-- The bytes that a descriptor has accepted. -/
structure Sent where
  fd : ℤ
  bytes : List Byte

/-- The returned value, what was sent, and the memory; `buf` is where the local array is. -/
def vdprintf (write : ℤ → List Byte → ℤ) (args : Arguments) (memory : Memory) (buf : ℕ) (fd : ℤ)
    (format : CString) (cursor : ℕ) : Option (ℤ × Sent × Memory) := do
  let (len, memory) ← vsnprintf args memory buf 1024 format cursor
  if 0 < len then
    let bytes := memoryBytes memory buf len.toNat
    return (write fd bytes, ⟨fd, bytes.take (write fd bytes).toNat⟩, memory)
  return (0, ⟨fd, []⟩, memory)

section Entries

variable (write : ℤ → List Byte → ℤ) (args : Arguments) (memory : Memory) (buf : ℕ) (format : CString)
  (cursor : ℕ)

def dprintf (fd : ℤ) : Option (ℤ × Sent × Memory) := vdprintf write args memory buf fd format cursor

def printf : Option (ℤ × Sent × Memory) := vdprintf write args memory buf STDOUT_FILENO format cursor

def vfprintf (stream : FILE) : Option (ℤ × Sent × Memory) :=
  vdprintf write args memory buf stream.fd format cursor

def fprintf (stream : FILE) : Option (ℤ × Sent × Memory) := vfprintf write args memory buf format cursor stream

/-- The functions that print to a descriptor. -/
inductive Printer where
  | vdprintf (fd : ℤ)
  | dprintf (fd : ℤ)
  | printf
  | vfprintf (stream : FILE)
  | fprintf (stream : FILE)

def Printer.fd : Printer → ℤ
  | .vdprintf fd => fd
  | .dprintf fd => fd
  | .printf => STDOUT_FILENO
  | .vfprintf stream => stream.fd
  | .fprintf stream => stream.fd

def Printer.call : Printer → Option (ℤ × Sent × Memory)
  | .vdprintf fd => CLite.vdprintf write args memory buf fd format cursor
  | .dprintf fd => CLite.dprintf write args memory buf format cursor fd
  | .printf => CLite.printf write args memory buf format cursor
  | .vfprintf stream => CLite.vfprintf write args memory buf format cursor stream
  | .fprintf stream => CLite.fprintf write args memory buf format cursor stream

end Entries

end CLite
