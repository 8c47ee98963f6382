import CLite.Lib.ByteMemory

/-! # Input streams

`getchar`, `fgetc`, `getc`, `fgets`, `ungetc` and `fread` of `stdio.c`, with valid pointers. A stream is its
`FILE` and the bytes still unread behind the descriptor. What `read` does is given by a schedule: each call
of it fails or returns a count, which may be short. The field `flags` is left out: nothing here uses it.
-/

namespace CLite

open ByteMemory

def EOF : ℤ := -1

structure FILE where
  fd : ℤ
  error : Bool
  eof : Bool
  unget : ℤ

/-- A stream, and the number of calls of `read` so far. -/
structure InStream where
  file : FILE
  unread : List Byte
  reads : ℕ

/-- What each call of `read` does: `none` is an error, a number is a count at which it may fall short. -/
abbrev ReadSchedule := ℕ → Option ℕ

/-- The count that `read` returns for a request of `n` bytes; it is positive unless there is nothing to read. -/
def readCount (offered n available : ℕ) : ℕ := min (max 1 offered) (min n (min available (2 ^ 31 - 1)))

/-- The returned value, the bytes stored and the stream after `read(fd, buf, n)`. -/
def readBytes (schedule : ReadSchedule) (n : ℕ) (st : InStream) : ℤ × List Byte × InStream :=
  match schedule st.reads with
  | none => (-1, [], { st with reads := st.reads + 1 })
  | some offered =>
    let count := readCount offered n st.unread.length
    (count, st.unread.take count, { st with unread := st.unread.drop count, reads := st.reads + 1 })

/-- `getchar` reads the descriptor of standard input. -/
def getchar (schedule : ReadSchedule) (st : InStream) : ℤ × InStream :=
  let (n, bytes, st) := readBytes schedule 1 st
  if n = 1 then ((bytes.headD 0).toNat, st) else (EOF, st)

def fgetc (schedule : ReadSchedule) (st : InStream) : ℤ × InStream :=
  if st.file.unget ≠ -1 then (st.file.unget, { st with file := { st.file with unget := -1 } })
  else
    let (n, bytes, st) := readBytes schedule 1 st
    if n = 1 then ((bytes.headD 0).toNat, st) else (EOF, { st with file := { st.file with eof := true } })

def getc (schedule : ReadSchedule) (st : InStream) : ℤ × InStream := fgetc schedule st

/-- The loop of `fgets` with room for `room` more characters; `none` is a null pointer. -/
def fgetsLoop (schedule : ReadSchedule) : ℕ → List Byte → InStream → Option (List Byte) × InStream
  | 0, stored, st => (some stored, st)
  | room + 1, stored, st =>
    let (c, st) := fgetc schedule st
    if c = EOF then (if stored = [] then none else some stored, st)
    else if c = 10 then (some (stored ++ [BitVec.ofInt 8 c]), st)
    else fgetsLoop schedule room (stored ++ [BitVec.ofInt 8 c]) st

/-- The characters stored before the terminator, or `none` for a null pointer. -/
def fgets (schedule : ReadSchedule) (size : ℤ) (st : InStream) : Option (List Byte) × InStream :=
  if size ≤ 0 then (none, st) else fgetsLoop schedule (size - 1).toNat [] st

def ungetc (c : ℤ) (st : InStream) : ℤ × InStream :=
  if c = EOF then (EOF, st) else (c, { st with file := { st.file with unget := c, eof := false } })

/-- The product of two `size_t`. -/
def freadTotal (size nmemb : ℕ) : ℕ := size * nmemb % 2 ^ 32

/-- The number of items returned, the bytes stored at `ptr` and the stream. -/
def fread (schedule : ReadSchedule) (size nmemb : ℕ) (st : InStream) : ℕ × List Byte × InStream :=
  if size = 0 ∨ nmemb = 0 then (0, [], st)
  else
    let (n, bytes, st) := readBytes schedule (freadTotal size nmemb) st
    if n ≤ 0 then
      (0, bytes, if n = 0 then { st with file := { st.file with eof := true } }
        else { st with file := { st.file with error := true } })
    else (n.toNat / size, bytes, st)

inductive StreamCall where
  | getchar
  | fgetc
  | getc
  | fgets (size : ℤ)
  | fread (size nmemb : ℕ)
  | ungetc (c : ℤ)

/-- The byte that a returned character delivers. -/
def deliveredByte (c : ℤ) : List Byte := if c = EOF then [] else [BitVec.ofInt 8 c]

/-- The bytes that a call delivers to its caller, and the stream after it. What `fread` delivers are the
items that it says it has read. -/
def execStream (schedule : ReadSchedule) (st : InStream) : StreamCall → List Byte × InStream
  | .getchar => let (c, st) := getchar schedule st; (deliveredByte c, st)
  | .fgetc => let (c, st) := fgetc schedule st; (deliveredByte c, st)
  | .getc => let (c, st) := getc schedule st; (deliveredByte c, st)
  | .fgets size => let (line, st) := fgets schedule size st; (line.getD [], st)
  | .fread size nmemb => let (items, bytes, st) := fread schedule size nmemb st; (bytes.take (items * size), st)
  | .ungetc c => let (_, st) := ungetc c st; ([], st)

end CLite
