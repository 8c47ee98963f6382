import CLite.Model.Streams

/-! # Streams over any descriptor

The calls of `stdio.c` that read, write or move a stream, and those that report its indicators, with valid
pointers. Of the descriptor only the system calls are known: what they return and how its state changes. A read
schedule is one such descriptor, and over it the calls are the functions of input streams.
-/

namespace CLite

open ByteMemory

variable {σ : Type}

/-- The system calls of a descriptor whose state is of type `σ`. -/
structure Descriptor (σ : Type) where
  read : ℕ → σ → ℤ × List Byte × σ
  write : List Byte → σ → ℤ × σ
  lseek : ℤ → ℤ → σ → ℤ × σ

structure Stream (σ : Type) where
  file : FILE
  state : σ

def SEEK_SET : ℤ := 0

/-- What `fdopen` makes of a descriptor once it has memory for the `FILE`. -/
def fdopen (fd : ℤ) : FILE := ⟨fd, false, false, -1⟩

namespace Stream

def ungetc (c : ℤ) (st : Stream σ) : ℤ × Stream σ :=
  if c = EOF then (EOF, st) else (c, { st with file := { st.file with unget := c, eof := false } })

def feof (st : Stream σ) : ℤ := if st.file.eof then 1 else 0

def ferror (st : Stream σ) : ℤ := if st.file.error then 1 else 0

def clearerr (st : Stream σ) : Stream σ := { st with file := { st.file with error := false, eof := false } }

end Stream

namespace Descriptor

variable (fd : Descriptor σ)

def fgetc (st : Stream σ) : ℤ × Stream σ :=
  if st.file.unget ≠ -1 then (st.file.unget, { st with file := { st.file with unget := -1 } })
  else
    let (n, bytes, state) := fd.read 1 st.state
    if n = 1 then ((bytes.headD 0).toNat, { st with state := state })
    else (EOF, ⟨{ st.file with eof := true }, state⟩)

/-- The loop of `fgets` with room for `room` more characters; `none` is a null pointer. -/
def fgetsLoop : ℕ → List Byte → Stream σ → Option (List Byte) × Stream σ
  | 0, stored, st => (some stored, st)
  | room + 1, stored, st =>
    let (c, st) := fd.fgetc st
    if c = EOF then (if stored = [] then none else some stored, st)
    else if c = 10 then (some (stored ++ [BitVec.ofInt 8 c]), st)
    else fgetsLoop room (stored ++ [BitVec.ofInt 8 c]) st

def fgets (size : ℤ) (st : Stream σ) : Option (List Byte) × Stream σ :=
  if size ≤ 0 then (none, st) else fd.fgetsLoop (size - 1).toNat [] st

def fread (size nmemb : ℕ) (st : Stream σ) : ℕ × List Byte × Stream σ :=
  if size = 0 ∨ nmemb = 0 then (0, [], st)
  else
    let (n, bytes, state) := fd.read (freadTotal size nmemb) st.state
    if n ≤ 0 then
      (0, bytes, if n = 0 then ⟨{ st.file with eof := true }, state⟩
        else ⟨{ st.file with error := true }, state⟩)
    else (n.toNat / size, bytes, { st with state := state })

/-- The bytes behind the pointer are given as a list; the product of two `size_t` is the one of `fread`. -/
def fwrite (ptr : List Byte) (size nmemb : ℕ) (st : Stream σ) : ℕ × Stream σ :=
  if size = 0 ∨ nmemb = 0 then (0, st)
  else
    let (n, state) := fd.write (ptr.take (freadTotal size nmemb)) st.state
    if n < 0 then (0, ⟨{ st.file with error := true }, state⟩) else (n.toNat / size, { st with state := state })

def fseek (offset whence : ℤ) (st : Stream σ) : ℤ × Stream σ :=
  let (pos, state) := fd.lseek offset whence st.state
  (if pos ≥ 0 then 0 else -1, ⟨{ st.file with unget := -1 }, state⟩)

def rewind (st : Stream σ) : Stream σ := (fd.fseek 0 SEEK_SET st).2

end Descriptor

/-! ## Input streams -/

/-- The stream of an input stream; its descriptor holds the unread bytes and the number of reads. -/
def InStream.stream (st : InStream) : Stream (List Byte × ℕ) := ⟨st.file, st.unread, st.reads⟩

/-- A descriptor that is only read from, by a schedule. -/
def ReadSchedule.descriptor (schedule : ReadSchedule) : Descriptor (List Byte × ℕ) where
  read n state :=
    let (count, bytes, st) := readBytes schedule n ⟨fdopen 0, state.1, state.2⟩
    (count, bytes, st.unread, st.reads)
  write _ state := (-1, state)
  lseek _ _ state := (-1, state)

variable (schedule : ReadSchedule) (st : InStream)

theorem readBytes_stream (n : ℕ) : ∃ count bytes unread reads,
    readBytes schedule n st = (count, bytes, ⟨st.file, unread, reads⟩) ∧
      schedule.descriptor.read n (st.unread, st.reads) = (count, bytes, unread, reads) := by
  cases offered : schedule st.reads with
  | none =>
    refine ⟨-1, [], st.unread, st.reads + 1, ?_, ?_⟩
    · simp only [readBytes, offered]
    · simp only [ReadSchedule.descriptor, readBytes, offered]
  | some most =>
    let count := readCount most n st.unread.length
    refine ⟨count, st.unread.take count, st.unread.drop count, st.reads + 1, ?_, ?_⟩
    · simp only [readBytes, offered, count]
    · simp only [ReadSchedule.descriptor, readBytes, offered, count]

theorem fgetc_stream :
    schedule.descriptor.fgetc st.stream = ((fgetc schedule st).1, (fgetc schedule st).2.stream) := by
  obtain ⟨count, bytes, unread, reads, stored, result⟩ := readBytes_stream schedule st 1
  simp only [Descriptor.fgetc, fgetc, InStream.stream, stored, result]
  split_ifs <;> rfl

theorem fgetsLoop_stream (room : ℕ) (stored : List Byte) :
    schedule.descriptor.fgetsLoop room stored st.stream =
      ((fgetsLoop schedule room stored st).1, (fgetsLoop schedule room stored st).2.stream) := by
  induction room generalizing stored st with
  | zero => rfl
  | succ room ih =>
    simp only [Descriptor.fgetsLoop, fgetsLoop, fgetc_stream]
    split
    · rfl
    · split
      · rfl
      · apply ih

theorem fgets_stream (size : ℤ) :
    schedule.descriptor.fgets size st.stream =
      ((fgets schedule size st).1, (fgets schedule size st).2.stream) := by
  rw [Descriptor.fgets, fgets]
  split
  · rfl
  · apply fgetsLoop_stream

theorem fread_stream (size nmemb : ℕ) :
    schedule.descriptor.fread size nmemb st.stream =
      ((fread schedule size nmemb st).1, (fread schedule size nmemb st).2.1,
        (fread schedule size nmemb st).2.2.stream) := by
  obtain ⟨count, bytes, unread, reads, stored, result⟩ :=
    readBytes_stream schedule st (freadTotal size nmemb)
  simp only [Descriptor.fread, fread, InStream.stream, stored, result]
  split_ifs <;> rfl

theorem ungetc_stream (c : ℤ) : st.stream.ungetc c = ((ungetc c st).1, (ungetc c st).2.stream) := by
  rw [Stream.ungetc, ungetc]
  split <;> rfl

end CLite
