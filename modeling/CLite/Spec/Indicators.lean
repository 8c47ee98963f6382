import CLite.Lib.CallRun
import CLite.Lib.History
import CLite.Model.StreamCalls

/-! # The indicators of a stream

The kernel answers each system call as it likes, and a history keeps what it returned. The calls that take an
indicator back are entered into the same history, so that what the indicators should say can be read off it.
-/

namespace CLite

open ByteMemory History

/-- What happens on a stream: the results of its system calls, and the calls that take an indicator back. -/
inductive StreamEvent where
  | read (result : ℤ)
  | write (result : ℤ)
  | lseek (result : ℤ)
  | fseek
  | rewind
  | clearerr
  | ungetc

namespace StreamEvent

def Failed : StreamEvent → Prop
  | read result => result < 0
  | write result => result < 0
  | _ => False

/-- A successful `fseek`, `rewind`, `clearerr` and a successful `ungetc` take an end of file back. -/
def EndsEof : StreamEvent → Prop
  | fseek | rewind | clearerr | ungetc => True
  | _ => False

def EndsError : StreamEvent → Prop
  | rewind | clearerr => True
  | _ => False

end StreamEvent

/-- A kernel may let each answer depend on all that has happened. A read fails or has some bytes ready. -/
structure StreamKernel where
  read : List StreamEvent → Except ℕ (List Byte)
  write : List StreamEvent → ℤ
  lseek : List StreamEvent → ℤ

/-- The descriptor keeps the history. A `ssize_t` counts up to `2 ^ 31 - 1`, and an error is negative. -/
def StreamKernel.descriptor (kernel : StreamKernel) : Descriptor (List StreamEvent) where
  read n history :=
    match kernel.read history with
    | .error code => (Int.negSucc code, [], .read (Int.negSucc code) :: history)
    | .ok ready =>
      let bytes := ready.take (min n (2 ^ 31 - 1))
      (bytes.length, bytes, .read bytes.length :: history)
  write _ history := (kernel.write history, .write (kernel.write history) :: history)
  lseek _ _ history := (kernel.lseek history, .lseek (kernel.lseek history) :: history)

inductive IndicatorCall where
  | fgetc
  | fgets (size : ℤ)
  | fread (size nmemb : ℕ)
  | fwrite (ptr : List Byte) (size nmemb : ℕ)
  | ungetc (c : ℤ)
  | fseek (offset whence : ℤ)
  | rewind
  | clearerr

/-- A stream whose descriptor keeps the history. -/
abbrev RecordedStream := Stream (List StreamEvent)

def RecordedStream.record (st : RecordedStream) (event : StreamEvent) : RecordedStream :=
  { st with state := event :: st.state }

/-- A call, entered into the history if it takes an indicator back. -/
def execIndicator (kernel : StreamKernel) (st : RecordedStream) : IndicatorCall → RecordedStream
  | .fgetc => (kernel.descriptor.fgetc st).2
  | .fgets size => (kernel.descriptor.fgets size st).2
  | .fread size nmemb => (kernel.descriptor.fread size nmemb st).2.2
  | .fwrite ptr size nmemb => (kernel.descriptor.fwrite ptr size nmemb st).2
  | .ungetc c =>
    let (result, st) := st.ungetc c
    if result = EOF then st else RecordedStream.record st .ungetc
  | .fseek offset whence =>
    let (result, st) := kernel.descriptor.fseek offset whence st
    if result = 0 then RecordedStream.record st .fseek else st
  | .rewind => RecordedStream.record (kernel.descriptor.rewind st) .rewind
  | .clearerr => RecordedStream.record st.clearerr .clearerr

def indicatorStep (kernel : StreamKernel) (st : RecordedStream) (call : IndicatorCall) :
    Option RecordedStream :=
  some (execIndicator kernel st call)

/-- Some read since the last call that takes an end of file back has returned `0`. -/
def EndReached : List StreamEvent → Prop := Since (· = .read 0) StreamEvent.EndsEof

/-- Some read or write since the last `clearerr` or `rewind` has returned a negative result. -/
def ErrorMet : List StreamEvent → Prop := Since StreamEvent.Failed StreamEvent.EndsError

/-- The indicators tell the truth about the history. -/
structure Truthful (st : RecordedStream) : Prop where
  eof : st.feof ≠ 0 → EndReached st.state
  error : st.ferror ≠ 0 ↔ ErrorMet st.state

/-- The kernel fails a read before it has delivered a line or `room` characters. -/
def StreamKernel.FailsInLine (kernel : StreamKernel) : ℕ → List StreamEvent → Prop
  | 0, _ => False
  | room + 1, history =>
    match kernel.read history with
    | .error _ => True
    | .ok [] => False
    | .ok (byte :: _) => byte ≠ 10 ∧ kernel.FailsInLine room (.read 1 :: history)

/-- The kernel fails a read before a line or `room` characters are complete. A pushed-back character is the first
of them and takes no read. -/
def ReadFails (kernel : StreamKernel) (st : RecordedStream) (room : ℕ) : Prop :=
  if st.file.unget = -1 then kernel.FailsInLine room st.state
  else st.file.unget ≠ 10 ∧ kernel.FailsInLine (room - 1) st.state

/-- When a call keeps the indicators truthful. The kernel fails no read of `fgetc` and `fgets`, unless both
indicators are set already; a stream is moved with `fseek` only while its end of file is not set, unless the
seek fails, and it is rewound only while neither indicator is set. -/
def Indicated (kernel : StreamKernel) (st : RecordedStream) : IndicatorCall → Prop
  | .fgetc => (st.file.eof ∧ st.file.error) ∨ ¬ ReadFails kernel st 1
  | .fgets size => (st.file.eof ∧ st.file.error) ∨ ¬ ReadFails kernel st (size - 1).toNat
  | .fseek _ _ => st.file.eof = false ∨ kernel.lseek st.state < 0
  | .rewind => st.file.eof = false ∧ st.file.error = false
  | _ => True

/-- A stream that has just been opened. -/
def opened (fd : ℤ) : RecordedStream := ⟨fdopen fd, []⟩

end CLite
