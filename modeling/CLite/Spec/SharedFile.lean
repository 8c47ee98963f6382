import CLite.Lib.CallRun
import CLite.Model.OutputStreams
import Mathlib.Logic.Function.Basic

/-! # Streams that share a file

One file, opened any number of times. Its contents and where each descriptor stands are in the state of the kernel,
of which only the system calls are known, with what they promise about a regular file. What each stream has delivered
to its caller, and what the calls have reported as written, is kept beside it.
-/

namespace CLite

open ByteMemory

variable {κ : Type}

/-- The system calls on files, with a kernel whose state is of type `κ`. -/
structure FileKernel (κ : Type) where
  openFile : CString → ℕ → ℕ → κ → ℤ × κ
  read : ℤ → ℕ → κ → ℤ × List Byte × κ
  write : ℤ → List Byte → κ → ℤ × κ
  lseek : ℤ → ℤ → ℤ → κ → ℤ × κ

def FileKernel.descriptor (kernel : FileKernel κ) (fd : ℤ) : Descriptor κ :=
  ⟨kernel.read fd, kernel.write fd, kernel.lseek fd⟩

/-- An open file description: the flags it was opened with, and where it stands. -/
structure OpenFile where
  flags : ℕ
  offset : ℕ

/-- What the state of the kernel says about the file. -/
structure FileView where
  contents : List Byte
  opened : ℤ → Option OpenFile

/-- One descriptor stands somewhere else. -/
def FileView.move (view : FileView) (fd : ℤ) (file : OpenFile) : FileView :=
  { view with opened := Function.update view.opened fd (some file) }

/-- The flags of a stream that appends. -/
def appendFlags : ℕ := O_WRONLY ||| O_CREAT ||| O_APPEND

/-- What is asked of the kernel about the file. -/
structure RegularFile (kernel : FileKernel κ) (pathname : CString) (view : κ → FileView) : Prop where
  /-- `open` fails, or gives a descriptor that was not in use. -/
  opens : ∀ flags mode k, flags &&& O_TRUNC = 0 →
    ∃ fd k', kernel.openFile pathname flags mode k = (fd, k') ∧
      (fd < 0 ∧ view k' = view k ∨
        0 ≤ fd ∧ (view k).opened fd = none ∧ view k' = (view k).move fd ⟨flags, 0⟩)
  /-- A descriptor that reads gives the next bytes, and none only at the end of the file. -/
  reads : ∀ fd n k offset, (view k).opened fd = some ⟨0, offset⟩ →
    ∃ bytes k', kernel.read fd n k = ((bytes.length : ℤ), bytes, k') ∧ bytes.length ≤ n ∧
      bytes <+: (view k).contents.drop offset ∧
      (bytes = [] → n = 0 ∨ (view k).contents.drop offset = []) ∧
      view k' = (view k).move fd ⟨0, offset + bytes.length⟩
  /-- A descriptor that appends is not read from. -/
  reads_not : ∀ fd n k offset, (view k).opened fd = some ⟨appendFlags, offset⟩ →
    ∃ k', kernel.read fd n k = (-1, [], k') ∧ view k' = view k
  /-- A descriptor that reads is not written to. -/
  writes_not : ∀ fd bytes k offset, (view k).opened fd = some ⟨0, offset⟩ →
    ∃ k', kernel.write fd bytes k = (-1, k') ∧ view k' = view k
  /-- A write at the end of the file is whole, or fails and adds nothing. -/
  appends : ∀ fd bytes k offset, (view k).opened fd = some ⟨appendFlags, offset⟩ →
    ∃ n k', kernel.write fd bytes k = (n, k') ∧
      (n = bytes.length ∧
          (∃ offset', view k' = { (view k).move fd ⟨appendFlags, offset'⟩ with
            contents := (view k).contents ++ bytes }) ∨
        n = -1 ∧ view k' = view k)

/-- A stream on the file, the flags it was opened with, and the bytes that its calls have delivered. -/
structure SharingStream where
  file : FILE
  flags : ℕ
  received : List Byte

inductive SharingOp where
  | fgetc
  | fgets (size : ℤ)
  | fread (size nmemb : ℕ)
  | ungetc (c : ℤ)
  | fputc (c : ℤ)
  | fputs (s : CString)
  | fwrite (ptr : List Byte) (size nmemb : ℕ)

/-- The bytes that a stream has delivered after a call, those that the call says it has written, and the stream. A byte
pushed back is not delivered any more. -/
def execSharing (fd : Descriptor κ) (received : List Byte) (st : Stream κ) :
    SharingOp → List Byte × List Byte × Stream κ
  | .fgetc => let (c, st) := fd.fgetc st; (received ++ deliveredByte c, [], st)
  | .fgets size => let (line, st) := fd.fgets size st; (received ++ line.getD [], [], st)
  | .fread size nmemb =>
    let (items, bytes, st) := fd.fread size nmemb st
    (received ++ bytes.take (items * size), [], st)
  | .ungetc c =>
    let (result, st) := st.ungetc c
    (if result = EOF then received else received.dropLast, [], st)
  | .fputc c => let (result, st) := fd.fputc c st; (received, deliveredByte result, st)
  | .fputs text =>
    let (result, st) := fd.fputs text st
    (received, if result = EOF then [] else text.map CChar.byte, st)
  | .fwrite ptr size nmemb =>
    let (items, st) := fd.fwrite ptr size nmemb st
    (received, ptr.take (items * size), st)

/-- The kernel, the streams in the order of their opening, and the bytes reported as written. -/
structure SharingWorld (κ : Type) where
  kernel : κ
  streams : List SharingStream
  logged : List Byte

inductive SharingCall where
  | fopen (mode : CString) (memory : Bool)
  | use (stream : ℕ) (op : SharingOp)

/-- A call of `fopen` that fails makes no stream, and a stream has to be opened before it is used. -/
def sharingStep (kernel : FileKernel κ) (pathname : CString) (w : SharingWorld κ) :
    SharingCall → Option (SharingWorld κ)
  | .fopen mode memory =>
    let (opened, k) := fopen kernel.openFile memory pathname mode w.kernel
    some ⟨k, w.streams ++ (opened.map fun file => ⟨file, fopenFlags mode, []⟩).toList, w.logged⟩
  | .use stream op =>
    w.streams[stream]?.map fun s =>
      let (received, written, st) := execSharing (kernel.descriptor s.file.fd) s.received ⟨s.file, w.kernel⟩ op
      ⟨st.state, w.streams.set stream ⟨st.file, s.flags, received⟩, w.logged ++ written⟩

/-- A byte is pushed back only into an empty slot, as it was delivered last; `fread` reads single bytes and finds
nothing pushed back; and what `fwrite` writes is there. -/
def OpAllowed (s : SharingStream) : SharingOp → Prop
  | .fread size _ => size = 1 ∧ s.file.unget = -1
  | .ungetc c => 0 ≤ c ∧ c < 256 ∧ s.file.unget = -1 ∧ s.received.getLast? = some (BitVec.ofInt 8 c)
  | .fwrite ptr size nmemb => size * nmemb < 2 ^ 32 ∧ size * nmemb ≤ ptr.length
  | _ => True

/-- The file is opened for reading or for appending, and a stream is used after it was opened. -/
def SharingDiscipline (w : SharingWorld κ) : SharingCall → Prop
  | .fopen mode _ => strchr mode (chr '+').byte = none ∧ mode.head? ≠ some (chr 'w')
  | .use stream op => ∃ s, w.streams[stream]? = some s ∧ OpAllowed s op

/-- No stream is open yet. -/
def SharingWorld.closed (k : κ) : SharingWorld κ := ⟨k, [], []⟩

end CLite
