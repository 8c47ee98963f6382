import CLite.Lib.CallRun
import CLite.Model.Printf
import CLite.Model.StreamCalls

/-! # Transfers

A kernel that moves as much of each request as it likes, from one byte to all of it, or reports an end of file or
an error. The bytes to be read come from an endless source, and the bytes written are kept, so that what each call
of `fread` and `fwrite` says can be held against what was moved.
-/

namespace CLite

open ByteMemory CallRun

/-- How the kernel answers a read or a write. -/
inductive Transfer where
  | moved (offered : ℕ)
  | ended
  | failed (code : ℕ)

namespace Transfer

/-- The number of bytes moved by a request for `n` bytes. -/
def count (n : ℕ) : Transfer → ℕ
  | moved offered => min (max 1 offered) n
  | _ => 0

/-- What the system call returns; a count is returned as an `int`. -/
def result (n : ℕ) : Transfer → ℤ
  | moved offered => int32 (count n (moved offered))
  | ended => 0
  | failed code => Int.negSucc code

/-- An end of file or an error. -/
def Trouble : Transfer → Prop
  | moved _ => False
  | _ => True

end Transfer

/-- The system calls so far, the bytes consumed from the source and the bytes accepted. -/
structure Transferred where
  calls : ℕ
  consumed : ℕ
  accepted : List Byte

/-- The bytes of the source from a position on. -/
def sourceBytes (source : ℕ → Byte) (position count : ℕ) : List Byte :=
  (List.range count).map fun index => source (position + index)

/-- The descriptor of a kernel whose answers are scheduled. -/
def transferDescriptor (schedule : ℕ → Transfer) (source : ℕ → Byte) : Descriptor Transferred where
  read n state :=
    let count := (schedule state.calls).count n
    ((schedule state.calls).result n, sourceBytes source state.consumed count,
      { state with calls := state.calls + 1, consumed := state.consumed + count })
  write bytes state :=
    let count := (schedule state.calls).count bytes.length
    ((schedule state.calls).result bytes.length,
      { state with calls := state.calls + 1, accepted := state.accepted ++ bytes.take count })
  lseek _ _ state := (-1, state)

inductive TransferCall where
  | fread (size nmemb : ℕ)
  | fwrite (ptr : List Byte) (size nmemb : ℕ)

namespace TransferCall

def size : TransferCall → ℕ
  | fread size _ => size
  | fwrite _ size _ => size

def nmemb : TransferCall → ℕ
  | fread _ nmemb => nmemb
  | fwrite _ _ nmemb => nmemb

/-- The bytes that all elements have. -/
def total (call : TransferCall) : ℕ := call.size * call.nmemb

/-- What is to be written stands behind the pointer. -/
def Behind : TransferCall → Prop
  | fread _ _ => True
  | fwrite ptr size nmemb => size * nmemb ≤ ptr.length

/-- There are elements, and their bytes are counted by a `size_t`. -/
structure Valid (call : TransferCall) : Prop where
  size : 1 ≤ call.size
  nmemb : 1 ≤ call.nmemb
  total : call.total < 2 ^ 32
  behind : call.Behind

/-- Exactly `count` bytes of the call were consumed from the source, or accepted. -/
def Moves (before next : Transferred) (count : ℕ) : TransferCall → Prop
  | fread _ _ => next.consumed = before.consumed + count ∧ next.accepted = before.accepted
  | fwrite ptr _ _ => next.consumed = before.consumed ∧ next.accepted = before.accepted ++ ptr.take count

end TransferCall

section Runs

variable (schedule : ℕ → Transfer) (source : ℕ → Byte)

/-- The number of elements returned, the bytes of these elements and the stream after the call. -/
def execTransfer (st : Stream Transferred) : TransferCall → ℕ × List Byte × Stream Transferred
  | .fread size nmemb =>
    let (items, bytes, next) := (transferDescriptor schedule source).fread size nmemb st
    (items, bytes.take (items * size), next)
  | .fwrite ptr size nmemb =>
    let (items, next) := (transferDescriptor schedule source).fwrite ptr size nmemb st
    (items, ptr.take (items * size), next)

def transferStep (st : Stream Transferred) (call : TransferCall) : Option (Stream Transferred) :=
  some (execTransfer schedule source st call).2.2

/-- Fewer elements are returned only if an end of file or an error occurred during the call. Otherwise the bytes of
all elements were moved, and no more. -/
def CallAccounts (st : Stream Transferred) (call : TransferCall) : Prop :=
  let (items, _, next) := execTransfer schedule source st call
  (items < call.nmemb →
    ∃ index, st.state.calls ≤ index ∧ index < next.state.calls ∧ (schedule index).Trouble) ∧
  (¬ items < call.nmemb → call.Moves st.state next.state call.total)

/-- The bytes of all elements that the calls have read, those of all elements that they have written, and the
stream after them. -/
def transferRun : Stream Transferred → List TransferCall → List Byte × List Byte × Stream Transferred
  | st, [] => ([], [], st)
  | st, call :: calls =>
    let (_, bytes, next) := execTransfer schedule source st call
    let (received, sent, final) := transferRun next calls
    match call with
    | .fread _ _ => (bytes ++ received, sent, final)
    | .fwrite _ _ _ => (received, bytes ++ sent, final)

/-- The elements read are the bytes consumed from the source, and the elements written are the bytes accepted: none
is dropped and none is repeated. -/
def NothingLost (st : Stream Transferred) (calls : List TransferCall) : Prop :=
  let (received, sent, final) := transferRun schedule source st calls
  final.state.consumed = st.state.consumed + received.length ∧
    received = sourceBytes source st.state.consumed received.length ∧
    final.state.accepted = st.state.accepted ++ sent

/-- The answer to the call is an end of file or an error, or it moves the whole request at once and the count is an
`int`. -/
def Undivided (st : Stream Transferred) (call : TransferCall) : Prop :=
  (schedule st.state.calls).Trouble ∨
    (schedule st.state.calls).count call.total = call.total ∧ call.total < 2 ^ 31

end Runs

end CLite
