import CLite.Model.Streams

/-! # The logical stream

The bytes that a caller should still receive: a pushed-back byte first, then what is unread. Each call takes
its bytes from the front, and pushing a byte back puts it there.
-/

namespace CLite

open ByteMemory

/-- The pushed-back byte and the unread ones. -/
def InStream.logical (st : InStream) : List Byte :=
  (if st.file.unget = -1 then [] else [BitVec.ofInt 8 st.file.unget]) ++ st.unread

/-- At most `room` bytes, up to and with the end of the line. -/
def takeLine : ℕ → List Byte → List Byte
  | 0, _ => []
  | _ + 1, [] => []
  | room + 1, x :: xs => if x = 10 then [x] else x :: takeLine room xs

/-- What a call should deliver of a logical stream. If `read` can fail, it may be less. -/
def Delivers (reliable : Prop) (stream : List Byte) (call : StreamCall) (delivered : List Byte) : Prop :=
  match call with
  | .getchar | .fgetc | .getc => delivered <+: stream.take 1 ∧ (reliable → delivered = stream.take 1)
  | .fgets size =>
    delivered <+: takeLine (size - 1).toNat stream ∧ (reliable → delivered = takeLine (size - 1).toNat stream)
  | .fread size nmemb =>
    delivered <+: stream.take (freadTotal size nmemb) ∧
      (reliable → delivered = [] → stream = [] ∨ freadTotal size nmemb = 0)
  | .ungetc _ => delivered = []

/-- The logical stream after a call. -/
def logicalNext (stream : List Byte) (call : StreamCall) (delivered : List Byte) : List Byte :=
  match call with
  | .ungetc c => BitVec.ofInt 8 c :: stream
  | _ => stream.drop delivered.length

/-- Successive calls deliver the bytes of the logical stream in order, and what they leave of it is what the
stream still holds. -/
def InOrder (reliable : Prop) (schedule : ReadSchedule) : List Byte → InStream → List StreamCall → Prop
  | stream, st, [] => st.logical = stream
  | stream, st, call :: calls =>
    Delivers reliable stream call (execStream schedule st call).1 ∧
      InOrder reliable schedule (logicalNext stream call (execStream schedule st call).1)
        (execStream schedule st call).2 calls

end CLite
