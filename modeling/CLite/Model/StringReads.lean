import CLite.Lib.Query
import CLite.Model.Printf

/-! # What `%s` reads

The case `'s'` of `vsnprintf` once more, with the bytes asked for in memory where the source reads them. The format
and the other conversions do not read through pointers. The destination does not overlap the string, as before.
-/

namespace CLite

open ByteMemory BoundedSink

/-- `strlen` with `len` characters counted already and `room` addresses from there to the end of the address space.
`none`: the read at the end of the address space, from which there is no result. -/
def strlenFrom (s len : ℕ) : ℕ → Query ℕ Byte (Option ℕ)
  | 0 => .ask (s + len) fun _ => .done none
  | room + 1 => .ask (s + len) fun c => if c = 0 then .done (some len) else strlenFrom s (len + 1) room

/-- The loop that copies `s[i]` on while `i < slen && rem > 1`, with `count` characters to go. -/
def copyFrom (s i : ℕ) : ℕ → Sink Byte → Query ℕ Byte (Sink Byte)
  | 0, sink => .done sink
  | count + 1, sink =>
    if 1 < sink.rem then .ask (s + i) fun c => copyFrom s (i + 1) count (sink.put c) else .done sink

namespace Directive

variable (args : Arguments) (d : Directive)

/-- `slen` after the precision. -/
def cutLength (len : ℕ) : ℕ := if 0 ≤ d.precision ∧ d.precision.toNat < len then d.precision.toNat else len

/-- The case `'s'`. A null pointer stands for a constant, which is no array of the caller. -/
def readString (sink : Sink Byte) : Query ℕ Byte (Option (Sink Byte)) :=
  let s := (args.word d.cursor).toNat
  if s = 0 then pure (some (d.putString args sink))
  else do
    -- the length is taken before the precision is looked at
    let len ← strlenFrom s 0 (2 ^ 32 - s)
    match len with
    | none => pure none
    | some len =>
      let slen := d.cutLength len
      let padding := List.replicate (padCount d.width (int32 slen)) (ascii ' ')
      let sink := if d.leftAlign then sink else sink.putWhile padding
      let sink ← copyFrom s 0 slen sink
      pure (some (if d.leftAlign then sink.putWhile padding else sink))

end Directive

/-- The addresses read through pointers in one round of the main loop. -/
def printStepReads (args : Arguments) (x : CChar) (format : CString) (cursor : ℕ) (sink : Sink Byte) : List ℕ :=
  if x ≠ chr '%' then []
  else
    match format with
    | [] => []
    | y :: rest =>
      if y = chr '%' then []
      else
        let d := parseDirective args (y :: rest) cursor
        if d.format.head? = some (chr 's') then (d.readString args sink).asked sink.mem else []

/-- The addresses read through pointers by the main loop. -/
def printReads (args : Arguments) (format : CString) (cursor : ℕ) (sink : Sink Byte) : List ℕ :=
  match format with
  | [] => []
  | x :: format =>
    if 1 < sink.rem then
      printStepReads args x format cursor sink ++
        match _ : printStep args x format cursor sink with
        | none => []
        | some after => printReads args after.format after.cursor after.sink
    else []
termination_by format.length
decreasing_by exact Nat.lt_succ_of_le (printStep_length ‹_›)

/-- The addresses that a call reads through the pointers among its arguments. -/
def vsnprintfReads (args : Arguments) (memory : Memory) (str size : ℕ) (format : CString) (cursor : ℕ) : List ℕ :=
  if str = 0 ∨ size = 0 then [] else printReads args format cursor ⟨memory, str, size⟩

end CLite
