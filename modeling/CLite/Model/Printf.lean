import Mathlib.Data.Nat.Digits.Defs
import CLite.Lib.BoundedSink
import CLite.Lib.ByteMemory
import CLite.Model.CString
import CLite.Model.StringOps

/-! # Formatted output

The printf family of `stdio.c`. The variadic area is a stream of 32-bit words with a cursor, as a caller
on i386 pushes them. `int` arithmetic wraps at 32 bits. The strings that arguments point to are given by
their address and do not overlap the destination. The floating-point arithmetic of `%f` is a parameter;
what is done with its results is modelled.
-/

namespace CLite

open ByteMemory BoundedSink

/-- The value of an `int` that holds `value` modulo 2 to the 32. -/
def int32 (value : ℤ) : ℤ := value.bmod (2 ^ 32)

/-- A character constant as a byte of the output. -/
def ascii (c : Char) : Byte := BitVec.ofNat 8 c.toNat

/-- What `%f` computes from a double and a precision: the sign, the integer part after rounding and the
values that `(int)frac_part` takes. -/
structure Rounded where
  negative : Bool
  intPart : BitVec 32
  digit : ℕ → ℤ

/-- The variadic area and what its words refer to. -/
structure Arguments where
  word : ℕ → BitVec 32
  text : BitVec 32 → CString
  text_fits : ∀ address, (text address).length < 2 ^ 32
  rounded : BitVec 64 → ℕ → Rounded

namespace Arguments

/-- The double at the cursor, low word first. -/
def double (args : Arguments) (cursor : ℕ) : BitVec 64 := args.word (cursor + 1) ++ args.word cursor

/-- The string that a `%s` argument stands for. -/
def string (args : Arguments) (cursor : ℕ) : CString :=
  if args.word cursor = 0 then ['(', 'n', 'u', 'l', 'l', ')'].map chr else args.text (args.word cursor)

/-- Arguments given by their words, without strings and doubles. -/
def ofWords (words : List (BitVec 32)) : Arguments where
  word cursor := words.getD cursor 0
  text _ := []
  text_fits _ := Nat.two_pow_pos 32
  rounded _ _ := ⟨false, 0, fun _ => 0⟩

end Arguments

/-- An entry of the table `digits`. -/
def digitByte (uppercase : Bool) (digit : ℕ) : Byte :=
  if digit < 10 then ascii '0' + BitVec.ofNat 8 digit
  else ascii (if uppercase then 'A' else 'a') + BitVec.ofNat 8 (digit - 10)

/-- The array `buf` of `format_num`, least significant digit first and the sign last. -/
def numBuf (val base : ℕ) (uppercase negative : Bool) : List Byte :=
  (if val = 0 then [ascii '0'] else (Nat.digits base val).map (digitByte uppercase)) ++
    if negative then [ascii '-'] else []

/-- The number of padding characters for a field that is `used` wide already. -/
def padCount (width used : ℤ) : ℕ := if width > used then (int32 (width - used)).toNat else 0

def formatNum (sink : Sink Byte) (val base : ℕ) (uppercase : Bool) (width : ℤ) (pad : Byte)
    (negative leftAlign : Bool) : Sink Byte :=
  let buf := numBuf val base uppercase negative
  let count := padCount width buf.length
  if leftAlign then
    (List.replicate count (ascii ' ')).foldl Sink.offer (buf.reverse.foldl Sink.offer sink)
  else if pad = ascii '0' ∧ negative then
    -- the sign goes before the zeros and is skipped in the buffer
    (buf.take (buf.length - 1)).reverse.foldl Sink.offer
      ((List.replicate count pad).foldl Sink.offer (sink.offer (ascii '-')))
  else buf.reverse.foldl Sink.offer ((List.replicate count pad).foldl Sink.offer sink)

/-- The field of `%c`, `%s` and `%f`: padding, text and padding, each stopped by the end of the room. -/
def putField (sink : Sink Byte) (text : List Byte) (width used : ℤ) (leftAlign : Bool) : Sink Byte :=
  let padding := List.replicate (padCount width used) (ascii ' ')
  if leftAlign then (sink.putWhile text).putWhile padding else (sink.putWhile padding).putWhile text

def isDecimal (x : CChar) : Bool := 48 ≤ x.plain ∧ x.plain ≤ 57

def flagsLoop (leftAlign : Bool) (pad : Byte) : CString → Bool × Byte × CString
  | [] => (leftAlign, pad, [])
  | x :: format =>
    if x = chr '-' then flagsLoop true pad format
    else if x = chr '0' then flagsLoop leftAlign (ascii '0') format
    else if x = chr '+' ∨ x = chr ' ' ∨ x = chr '#' then flagsLoop leftAlign pad format
    else (leftAlign, pad, x :: format)

def numberLoop (value : ℤ) : CString → ℤ × CString
  | [] => (value, [])
  | x :: format =>
    if isDecimal x then numberLoop (int32 (value * 10 + (x.plain - 48))) format else (value, x :: format)

def modifiersLoop (isLong : ℕ) : CString → ℕ × CString
  | [] => (isLong, [])
  | x :: format =>
    if x = chr 'l' then modifiersLoop (isLong + 1) format
    else if x = chr 'h' ∨ x = chr 'z' ∨ x = chr 'j' ∨ x = chr 't' then modifiersLoop isLong format
    else (isLong, x :: format)

/-- What is known of a directive when its conversion character is reached. -/
structure Directive where
  leftAlign : Bool
  pad : Byte
  width : ℤ
  precision : ℤ
  isLong : ℕ
  format : CString
  cursor : ℕ

/-- The width: the alignment after it, its value, and where the format and the arguments go on. -/
def parseWidth (args : Arguments) (leftAlign : Bool) (format : CString) (cursor : ℕ) :
    Bool × ℤ × CString × ℕ :=
  match format with
  | [] => (leftAlign, 0, [], cursor)
  | x :: rest =>
    if x = chr '*' then
      let width := (args.word cursor).toInt
      -- a negative width aligns to the left; the padding character was settled before
      if width < 0 then (true, int32 (-width), rest, cursor + 1) else (leftAlign, width, rest, cursor + 1)
    else
      let (width, rest) := numberLoop 0 (x :: rest)
      (leftAlign, width, rest, cursor)

def parsePrecision (args : Arguments) (format : CString) (cursor : ℕ) : ℤ × CString × ℕ :=
  match format with
  | [] => (-1, [], cursor)
  | x :: rest =>
    if x = chr '.' then
      match rest with
      | [] => (0, [], cursor)
      | y :: rest =>
        if y = chr '*' then ((args.word cursor).toInt, rest, cursor + 1)
        else
          let (precision, rest) := numberLoop 0 (y :: rest)
          (precision, rest, cursor)
    else (-1, x :: rest, cursor)

/-- Flags, width, precision and length modifiers of the directive that `format` starts with. -/
def parseDirective (args : Arguments) (format : CString) (cursor : ℕ) : Directive :=
  let (leftAlign, pad, format) := flagsLoop false (ascii ' ') format
  let pad := if leftAlign then ascii ' ' else pad
  let (leftAlign, width, format, cursor) := parseWidth args leftAlign format cursor
  let (precision, format, cursor) := parsePrecision args format cursor
  let (isLong, format) := modifiersLoop 0 format
  ⟨leftAlign, pad, width, precision, isLong, format, cursor⟩

/-- The characters of the string that `%s` copies. -/
def stringField (text : CString) (precision : ℤ) : List Byte :=
  (if 0 ≤ precision then text.take precision.toNat else text).map CChar.byte

/-- The text that `%f` builds in `fbuf`; it has 64 bytes, of which the terminator takes one. -/
def fixedField (value : Rounded) (prec : ℕ) : Option (List Byte) :=
  let sign := if value.negative then [ascii '-'] else []
  let whole := (numBuf value.intPart.toNat 10 false false).reverse
  let fraction := if 0 < prec then
      ascii '.' :: (List.range prec).map fun k => ascii '0' + BitVec.ofInt 8 (min (value.digit k) 9)
    else []
  let text := sign ++ whole ++ fraction
  if text.length < 64 then some text else none

namespace Directive

variable (args : Arguments) (d : Directive)

def putChar (sink : Sink Byte) : Sink Byte :=
  putField sink [(args.word d.cursor).setWidth 8] d.width 1 d.leftAlign

def putString (sink : Sink Byte) : Sink Byte :=
  let text := stringField (args.string d.cursor) d.precision
  putField sink text d.width (int32 text.length) d.leftAlign

def putSigned (sink : Sink Byte) : Sink Byte :=
  let val := args.word d.cursor
  if val.toInt < 0 then formatNum sink (-val).toNat 10 false d.width d.pad true d.leftAlign
  else formatNum sink val.toNat 10 false d.width d.pad false d.leftAlign

/-- The conversions `u`, `x`, `X` and `o`. -/
def putUnsigned (base : ℕ) (uppercase : Bool) (sink : Sink Byte) : Sink Byte :=
  formatNum sink (args.word d.cursor).toNat base uppercase d.width d.pad false d.leftAlign

def putPointer (sink : Sink Byte) : Sink Byte :=
  let sink := if 3 < sink.rem then (sink.put (ascii '0')).put (ascii 'x') else sink
  formatNum sink (args.word d.cursor).toNat 16 false 8 (ascii '0') false false

/-- `none` is an overrun of `fbuf`. -/
def putFixed (sink : Sink Byte) : Option (Sink Byte) :=
  let prec := if 0 ≤ d.precision then d.precision.toNat else 6
  (fixedField (args.rounded (args.double d.cursor) prec) prec).map fun text =>
    putField sink text d.width (int32 text.length) d.leftAlign

/-- The `switch` on the conversion character: the sink and the cursor after it. `long` and `int` are both
one word, so `is_long` changes nothing. -/
def convert (conv : CChar) (sink : Sink Byte) : Option (Sink Byte × ℕ) :=
  if conv = chr 'c' then some (d.putChar args sink, d.cursor + 1)
  else if conv = chr 's' then some (d.putString args sink, d.cursor + 1)
  else if conv = chr 'd' ∨ conv = chr 'i' then some (d.putSigned args sink, d.cursor + 1)
  else if conv = chr 'u' then some (d.putUnsigned args 10 false sink, d.cursor + 1)
  else if conv = chr 'x' then some (d.putUnsigned args 16 false sink, d.cursor + 1)
  else if conv = chr 'X' then some (d.putUnsigned args 16 true sink, d.cursor + 1)
  else if conv = chr 'o' then some (d.putUnsigned args 8 false sink, d.cursor + 1)
  else if conv = chr 'p' then some (d.putPointer args sink, d.cursor + 1)
  else if conv = chr 'f' then (d.putFixed args sink).map fun sink => (sink, d.cursor + 2)
  else some (sink.offer conv.byte, d.cursor)

end Directive

/-- The loop variables of `vsnprintf`. -/
structure Printing where
  format : CString
  cursor : ℕ
  sink : Sink Byte

/-- One round of the main loop at the character `x`. `none`: the format ends inside a directive and the
loop would run past its terminator, or `fbuf` is overrun. -/
def printStep (args : Arguments) (x : CChar) (format : CString) (cursor : ℕ) (sink : Sink Byte) :
    Option Printing :=
  if x ≠ chr '%' then some ⟨format, cursor, sink.put x.byte⟩
  else
    match format with
    | [] => some ⟨[], cursor, sink⟩
    | y :: rest =>
      if y = chr '%' then some ⟨rest, cursor, sink.put (ascii '%')⟩
      else
        let d := parseDirective args (y :: rest) cursor
        match d.format with
        | [] => none
        | conv :: rest => (d.convert args conv sink).map fun after => ⟨rest, after.2, after.1⟩

theorem flagsLoop_length (leftAlign : Bool) (pad : Byte) (format : CString) :
    (flagsLoop leftAlign pad format).2.2.length ≤ format.length := by
  fun_induction flagsLoop leftAlign pad format <;> simp only [List.length_cons, le_refl] <;> omega

theorem numberLoop_length (value : ℤ) (format : CString) :
    (numberLoop value format).2.length ≤ format.length := by
  fun_induction numberLoop value format <;> simp only [List.length_cons, le_refl]
  omega

theorem modifiersLoop_length (isLong : ℕ) (format : CString) :
    (modifiersLoop isLong format).2.length ≤ format.length := by
  fun_induction modifiersLoop isLong format <;> simp only [List.length_cons, le_refl]
  all_goals omega

theorem parseWidth_length (args : Arguments) (leftAlign : Bool) (format : CString) (cursor : ℕ) :
    (parseWidth args leftAlign format cursor).2.2.1.length ≤ format.length := by
  unfold parseWidth
  split
  · exact le_refl _
  · split
    · dsimp only
      split <;> simp
    · exact numberLoop_length ..

theorem parsePrecision_length (args : Arguments) (format : CString) (cursor : ℕ) :
    (parsePrecision args format cursor).2.1.length ≤ format.length := by
  unfold parsePrecision
  split
  · exact le_refl _
  · split
    · split
      · simp
      · split
        · simp only [List.length_cons]
          omega
        · exact (numberLoop_length ..).trans (by simp)
    · exact le_refl _

/-- Parsing a directive never moves back in the format. -/
theorem parseDirective_length (args : Arguments) (format : CString) (cursor : ℕ) :
    (parseDirective args format cursor).format.length ≤ format.length := by
  unfold parseDirective
  apply (modifiersLoop_length ..).trans
  apply (parsePrecision_length ..).trans
  apply (parseWidth_length ..).trans
  apply flagsLoop_length

theorem printStep_length {args : Arguments} {x : CChar} {format : CString} {cursor : ℕ} {sink : Sink Byte}
    {after : Printing} (step : printStep args x format cursor sink = some after) :
    after.format.length ≤ format.length := by
  unfold printStep at step
  split at step
  · cases step
    exact le_refl _
  · split at step
    · cases step
      exact le_refl _
    · next y rest =>
      split at step
      · cases step
        simp
      · have parsed := parseDirective_length args (y :: rest) cursor
        simp only at step
        split at step
        · cases step
        · next conv tail shape =>
          rw [shape, List.length_cons] at parsed
          obtain ⟨converted, _, rfl⟩ := Option.map_eq_some_iff.mp step
          exact (Nat.le_succ _).trans parsed

/-- The main loop, `while (*format && rem > 1)`. -/
def printLoop (args : Arguments) (format : CString) (cursor : ℕ) (sink : Sink Byte) :
    Option (Sink Byte) :=
  match format with
  | [] => some sink
  | x :: format =>
    if 1 < sink.rem then
      match _ : printStep args x format cursor sink with
      | none => none
      | some after => printLoop args after.format after.cursor after.sink
    else some sink
termination_by format.length
decreasing_by exact Nat.lt_succ_of_le (printStep_length ‹_›)

/-- The returned value and the memory after the call; a null `str` is the address 0. -/
def vsnprintf (args : Arguments) (memory : Memory) (str size : ℕ) (format : CString) (cursor : ℕ) :
    Option (ℤ × Memory) :=
  if str = 0 ∨ size = 0 then some (0, memory)
  else
    (printLoop args format cursor ⟨memory, str, size⟩).map fun sink =>
      (int32 (sink.out - str : ℕ), Function.update sink.mem sink.out 0)

def vsprintf (args : Arguments) (memory : Memory) (str : ℕ) (format : CString) (cursor : ℕ) :
    Option (ℤ × Memory) :=
  vsnprintf args memory str 1048576 format cursor

/-- A block that `malloc` returned. -/
structure Block where
  address : ℕ
  size : ℕ

/-- `strlen` of a string in an object of `size` bytes; `none` is a read past its end. -/
def strlen (memory : Memory) (s : ℕ) : ℕ → Option ℕ
  | 0 => none
  | size + 1 => if memory s = 0 then some 0 else (strlen memory (s + 1) size).map (· + 1)

/-- `strdup` of a string in an object of `size` bytes, with `malloc` given by what it returns. -/
def strdup (malloc : ℕ → Option ℕ) (memory : Memory) (s size : ℕ) : Option (Option Block × Memory) :=
  (strlen memory s size).map fun len =>
    match malloc (len + 1) with
    | none => (none, memory)
    | some p => (some ⟨p, len + 1⟩, memcpy memory p s (len + 1))

/-- The returned value, `*strp` if it was stored, and the memory; `buf` is where the local array is. -/
def vasprintf (malloc : ℕ → Option ℕ) (args : Arguments) (memory : Memory) (buf : ℕ) (format : CString)
    (cursor : ℕ) : Option (ℤ × Option Block × Memory) := do
  let (len, memory) ← vsnprintf args memory buf 1024 format cursor
  if len < 0 then return (-1, none, memory)
  if len < 1024 then
    let (copy, memory) ← strdup malloc memory buf 1024
    return (if copy.isSome then len else -1, copy, memory)
  match malloc (len + 1).toNat with
  | none => return (-1, none, memory)
  | some p =>
    let (written, memory) ← vsnprintf args memory p (len + 1).toNat format cursor
    return (written, some ⟨p, (len + 1).toNat⟩, memory)

end CLite
