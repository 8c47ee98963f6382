import CLite.Model.Printf

/-! # `strftime`

`strftime` of `time.c`. The place `p` and the room up to `end` are a sink, of which the last cell is kept for the
terminator. The local array `temp` is a memory of its own, with whatever `stack` has there before.
-/

namespace CLite

open ByteMemory BoundedSink

/-- The fields of `struct tm` that `strftime` reads. -/
structure Tm where
  sec : BitVec 32
  min : BitVec 32
  hour : BitVec 32
  mday : BitVec 32
  mon : BitVec 32
  year : BitVec 32
  wday : BitVec 32

def wdayName : List String := ["Sun", "Mon", "Tue", "Wed", "Thu", "Fri", "Sat"]

def wdayFullname : List String :=
  ["Sunday", "Monday", "Tuesday", "Wednesday", "Thursday", "Friday", "Saturday"]

def monName : List String :=
  ["Jan", "Feb", "Mar", "Apr", "May", "Jun", "Jul", "Aug", "Sep", "Oct", "Nov", "Dec"]

def monFullname : List String :=
  ["January", "February", "March", "April", "May", "June", "July", "August", "September", "October", "November",
    "December"]

/-- A string constant as bytes of the output. -/
def asciis (s : String) : List Byte := s.toList.map ascii

/-- An entry of a table of names up to `last`. -/
def tableEntry (names : List String) (last : ℤ) (index : BitVec 32) : List Byte :=
  asciis (if 0 ≤ index.toInt ∧ index.toInt ≤ last then names.getD index.toNat "" else "?")

/-- The string at an address of an object of `size` bytes; `none` is a read past its end. -/
def tempString (memory : Memory) (address : ℕ) : ℕ → Option (List Byte)
  | 0 => none
  | size + 1 =>
    if memory address = 0 then some [] else (tempString memory (address + 1) size).map (memory address :: ·)

/-- The string that `snprintf` leaves in `temp`. -/
def tempText (stack : Memory) (format : CString) (value : BitVec 32) : Option (List Byte) :=
  (vsnprintf (.ofWords [value]) stack 1 32 format 0).bind fun result => tempString result.2 1 32

/-- What the `switch` sets `sub` to; the outer `none` is the default case. -/
def substitution (stack : Memory) (tm : Tm) (x : CChar) : Option (Option (List Byte)) :=
  if x = chr 'a' then some (some (tableEntry wdayName 6 tm.wday))
  else if x = chr 'A' then some (some (tableEntry wdayFullname 6 tm.wday))
  else if x = chr 'b' ∨ x = chr 'h' then some (some (tableEntry monName 11 tm.mon))
  else if x = chr 'B' then some (some (tableEntry monFullname 11 tm.mon))
  else if x = chr 'd' then some (tempText stack (cstr "%02d") tm.mday)
  else if x = chr 'e' then some (tempText stack (cstr "%2d") tm.mday)
  else if x = chr 'H' then some (tempText stack (cstr "%02d") tm.hour)
  else if x = chr 'I' then
    some (tempText stack (cstr "%02d") (if tm.hour.srem 12 ≠ 0 then tm.hour.srem 12 else 12))
  else if x = chr 'm' then some (tempText stack (cstr "%02d") (tm.mon + 1))
  else if x = chr 'M' then some (tempText stack (cstr "%02d") tm.min)
  else if x = chr 'p' then some (some (asciis (if 12 ≤ tm.hour.toInt then "PM" else "AM")))
  else if x = chr 'S' then some (tempText stack (cstr "%02d") tm.sec)
  else if x = chr 'Y' then some (tempText stack (cstr "%d") (tm.year + 1900))
  else if x = chr 'y' then some (tempText stack (cstr "%02d") ((tm.year + 1900).srem 100))
  else none

/-- The main loop. `none`: the default case has copied the terminator of the format and the cursor is past it, or
`temp` is read past its end. -/
def strftimeLoop (stack : Memory) (tm : Tm) : CString → Sink Byte → Option (Sink Byte)
  | [], sink => some sink
  | [x], sink =>
    if 1 < sink.rem then if x ≠ chr '%' then some (sink.put x.byte) else none else some sink
  | x :: y :: format, sink =>
    if 1 < sink.rem then
      if x ≠ chr '%' then strftimeLoop stack tm (y :: format) (sink.put x.byte)
      else if y = chr '%' then strftimeLoop stack tm format (sink.put (ascii '%'))
      else
        match substitution stack tm y with
        | none => strftimeLoop stack tm format (sink.put y.byte)
        | some sub => sub.bind fun sub => strftimeLoop stack tm format (sink.putWhile sub)
    else some sink

/-- The returned length and the memory after the call; a null pointer is the address 0 or `none`. -/
def strftime (stack memory : Memory) (s max : ℕ) (format : Option CString) (tm : Option Tm) : Option (ℕ × Memory) :=
  match format, tm with
  | some format, some tm =>
    if s = 0 ∨ max = 0 then some (0, memory)
    else
      (strftimeLoop stack tm format ⟨memory, s, max⟩).map fun sink =>
        (sink.out - s, Function.update sink.mem sink.out 0)
  | _, _ => some (0, memory)

end CLite
