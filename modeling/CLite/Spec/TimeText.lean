import CLite.Model.Strftime
import CLite.Spec.IntegerFields

/-! # The expansion of a time format

What a format stands for, without a look at the room: its plain characters, and behind each percent sign a letter that
names a field of the broken-down time or stands for itself.
-/

namespace CLite

open ByteMemory

/-- A name of a table, or a question mark. -/
def nameText (names : List String) (index : ℤ) : List Byte :=
  asciis (if 0 ≤ index then names.getD index.toNat "?" else "?")

/-- A number in decimal. -/
def decimalText (n : ℕ) : List Byte :=
  (if n = 0 then [0] else (Nat.digits 10 n).reverse).map (digitGlyph false)

/-- A signed number with zeros between the sign and the digits, up to a width. -/
def zerosField (width : ℕ) (value : ℤ) : List Byte :=
  let sign := if value < 0 then [ascii '-'] else []
  sign ++ List.replicate (width - (sign ++ decimalText value.natAbs).length) (ascii '0') ++ decimalText value.natAbs

/-- A signed number behind blanks, up to a width. -/
def blanksField (width : ℕ) (value : ℤ) : List Byte :=
  let text := (if value < 0 then [ascii '-'] else []) ++ decimalText value.natAbs
  List.replicate (width - text.length) (ascii ' ') ++ text

namespace Tm

variable (tm : Tm)

/-- The hour on a clock face. -/
def hour12 : ℤ := if tm.hour.toInt.tmod 12 = 0 then 12 else tm.hour.toInt.tmod 12

/-- The number of the month; `int` arithmetic wraps. -/
def month : ℤ := int32 (tm.mon.toInt + 1)

/-- The year of the era; `int` arithmetic wraps. -/
def fullYear : ℤ := int32 (tm.year.toInt + 1900)

/-- What a letter behind a percent sign stands for. -/
def fieldText (x : CChar) : List Byte :=
  if x = chr 'a' then nameText wdayName tm.wday.toInt
  else if x = chr 'A' then nameText wdayFullname tm.wday.toInt
  else if x = chr 'b' ∨ x = chr 'h' then nameText monName tm.mon.toInt
  else if x = chr 'B' then nameText monFullname tm.mon.toInt
  else if x = chr 'd' then zerosField 2 tm.mday.toInt
  else if x = chr 'e' then blanksField 2 tm.mday.toInt
  else if x = chr 'H' then zerosField 2 tm.hour.toInt
  else if x = chr 'I' then zerosField 2 tm.hour12
  else if x = chr 'm' then zerosField 2 tm.month
  else if x = chr 'M' then zerosField 2 tm.min.toInt
  else if x = chr 'p' then asciis (if 12 ≤ tm.hour.toInt then "PM" else "AM")
  else if x = chr 'S' then zerosField 2 tm.sec.toInt
  else if x = chr 'Y' then blanksField 0 tm.fullYear
  else if x = chr 'y' then zerosField 2 (tm.fullYear.tmod 100)
  else [x.byte]

/-- The full expansion of a format. A percent sign with nothing behind it stands for nothing. -/
def expansion : CString → List Byte
  | [] => []
  | [x] => if x = chr '%' then [] else [x.byte]
  | x :: y :: format => if x = chr '%' then tm.fieldText y ++ expansion format else x.byte :: expansion (y :: format)

end Tm

/-- The format in front of a percent sign at its end that has nothing behind it, if there is one. -/
def loneFront : CString → Option CString
  | [] => none
  | [x] => if x = chr '%' then some [] else none
  | x :: y :: format =>
    if x = chr '%' then (loneFront format).map fun front => x :: y :: front
    else (loneFront (y :: format)).map (x :: ·)

/-- A percent sign with nothing behind it comes after a text that leaves some of the room. -/
def Tm.LoneReached (tm : Tm) (room : ℕ) (format : CString) : Prop :=
  ∃ front, loneFront format = some front ∧ (tm.expansion front).length < room

end CLite
