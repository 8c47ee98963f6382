import CLite.Model.Scanf

/-! # The format cursors of `vsnprintf` and `vsscanf`

The main loops again, one round at a time and with the pointer into the format kept in sight. A pointer into a
string is what remains of the string from there; `none` is a pointer behind the terminator. Within a round a cursor
only moves forward, so where it is at the end of the round is how far it came.
-/

namespace CLite

open ByteMemory BoundedSink

abbrev Cursor := Option CString

/-- `*p++`, the pointer after it. -/
def advance : CString → Cursor
  | [] => none
  | _ :: rest => some rest

/-- `vsnprintf` at the head of its loop, or after a write past the end of `fbuf`, from which nothing is known. -/
inductive PrintPoint where
  | head (format : Cursor) (cursor : ℕ) (sink : Sink Byte)
  | overrun

/-- One round of `vsnprintf`. A directive that the terminator ends is a default case: the terminator is stored if
there is room, and the cursor moves behind it. -/
def printPoint (args : Arguments) : PrintPoint → Option PrintPoint
  | .head (some (x :: format)) cursor sink =>
    if 1 < sink.rem then
      if x ≠ chr '%' then some (.head (some format) cursor (sink.put x.byte))
      else
        match format with
        | [] => some (.head (some []) cursor sink)
        | y :: rest =>
          if y = chr '%' then some (.head (some rest) cursor (sink.put (ascii '%')))
          else
            let d := parseDirective args (y :: rest) cursor
            match d.format with
            | [] => some (.head (advance []) d.cursor (sink.offer 0))
            | conv :: rest =>
              match d.convert args conv sink with
              | none => some .overrun
              | some after => some (.head (some rest) after.2 after.1)
    else none
  | _ => none

/-- `vsscanf` at the head of its loop, or where it has left it. -/
structure ScanPoint where
  format : Cursor
  state : Scanning
  left : Bool

/-- The format cursor when a round ends, from the input at its start. The conversion character of a directive is
passed over whether there is one or not. -/
def roundEnd (x : CChar) (f s : CString) : Cursor :=
  let directiveEnd (f : CString) : Cursor := advance (scanLength (numberLoop 0 f).2).2
  if isSpace x then some (f.dropWhile isSpace)
  else if x ≠ chr '%' then if s.head? = some x then some f else some (x :: f)
  else if f.head? = some (chr '%') then if s.head? = some (chr '%') then some f.tail else some f
  else if f.head? = some (chr '*') then directiveEnd f.tail
  else directiveEnd f

/-- One round of `vsscanf`. A directive without a conversion character only skips blanks, and the next test of the
loop would read behind the terminator. -/
def scanPoint (str : CString) (p : ScanPoint) : Option ScanPoint :=
  match p.format with
  | some (x :: f) =>
    if p.left then none
    else
      match scanRound str x f p.state with
      | .leave state => some ⟨roundEnd x f p.state.s, state, true⟩
      | .next _ state => some ⟨roundEnd x f p.state.s, state, false⟩
      | .undefined => some ⟨roundEnd x f p.state.s, { p.state with s := p.state.s.dropWhile isSpace }, false⟩
  | _ => none

end CLite
