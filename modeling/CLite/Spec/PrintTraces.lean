import CLite.Lib.LoopTrace
import CLite.Model.FormatCursors
import CLite.Spec.PrintPieces

/-! # Traces of `vsnprintf`

What there is to say about the points that `vsnprintf` comes to: whether the directive there is cut short, whether it
prints more than its buffer holds, and whether the format cursor is inside its string.
-/

namespace CLite

open LoopTrace ByteMemory BoundedSink

/-- The points that `vsnprintf` goes through; there are none without a destination. -/
def PrintTrace (args : Arguments) (memory : Memory) (str size : ℕ) (format : CString) (cursor : ℕ)
    (trace : List PrintPoint) : Prop :=
  if str = 0 ∨ size = 0 then trace = []
  else Trace (printPoint args) (.head (some format) cursor ⟨memory, str, size⟩) trace

/-- The precision that `%f` uses. -/
def Directive.fixedPrecision (d : Directive) : ℕ := if 0 ≤ d.precision then d.precision.toNat else 6

/-- The number of characters of a `%f`: sign, integer digits, point and fraction. -/
def fixedLength (value : Rounded) (prec : ℕ) : ℕ :=
  (if value.negative then 1 else 0) + max 1 (Nat.digits 10 value.intPart.toNat).length +
    if 0 < prec then prec + 1 else 0

namespace PrintPoint

/-- There is room, and the format ends inside the directive that comes next. -/
inductive CutShort : PrintPoint → Prop where
  | intro {y : CChar} {rest : CString} {cursor : ℕ} {sink : Sink Byte} (room : 1 < sink.rem) (opened : y ≠ chr '%')
      (ended : afterOptions (y :: rest) = []) : CutShort (.head (some (chr '%' :: y :: rest)) cursor sink)

/-- There is room, and the directive that comes next is a `%f` of 64 characters or more. -/
inductive Overruns (args : Arguments) : PrintPoint → Prop where
  | intro {y : CChar} {rest tail : CString} {cursor : ℕ} {sink : Sink Byte} {d : Directive} (room : 1 < sink.rem)
      (opened : y ≠ chr '%') (reached : afterOptions (y :: rest) = chr 'f' :: tail)
      (parsed : parseDirective args (y :: rest) cursor = d)
      (long : 64 ≤ fixedLength (args.rounded (args.double d.cursor) d.fixedPrecision) d.fixedPrecision) :
      Overruns args (.head (some (chr '%' :: y :: rest)) cursor sink)

/-- The cursor points into the format, the terminator included. -/
def Inside (format : CString) : PrintPoint → Prop
  | .head (some f) _ _ => f <:+ format
  | _ => False

end PrintPoint

/-- `vsnprintf` keeps the format cursor inside its string and stops. -/
def PrintsInside (args : Arguments) (memory : Memory) (str size : ℕ) (format : CString) (cursor : ℕ) : Prop :=
  ∃ trace, PrintTrace args memory str size format cursor trace ∧ (∀ p ∈ trace, p.Inside format) ∧
    ∃ result, vsnprintf args memory str size format cursor = some result

end CLite
