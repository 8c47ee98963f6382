import CLite.Lib.LoopTrace
import CLite.Model.FormatCursors
import CLite.Spec.ScanDirectives

/-! # Traces of `vsscanf`

What there is to say about the points that `vsscanf` comes to: which directive stands there, whether it is cut short,
whether it stores a count, and whether the cursors are inside their strings.
-/

namespace CLite

open LoopTrace

/-- The point at which `vsscanf` starts. -/
def scanStart (str format : CString) : ScanPoint := ⟨some format, ⟨str, 0, []⟩, false⟩

/-- The points that `vsscanf` goes through. -/
def ScanTrace (str format : CString) (trace : List ScanPoint) : Prop :=
  Trace (scanPoint str) (scanStart str format) trace

namespace ScanPoint

/-- The format behind the percent sign of a directive that the loop is about to read. -/
def directiveText (p : ScanPoint) : Option CString :=
  match p.format with
  | some (x :: f) => if p.left = false ∧ x = chr '%' ∧ f.head? ≠ some (chr '%') then some f else none
  | _ => none

/-- The format ends inside the directive. -/
def CutShort (p : ScanPoint) : Prop := ∃ f, p.directiveText = some f ∧ readDirective f = none

/-- The directive at a point. -/
def directive (p : ScanPoint) : Option ScanDirective := (p.directiveText.bind readDirective).map Prod.fst

/-- The directive is a `%n` that is not suppressed. -/
def storesCount (p : ScanPoint) : Bool := p.directive.any fun d => d.slot = some .count ∧ d.suppress = false

/-- The directive is suppressed and the input has what it asks for. -/
def SuppressedMatch (p : ScanPoint) : Prop := ∃ d, p.directive = some d ∧ d.suppress = true ∧ d.Matches p.state.s

/-- The characters of the input before the cursor. -/
def position (str : CString) (p : ScanPoint) : ℕ := str.length - p.state.s.length

/-- The count that the round at a point stores. -/
def count? (str : CString) (p : ScanPoint) : Option ℤ :=
  if p.storesCount then
    (scanPoint str p).bind fun q =>
      match q.state.stores.getLast? with
      | some (.int value) => some value.toInt
      | _ => none
  else none

/-- Both cursors point into their strings, the terminators included. -/
def Inside (str format : CString) (p : ScanPoint) : Prop :=
  p.state.s <:+ str ∧ ∃ f, p.format = some f ∧ f <:+ format

end ScanPoint

/-- The returned value is the number of pointers that are stored through by directives other than `%n`, and those are
the first of their kind among the pointer arguments. -/
def CountsAssignments (str format : CString) (slots : List Slot) : Prop :=
  ∃ k stores taken, vsscanf str format = some (k, stores) ∧ taken <+: slots ∧ List.Forall₂ Slot.Holds taken stores ∧
    k = (taken.filter (· ≠ .count)).length ∧ taken.filter (· ≠ .count) = (slots.filter (· ≠ .count)).take k

/-- `vsscanf` keeps both cursors inside their strings and stops, and the counts that it stores are at most the length
of the input and do not decrease. -/
def StaysInside (str format : CString) : Prop :=
  ∃ trace, ScanTrace str format trace ∧ (∀ p ∈ trace, p.Inside str format) ∧
    (trace.filterMap (ScanPoint.count? str)).Pairwise (· ≤ ·) ∧
    (∀ count ∈ trace.filterMap (ScanPoint.count? str), count ≤ str.length) ∧
    ∃ result, vsscanf str format = some result

end CLite
