import CLite.Spec.PrintDirectives
import CLite.Spec.ScanDirectives

/-! # Fields of numbers

What a width means for an integer conversion: it reads the longest numeral within that many characters behind the
blanks. A format of several such directives splits a run of digits into fields.
-/

namespace CLite

inductive IntegerConversion where
  | d | i | u | x | X
deriving DecidableEq

def IntegerConversion.char : IntegerConversion → CChar
  | .d => chr 'd'
  | .i => chr 'i'
  | .u => chr 'u'
  | .x => chr 'x'
  | .X => chr 'X'

/-- An integer directive by its grammar. -/
structure IntegerDirective where
  suppress : Bool
  width : List (Fin 10)
  length : ScanLength
  conversion : IntegerConversion

namespace IntegerDirective

variable (d : IntegerDirective)

/-- The characters behind the percent sign. -/
def text : CString :=
  (if d.suppress then [chr '*'] else []) ++ (digitsText d.width ++ (d.length.text ++ [d.conversion.char]))

def widthValue : ℕ := Nat.ofDigits 10 (d.width.map Fin.val).reverse

def base : ℕ :=
  match d.conversion with
  | .d | .u => 10
  | .i => 0
  | .x | .X => 16

/-- The input of a directive, behind the blanks. -/
def input (state : Scanning) : CString := state.s.dropWhile isSpace

/-- The characters within the width. -/
def field (state : Scanning) : CString := (input state).take d.widthValue

/-- The state after a numeral is taken. -/
def taken (state : Scanning) (n : Numeral) : Scanning where
  s := (input state).drop n.text.length
  matched := state.matched + 1
  stores := if d.suppress then state.stores else state.stores ++ [d.length.store (n.value d.base)]

/-- The state after blanks are skipped. -/
def skipped (state : Scanning) : Scanning := { state with s := input state }

/-- The directive takes the longest numeral within its width and stores its value, or leaves the loop if there is
none. -/
structure Reads (str f : CString) (state : Scanning) : Prop where
  taken : ∀ n, Starts d.base n (d.field state) →
    scanRound str (chr '%') (d.text ++ f) state = .next f (d.taken state n)
  refused : (∀ n, ¬ Starts d.base n (d.field state)) →
    scanRound str (chr '%') (d.text ++ f) state = .leave (skipped state)

/-- The numeral of the input does not reach beyond the width, and as a `long long` it is a `long`. A bare prefix
is not read, and so it should be beyond the width too. -/
def Fits (state : Scanning) : Prop :=
  ∀ n, Starts d.base n (input state) →
    (BarePrefix d.base (input state) ∧ d.widthValue < n.text.length) ∨
    (¬ BarePrefix d.base (input state) ∧ n.text.length ≤ d.widthValue ∧
      (d.suppress = false → d.length = .ll →
        LONG_MIN ≤ (n.value d.base).bmod (2 ^ 64) ∧ (n.value d.base).bmod (2 ^ 64) ≤ LONG_MAX))

end IntegerDirective

/-- A format of integer directives. -/
def fieldsFormat (directives : List IntegerDirective) : CString := directives.flatMap fun d => chr '%' :: d.text

/-- The input is split into the fields of the directives, up to the first that has no numeral. -/
inductive SplitsFields : List IntegerDirective → Scanning → Scanning → Prop where
  | done {state} : SplitsFields [] state state
  | field {d ds state n final} (starts : Starts d.base n (d.field state))
      (later : SplitsFields ds (d.taken state n) final) : SplitsFields (d :: ds) state final
  | refused {d ds state} (absent : ∀ n, ¬ Starts d.base n (d.field state)) :
      SplitsFields (d :: ds) state (IntegerDirective.skipped state)

/-- Each directive fits at the place where the fields before it end. -/
def FieldsFit : List IntegerDirective → Scanning → Prop
  | [], _ => True
  | d :: ds, state => d.Fits state ∧ ∀ n, Starts d.base n (d.field state) → FieldsFit ds (d.taken state n)

end CLite
