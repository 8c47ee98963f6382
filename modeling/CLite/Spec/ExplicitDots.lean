import CLite.Spec.PathPieces

/-! # Leading dots that are matched explicitly

The string is cut along the tokens, one part for each. A dot is leading at the start of the string and, for
path names, directly behind a slash. A leading dot has to lie in the part of a token that has it written out.
-/

namespace CLite

/-- The token can take this part of the string; for path names a wildcard takes no slash. -/
def Token.Takes (pathname : Bool) : Token → CString → Prop
  | .lit _ c, part => part = [c]
  | .any, part => ∃ c, part = [c] ∧ (pathname → c ≠ chr '/')
  | .star, part => pathname → chr '/' ∉ part
  | .set negated ranges, part => ∃ c, part = [c] ∧ InSet negated ranges c ∧ (pathname → c ≠ chr '/')

/-- The token has a dot written out: a literal dot, or a bracket expression that lists it. -/
def Token.WritesDot : Token → Prop
  | .lit _ c => c = chr '.'
  | .set _ ranges => ListsDot ranges
  | _ => False

/-- The position behind this text is a leading one. -/
def Leading (pathname : Bool) (before : CString) : Prop :=
  before = [] ∨ pathname ∧ before.getLast? = some (chr '/')

/-- Every leading dot of the part, which stands behind the text `before`, is written out in the token. -/
def DotsWritten (pathname : Bool) (before : CString) (token : Token) (part : CString) : Prop :=
  ∀ front back, part = front ++ chr '.' :: back → Leading pathname (before ++ front) → token.WritesDot

/-- Behind the text `before`, the string can be cut along the tokens with all leading dots written out. -/
def ExplicitDots (pathname : Bool) : CString → List Token → CString → Prop
  | _, [], string => string = []
  | before, token :: tokens, string =>
      ∃ part rest, string = part ++ rest ∧ token.Takes pathname part ∧
        DotsWritten pathname before token part ∧ ExplicitDots pathname (before ++ part) tokens rest

end CLite
