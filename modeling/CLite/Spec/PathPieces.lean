import CLite.Spec.PatternTokens

/-! # Patterns cut at their slashes

A slash of a pattern, plain or escaped, cuts it unless it stands inside a well-formed bracket expression. The
grammar cuts the text, so that the pieces are patterns again.
-/

namespace CLite

/-- The pieces of a pattern between its slashes. -/
inductive PatternPieces : CString → List CString → Prop
  | nil : PatternPieces [] [[]]
  | slash {rest : CString} {pieces : List CString} (tail : PatternPieces rest pieces) :
      PatternPieces (chr '/' :: rest) ([] :: pieces)
  | escapedSlash {rest : CString} {pieces : List CString} (tail : PatternPieces rest pieces) :
      PatternPieces (chr '\\' :: chr '/' :: rest) ([] :: pieces)
  | escape {c : CChar} {rest piece : CString} {pieces : List CString} (other : c ≠ chr '/')
      (tail : PatternPieces rest (piece :: pieces)) :
      PatternPieces (chr '\\' :: c :: rest) ((chr '\\' :: c :: piece) :: pieces)
  | bracket {text rest piece : CString} {pieces : List CString} {negated : Bool}
      {ranges : List (CChar × CChar)} (closed : Bracket (text ++ rest) negated ranges rest)
      (tail : PatternPieces rest (piece :: pieces)) :
      PatternPieces (chr '[' :: (text ++ rest)) ((chr '[' :: (text ++ piece)) :: pieces)
  | unclosed {p piece : CString} {pieces : List CString}
      (unclosed : ∀ negated ranges rest, ¬ Bracket p negated ranges rest)
      (tail : PatternPieces p (piece :: pieces)) :
      PatternPieces (chr '[' :: p) ((chr '[' :: piece) :: pieces)
  | ordinary {c : CChar} {rest piece : CString} {pieces : List CString}
      (inner : c ≠ chr '/' ∧ c ≠ chr '[') (unescaped : c = chr '\\' → rest = [])
      (tail : PatternPieces rest (piece :: pieces)) : PatternPieces (c :: rest) ((c :: piece) :: pieces)

/-- A slash of the pattern, as a token. -/
def Token.isSlash : Token → Bool
  | .lit _ c => c = chr '/'
  | _ => false

/-- A slash of the string. -/
def CChar.isSlash (c : CChar) : Bool := c = chr '/'

/-- The slashes that the matcher takes for a start: the ones that are not escaped. -/
def Token.opensStart : Token → Bool
  | .lit escaped _ => !escaped
  | _ => false

end CLite
