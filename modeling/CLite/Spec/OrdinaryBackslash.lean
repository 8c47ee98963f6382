import CLite.Spec.PatternTokens
import Mathlib.Logic.Relation

/-! # Patterns in which backslashes are ordinary

Outside of bracket expressions a backslash stands for itself. Inside there are two readings: it escapes the next
member, or it stands for itself there, too. Doubling the backslashes of a pattern should say the latter in the
grammar with escapes. A match is a path through the places of the pattern and the string, and the two readings go
different ways only where a bracket expression is compared with a character.
-/

namespace CLite

/-- Each backslash of the pattern is doubled. -/
def doubled : CString → CString
  | [] => []
  | c :: p => if c = chr '\\' then chr '\\' :: chr '\\' :: doubled p else c :: doubled p

/-- The items of a bracket expression, where each member is one character. -/
inductive OrdinaryItems : Bool → CString → List (CChar × CChar) → CString → Prop
  | close (rest : CString) : OrdinaryItems false (chr ']' :: rest) [] rest
  | single {first : Bool} {c : CChar} {p rest : CString} {ranges : List (CChar × CChar)}
      (inside : first = true ∨ c ≠ chr ']') (alone : ¬ StartsRange p)
      (tail : OrdinaryItems false p ranges rest) : OrdinaryItems first (c :: p) ((c, c) :: ranges) rest
  | range {first : Bool} {lo hi : CChar} {p rest : CString} {ranges : List (CChar × CChar)}
      (inside : first = true ∨ lo ≠ chr ']') (inner : hi ≠ chr ']')
      (tail : OrdinaryItems false p ranges rest) :
      OrdinaryItems first (lo :: chr '-' :: hi :: p) ((lo, hi) :: ranges) rest

/-- A well-formed bracket expression without escapes, behind its `[`. -/
inductive OrdinaryBracket : CString → Bool → List (CChar × CChar) → CString → Prop
  | negated {mark : CChar} {p rest : CString} {ranges : List (CChar × CChar)}
      (marked : mark = chr '!' ∨ mark = chr '^') (items : OrdinaryItems true p ranges rest) :
      OrdinaryBracket (mark :: p) true ranges rest
  | positive {p rest : CString} {ranges : List (CChar × CChar)}
      (unmarked : p.head? ≠ some (chr '!') ∧ p.head? ≠ some (chr '^'))
      (items : OrdinaryItems true p ranges rest) : OrdinaryBracket p false ranges rest

/-- What a backslash does inside of a bracket expression. -/
inductive Backslash where
  | escapes
  | ordinary

/-- The bracket expression behind its `[`, as the reading closes it. -/
def Backslash.Closes : Backslash → CString → Bool → List (CChar × CChar) → CString → Prop
  | .escapes => Bracket
  | .ordinary => OrdinaryBracket

/-- The tokens of a pattern in which no backslash escapes anything outside of bracket expressions. -/
inductive ReadTokens (reading : Backslash) : CString → List Token → Prop
  | nil : ReadTokens reading [] []
  | any {rest : CString} {tokens : List Token} (tail : ReadTokens reading rest tokens) :
      ReadTokens reading (chr '?' :: rest) (.any :: tokens)
  | star {more : ℕ} {rest : CString} {tokens : List Token} (ended : rest.head? ≠ some (chr '*'))
      (tail : ReadTokens reading rest tokens) :
      ReadTokens reading (chr '*' :: (List.replicate more (chr '*') ++ rest)) (.star :: tokens)
  | bracket {p rest : CString} {negated : Bool} {ranges : List (CChar × CChar)} {tokens : List Token}
      (closed : reading.Closes p negated ranges rest) (tail : ReadTokens reading rest tokens) :
      ReadTokens reading (chr '[' :: p) (.set negated ranges :: tokens)
  | unclosed {p : CString} {tokens : List Token}
      (unclosed : ∀ negated ranges rest, ¬ reading.Closes p negated ranges rest)
      (tail : ReadTokens reading p tokens) : ReadTokens reading (chr '[' :: p) (.lit false (chr '[') :: tokens)
  | literal {c : CChar} {rest : CString} {tokens : List Token} (ordinary : ¬ Special c)
      (tail : ReadTokens reading rest tokens) : ReadTokens reading (c :: rest) (.lit false c :: tokens)

/-! ## The way of a match -/

/-- Where a match stands: the rest of the pattern, the rest of the string, and whether it is at a start. -/
structure MatchPlace where
  start : Bool
  pattern : CString
  string : CString

section Steps

variable (pathname period : Bool)

/-- The bracket expression behind its `[` takes a character and leaves the rest of the pattern. One that is not
closed takes its own `[`. -/
inductive BracketTakes (reading : Backslash) (start : Bool) (p : CString) (c : CChar) : CString → Prop
  | closed {negated : Bool} {ranges : List (CChar × CChar)} {rest : CString}
      (closed : reading.Closes p negated ranges rest) (inside : InSet negated ranges c)
      (free : ¬ Withheld pathname (period && !decide (ListsDot ranges)) start c) :
      BracketTakes reading start p c rest
  | unclosed (unclosed : ∀ negated ranges rest, ¬ reading.Closes p negated ranges rest) (same : c = chr '[') :
      BracketTakes reading start p c p

/-- A token takes its part of the string. -/
inductive MatchStep (reading : Backslash) : MatchPlace → MatchPlace → Prop
  | literal {start : Bool} {c : CChar} {p s : CString} (ordinary : ¬ Special c) (ascii : c.Ascii) :
      MatchStep reading ⟨start, c :: p, c :: s⟩ ⟨pathname && c = chr '/', p, s⟩
  | any {start : Bool} {c : CChar} {p s : CString} (free : ¬ Withheld pathname period start c) :
      MatchStep reading ⟨start, chr '?' :: p, c :: s⟩ ⟨false, p, s⟩
  | star {start : Bool} {p front back : CString}
      (free : ¬ (period ∧ start ∧ (front ++ back).head? = some (chr '.'))) (clear : pathname → chr '/' ∉ front) :
      MatchStep reading ⟨start, chr '*' :: p, front ++ back⟩ ⟨true, p.dropWhile (· = chr '*'), back⟩
  | bracket {start : Bool} {c : CChar} {p s rest : CString}
      (takes : BracketTakes pathname period reading start p c rest) :
      MatchStep reading ⟨start, chr '[' :: p, c :: s⟩ ⟨false, rest, s⟩

/-- The match leads from one place to another in both readings alike. -/
def Leads : MatchPlace → MatchPlace → Prop :=
  Relation.ReflTransGen fun place next => ∀ reading, MatchStep pathname period reading place next

/-- A bracket expression is compared with a character that not both readings take, or not with the same rest. -/
def ReadDifferently (place : MatchPlace) : Prop :=
  ∃ p c s, place.pattern = chr '[' :: p ∧ place.string = c :: s ∧
    ¬ ∀ rest, BracketTakes pathname period .escapes place.start p c rest ↔
      BracketTakes pathname period .ordinary place.start p c rest

/-- The match comes to the end of the pattern and of the string. -/
def Completes (reading : Backslash) (place : MatchPlace) : Prop :=
  ∃ start, Relation.ReflTransGen (MatchStep pathname period reading) place ⟨start, [], []⟩

/-- It comes there in both readings alike. -/
def CompletesAlike (place : MatchPlace) : Prop := ∃ start, Leads pathname period place ⟨start, [], []⟩

/-- It comes to a bracket expression that is read differently, and from there to the end in the given reading. -/
def CompletesApart (reading : Backslash) (place : MatchPlace) : Prop :=
  ∃ middle, Leads pathname period place middle ∧ ReadDifferently pathname period middle ∧
    Completes pathname period reading middle

end Steps

/-- No bracket expression holds a backslash: each `[` is closed by an expression without one, or is closed
neither with nor without escapes. -/
inductive PlainBrackets : CString → Prop
  | nil : PlainBrackets []
  | bracket {text rest : CString} {negated : Bool} {ranges : List (CChar × CChar)}
      (closed : OrdinaryBracket (text ++ rest) negated ranges rest) (plain : chr '\\' ∉ text)
      (tail : PlainBrackets rest) : PlainBrackets (chr '[' :: (text ++ rest))
  | unclosed {p : CString} (unescaped : ∀ negated ranges rest, ¬ OrdinaryBracket p negated ranges rest)
      (escaped : ∀ negated ranges rest, ¬ Bracket p negated ranges rest) (tail : PlainBrackets p) :
      PlainBrackets (chr '[' :: p)
  | other {c : CChar} {rest : CString} (other : c ≠ chr '[') (tail : PlainBrackets rest) :
      PlainBrackets (c :: rest)

end CLite
