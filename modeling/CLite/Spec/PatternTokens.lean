import CLite.Lib.Wildcard
import CLite.Model.Fnmatch

/-! # Shell patterns as token sequences

The grammar says how a pattern falls into tokens: escapes, `?`, runs of `*`, bracket expressions, and
characters that stand for themselves, among them a `[` that no bracket closes. The language of a
pattern is the language of its tokens. `Accepts` is the finer meaning under `FNM_PATHNAME` and
`FNM_PERIOD`, where it matters whether a token stands at a place the matcher takes for a start.
-/

namespace CLite

inductive Token where
  | lit (escaped : Bool) (c : CChar)
  | any
  | star
  | set (negated : Bool) (ranges : List (CChar × CChar))
deriving DecidableEq

/-! ## Grammar -/

/-- A member of a bracket expression or an endpoint of a range. -/
inductive Member : CString → CChar → CString → Prop
  | escaped (c : CChar) (rest : CString) : Member (chr '\\' :: c :: rest) c rest
  | plain {c : CChar} (rest : CString) (ordinary : c ≠ chr '\\') : Member (c :: rest) c rest

/-- A `-` that does not stand just before the closing bracket, or at the end. -/
def StartsRange (p : CString) : Prop := ∃ y rest, p = chr '-' :: y :: rest ∧ y ≠ chr ']'

/-- A single member, or an inclusive range. -/
inductive Item : CString → CChar × CChar → CString → Prop
  | single {p rest : CString} {c : CChar} (member : Member p c rest) (alone : ¬ StartsRange rest) :
      Item p (c, c) rest
  | range {p q rest : CString} {lo hi : CChar} (lower : Member p lo (chr '-' :: q))
      (inner : q.head? ≠ some (chr ']')) (upper : Member q hi rest) : Item p (lo, hi) rest

/-- The items up to the closing bracket; a `]` that comes first is a member. -/
inductive Items : Bool → CString → List (CChar × CChar) → CString → Prop
  | close (rest : CString) : Items false (chr ']' :: rest) [] rest
  | item {first : Bool} {p q rest : CString} {range : CChar × CChar} {ranges : List (CChar × CChar)}
      (inside : first = true ∨ p.head? ≠ some (chr ']')) (head : Item p range q)
      (tail : Items false q ranges rest) : Items first p (range :: ranges) rest

/-- A well-formed bracket expression, behind its `[`. -/
inductive Bracket : CString → Bool → List (CChar × CChar) → CString → Prop
  | negated {mark : CChar} {p rest : CString} {ranges : List (CChar × CChar)}
      (marked : mark = chr '!' ∨ mark = chr '^') (items : Items true p ranges rest) :
      Bracket (mark :: p) true ranges rest
  | positive {p rest : CString} {ranges : List (CChar × CChar)}
      (unmarked : p.head? ≠ some (chr '!') ∧ p.head? ≠ some (chr '^'))
      (items : Items true p ranges rest) : Bracket p false ranges rest

/-- The characters that open a token other than themselves. -/
def Special (c : CChar) : Prop := c = chr '*' ∨ c = chr '?' ∨ c = chr '['

instance (c : CChar) : Decidable (Special c) := inferInstanceAs (Decidable (_ ∨ _))

inductive Tokens (noescape : Bool) : CString → List Token → Prop
  | nil : Tokens noescape [] []
  | escape {c : CChar} {rest : CString} {tokens : List Token} (escapes : noescape = false)
      (tail : Tokens noescape rest tokens) :
      Tokens noescape (chr '\\' :: c :: rest) (.lit true c :: tokens)
  | any {rest : CString} {tokens : List Token} (tail : Tokens noescape rest tokens) :
      Tokens noescape (chr '?' :: rest) (.any :: tokens)
  | star {more : ℕ} {rest : CString} {tokens : List Token} (ended : rest.head? ≠ some (chr '*'))
      (tail : Tokens noescape rest tokens) :
      Tokens noescape (chr '*' :: (List.replicate more (chr '*') ++ rest)) (.star :: tokens)
  | bracket {p rest : CString} {negated : Bool} {ranges : List (CChar × CChar)} {tokens : List Token}
      (closed : Bracket p negated ranges rest) (tail : Tokens noescape rest tokens) :
      Tokens noescape (chr '[' :: p) (.set negated ranges :: tokens)
  | unclosed {p : CString} {tokens : List Token}
      (unclosed : ∀ negated ranges rest, ¬ Bracket p negated ranges rest)
      (tail : Tokens noescape p tokens) :
      Tokens noescape (chr '[' :: p) (.lit false (chr '[') :: tokens)
  | literal {c : CChar} {rest : CString} {tokens : List Token} (ordinary : ¬ Special c)
      (unescaped : c = chr '\\' → noescape = true ∨ rest = [])
      (tail : Tokens noescape rest tokens) : Tokens noescape (c :: rest) (.lit false c :: tokens)

/-! ## Meaning -/

/-- The character lies in one of the ranges, by unsigned value. -/
def InRanges (ranges : List (CChar × CChar)) (c : CChar) : Prop :=
  ∃ range ∈ ranges, range.1.unsigned ≤ c.unsigned ∧ c.unsigned ≤ range.2.unsigned

instance (ranges : List (CChar × CChar)) (c : CChar) : Decidable (InRanges ranges c) :=
  inferInstanceAs (Decidable (∃ range ∈ ranges, _))

@[simp] theorem inRanges_cons (range : CChar × CChar) (ranges : List (CChar × CChar)) (c : CChar) :
    InRanges (range :: ranges) c ↔
      (range.1.unsigned ≤ c.unsigned ∧ c.unsigned ≤ range.2.unsigned) ∨ InRanges ranges c := by
  simp only [InRanges, List.mem_cons, exists_eq_or_imp]

/-- The characters a bracket expression stands for. -/
def InSet (negated : Bool) (ranges : List (CChar × CChar)) (c : CChar) : Prop :=
  if negated then ¬ InRanges ranges c else InRanges ranges c

instance (negated : Bool) (ranges : List (CChar × CChar)) (c : CChar) :
    Decidable (InSet negated ranges c) :=
  inferInstanceAs (Decidable (if negated then ¬ InRanges ranges c else InRanges ranges c))

/-- The bracket expression has `.` written out, as a member or an endpoint. -/
def ListsDot (ranges : List (CChar × CChar)) : Prop :=
  ∃ range ∈ ranges, range.1 = chr '.' ∨ range.2 = chr '.'

instance (ranges : List (CChar × CChar)) : Decidable (ListsDot ranges) :=
  inferInstanceAs (Decidable (∃ range ∈ ranges, _))

@[simp] theorem listsDot_cons (range : CChar × CChar) (ranges : List (CChar × CChar)) :
    ListsDot (range :: ranges) ↔ (range.1 = chr '.' ∨ range.2 = chr '.') ∨ ListsDot ranges := by
  simp only [ListsDot, List.mem_cons, exists_eq_or_imp]

/-- What a token stands for. -/
def Token.piece : Token → Wildcard.Piece CChar
  | .lit _ c => .one {c}
  | .any => .one Set.univ
  | .star => .many
  | .set negated ranges => .one {c | InSet negated ranges c}

/-- The language of a token sequence. -/
def tokenLanguage (tokens : List Token) : Language CChar := Wildcard.language (tokens.map Token.piece)

/-- What a token stands for when it refuses a dot that it does not list. -/
def Token.guardedPiece : Token → Wildcard.Piece CChar
  | .any => .one {c | c ≠ chr '.'}
  | .set negated ranges => .one {c | InSet negated ranges c ∧ (c = chr '.' → ListsDot ranges)}
  | token => token.piece

/-- The pieces of a token sequence, where under the period rule the token directly behind `*` refuses
a dot. -/
def guardedPieces (period : Bool) : Bool → List Token → List (Wildcard.Piece CChar)
  | _, [] => []
  | behind, token :: tokens =>
      (if period && behind then token.guardedPiece else token.piece) ::
        guardedPieces period (token = .star) tokens

/-- The language of a token sequence in which the token directly behind `*` refuses a dot. -/
def guardedLanguage (tokens : List Token) : Language CChar :=
  Wildcard.language (guardedPieces true false tokens)

/-- A wildcard may not take this character at this place. -/
def Withheld (pathname period start : Bool) (c : CChar) : Prop :=
  pathname ∧ c = chr '/' ∨ period ∧ start ∧ c = chr '.'

/-- The meaning of a token sequence under the flags. A literal is compared as a plain character, the
part behind `*` is matched as if it stood at a start, and only an unescaped slash opens a new start. -/
def Accepts (pathname period : Bool) : Bool → List Token → CString → Prop
  | _, [], string => string = []
  | _, .lit escaped c :: tokens, string =>
      ∃ rest, string = c :: rest ∧ c.Ascii ∧
        Accepts pathname period (!escaped && pathname && c = chr '/') tokens rest
  | start, .any :: tokens, string =>
      ∃ c rest, string = c :: rest ∧ ¬ Withheld pathname period start c ∧
        Accepts pathname period false tokens rest
  | start, .set negated ranges :: tokens, string =>
      ∃ c rest, string = c :: rest ∧ InSet negated ranges c ∧
        ¬ Withheld pathname (period && !decide (ListsDot ranges)) start c ∧
        Accepts pathname period false tokens rest
  | start, .star :: tokens, string =>
      ¬ (period ∧ start ∧ string.head? = some (chr '.')) ∧
        ∃ front back, string = front ++ back ∧ (pathname → chr '/' ∉ front) ∧
          Accepts pathname period true tokens back

section Cons

variable {pathname period start escaped negated : Bool} {c x : CChar} {ranges : List (CChar × CChar)}
  {tokens : List Token} {rest : CString}

@[simp] theorem accepts_lit_cons :
    Accepts pathname period start (.lit escaped c :: tokens) (x :: rest) ↔
      x = c ∧ c.Ascii ∧ Accepts pathname period (!escaped && pathname && c = chr '/') tokens rest := by
  simp only [Accepts, List.cons.injEq]
  constructor
  · rintro ⟨_, ⟨rfl, rfl⟩, ascii, tail⟩
    exact ⟨rfl, ascii, tail⟩
  · rintro ⟨rfl, ascii, tail⟩
    exact ⟨rest, ⟨rfl, rfl⟩, ascii, tail⟩

@[simp] theorem accepts_any_cons :
    Accepts pathname period start (.any :: tokens) (x :: rest) ↔
      ¬ Withheld pathname period start x ∧ Accepts pathname period false tokens rest := by
  simp only [Accepts, List.cons.injEq]
  constructor
  · rintro ⟨_, _, ⟨rfl, rfl⟩, free, tail⟩
    exact ⟨free, tail⟩
  · rintro ⟨free, tail⟩
    exact ⟨x, rest, ⟨rfl, rfl⟩, free, tail⟩

@[simp] theorem accepts_set_cons :
    Accepts pathname period start (.set negated ranges :: tokens) (x :: rest) ↔
      InSet negated ranges x ∧ ¬ Withheld pathname (period && !decide (ListsDot ranges)) start x ∧
        Accepts pathname period false tokens rest := by
  simp only [Accepts, List.cons.injEq]
  constructor
  · rintro ⟨_, _, ⟨rfl, rfl⟩, inside, free, tail⟩
    exact ⟨inside, free, tail⟩
  · rintro ⟨inside, free, tail⟩
    exact ⟨x, rest, ⟨rfl, rfl⟩, inside, free, tail⟩

end Cons

end CLite
