import CLite.Model.CString
import Mathlib.Data.List.TakeWhile

/-! # `fnmatch`

The matcher of `fnmatch.c`. A bracket expression is parsed anew for every character tested against
it; `none` is the return value -1 for a class without a closing bracket. The main loop carries
`at_start`, and the recursive calls made for `*` start it again.
-/

namespace CLite

def FNM_NOMATCH : ℕ := 1

def FNM_PATHNAME : BitVec 32 := 1 <<< 0
def FNM_NOESCAPE : BitVec 32 := 1 <<< 1
def FNM_PERIOD : BitVec 32 := 1 <<< 2

/-- `(flags & flag) != 0`. -/
def hasFlag (flags flag : BitVec 32) : Bool := flags &&& flag != 0

theorem hasFlag_or (flags more flag : BitVec 32) :
    hasFlag (flags ||| more) flag = (hasFlag flags flag || hasFlag more flag) := by
  rw [Bool.eq_iff_iff]
  simp only [hasFlag, BitVec.and_or_distrib_right, bne_iff_ne, ne_eq, Bool.or_eq_true]
  rw [show (0 : BitVec 32) = 0#32 from rfl, BitVec.or_eq_zero_iff, not_and_or]

/-! ## Bracket expressions -/

/-- The negation mark that may follow `[`. -/
def skipNegation : CString → Bool × CString
  | [] => (false, [])
  | x :: p => if x = chr '!' ∨ x = chr '^' then (true, p) else (false, x :: p)

/-- One member or range endpoint, with its escape resolved. -/
def bracketChar (x : CChar) (p : CString) : CChar × CString :=
  match p with
  | [] => (x, [])
  | y :: q => if x = chr '\\' then (y, q) else (x, y :: q)

structure BracketItem where
  lo : CChar
  hi : CChar
  rest : CString
deriving DecidableEq

/-- The body of the member loop: a member, or a range when a `-` follows that is not the last member. -/
def bracketItem (x : CChar) (p : CString) : BracketItem :=
  let (lo, p) := bracketChar x p
  match p with
  | dash :: y :: q =>
      if dash = chr '-' ∧ y ≠ chr ']' then
        let (hi, q) := bracketChar y q
        ⟨lo, hi, q⟩
      else ⟨lo, lo, p⟩
  | _ => ⟨lo, lo, p⟩

theorem bracketChar_length (x : CChar) (p : CString) : (bracketChar x p).2.length ≤ p.length := by
  cases p with
  | nil => simp [bracketChar]
  | cons y q =>
    simp only [bracketChar]
    split <;> simp

theorem bracketItem_length (x : CChar) (p : CString) : (bracketItem x p).rest.length ≤ p.length := by
  have first := bracketChar_length x p
  simp only [bracketItem]
  split
  · next dash y q shape =>
    have lengths := congrArg List.length shape
    have second := bracketChar_length y q
    simp only [List.length_cons] at lengths
    split
    · dsimp only
      omega
    · exact first
  · exact first

/-- The `while` loop of `match_bracket`, to the position after the closing bracket. -/
def bracketLoop (c : ℤ) (first matched : Bool) : CString → Option (Bool × CString)
  | [] => none
  | x :: p =>
      if x = chr ']' ∧ first = false then some (matched, p)
      else
        let item := bracketItem x p
        bracketLoop c false (matched || (item.lo.unsigned ≤ c ∧ c ≤ item.hi.unsigned)) item.rest
termination_by p => p.length
decreasing_by
  have := bracketItem_length x p
  simp only [List.length_cons]
  omega

/-- `match_bracket` on the pattern behind the `[`. -/
def matchBracket (p : CString) (c : ℤ) : Option (Bool × CString) :=
  let (negate, p) := skipNegation p
  if p = [] then none
  else (bracketLoop c true false p).map fun (matched, rest) => (if negate then !matched else matched, rest)

/-- The `while` loop of `class_has_dot`. -/
def classHasDotLoop : CString → Bool
  | [] => false
  | [x] => x = chr '.'
  | x :: y :: p =>
      if x = chr ']' then false
      else if x = chr '\\' then
        if y = chr '.' then true else classHasDotLoop p
      else if x = chr '.' then true
      else classHasDotLoop (y :: p)

/-- The `]` that may come first, as a literal member. -/
def skipLiteralBracket : CString → CString
  | [] => []
  | x :: p => if x = chr ']' then p else x :: p

/-- `class_has_dot` on the pattern behind the `[`. -/
def classHasDot (p : CString) : Bool := classHasDotLoop (skipLiteralBracket (skipNegation p).2)

theorem bracketLoop_length {c : ℤ} {first matched result : Bool} {p rest : CString}
    (found : bracketLoop c first matched p = some (result, rest)) : rest.length < p.length := by
  fun_induction bracketLoop c first matched p with
  | case1 => cases found
  | case2 first matched x p =>
    obtain ⟨rfl, rfl⟩ : matched = result ∧ p = rest := by simpa using found
    simp
  | case3 first matched x p open_ item ih =>
    have := ih found
    have := bracketItem_length x p
    simp only [List.length_cons, item] at *
    omega

theorem skipNegation_length (p : CString) : (skipNegation p).2.length ≤ p.length := by
  cases p with
  | nil => simp [skipNegation]
  | cons x p =>
    simp only [skipNegation]
    split <;> simp

theorem matchBracket_length {p rest : CString} {c : ℤ} {result : Bool}
    (found : matchBracket p c = some (result, rest)) : rest.length < p.length := by
  have shorter := skipNegation_length p
  simp only [matchBracket] at found
  split at found
  · cases found
  · obtain ⟨⟨matched, rest'⟩, inner, same⟩ := Option.map_eq_some_iff.mp found
    obtain ⟨-, rfl⟩ : _ ∧ rest' = rest := by simpa using same
    have := bracketLoop_length inner
    omega

/-! ## The matcher -/

/-- The loop behind a run of `*`: try the rest of the pattern at each position, up to a slash. -/
def starLoop (pathname : Bool) (matchRest : CString → ℕ) : CString → ℕ
  | [] => matchRest []
  | s :: string =>
      if pathname ∧ s = chr '/' then matchRest (s :: string)
      else if matchRest (s :: string) = 0 then 0
      else starLoop pathname matchRest string

/-- The `while (*pattern)` loop of `fnmatch`. -/
def fnmatchLoop (flags : BitVec 32) (atStart : Bool) : CString → CString → ℕ
  | [], string => if string = [] then 0 else FNM_NOMATCH
  | x :: pattern, string =>
      let pathname := hasFlag flags FNM_PATHNAME
      let period := hasFlag flags FNM_PERIOD
      if x = chr '\\' ∧ hasFlag flags FNM_NOESCAPE = false ∧ pattern ≠ [] then
        match pattern, string with
        | y :: pattern, s :: string =>
            if s.plain ≠ y.unsigned then FNM_NOMATCH else fnmatchLoop flags false pattern string
        | _, _ => FNM_NOMATCH
      else if x = chr '*' then
        let rest := pattern.dropWhile (· = chr '*')
        if period ∧ atStart ∧ string.head? = some (chr '.') then FNM_NOMATCH
        else if rest = [] then
          if pathname ∧ chr '/' ∈ string then FNM_NOMATCH else 0
        else starLoop pathname (fun string => fnmatchLoop flags true rest string) string
      else if x = chr '?' then
        match string with
        | [] => FNM_NOMATCH
        | s :: string =>
            if period ∧ atStart ∧ s = chr '.' then FNM_NOMATCH
            else if pathname ∧ s = chr '/' then FNM_NOMATCH
            else fnmatchLoop flags false pattern string
      else if x = chr '[' then
        match string with
        | [] => FNM_NOMATCH
        | s :: string =>
            if pathname ∧ s = chr '/' then FNM_NOMATCH
            else if (period ∧ atStart ∧ s = chr '.') ∧ classHasDot pattern = false then FNM_NOMATCH
            else
              match _ : matchBracket pattern s.unsigned with
              | none => if s ≠ chr '[' then FNM_NOMATCH else fnmatchLoop flags false pattern string
              | some (matched, rest) =>
                  if matched = false then FNM_NOMATCH else fnmatchLoop flags false rest string
      else
        match string with
        | [] => FNM_NOMATCH
        | s :: string =>
            if s.plain ≠ x.unsigned then FNM_NOMATCH
            else fnmatchLoop flags (pathname ∧ x = chr '/') pattern string
termination_by pattern => pattern.length
decreasing_by
  · simp only [List.length_cons]; omega
  · have := List.length_dropWhile_le (· = chr '*') pattern
    simp only [List.length_cons]
    omega
  · simp
  · simp
  · have := matchBracket_length ‹_›
    simp only [List.length_cons]
    omega
  · simp

def fnmatch (pattern string : CString) (flags : BitVec 32) : ℕ := fnmatchLoop flags true pattern string

end CLite
