import CLite.Proofs.BracketParse

/-! # `fnmatch` decides acceptance of the token sequence

Each turn of the loop handles one token, so the matcher agrees with `Accepts` along the grammar. The
statement covers all flags and all bytes.
-/

namespace CLite

variable {flags : BitVec 32} {c : CChar} {pattern rest : CString} {tokens : List Token}

/-! ## The loop behind a run of stars -/

theorem starLoop_eq_zero_iff (pathname : Bool) (matchRest : CString → ℕ) (string : CString) :
    starLoop pathname matchRest string = 0 ↔
      ∃ front back, string = front ++ back ∧ (pathname → chr '/' ∉ front) ∧ matchRest back = 0 := by
  induction string with
  | nil => simp [starLoop]
  | cons s string ih =>
    rw [starLoop]
    split_ifs with slash found
    · constructor
      · exact fun found => ⟨[], s :: string, by simp, by simp, found⟩
      · rintro ⟨front, back, shape, clear, found⟩
        cases front with
        | nil => simpa [shape] using found
        | cons t front =>
          obtain ⟨rfl, -⟩ : s = t ∧ string = front ++ back := by simpa using shape
          exact absurd (clear slash.1) (by simp [slash.2])
    · simp only [true_iff]
      exact ⟨[], s :: string, by simp, by simp, found⟩
    · rw [ih]
      constructor
      · rintro ⟨front, back, rfl, clear, found⟩
        refine ⟨s :: front, back, by simp, fun limited => ?_, found⟩
        rw [List.mem_cons, not_or]
        exact ⟨fun here => slash ⟨limited, here.symm⟩, clear limited⟩
      · rintro ⟨front, back, shape, clear, zero⟩
        cases front with
        | nil => exact absurd (by simpa [shape] using zero) found
        | cons t front =>
          obtain ⟨rfl, rfl⟩ : s = t ∧ string = front ++ back := by simpa using shape
          exact ⟨front, back, rfl, fun limited member => clear limited (List.mem_cons_of_mem _ member),
            zero⟩

theorem dropWhile_stars (more : ℕ) (ended : rest.head? ≠ some (chr '*')) :
    (List.replicate more (chr '*') ++ rest).dropWhile (· = chr '*') = rest := by
  induction more with
  | zero =>
    cases rest with
    | nil => rfl
    | cons x rest =>
      have other : x ≠ chr '*' := by simpa using ended
      simp [other]
  | succ more ih => simpa [List.replicate_succ] using ih

/-! ## One token at a time -/

theorem nomatch_ne_zero : FNM_NOMATCH ≠ 0 := by decide

/-- A literal compares one character of the string, as a plain character. -/
private theorem literal_step {s : CChar} {result : ℕ} {accepted : Prop} (tail : result = 0 ↔ accepted) :
    (if s.plain ≠ c.unsigned then FNM_NOMATCH else result) = 0 ↔ s = c ∧ c.Ascii ∧ accepted := by
  rw [ite_not]
  split_ifs with same <;> rw [CChar.plain_eq_unsigned_iff] at same
  · obtain ⟨rfl, ascii⟩ := same
    simp [tail, ascii]
  · simp only [nomatch_ne_zero, false_iff]
    rintro ⟨rfl, ascii, -⟩
    exact same ⟨rfl, ascii⟩

/-- The loop on a pattern decides acceptance of a token sequence, wherever it starts. -/
def Agrees (flags : BitVec 32) (pattern : CString) (tokens : List Token) : Prop :=
  ∀ start string, fnmatchLoop flags start pattern string = 0 ↔
    Accepts (hasFlag flags FNM_PATHNAME) (hasFlag flags FNM_PERIOD) start tokens string

namespace Agrees

theorem nil (flags : BitVec 32) : Agrees flags [] [] := by
  intro start string
  simp [fnmatchLoop, Accepts, nomatch_ne_zero]

theorem escape (escapes : hasFlag flags FNM_NOESCAPE = false) (tail : Agrees flags rest tokens) :
    Agrees flags (chr '\\' :: c :: rest) (.lit true c :: tokens) := by
  intro start string
  rw [fnmatchLoop.eq_def]
  simp only [escapes, ne_eq, reduceCtorEq, not_false_eq_true, and_self, if_true]
  cases string with
  | nil => simp [Accepts, nomatch_ne_zero]
  | cons s string =>
    rw [accepts_lit_cons]
    exact literal_step (tail false string)

theorem any (tail : Agrees flags rest tokens) : Agrees flags (chr '?' :: rest) (.any :: tokens) := by
  intro start string
  rw [fnmatchLoop.eq_def]
  dsimp only
  rw [if_neg (fun escape => absurd escape.1 (by decide)), if_neg (by decide), if_pos rfl]
  cases string with
  | nil => simp [Accepts, nomatch_ne_zero]
  | cons s string =>
    rw [accepts_any_cons]
    dsimp only
    split_ifs with dot slash
    · simp [nomatch_ne_zero, show Withheld _ _ start s from .inr dot]
    · simp [nomatch_ne_zero, show Withheld _ _ start s from .inl slash]
    · have free : ¬ Withheld (hasFlag flags FNM_PATHNAME) (hasFlag flags FNM_PERIOD) start s :=
        fun withheld => withheld.elim slash dot
      simp [tail false string, free]

/-- A run of stars at the end takes the rest of the string; otherwise the rest of the pattern is tried
at every position the stars can reach. -/
theorem star (more : ℕ) (ended : rest.head? ≠ some (chr '*')) (last : rest = [] → tokens = [])
    (tail : Agrees flags rest tokens) :
    Agrees flags (chr '*' :: (List.replicate more (chr '*') ++ rest)) (.star :: tokens) := by
  intro start string
  rw [fnmatchLoop.eq_def]
  dsimp only
  rw [if_neg (fun escape => absurd escape.1 (by decide)), if_pos rfl, dropWhile_stars more ended]
  simp only [Accepts]
  split_ifs with dot none slash
  · simp [nomatch_ne_zero, dot]
  · rw [last none]
    simp only [nomatch_ne_zero, Accepts, false_iff]
    rintro ⟨-, front, back, rfl, clear, rfl⟩
    exact clear slash.1 (by simpa using slash.2)
  · rw [last none]
    simp only [true_iff]
    exact ⟨dot, string, [], by simp, fun limited member => slash ⟨limited, member⟩, rfl⟩
  · rw [starLoop_eq_zero_iff]
    simp [tail true _, dot]

theorem bracket {p : CString} {negated : Bool} {ranges : List (CChar × CChar)}
    (closed : Bracket p negated ranges rest) (tail : Agrees flags rest tokens) :
    Agrees flags (chr '[' :: p) (.set negated ranges :: tokens) := by
  intro start string
  rw [fnmatchLoop.eq_def]
  dsimp only
  rw [if_neg (fun escape => absurd escape.1 (by decide)), if_neg (by decide), if_neg (by decide),
    if_pos rfl]
  cases string with
  | nil => simp [Accepts, nomatch_ne_zero]
  | cons s string =>
    have reads := closed.matchBracket_eq s
    rw [accepts_set_cons, closed.classHasDot_eq]
    dsimp only
    split
    · next slash => simp [nomatch_ne_zero, show Withheld _ _ start s from .inl slash]
    · next slash =>
      split
      · next dot =>
        have withheld : Withheld (hasFlag flags FNM_PATHNAME)
            (hasFlag flags FNM_PERIOD && !decide (ListsDot ranges)) start s :=
          .inr ⟨by rw [dot.1.1, dot.2]; rfl, dot.1.2⟩
        simp [nomatch_ne_zero, withheld]
      · next dot =>
        have free : ¬ Withheld (hasFlag flags FNM_PATHNAME)
            (hasFlag flags FNM_PERIOD && !decide (ListsDot ranges)) start s := by
          rintro (here | ⟨applies, here⟩)
          · exact slash here
          · rw [Bool.and_eq_true] at applies
            exact dot ⟨⟨applies.1, here⟩, by simpa using applies.2⟩
        split
        · next found => simp [reads] at found
        · next matched after found =>
          obtain ⟨rfl, rfl⟩ : decide (InSet negated ranges s) = matched ∧ rest = after := by
            simpa [reads] using found
          split
          · next outside =>
            simp only [nomatch_ne_zero, false_iff]
            exact fun accepted => absurd accepted.1 (by simpa using outside)
          · next inside =>
            simp [tail false string, free, show InSet negated ranges s by simpa using inside]

/-- Without a closing bracket `[` stands for itself; the checks for wildcards cannot hit it. -/
theorem unclosed {p : CString} (unclosed : ∀ negated ranges rest, ¬ Bracket p negated ranges rest)
    (tail : Agrees flags p tokens) : Agrees flags (chr '[' :: p) (.lit false (chr '[') :: tokens) := by
  intro start string
  rw [fnmatchLoop.eq_def]
  dsimp only
  rw [if_neg (fun escape => absurd escape.1 (by decide)), if_neg (by decide), if_neg (by decide),
    if_pos rfl]
  cases string with
  | nil => simp [Accepts, nomatch_ne_zero]
  | cons s string =>
    rw [accepts_lit_cons]
    dsimp only
    split
    · next slash =>
      simp only [nomatch_ne_zero, false_iff]
      exact fun accepted => absurd (slash.2.symm.trans accepted.1) (by decide)
    · split
      · next dot =>
        simp only [nomatch_ne_zero, false_iff]
        exact fun accepted => absurd (dot.1.2.2.symm.trans accepted.1) (by decide)
      · split
        · split
          · next other => simp [nomatch_ne_zero, other]
          · next same =>
            obtain rfl := not_not.mp same
            rw [tail]
            simp [show (chr '[').Ascii by decide, show chr '[' ≠ chr '/' by decide]
        · next found => simp [matchBracket_unclosed unclosed] at found

theorem literal (ordinary : ¬ Special c)
    (unescaped : c = chr '\\' → hasFlag flags FNM_NOESCAPE = true ∨ rest = [])
    (tail : Agrees flags rest tokens) : Agrees flags (c :: rest) (.lit false c :: tokens) := by
  intro start string
  simp only [Special, not_or] at ordinary
  have unescaped' : ¬ (c = chr '\\' ∧ hasFlag flags FNM_NOESCAPE = false ∧ rest ≠ []) := by
    rintro ⟨backslash, escapes, more⟩
    rcases unescaped backslash with noescape | ended
    · exact Bool.false_ne_true (escapes.symm.trans noescape)
    · exact more ended
  rw [fnmatchLoop.eq_def]
  dsimp only
  rw [if_neg unescaped', if_neg ordinary.1, if_neg ordinary.2.1, if_neg ordinary.2.2]
  cases string with
  | nil => simp [Accepts, nomatch_ne_zero]
  | cons s string =>
    have start' : (!false && hasFlag flags FNM_PATHNAME && decide (c = chr '/')) =
        decide (hasFlag flags FNM_PATHNAME = true ∧ c = chr '/') := by simp
    rw [accepts_lit_cons, start']
    exact literal_step (tail _ string)

end Agrees

/-- The loop decides acceptance along the grammar, for all flags and all bytes. -/
theorem fnmatchLoop_accepts (grammar : Tokens (hasFlag flags FNM_NOESCAPE) pattern tokens) :
    Agrees flags pattern tokens := by
  induction grammar with
  | nil => exact .nil flags
  | escape escapes _ ih => exact .escape escapes ih
  | any _ ih => exact .any ih
  | star ended tail ih =>
    refine .star _ ended ?_ ih
    rintro rfl
    cases tail
    rfl
  | bracket closed _ ih => exact .bracket closed ih
  | unclosed unclosed _ ih => exact .unclosed unclosed ih
  | literal ordinary unescaped _ ih => exact .literal ordinary unescaped ih

/-! ## The result is zero or `FNM_NOMATCH` -/

theorem starLoop_result {pathname : Bool} {matchRest : CString → ℕ}
    (result : ∀ string, matchRest string = 0 ∨ matchRest string = FNM_NOMATCH) (string : CString) :
    starLoop pathname matchRest string = 0 ∨ starLoop pathname matchRest string = FNM_NOMATCH := by
  induction string with
  | nil => exact result []
  | cons s string ih =>
    rw [starLoop]
    split_ifs
    · exact result _
    · exact .inl rfl
    · exact ih

theorem fnmatchLoop_result (flags : BitVec 32) (start : Bool) (pattern string : CString) :
    fnmatchLoop flags start pattern string = 0 ∨
      fnmatchLoop flags start pattern string = FNM_NOMATCH := by
  fun_induction fnmatchLoop flags start pattern string <;> simp_all [starLoop_result]

/-- Two matches have the same result if they succeed alike. -/
theorem fnmatch_eq_iff {pattern pattern' string string' : CString} {flags flags' : BitVec 32} :
    fnmatch pattern string flags = fnmatch pattern' string' flags' ↔
      (fnmatch pattern string flags = 0 ↔ fnmatch pattern' string' flags' = 0) := by
  rcases fnmatchLoop_result flags true pattern string with first | first <;>
    rcases fnmatchLoop_result flags' true pattern' string' with second | second <;>
    simp [fnmatch, first, second, FNM_NOMATCH]

/-! ## Every pattern has tokens -/

theorem stars_split (p : CString) :
    ∃ more rest, p = List.replicate more (chr '*') ++ rest ∧ rest.head? ≠ some (chr '*') := by
  induction p with
  | nil => exact ⟨0, [], rfl, by simp⟩
  | cons x p ih =>
    obtain ⟨more, rest, shape, ended⟩ := ih
    rcases em (x = chr '*') with rfl | other
    · exact ⟨more + 1, rest, by rw [shape]; rfl, ended⟩
    · exact ⟨0, x :: p, rfl, by simpa using other⟩

theorem Bracket.length_lt {p : CString} {negated : Bool} {ranges : List (CChar × CChar)}
    (closed : Bracket p negated ranges rest) : rest.length < p.length :=
  matchBracket_length (closed.matchBracket_eq (chr 'a'))

theorem exists_tokens (noescape : Bool) (pattern : CString) : ∃ tokens, Tokens noescape pattern tokens := by
  induction len : pattern.length using Nat.strong_induction_on generalizing pattern with
  | _ n ih =>
  subst len
  have shorter (p : CString) (less : p.length < pattern.length) : ∃ tokens, Tokens noescape p tokens :=
    ih p.length less p rfl
  rcases pattern with _ | ⟨x, p⟩
  · exact ⟨[], .nil⟩
  obtain ⟨tokens, tail⟩ := shorter p (by simp)
  rcases em (Special x) with (rfl | rfl | rfl) | ordinary
  · obtain ⟨more, rest, rfl, ended⟩ := stars_split p
    obtain ⟨tokens, tail⟩ := shorter rest (by simp only [List.length_cons, List.length_append]; omega)
    exact ⟨_, .star ended tail⟩
  · exact ⟨_, .any tail⟩
  · rcases em (∃ negated ranges rest, Bracket p negated ranges rest) with ⟨_, _, rest, closed⟩ | unclosed
    · have := closed.length_lt
      obtain ⟨tokens, tail⟩ := shorter rest (by simp only [List.length_cons]; omega)
      exact ⟨_, .bracket closed tail⟩
    · exact ⟨_, .unclosed (fun _ _ _ closed => unclosed ⟨_, _, _, closed⟩) tail⟩
  · rcases em (x = chr '\\' ∧ noescape = false ∧ p ≠ []) with ⟨rfl, escapes, more⟩ | unescaped
    · obtain ⟨c, rest, rfl⟩ := List.exists_cons_of_ne_nil more
      obtain ⟨tokens, tail⟩ := shorter rest (by simp only [List.length_cons]; omega)
      exact ⟨_, .escape escapes tail⟩
    · refine ⟨_, .literal ordinary (fun backslash => ?_) tail⟩
      cases noescape with
      | true => exact .inl rfl
      | false => exact .inr (by_contra fun more => unescaped ⟨backslash, rfl, more⟩)

/-- A run of stars is one token. -/
theorem Tokens.star_again {noescape : Bool} {p : CString} (head : p.head? = some (chr '*'))
    (grammar : Tokens noescape p tokens) :
    Tokens noescape (chr '*' :: p) tokens := by
  cases grammar with
  | nil => cases head
  | star ended tail => exact @Tokens.star _ (_ + 1) _ _ ended tail
  | escape => exact absurd head (by simp; decide)
  | any => exact absurd head (by simp; decide)
  | bracket => exact absurd head (by simp; decide)
  | unclosed => exact absurd head (by simp; decide)
  | literal ordinary => exact absurd (.inl (by simpa using head)) ordinary

end CLite
