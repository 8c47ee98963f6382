import CLite.Proofs.FnmatchTokens
import CLite.Spec.OrdinaryBackslash

/-! # `FNM_NOESCAPE` and doubled backslashes

Doubling the backslashes of a pattern makes every one of them ordinary. The flag does so outside of bracket
expressions only: inside, the matcher takes a backslash for an escape whatever the flags are. The two differ only
through a bracket expression that the match comes to and that takes the character there in one reading only.
-/

namespace CLite

variable {p q rest : CString} {c : CChar} {ranges : List (CChar × CChar)}

/-! ## Bracket expressions with doubled backslashes -/

theorem doubled_cons_other (other : c ≠ chr '\\') : doubled (c :: p) = c :: doubled p := by
  rw [doubled, if_neg other]

theorem doubled_backslash : doubled (chr '\\' :: p) = chr '\\' :: chr '\\' :: doubled p := by
  rw [doubled, if_pos rfl]

theorem doubled_head : (doubled p).head? = p.head? := by
  cases p with
  | nil => rfl
  | cons c p =>
    rw [doubled]
    split
    · next backslash => rw [backslash, List.head?_cons, List.head?_cons]
    · rfl

theorem member_doubled (c : CChar) (p : CString) : Member (doubled (c :: p)) c (doubled p) := by
  rcases em (c = chr '\\') with rfl | other
  · rw [doubled_backslash]
    exact .escaped _ _
  · rw [doubled_cons_other other]
    exact .plain _ other

/-- A member of the doubled text is one character of the text. -/
theorem Member.of_doubled (member : Member (doubled p) c q) : ∃ rest, p = c :: rest ∧ q = doubled rest := by
  cases p with
  | nil => cases member
  | cons x p =>
    rcases em (x = chr '\\') with rfl | other
    · rw [doubled_backslash] at member
      cases member with
      | escaped => exact ⟨p, rfl, rfl⟩
      | plain _ ordinary => exact absurd rfl ordinary
    · rw [doubled_cons_other other] at member
      generalize same : x :: doubled p = text at member
      cases member with
      | escaped => exact absurd (List.cons.inj same).1 other
      | plain _ _ =>
        obtain ⟨rfl, rfl⟩ := List.cons.inj same
        exact ⟨p, rfl, rfl⟩

theorem startsRange_iff :
    StartsRange p ↔ ∃ q, p = chr '-' :: q ∧ q ≠ [] ∧ q.head? ≠ some (chr ']') := by
  constructor
  · rintro ⟨y, rest, rfl, inner⟩
    exact ⟨y :: rest, rfl, by simp, by simpa using inner⟩
  · rintro ⟨q, rfl, more, inner⟩
    obtain ⟨y, rest, rfl⟩ := List.exists_cons_of_ne_nil more
    exact ⟨y, rest, rfl, by simpa using inner⟩

theorem doubled_eq_nil : doubled p = [] ↔ p = [] := by
  rw [← List.head?_eq_none_iff, doubled_head, List.head?_eq_none_iff]

theorem doubled_eq_dash : doubled p = chr '-' :: q ↔ ∃ rest, p = chr '-' :: rest ∧ q = doubled rest := by
  have dash : chr '-' ≠ chr '\\' := by decide
  constructor
  · intro shape
    have member : Member (doubled p) (chr '-') q := by
      rw [shape]
      exact .plain q dash
    exact member.of_doubled
  · rintro ⟨rest, rfl, rfl⟩
    exact doubled_cons_other dash

theorem startsRange_doubled : StartsRange (doubled p) ↔ StartsRange p := by
  rw [startsRange_iff, startsRange_iff]
  constructor
  · rintro ⟨q, shape, more, inner⟩
    obtain ⟨rest, rfl, rfl⟩ := doubled_eq_dash.mp shape
    exact ⟨rest, rfl, fun empty => more (doubled_eq_nil.mpr empty), by rwa [doubled_head] at inner⟩
  · rintro ⟨rest, rfl, more, inner⟩
    exact ⟨doubled rest, doubled_eq_dash.mpr ⟨rest, rfl, rfl⟩, fun empty => more (doubled_eq_nil.mp empty),
      by rwa [doubled_head]⟩

theorem doubled_injective : Function.Injective doubled := by
  intro p q same
  induction p generalizing q with
  | nil => exact (doubled_eq_nil.mp same.symm).symm
  | cons c p ih =>
    have member := member_doubled c p
    rw [same] at member
    obtain ⟨rest, rfl, tail⟩ := member.of_doubled
    rw [ih tail]

/-- Without escapes, the items of the text are the items of the doubled text. -/
theorem OrdinaryItems.items {first : Bool} (items : OrdinaryItems first p ranges rest) :
    Items first (doubled p) ranges (doubled rest) := by
  induction items with
  | close rest =>
    rw [doubled_cons_other (by decide)]
    exact .close _
  | single inside alone tail ih =>
    refine .item (inside.imp_right fun other => ?_) (.single (member_doubled _ _) ?_) ih
    · rw [doubled_head]
      simpa using other
    · rwa [startsRange_doubled]
  | range inside inner tail ih =>
    next first lo hi p rest ranges =>
    have lower := member_doubled lo (chr '-' :: hi :: p)
    rw [doubled_eq_dash.mpr ⟨hi :: p, rfl, rfl⟩] at lower
    refine .item (inside.imp_right fun other => ?_) (.range lower ?_ (member_doubled hi p)) ih
    · rw [doubled_head]
      simpa using other
    · rw [doubled_head]
      simpa using inner

theorem ordinaryItems_of_doubled {first : Bool} {after : CString} (items : Items first (doubled p) ranges after) :
    ∃ rest, after = doubled rest ∧ OrdinaryItems first p ranges rest := by
  generalize same : doubled p = text at items
  induction items generalizing p with
  | close rest =>
    have member : Member (doubled p) (chr ']') rest := by
      rw [same]
      exact .plain rest (by decide)
    obtain ⟨rest, rfl, rfl⟩ := member.of_doubled
    exact ⟨rest, rfl, .close rest⟩
  | item inside head tail ih =>
    subst same
    rw [doubled_head] at inside
    cases head with
    | single member alone =>
      obtain ⟨rest, rfl, rfl⟩ := member.of_doubled
      obtain ⟨after, rfl, items⟩ := ih rfl
      exact ⟨after, rfl, .single (by simpa using inside) (by rwa [startsRange_doubled] at alone) items⟩
    | range lower inner upper =>
      obtain ⟨rest, rfl, shape⟩ := lower.of_doubled
      obtain ⟨second, rfl, rfl⟩ := doubled_eq_dash.mp shape.symm
      obtain ⟨third, rfl, rfl⟩ := upper.of_doubled
      obtain ⟨after, rfl, items⟩ := ih rfl
      rw [doubled_head] at inner
      exact ⟨after, rfl, .range (by simpa using inside) (by simpa using inner) items⟩

theorem OrdinaryBracket.bracket {negated : Bool} (closed : OrdinaryBracket p negated ranges rest) :
    Bracket (doubled p) negated ranges (doubled rest) := by
  cases closed with
  | negated marked items =>
    have other : ∀ mark, mark = chr '!' ∨ mark = chr '^' → mark ≠ chr '\\' := by
      rintro mark (rfl | rfl) <;> decide
    rw [doubled_cons_other (other _ marked)]
    exact .negated marked items.items
  | positive unmarked items => exact .positive (by rwa [doubled_head]) items.items

theorem ordinaryBracket_of_doubled {negated : Bool} {after : CString}
    (closed : Bracket (doubled p) negated ranges after) :
    ∃ rest, after = doubled rest ∧ OrdinaryBracket p negated ranges rest := by
  generalize same : doubled p = text at closed
  cases closed with
  | negated marked items =>
    next mark q =>
    have member : Member (doubled p) mark q := by
      rw [same]
      refine .plain q ?_
      rcases marked with rfl | rfl <;> decide
    obtain ⟨q, rfl, rfl⟩ := member.of_doubled
    obtain ⟨rest, rfl, ordinary⟩ := ordinaryItems_of_doubled items
    exact ⟨rest, rfl, .negated marked ordinary⟩
  | positive unmarked items =>
    subst same
    rw [doubled_head] at unmarked
    obtain ⟨rest, rfl, ordinary⟩ := ordinaryItems_of_doubled items
    exact ⟨rest, rfl, .positive unmarked ordinary⟩

/-! ## Whole patterns -/

/-- In the doubled pattern a backslash is an escaped one. -/
def Token.escapeBackslash : Token → Token
  | .lit escaped c => .lit (escaped || c = chr '\\') c
  | token => token

theorem doubled_stars (more : ℕ) : doubled (List.replicate more (chr '*') ++ p) =
    List.replicate more (chr '*') ++ doubled p := by
  induction more with
  | zero => rfl
  | succ more ih => rw [List.replicate_succ, List.cons_append, doubled_cons_other (by decide), ih, List.cons_append]

theorem ReadTokens.tokens_doubled {tokens : List Token} (grammar : ReadTokens .ordinary p tokens) :
    Tokens false (doubled p) (tokens.map Token.escapeBackslash) := by
  induction grammar with
  | nil => exact .nil
  | any _ ih =>
    rw [doubled_cons_other (by decide)]
    exact .any ih
  | star ended _ ih =>
    rw [doubled_cons_other (by decide), doubled_stars]
    exact .star (by rwa [doubled_head]) ih
  | bracket closed _ ih =>
    rw [doubled_cons_other (by decide)]
    exact .bracket closed.bracket ih
  | unclosed unclosed _ ih =>
    rw [doubled_cons_other (by decide)]
    refine .unclosed (fun negated ranges after closed => ?_) ih
    obtain ⟨rest, _, closed⟩ := ordinaryBracket_of_doubled closed
    exact unclosed _ _ _ closed
  | literal ordinary tail ih =>
    next c rest tokens =>
    rcases em (c = chr '\\') with rfl | other
    · rw [doubled_backslash]
      exact .escape rfl ih
    · have plain : (Token.lit false c).escapeBackslash = .lit false c := by
        simp [Token.escapeBackslash, other]
      rw [doubled_cons_other other, List.map_cons, plain]
      exact .literal ordinary (fun backslash => absurd backslash other) ih

/-- Whether a backslash is escaped does not matter to its meaning. -/
theorem accepts_escapeBackslash {pathname period start : Bool} {tokens : List Token} {string : CString} :
    Accepts pathname period start (tokens.map Token.escapeBackslash) string ↔
      Accepts pathname period start tokens string := by
  induction tokens generalizing start string with
  | nil => rfl
  | cons token tokens ih =>
    cases token with
    | lit escaped c =>
      have start_same : (!(escaped || decide (c = chr '\\')) && pathname && decide (c = chr '/')) =
          (!escaped && pathname && decide (c = chr '/')) := by
        rcases em (c = chr '/') with rfl | other
        · simp [show chr '/' ≠ chr '\\' by decide]
        · simp [other]
      simp only [List.map_cons, Token.escapeBackslash, Accepts, ih, start_same]
    | any | star | set => simp only [List.map_cons, Token.escapeBackslash, Accepts, ih]

theorem OrdinaryItems.length_lt {first : Bool} (items : OrdinaryItems first p ranges rest) :
    rest.length < p.length := by
  induction items with
  | close => simp
  | single _ _ _ ih => exact ih.trans (by simp)
  | range _ _ _ ih => exact ih.trans (by simp only [List.length_cons]; omega)

theorem OrdinaryBracket.length_lt {negated : Bool} (closed : OrdinaryBracket p negated ranges rest) :
    rest.length < p.length := by
  cases closed with
  | negated _ items => exact items.length_lt.trans (by simp)
  | positive _ items => exact items.length_lt

theorem Backslash.Closes.length_lt {reading : Backslash} {negated : Bool}
    (closed : reading.Closes p negated ranges rest) : rest.length < p.length := by
  cases reading with
  | escapes => exact Bracket.length_lt closed
  | ordinary => exact OrdinaryBracket.length_lt closed

theorem exists_readTokens (reading : Backslash) (pattern : CString) : ∃ tokens, ReadTokens reading pattern tokens := by
  induction len : pattern.length using Nat.strong_induction_on generalizing pattern with
  | _ n ih =>
  subst len
  have shorter (p : CString) (less : p.length < pattern.length) : ∃ tokens, ReadTokens reading p tokens :=
    ih p.length less p rfl
  rcases pattern with _ | ⟨x, p⟩
  · exact ⟨[], .nil⟩
  obtain ⟨tokens, tail⟩ := shorter p (by simp)
  rcases em (Special x) with (rfl | rfl | rfl) | ordinary
  · obtain ⟨more, rest, rfl, ended⟩ := stars_split p
    obtain ⟨tokens, tail⟩ := shorter rest (by simp only [List.length_cons, List.length_append]; omega)
    exact ⟨_, .star ended tail⟩
  · exact ⟨_, .any tail⟩
  · rcases em (∃ negated ranges rest, reading.Closes p negated ranges rest) with ⟨_, _, rest, closed⟩ | unclosed
    · have less := closed.length_lt
      obtain ⟨tokens, tail⟩ := shorter rest (by simp only [List.length_cons]; omega)
      exact ⟨_, .bracket closed tail⟩
    · exact ⟨_, .unclosed (fun _ _ _ closed => unclosed ⟨_, _, _, closed⟩) tail⟩
  · exact ⟨_, .literal ordinary tail⟩

theorem ReadTokens.tokens {tokens : List Token} (grammar : ReadTokens .escapes p tokens) : Tokens true p tokens := by
  induction grammar with
  | nil => exact .nil
  | any _ ih => exact .any ih
  | star ended _ ih => exact .star ended ih
  | bracket closed _ ih => exact .bracket closed ih
  | unclosed unclosed _ ih => exact .unclosed unclosed ih
  | literal ordinary _ ih => exact .literal ordinary (fun _ => .inl rfl) ih

theorem ReadTokens.star_again {reading : Backslash} {tokens : List Token} (head : p.head? = some (chr '*'))
    (grammar : ReadTokens reading p tokens) : ReadTokens reading (chr '*' :: p) tokens := by
  cases grammar with
  | nil => cases head
  | star ended tail => exact @ReadTokens.star _ (_ + 1) _ _ ended tail
  | any | bracket | unclosed => exact absurd head (by simp; decide)
  | literal ordinary => exact absurd (.inl (by simpa using head)) ordinary

theorem doubled_append_of_plain {text : CString} (plain : chr '\\' ∉ text) :
    doubled (text ++ p) = text ++ doubled p := by
  induction text with
  | nil => rfl
  | cons c text ih =>
    rw [List.mem_cons, not_or] at plain
    rw [List.cons_append, doubled_cons_other (Ne.symm plain.1), ih plain.2, List.cons_append]

/-- An expression that holds no backslash is the same with and without escapes. -/
theorem OrdinaryBracket.bracket_of_plain {text : CString} {negated : Bool} (plain : chr '\\' ∉ text)
    (closed : OrdinaryBracket (text ++ rest) negated ranges rest) :
    Bracket (text ++ rest) negated ranges rest := by
  have escaped := closed.bracket
  rw [doubled_append_of_plain plain] at escaped
  obtain ⟨other, same, moved⟩ := escaped.relocate
  obtain rfl := List.append_cancel_right same
  exact moved rest

/-- Without backslashes in its bracket expressions, a pattern has the same tokens in both readings. -/
theorem PlainBrackets.exists_tokens (plain : PlainBrackets p) :
    ∃ tokens, ∀ reading, ReadTokens reading p tokens := by
  induction plain with
  | nil => exact ⟨[], fun _ => .nil⟩
  | bracket closed plain _ ih =>
    next text rest negated ranges _ =>
    obtain ⟨tokens, tail⟩ := ih
    refine ⟨.set negated ranges :: tokens, fun reading => .bracket ?_ (tail reading)⟩
    cases reading with
    | escapes => exact closed.bracket_of_plain plain
    | ordinary => exact closed
  | unclosed unescaped escaped _ ih =>
    obtain ⟨tokens, tail⟩ := ih
    refine ⟨_, fun reading => .unclosed ?_ (tail reading)⟩
    cases reading with
    | escapes => exact escaped
    | ordinary => exact unescaped
  | other other tail ih =>
    next c rest =>
    obtain ⟨tokens, tail⟩ := ih
    rcases em (Special c) with (rfl | rfl | rfl) | literal
    · rcases em (rest.head? = some (chr '*')) with again | new
      · exact ⟨tokens, fun reading => (tail reading).star_again again⟩
      · exact ⟨_, fun reading => @ReadTokens.star reading 0 _ _ new (tail reading)⟩
    · exact ⟨_, fun reading => .any (tail reading)⟩
    · exact absurd rfl other
    · exact ⟨_, fun reading => .literal literal (tail reading)⟩

/-! ## Matches as paths -/

section Paths

variable {pathname period start : Bool} {reading : Backslash} {tokens : List Token} {string : CString}
  {place next goal : MatchPlace}

theorem Completes.head (step : MatchStep pathname period reading place next)
    (rest : Completes pathname period reading next) : Completes pathname period reading place := by
  obtain ⟨start, path⟩ := rest
  exact ⟨start, path.head step⟩

theorem ReadTokens.completes (grammar : ReadTokens reading p tokens)
    (accepted : Accepts pathname period start tokens string) :
    Completes pathname period reading ⟨start, p, string⟩ := by
  induction grammar generalizing start string with
  | nil =>
    obtain rfl : string = [] := accepted
    exact ⟨start, .refl⟩
  | any _ ih =>
    obtain ⟨c, rest, rfl, free, accepted⟩ := accepted
    exact (ih accepted).head (.any free)
  | star ended _ ih =>
    next more rest tokens _ =>
    obtain ⟨free, front, back, rfl, clear, accepted⟩ := accepted
    have later := ih accepted
    rw [← dropWhile_stars more ended] at later
    exact later.head (.star free clear)
  | bracket closed _ ih =>
    obtain ⟨c, rest, rfl, inside, free, accepted⟩ := accepted
    exact (ih accepted).head (.bracket (.closed closed inside free))
  | unclosed unclosed _ ih =>
    obtain ⟨rest, rfl, -, accepted⟩ := accepted
    rw [show decide (chr '[' = chr '/') = false by decide, Bool.and_false] at accepted
    exact (ih accepted).head (.bracket (.unclosed unclosed rfl))
  | literal ordinary _ ih =>
    obtain ⟨rest, rfl, ascii, accepted⟩ := accepted
    exact (ih accepted).head (.literal ordinary ascii)

/-- The tokens that a path goes along. -/
theorem Completes.exists_tokens (completes : Completes pathname period reading place) :
    ∃ tokens, ReadTokens reading place.pattern tokens ∧
      Accepts pathname period place.start tokens place.string := by
  obtain ⟨final, path⟩ := completes
  induction path using Relation.ReflTransGen.head_induction_on with
  | refl => exact ⟨[], .nil, rfl⟩
  | head step _ ih =>
    obtain ⟨tokens, grammar, accepted⟩ := ih
    cases step with
    | literal ordinary ascii => exact ⟨_, .literal ordinary grammar, _, rfl, ascii, accepted⟩
    | any free => exact ⟨_, .any grammar, _, _, rfl, free, accepted⟩
    | star free clear =>
      next start p front back _ =>
      obtain ⟨more, rest, rfl, ended⟩ := stars_split p
      rw [dropWhile_stars more ended] at grammar
      exact ⟨_, .star ended grammar, free, front, back, rfl, clear, accepted⟩
    | bracket takes =>
      cases takes with
      | closed closed inside free => exact ⟨_, .bracket closed grammar, _, _, rfl, inside, free, accepted⟩
      | unclosed unclosed same =>
        subst same
        refine ⟨_, .unclosed unclosed grammar, _, rfl, by decide, ?_⟩
        rwa [show decide (chr '[' = chr '/') = false by decide, Bool.and_false]

/-- A step that is not one of both readings is at a bracket expression which they read differently. -/
theorem MatchStep.common_or_differs (step : MatchStep pathname period reading place next) :
    (∀ other, MatchStep pathname period other place next) ∨ ReadDifferently pathname period place := by
  cases step with
  | literal ordinary ascii => exact .inl fun _ => .literal ordinary ascii
  | any free => exact .inl fun _ => .any free
  | star free clear => exact .inl fun _ => .star free clear
  | bracket takes =>
    next start c p s rest =>
    rcases em (∀ rest, BracketTakes pathname period .escapes start p c rest ↔
      BracketTakes pathname period .ordinary start p c rest) with alike | different
    · refine .inl fun other => .bracket ?_
      cases reading <;> cases other
      · exact takes
      · exact (alike rest).mp takes
      · exact (alike rest).mpr takes
      · exact takes
    · exact .inr ⟨p, c, s, rfl, rfl, different⟩

theorem Leads.completes (leads : Leads pathname period place next)
    (rest : Completes pathname period reading next) : Completes pathname period reading place := by
  induction leads using Relation.ReflTransGen.head_induction_on with
  | refl => exact rest
  | head step _ ih => exact ih.head (step reading)

/-- A match of one reading is one of both, or it leads to a bracket expression that they read differently. -/
theorem completes_iff_alike_or_apart : Completes pathname period reading place ↔
    CompletesAlike pathname period place ∨ CompletesApart pathname period reading place := by
  constructor
  · rintro ⟨final, path⟩
    induction path using Relation.ReflTransGen.head_induction_on with
    | refl => exact .inl ⟨final, .refl⟩
    | head step path ih =>
      rcases step.common_or_differs with common | differs
      · rcases ih with ⟨final, leads⟩ | ⟨middle, leads, differs, rest⟩
        · exact .inl ⟨final, leads.head common⟩
        · exact .inr ⟨middle, leads.head common, differs, rest⟩
      · exact .inr ⟨_, .refl, differs, final, path.head step⟩
  · rintro (⟨final, leads⟩ | ⟨middle, leads, -, rest⟩)
    · exact leads.completes ⟨final, .refl⟩
    · exact leads.completes rest

/-- In each reading, what a bracket expression leaves does not depend on anything but the expression. -/
theorem BracketTakes.unique {c : CChar} {other : CString} (one : BracketTakes pathname period reading start p c rest)
    (two : BracketTakes pathname period reading start p c other) : rest = other := by
  have same {negated negated' : Bool} {ranges ranges' : List (CChar × CChar)} {rest other : CString}
      (closed : reading.Closes p negated ranges rest) (closed' : reading.Closes p negated' ranges' other) :
      rest = other := by
    cases reading with
    | escapes =>
      have read := (Bracket.matchBracket_eq closed c).symm.trans (Bracket.matchBracket_eq closed' c)
      simpa using (congrArg (Option.map Prod.snd) read)
    | ordinary =>
      have read := (Bracket.matchBracket_eq (OrdinaryBracket.bracket closed) c).symm.trans
        (Bracket.matchBracket_eq (OrdinaryBracket.bracket closed') c)
      apply doubled_injective
      simpa using (congrArg (Option.map Prod.snd) read)
  cases one with
  | closed closed =>
    cases two with
    | closed closed' => exact same closed closed'
    | unclosed unclosed => exact absurd closed (unclosed _ _ _)
  | unclosed unclosed =>
    cases two with
    | closed closed => exact absurd closed (unclosed _ _ _)
    | unclosed => rfl

/-- A bracket expression that takes the character in both readings with the same rest is read alike. -/
theorem not_readDifferently_of_takes {c : CChar} {s : CString}
    (takes : ∀ reading, BracketTakes pathname period reading start p c rest) :
    ¬ ReadDifferently pathname period ⟨start, chr '[' :: p, c :: s⟩ := by
  rintro ⟨p', c', s', pattern, string, different⟩
  obtain ⟨-, rfl⟩ := List.cons.inj pattern
  obtain ⟨rfl, -⟩ := List.cons.inj string
  apply different
  intro other
  constructor
  · intro one
    exact one.unique (takes .escapes) ▸ takes .ordinary
  · intro one
    exact one.unique (takes .ordinary) ▸ takes .escapes

end Paths

section Law

variable {pattern string : CString} {flags : BitVec 32} {tokens : List Token}

theorem fnmatch_noescape_accepts (flags : BitVec 32) (grammar : ReadTokens .escapes pattern tokens) :
    fnmatch pattern string (flags ||| FNM_NOESCAPE) = 0 ↔
      Accepts (hasFlag flags FNM_PATHNAME) (hasFlag flags FNM_PERIOD) true tokens string := by
  have noescape : hasFlag (flags ||| FNM_NOESCAPE) FNM_NOESCAPE = true := by
    rw [hasFlag_or, show hasFlag FNM_NOESCAPE FNM_NOESCAPE = true by decide, Bool.or_true]
  have agrees : Agrees (flags ||| FNM_NOESCAPE) pattern tokens :=
    fnmatchLoop_accepts (by rw [noescape]; exact grammar.tokens)
  rw [fnmatch, agrees true string, hasFlag_or, hasFlag_or, show hasFlag FNM_NOESCAPE FNM_PATHNAME = false by decide,
    show hasFlag FNM_NOESCAPE FNM_PERIOD = false by decide, Bool.or_false, Bool.or_false]

/-- Doubling every backslash gives the meaning in which all of them are ordinary. -/
theorem fnmatch_doubled_accepts (escapes : hasFlag flags FNM_NOESCAPE = false)
    (grammar : ReadTokens .ordinary pattern tokens) :
    fnmatch (doubled pattern) string flags = 0 ↔
      Accepts (hasFlag flags FNM_PATHNAME) (hasFlag flags FNM_PERIOD) true tokens string := by
  have agrees : Agrees flags (doubled pattern) (tokens.map Token.escapeBackslash) :=
    fnmatchLoop_accepts (by rw [escapes]; exact grammar.tokens_doubled)
  exact (agrees true string).trans accepts_escapeBackslash

theorem completes_iff {pathname period : Bool} {reading : Backslash} {place : MatchPlace} {matched : Prop}
    (accepts : ∀ tokens, ReadTokens reading place.pattern tokens →
      (matched ↔ Accepts pathname period place.start tokens place.string)) :
    matched ↔ Completes pathname period reading place := by
  constructor
  · intro done
    obtain ⟨tokens, grammar⟩ := exists_readTokens reading place.pattern
    exact grammar.completes ((accepts tokens grammar).mp done)
  · intro completes
    obtain ⟨tokens, grammar, accepted⟩ := completes.exists_tokens
    exact (accepts tokens grammar).mpr accepted

theorem fnmatch_noescape_eq_iff (escapes : hasFlag flags FNM_NOESCAPE = false) :
    fnmatch pattern string (flags ||| FNM_NOESCAPE) = fnmatch (doubled pattern) string flags ↔
      CompletesAlike (hasFlag flags FNM_PATHNAME) (hasFlag flags FNM_PERIOD) ⟨true, pattern, string⟩ ∨
        (CompletesApart (hasFlag flags FNM_PATHNAME) (hasFlag flags FNM_PERIOD) .escapes ⟨true, pattern, string⟩ ↔
          CompletesApart (hasFlag flags FNM_PATHNAME) (hasFlag flags FNM_PERIOD) .ordinary
            ⟨true, pattern, string⟩) := by
  have escaped : fnmatch pattern string (flags ||| FNM_NOESCAPE) = 0 ↔
      Completes (hasFlag flags FNM_PATHNAME) (hasFlag flags FNM_PERIOD) .escapes ⟨true, pattern, string⟩ :=
    completes_iff fun _ grammar => fnmatch_noescape_accepts flags grammar
  have ordinary : fnmatch (doubled pattern) string flags = 0 ↔
      Completes (hasFlag flags FNM_PATHNAME) (hasFlag flags FNM_PERIOD) .ordinary ⟨true, pattern, string⟩ :=
    completes_iff fun _ grammar => fnmatch_doubled_accepts escapes grammar
  rw [fnmatch_eq_iff, escaped, ordinary, completes_iff_alike_or_apart, completes_iff_alike_or_apart]
  tauto

theorem PlainBrackets.fnmatch_eq (plain : PlainBrackets pattern) (escapes : hasFlag flags FNM_NOESCAPE = false) :
    fnmatch pattern string (flags ||| FNM_NOESCAPE) = fnmatch (doubled pattern) string flags := by
  obtain ⟨tokens, grammar⟩ := plain.exists_tokens
  exact fnmatch_eq_iff.mpr ((fnmatch_noescape_accepts flags (grammar .escapes)).trans
    (fnmatch_doubled_accepts escapes (grammar .ordinary)).symm)

end Law

/-- The match of a pattern comes to no bracket expression that the two readings read differently. -/
def NoDifference (flags : BitVec 32) (pattern string : CString) : Prop :=
  ∀ place, Leads (hasFlag flags FNM_PATHNAME) (hasFlag flags FNM_PERIOD) ⟨true, pattern, string⟩ place →
    ¬ ReadDifferently (hasFlag flags FNM_PATHNAME) (hasFlag flags FNM_PERIOD) place

/-- `FNM_NOESCAPE` gives the result for doubled backslashes exactly if the string is matched without any bracket
expression that takes its character in one reading only, or if such brackets that the match comes to lead to its end
in both readings or in none. In particular it does so if the match comes to no such bracket expression, and whenever no
bracket expression of the pattern holds a backslash. -/
theorem fnmatch_noescape_doubled (pattern string : CString) (flags : BitVec 32)
    (escapes : hasFlag flags FNM_NOESCAPE = false) :
    (fnmatch pattern string (flags ||| FNM_NOESCAPE) = fnmatch (doubled pattern) string flags ↔
      CompletesAlike (hasFlag flags FNM_PATHNAME) (hasFlag flags FNM_PERIOD) ⟨true, pattern, string⟩ ∨
        (CompletesApart (hasFlag flags FNM_PATHNAME) (hasFlag flags FNM_PERIOD) .escapes ⟨true, pattern, string⟩ ↔
          CompletesApart (hasFlag flags FNM_PATHNAME) (hasFlag flags FNM_PERIOD) .ordinary
            ⟨true, pattern, string⟩)) ∧
      (NoDifference flags pattern string →
        fnmatch pattern string (flags ||| FNM_NOESCAPE) = fnmatch (doubled pattern) string flags) ∧
      (PlainBrackets pattern →
        fnmatch pattern string (flags ||| FNM_NOESCAPE) = fnmatch (doubled pattern) string flags) := by
  refine ⟨fnmatch_noescape_eq_iff escapes, fun alike => ?_, fun plain => plain.fnmatch_eq escapes⟩
  rw [fnmatch_noescape_eq_iff escapes]
  right
  constructor
  · rintro ⟨middle, leads, differs, -⟩
    exact absurd differs (alike middle leads)
  · rintro ⟨middle, leads, differs, -⟩
    exact absurd differs (alike middle leads)

/-- A match that has to compare a character first stands where it started, or the characters are the same. -/
theorem Leads.of_literal {pathname period start : Bool} {place : MatchPlace} {s : CString} (ordinary : ¬ Special c)
    (leads : Leads pathname period ⟨start, c :: p, s⟩ place) :
    place = ⟨start, c :: p, s⟩ ∨ s.head? = some c := by
  rcases Relation.ReflTransGen.cases_head leads with rfl | ⟨next, steps, -⟩
  · exact .inl rfl
  · have step := steps .escapes
    generalize shape : (⟨start, c :: p, s⟩ : MatchPlace) = first at step
    cases step with
    | literal =>
      injection shape with _ pattern string
      exact .inr (by rw [string, (List.cons.inj pattern).1, List.head?_cons])
    | any | star | bracket =>
      injection shape with _ pattern
      exact absurd (by simp [Special, (List.cons.inj pattern).1]) ordinary

/-- A bracket expression takes one character. -/
theorem MatchStep.of_bracket {pathname period start : Bool} {reading : Backslash} {next : MatchPlace} {s : CString}
    (step : MatchStep pathname period reading ⟨start, chr '[' :: p, c :: s⟩ next) : next.string = s := by
  generalize shape : (⟨start, chr '[' :: p, c :: s⟩ : MatchPlace) = place at step
  cases step with
  | bracket =>
    injection shape with _ _ string
    exact (List.cons.inj string).2.symm
  | literal ordinary =>
    injection shape with _ pattern
    exact absurd (.inr (.inr (List.cons.inj pattern).1.symm)) ordinary
  | any | star =>
    injection shape with _ pattern
    exact absurd (List.cons.inj pattern).1 (by decide)

/-- At the end of the string no bracket expression is compared any more. -/
theorem Leads.string_nil {pathname period : Bool} {place next : MatchPlace} (leads : Leads pathname period place next)
    (ended : place.string = []) : next.string = [] := by
  induction leads with
  | refl => exact ended
  | tail _ step ih =>
    cases step .escapes with
    | literal | any | bracket => cases ih
    | star => exact (List.append_eq_nil_iff.mp ih).2

/-- The bracket expression `[\\a]`. -/
def escapedMember : CString := [chr '[', chr '\\', chr 'a', chr ']']

theorem escapedMember_takes (reading : Backslash) :
    BracketTakes false false reading true [chr '\\', chr 'a', chr ']'] (chr 'a') [] := by
  have alone : ¬ StartsRange [chr ']'] := by
    rintro ⟨y, rest, shape, -⟩
    cases (List.cons.inj shape).2
  cases reading with
  | escapes =>
    exact .closed (.positive (by decide) (.item (.inl rfl) (.single (.escaped _ _) alone) (.close [])))
      (by decide) (by simp [Withheld])
  | ordinary =>
    have first : ¬ StartsRange [chr 'a', chr ']'] := by
      rintro ⟨y, rest, shape, -⟩
      exact absurd (List.cons.inj shape).1 (by decide)
    exact .closed (.positive (by decide) (.single (.inl rfl) first (.single (.inr (by decide)) alone (.close []))))
      (by decide) (by simp [Withheld])

/-- `x[\\a]` is not compared with `y` behind the `x`, and `[\\a]` takes an `a` in both readings. -/
theorem fnmatch_noescape_doubled_member :
    fnmatch (chr 'x' :: escapedMember) [chr 'y'] (0 ||| FNM_NOESCAPE) =
        fnmatch (doubled (chr 'x' :: escapedMember)) [chr 'y'] 0 ∧
      fnmatch escapedMember [chr 'a'] (0 ||| FNM_NOESCAPE) = fnmatch (doubled escapedMember) [chr 'a'] 0 := by
  constructor
  · refine (fnmatch_noescape_doubled _ _ 0 (by decide)).2.1 ?_
    rintro place leads ⟨p, c, s, pattern, -⟩
    rcases leads.of_literal (by decide) with rfl | same
    · exact absurd (List.cons.inj pattern).1 (by decide)
    · exact absurd same (by decide)
  · refine (fnmatch_noescape_doubled _ _ 0 (by decide)).2.1 ?_
    intro place leads different
    rcases Relation.ReflTransGen.cases_head leads with rfl | ⟨next, steps, later⟩
    · exact not_readDifferently_of_takes escapedMember_takes different
    · have ended : next.string = [] := (steps .escapes).of_bracket
      obtain ⟨_, _, _, -, string, -⟩ := different
      rw [Leads.string_nil later ended] at string
      cases string

/-- `[\\a]` does not match a backslash under `FNM_NOESCAPE`, but `[\\\\a]` does. -/
theorem fnmatch_noescape_bracket :
    fnmatch [chr '[', chr '\\', chr 'a', chr ']'] [chr '\\'] (0 ||| FNM_NOESCAPE) ≠
      fnmatch (doubled [chr '[', chr '\\', chr 'a', chr ']']) [chr '\\'] 0 := by
  decide +kernel

end CLite
