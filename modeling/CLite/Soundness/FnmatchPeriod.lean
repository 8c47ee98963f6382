import CLite.Proofs.PathPieces
import CLite.Spec.ExplicitDots

/-! # Leading dots under `FNM_PERIOD`

The matcher withholds a dot from a wildcard wherever it takes the position for a start. It does so at the
start of the string and behind a plain slash, but not behind an escaped one: there a wildcard can take a
leading dot. Everywhere else leading dots are matched by what has them written out.
-/

namespace CLite

open Delimited

variable {tokens : List Token} {string : CString}

/-! ## Leading positions -/

theorem leading_false_iff {before : CString} : Leading false before ↔ before = [] := by
  simp [Leading]

/-- Without a slash in the text between, only the position itself can be leading. -/
theorem leading_append_iff {before front : CString} (inner : ∀ x ∈ front, x.isSlash = false) :
    Leading true (before ++ front) ↔ front = [] ∧ Leading true before := by
  rcases List.eq_nil_or_concat front with rfl | ⟨initial, last, rfl⟩
  · simp
  · have other : last ≠ chr '/' := isSlash_false_iff.mp (inner last (by simp))
    constructor
    · rintro (empty | ⟨_, slash⟩)
      · simp at empty
      · rw [List.concat_eq_append, ← List.append_assoc, List.getLast?_concat] at slash
        exact absurd (Option.some.inj slash) other
    · rintro ⟨empty, _⟩
      simp at empty

theorem dotsWritten_iff {before before' part : CString} {token : Token}
    (inner : ∀ x ∈ part, x.isSlash = false) (same : Leading true before ↔ before' = []) :
    DotsWritten true before token part ↔ DotsWritten false before' token part := by
  refine forall_congr' fun front => forall_congr' fun back => forall_congr' fun split => ?_
  have clear : ∀ x ∈ front, x.isSlash = false := fun x member => inner x (by rw [split]; simp [member])
  rw [leading_append_iff clear, leading_false_iff, same, List.append_eq_nil_iff, and_comm]

theorem Token.takes_pathname_iff {token : Token} (inner : token.isSlash = false) {part : CString} :
    token.Takes true part ↔ token.Takes false part ∧ ∀ x ∈ part, x.isSlash = false := by
  cases token with
  | lit escaped c =>
    have other : c ≠ chr '/' := of_decide_eq_false inner
    simp only [Takes]
    constructor
    · rintro rfl
      exact ⟨rfl, by simpa using isSlash_false_iff.mpr other⟩
    · rintro ⟨rfl, _⟩
      rfl
  | any =>
    simp only [Takes]
    constructor
    · rintro ⟨c, rfl, other⟩
      exact ⟨⟨c, rfl, by simp⟩, by simpa using isSlash_false_iff.mpr (other trivial)⟩
    · rintro ⟨⟨c, rfl, _⟩, clear⟩
      exact ⟨c, rfl, fun _ => isSlash_false_iff.mp (clear c (by simp))⟩
  | set negated ranges =>
    simp only [Takes]
    constructor
    · rintro ⟨c, rfl, inside, other⟩
      exact ⟨⟨c, rfl, inside, by simp⟩, by simpa using isSlash_false_iff.mpr (other trivial)⟩
    · rintro ⟨⟨c, rfl, inside, _⟩, clear⟩
      exact ⟨c, rfl, inside, fun _ => isSlash_false_iff.mp (clear c (by simp))⟩
  | star =>
    simp only [Takes, forall_const, Bool.false_eq_true, false_imp_iff, true_and]
    constructor
    · intro clear x member
      apply isSlash_false_iff.mpr
      rintro rfl
      exact clear member
    · intro clear member
      exact isSlash_false_iff.mp (clear _ member) rfl

/-! ## Component by component -/

/-- A slash of the pattern takes a slash of the string and nothing else. -/
theorem explicitDots_slash {before : CString} {escaped : Bool} :
    ExplicitDots true before (.lit escaped (chr '/') :: tokens) string ↔
      ∃ rest, string = chr '/' :: rest ∧ ExplicitDots true (before ++ [chr '/']) tokens rest := by
  have written : DotsWritten true before (.lit escaped (chr '/')) [chr '/'] := by
    rintro (_ | ⟨x, front⟩) back split _
    · exact absurd (List.cons.inj split).1 (by decide)
    · simp at split
  rw [ExplicitDots]
  constructor
  · rintro ⟨part, rest, rfl, rfl, -, later⟩
    exact ⟨rest, rfl, later⟩
  · rintro ⟨rest, rfl, later⟩
    exact ⟨[chr '/'], rest, rfl, rfl, written, later⟩

/-- For path names the leading dots are the first characters of the components. -/
theorem explicitDots_pathname_iff {before before' : CString} (same : Leading true before ↔ before' = []) :
    ExplicitDots true before tokens string ↔
      ExplicitDots false before' (lead Token.isSlash tokens) (lead CChar.isSlash string) ∧
        List.Forall₂ (fun token slash => ExplicitDots false [] token.2 slash.2)
          (behind Token.isSlash tokens) (behind CChar.isSlash string) := by
  induction tokens generalizing before before' string with
  | nil =>
    rw [lead_nil, behind_nil, ExplicitDots, ExplicitDots, List.forall₂_nil_left_iff]
    constructor
    · rintro rfl
      exact ⟨rfl, rfl⟩
    · rintro ⟨first, others⟩
      exact eq_nil_of_lead_behind first others
  | cons token tokens ih =>
    cases cut : token.isSlash with
    | true =>
      obtain ⟨escaped, rfl⟩ : ∃ escaped, token = .lit escaped (chr '/') := by
        cases token with
        | lit escaped c => exact ⟨escaped, by rw [of_decide_eq_true cut]⟩
        | any | star | set => cases cut
      rw [lead_cons_delimiter cut, behind_cons_delimiter cut, explicitDots_slash, ExplicitDots]
      have fresh : Leading true (before ++ [chr '/']) ↔ ([] : CString) = [] := by simp [Leading]
      constructor
      · rintro ⟨rest, rfl, later⟩
        obtain ⟨first, others⟩ := (ih fresh).mp later
        rw [lead_cons_delimiter rfl, behind_cons_delimiter rfl]
        exact ⟨rfl, .cons first others⟩
      · rintro ⟨empty, others⟩
        cases string with
        | nil => cases others
        | cons x rest =>
          cases here : x.isSlash with
          | false =>
            rw [lead_cons here] at empty
            cases empty
          | true =>
            obtain rfl := isSlash_iff.mp here
            rw [behind_cons_delimiter here] at others
            obtain ⟨first, others⟩ := List.forall₂_cons.mp others
            exact ⟨rest, rfl, (ih fresh).mpr ⟨first, others⟩⟩
    | false =>
      rw [lead_cons cut, behind_cons cut, ExplicitDots, ExplicitDots]
      have next {part : CString} (inner : ∀ x ∈ part, x.isSlash = false) :
          Leading true (before ++ part) ↔ before' ++ part = [] := by
        rw [leading_append_iff inner, same, List.append_eq_nil_iff, and_comm]
      constructor
      · rintro ⟨part, rest, rfl, taken, written, later⟩
        obtain ⟨taken, inner⟩ := (token.takes_pathname_iff cut).mp taken
        obtain ⟨first, others⟩ := (ih (next inner)).mp later
        rw [lead_append inner, behind_append inner]
        exact ⟨⟨part, _, rfl, taken, (dotsWritten_iff inner same).mp written, first⟩, others⟩
      · rintro ⟨⟨part, rest, split, taken, written, first⟩, others⟩
        obtain ⟨back, rfl, inner, rfl, rest_same⟩ := lead_eq_append split
        rw [← rest_same] at others
        exact ⟨part, back, rfl, (token.takes_pathname_iff cut).mpr ⟨taken, inner⟩,
          (dotsWritten_iff inner same).mpr written, (ih (next inner)).mpr ⟨first, others⟩⟩

/-! ## What the matcher guarantees -/

section Guard

variable {before : CString} {start : Bool}

theorem dotsWritten_single {token : Token} {c : CChar} (written : c = chr '.' → before = [] → token.WritesDot) :
    DotsWritten false before token [c] := by
  rintro (_ | ⟨x, front⟩) back split leading
  · exact written (List.cons.inj split).1 (by simpa using leading_false_iff.mp leading)
  · simp at split

/-- Where the matcher takes the position for a start, or no dot stands there, the guard suffices. -/
theorem Accepts.explicitDots (accepted : Accepts false true start tokens string)
    (guarded : start = true ∨ before ≠ [] ∨ string.head? ≠ some (chr '.')) :
    ExplicitDots false before tokens string := by
  induction tokens generalizing before start string with
  | nil => exact accepted
  | cons token tokens ih =>
    cases token with
    | lit escaped c =>
      obtain ⟨rest, rfl, _, later⟩ := accepted
      refine ⟨[c], rest, rfl, rfl, dotsWritten_single fun dot _ => dot, ih later (.inr (.inl (by simp)))⟩
    | any =>
      obtain ⟨c, rest, rfl, free, later⟩ := accepted
      refine ⟨[c], rest, rfl, ⟨c, rfl, by simp⟩, dotsWritten_single ?_, ih later (.inr (.inl (by simp)))⟩
      rintro rfl rfl
      rcases guarded with started | more | visible
      · exact free (.inr ⟨rfl, started, rfl⟩)
      · exact more rfl
      · exact visible rfl
    | set negated ranges =>
      obtain ⟨c, rest, rfl, inside, free, later⟩ := accepted
      refine ⟨[c], rest, rfl, ⟨c, rfl, inside, by simp⟩, dotsWritten_single ?_, ih later (.inr (.inl (by simp)))⟩
      rintro rfl rfl
      rcases guarded with started | more | visible
      · show ListsDot ranges
        by_contra unlisted
        exact free (.inr ⟨by simpa using unlisted, started, rfl⟩)
      · exact absurd rfl more
      · exact absurd rfl visible
    | star =>
      obtain ⟨visible, front, back, rfl, _, later⟩ := accepted
      refine ⟨front, back, rfl, by simp [Token.Takes], ?_, ih later (.inl rfl)⟩
      rintro front' back' rfl leading
      obtain ⟨rfl, rfl⟩ := List.append_eq_nil_iff.mp (leading_false_iff.mp leading)
      rcases guarded with started | more | other
      · exact absurd ⟨rfl, started, rfl⟩ visible
      · exact absurd rfl more
      · exact absurd rfl other

end Guard

/-- Behind an escaped slash of the pattern, a component of the string that starts with a dot can be cut with
the dot written out. -/
def EscapedSlashesGuarded (tokens : List Token) (string : CString) : Prop :=
  ∀ pair ∈ (behind Token.isSlash tokens).zip (behind CChar.isSlash string), pair.1.1.opensStart = false →
    pair.2.2.head? = some (chr '.') → ExplicitDots false [] pair.1.2 pair.2.2

theorem explicitDots_iff_guarded (accepted : Accepts true true true tokens string) :
    ExplicitDots true [] tokens string ↔ EscapedSlashesGuarded tokens string := by
  obtain ⟨first, others⟩ := accepts_pathname_iff.mp accepted
  rw [@explicitDots_pathname_iff tokens string [] [] (by simp [Leading]), EscapedSlashesGuarded]
  generalize behind Token.isSlash tokens = components at others
  generalize behind CChar.isSlash string = parts at others
  constructor
  · rintro ⟨_, explicit⟩ pair member _ _
    exact (List.forall₂_iff_zip.mp explicit).2 member
  · intro guarded
    refine ⟨first.explicitDots (.inl rfl), List.forall₂_iff_zip.mpr ⟨others.length_eq, ?_⟩⟩
    intro component part member
    have matched := (List.forall₂_iff_zip.mp others).2 member
    rcases em (component.1.opensStart = false ∧ part.2.head? = some (chr '.')) with ⟨escaped, dot⟩ | safe
    · exact guarded _ member escaped dot
    · apply matched.explicitDots
      cases opens : component.1.opensStart with
      | true => exact .inl rfl
      | false => exact .inr (.inr fun dot => safe ⟨opens, dot⟩)

/-- A match under `FNM_PERIOD` has all its leading dots written out in the pattern exactly when, for path
names, this holds behind the escaped slashes of the pattern. -/
theorem fnmatch_leadingDots_iff (pattern string : CString) (flags : BitVec 32)
    (period : hasFlag flags FNM_PERIOD = true) :
    (∃ tokens, Tokens (hasFlag flags FNM_NOESCAPE) pattern tokens) ∧
      ∀ tokens, Tokens (hasFlag flags FNM_NOESCAPE) pattern tokens → fnmatch pattern string flags = 0 →
        (ExplicitDots (hasFlag flags FNM_PATHNAME) [] tokens string ↔
          (hasFlag flags FNM_PATHNAME = true → EscapedSlashesGuarded tokens string)) := by
  refine ⟨exists_tokens _ pattern, fun tokens grammar matched => ?_⟩
  have accepted := (fnmatchLoop_accepts grammar true string).mp matched
  rw [period] at accepted
  cases paths : hasFlag flags FNM_PATHNAME with
  | false =>
    rw [paths] at accepted
    exact iff_of_true (accepted.explicitDots (.inl rfl)) (by simp)
  | true =>
    rw [paths] at accepted
    rw [explicitDots_iff_guarded accepted]
    exact ⟨fun guarded _ => guarded, fun guarded => guarded rfl⟩

/-- An escaped slash, and `?` behind it. -/
def escapedSlashAny : CString := [chr '\\', chr '/', chr '?']

theorem escapedSlashAny_tokens (flags : BitVec 32) (escapes : hasFlag flags FNM_NOESCAPE = false) :
    Tokens (hasFlag flags FNM_NOESCAPE) escapedSlashAny [.lit true (chr '/'), .any] :=
  .escape escapes (.any .nil)

theorem fnmatch_leadingDots_iff_visible :
    fnmatch escapedSlashAny [chr '/', chr 'a'] (FNM_PATHNAME ||| FNM_PERIOD) = 0 ∧
      ExplicitDots true [] [.lit true (chr '/'), .any] [chr '/', chr 'a'] := by
  have matched : fnmatch escapedSlashAny [chr '/', chr 'a'] (FNM_PATHNAME ||| FNM_PERIOD) = 0 := by
    decide +kernel
  refine ⟨matched, ((fnmatch_leadingDots_iff escapedSlashAny [chr '/', chr 'a'] (FNM_PATHNAME ||| FNM_PERIOD)
    (by decide)).2 _ (escapedSlashAny_tokens _ (by decide)) matched).mpr ?_⟩
  intro _ pair member _ dot
  obtain rfl : pair = ((.lit true (chr '/'), [.any]), (chr '/', [chr 'a'])) := List.mem_singleton.mp member
  exact absurd dot (by decide)

/-- `\\/?` matches `/.`, where only `?` can take the leading dot. -/
theorem escaped_slash_any_takes_dot :
    fnmatch escapedSlashAny [chr '/', chr '.'] (FNM_PATHNAME ||| FNM_PERIOD) = 0 ∧
      ∃ tokens, Tokens (hasFlag (FNM_PATHNAME ||| FNM_PERIOD) FNM_NOESCAPE) escapedSlashAny tokens ∧
        ¬ ExplicitDots (hasFlag (FNM_PATHNAME ||| FNM_PERIOD) FNM_PATHNAME) [] tokens [chr '/', chr '.'] := by
  refine ⟨by decide +kernel, _, escapedSlashAny_tokens _ (by decide), ?_⟩
  rintro ⟨_, rest, split, rfl, _, part, rest', split', ⟨c, rfl, _⟩, written, _⟩
  obtain rfl : rest = [chr '.'] := (List.cons.inj split).2.symm
  obtain ⟨rfl, _⟩ := List.cons.inj split'
  exact written [] [] rfl (.inr ⟨by decide, rfl⟩)

end CLite
