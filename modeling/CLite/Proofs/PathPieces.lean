import CLite.Lib.Delimited
import CLite.Proofs.FnmatchTokens
import CLite.Spec.PathPieces

/-! # Path components

Under `FNM_PATHNAME` only a slash of the pattern takes a slash of the string, so that acceptance falls into
acceptance of the components. The pieces of a pattern have the components of its tokens.
-/

namespace CLite

open Delimited

/-! ## Acceptance by components -/

section Components

variable {period start : Bool} {tokens : List Token} {string : CString}

theorem isSlash_iff {c : CChar} : c.isSlash = true ↔ c = chr '/' := decide_eq_true_iff

theorem isSlash_false_iff {c : CChar} : c.isSlash = false ↔ c ≠ chr '/' := decide_eq_false_iff_not

/-- The components of the tokens accept the components of the string, each at its own start. -/
def AcceptsComponents (period start : Bool) (tokens : List Token) (string : CString) : Prop :=
  Accepts false period start (lead Token.isSlash tokens) (lead CChar.isSlash string) ∧
    List.Forall₂ (fun token slash => Accepts false period token.1.opensStart token.2 slash.2)
      (behind Token.isSlash tokens) (behind CChar.isSlash string)

/-- The first component starts the string off as the string itself. -/
theorem lead_head {c : CChar} (other : c ≠ chr '/') :
    (lead CChar.isSlash string).head? = some c ↔ string.head? = some c := by
  cases string with
  | nil => rfl
  | cons x rest =>
    cases cut : x.isSlash with
    | true =>
      rw [lead_cons_delimiter cut, isSlash_iff.mp cut]
      simp [other.symm]
    | false => rw [lead_cons cut, List.head?_cons, List.head?_cons]

theorem withheld_of_inner {c : CChar} (inner : c.isSlash = false) :
    Withheld true period start c ↔ Withheld false period start c := by
  simp [Withheld, isSlash_false_iff.mp inner]

/-- A token for one character, other than a slash, takes the first character of the first component. -/
theorem acceptsComponents_cons {token : Token} (inner : token.isSlash = false) {x : CChar} {rest : CString}
    {start' : Bool} {takes : Prop}
    (nothing : ¬ Accepts false period start (token :: lead Token.isSlash tokens) [])
    (step : x.isSlash = false →
      (Accepts false period start (token :: lead Token.isSlash tokens) (x :: lead CChar.isSlash rest) ↔
        takes ∧ Accepts false period start' (lead Token.isSlash tokens) (lead CChar.isSlash rest)))
    (slash : x.isSlash = true → ¬ takes) :
    AcceptsComponents period start (token :: tokens) (x :: rest) ↔
      takes ∧ AcceptsComponents period start' tokens rest := by
  rw [AcceptsComponents, AcceptsComponents, lead_cons inner, behind_cons inner]
  cases cut : x.isSlash with
  | true =>
    rw [lead_cons_delimiter cut]
    exact ⟨fun accepted => absurd accepted.1 nothing, fun taken => absurd taken.1 (slash cut)⟩
  | false => rw [lead_cons cut, behind_cons cut, step cut, and_assoc]

theorem accepts_nil_cons {pathname : Bool} {token : Token} (single : token ≠ .star) :
    ¬ Accepts pathname period start (token :: tokens) [] := by
  cases token with
  | star => exact absurd rfl single
  | lit _ _ => simp [Accepts]
  | any => simp [Accepts]
  | set _ _ => simp [Accepts]

theorem acceptsComponents_nil_cons {token : Token} (single : token ≠ .star) :
    ¬ AcceptsComponents period start (token :: tokens) [] := by
  cases cut : token.isSlash with
  | true =>
    rintro ⟨_, others⟩
    rw [behind_cons_delimiter cut] at others
    cases others
  | false =>
    rintro ⟨first, _⟩
    rw [lead_cons cut] at first
    exact accepts_nil_cons single first

/-- A slash of the pattern ends the first component of both sides. -/
theorem acceptsComponents_slash {escaped : Bool} {x : CChar} {rest : CString} :
    AcceptsComponents period start (.lit escaped (chr '/') :: tokens) (x :: rest) ↔
      x = chr '/' ∧ AcceptsComponents period (!escaped) tokens rest := by
  have token : (Token.lit escaped (chr '/')).isSlash = true := rfl
  rw [AcceptsComponents, lead_cons_delimiter token, behind_cons_delimiter token]
  cases cut : x.isSlash with
  | true =>
    rw [lead_cons_delimiter cut, behind_cons_delimiter cut, List.forall₂_cons]
    exact ⟨fun accepted => ⟨isSlash_iff.mp cut, accepted.2⟩, fun accepted => ⟨rfl, accepted.2⟩⟩
  | false =>
    rw [lead_cons cut]
    constructor
    · rintro ⟨empty, _⟩
      cases empty
    · rintro ⟨slash, _⟩
      exact absurd slash (isSlash_false_iff.mp cut)

theorem acceptsComponents_star :
    AcceptsComponents period start (.star :: tokens) string ↔
      ¬ (period ∧ start ∧ string.head? = some (chr '.')) ∧
        ∃ front back, string = front ++ back ∧ chr '/' ∉ front ∧
          AcceptsComponents period true tokens back := by
  have token : Token.star.isSlash = false := rfl
  rw [AcceptsComponents, lead_cons token, behind_cons token, Accepts, lead_head (by decide), and_assoc]
  refine and_congr_right fun _ => ?_
  constructor
  · rintro ⟨⟨front, part, split, _, first⟩, others⟩
    obtain ⟨back, rfl, inner, rfl, same⟩ := lead_eq_append split
    refine ⟨front, back, rfl, ?_, first, by rwa [same]⟩
    intro member
    exact isSlash_false_iff.mp (inner _ member) rfl
  · rintro ⟨front, back, rfl, clear, first, others⟩
    have inner : ∀ x ∈ front, x.isSlash = false := by
      intro x member
      apply isSlash_false_iff.mpr
      rintro rfl
      exact clear member
    rw [lead_append inner, behind_append inner]
    exact ⟨⟨front, lead CChar.isSlash back, rfl, by simp, first⟩, others⟩

/-- Under `FNM_PATHNAME` acceptance is acceptance component by component. -/
theorem accepts_pathname_iff :
    Accepts true period start tokens string ↔ AcceptsComponents period start tokens string := by
  induction tokens generalizing start string with
  | nil =>
    rw [AcceptsComponents, lead_nil, behind_nil, Accepts, Accepts, List.forall₂_nil_left_iff]
    constructor
    · rintro rfl
      exact ⟨rfl, rfl⟩
    · rintro ⟨first, others⟩
      exact eq_nil_of_lead_behind first others
  | cons token tokens ih =>
    cases token with
    | star =>
      rw [acceptsComponents_star, Accepts]
      simp only [ih, forall_const]
    | lit escaped c =>
      cases string with
      | nil => exact iff_of_false (accepts_nil_cons (by simp)) (acceptsComponents_nil_cons (by simp))
      | cons x rest =>
        rw [accepts_lit_cons, ih]
        rcases em (c = chr '/') with rfl | other
        · rw [acceptsComponents_slash]
          simp [show (chr '/').Ascii by decide]
        · have inner : (Token.lit escaped c).isSlash = false := decide_eq_false other
          rw [← and_assoc, acceptsComponents_cons inner (accepts_nil_cons (by simp))
            (fun _ => by rw [accepts_lit_cons, and_assoc]) ?_]
          · simp [other]
          · rintro slash ⟨rfl, _⟩
            exact other (isSlash_iff.mp slash)
    | any =>
      cases string with
      | nil => exact iff_of_false (accepts_nil_cons (by simp)) (acceptsComponents_nil_cons (by simp))
      | cons x rest =>
        rw [accepts_any_cons, ih]
        refine (acceptsComponents_cons rfl (accepts_nil_cons (by simp)) ?_ ?_).symm
        · intro inner
          rw [accepts_any_cons, withheld_of_inner inner]
        · intro slash free
          exact free (.inl ⟨rfl, isSlash_iff.mp slash⟩)
    | set negated ranges =>
      cases string with
      | nil => exact iff_of_false (accepts_nil_cons (by simp)) (acceptsComponents_nil_cons (by simp))
      | cons x rest =>
        rw [accepts_set_cons, ih, ← and_assoc]
        refine (acceptsComponents_cons rfl (accepts_nil_cons (by simp)) ?_ ?_).symm
        · intro inner
          rw [accepts_set_cons, withheld_of_inner inner, and_assoc]
        · rintro slash ⟨_, free⟩
          exact free (.inl ⟨rfl, isSlash_iff.mp slash⟩)

end Components

/-! ## The tokens of the pieces -/

section Pieces

variable {pattern piece : CString} {pieces : List CString}

theorem PatternPieces.piece_initial (cut : PatternPieces pattern (piece :: pieces)) : piece <+: pattern := by
  generalize whole : piece :: pieces = all at cut
  induction cut generalizing piece pieces with
  | nil | slash | escapedSlash =>
    obtain ⟨rfl, _⟩ := List.cons.inj whole
    exact List.nil_prefix
  | escape _ _ ih =>
    obtain ⟨rfl, _⟩ := List.cons.inj whole
    exact (List.prefix_cons_inj _).mpr ((List.prefix_cons_inj _).mpr (ih rfl))
  | bracket _ _ ih =>
    obtain ⟨rfl, _⟩ := List.cons.inj whole
    exact (List.prefix_cons_inj _).mpr ((List.prefix_append_right_inj _).mpr (ih rfl))
  | unclosed _ _ ih | ordinary _ _ _ ih =>
    obtain ⟨rfl, _⟩ := List.cons.inj whole
    exact (List.prefix_cons_inj _).mpr (ih rfl)

theorem PatternPieces.exists_cons (cut : PatternPieces pattern pieces) :
    ∃ piece more, pieces = piece :: more := by
  cases cut <;> exact ⟨_, _, rfl⟩

/-- The first piece starts with a star exactly if the pattern does. -/
theorem PatternPieces.head_star (cut : PatternPieces pattern (piece :: pieces)) :
    piece.head? = some (chr '*') ↔ pattern.head? = some (chr '*') := by
  cases cut with
  | nil => rfl
  | slash | escapedSlash => exact iff_of_false (by simp) (by simp; decide)
  | escape | bracket | unclosed | ordinary => simp

/-- A token other than a slash goes to the first component. -/
theorem components_cons {token : Token} {tokens : List Token} {piece' : CString} (inner : token.isSlash = false)
    (others : List.Forall₂ (Tokens false) (piece :: pieces)
      (lead Token.isSlash tokens :: (behind Token.isSlash tokens).map Prod.snd))
    (extend : Tokens false piece (lead Token.isSlash tokens) →
      Tokens false piece' (token :: lead Token.isSlash tokens)) :
    List.Forall₂ (Tokens false) (piece' :: pieces)
      (lead Token.isSlash (token :: tokens) :: (behind Token.isSlash (token :: tokens)).map Prod.snd) := by
  obtain ⟨first, others⟩ := List.forall₂_cons.mp others
  rw [lead_cons inner, behind_cons inner]
  exact .cons (extend first) others

/-- The components of the tokens are the tokens of the pieces. -/
theorem PatternPieces.exists_components (cut : PatternPieces pattern pieces) :
    ∃ tokens, Tokens false pattern tokens ∧
      List.Forall₂ (Tokens false) pieces
        (lead Token.isSlash tokens :: (behind Token.isSlash tokens).map Prod.snd) := by
  induction cut with
  | nil => exact ⟨[], .nil, .cons .nil .nil⟩
  | slash _ ih =>
    obtain ⟨tokens, grammar, others⟩ := ih
    exact ⟨.lit false (chr '/') :: tokens, .literal (by decide) (fun escape => absurd escape (by decide)) grammar,
      .cons .nil others⟩
  | escapedSlash _ ih =>
    obtain ⟨tokens, grammar, others⟩ := ih
    exact ⟨.lit true (chr '/') :: tokens, .escape rfl grammar, .cons .nil others⟩
  | escape other _ ih =>
    obtain ⟨tokens, grammar, others⟩ := ih
    exact ⟨_, .escape rfl grammar, components_cons (decide_eq_false other) others (.escape rfl)⟩
  | bracket closed _ ih =>
    obtain ⟨tokens, grammar, others⟩ := ih
    obtain ⟨text, same, moved⟩ := closed.relocate
    obtain rfl := List.append_cancel_right same
    exact ⟨_, .bracket closed grammar, components_cons rfl others (.bracket (moved _))⟩
  | unclosed unclosed cut ih =>
    obtain ⟨tokens, grammar, others⟩ := ih
    refine ⟨_, .unclosed unclosed grammar, components_cons (by decide) others (.unclosed ?_)⟩
    -- an expression that closed within the piece would close in the whole pattern
    intro negated ranges rest closed
    obtain ⟨text, rfl, moved⟩ := closed.relocate
    obtain ⟨more, rfl⟩ := cut.piece_initial
    rw [List.append_assoc] at unclosed
    exact unclosed _ _ _ (moved _)
  | ordinary inner unescaped cut ih =>
    next c rest piece pieces =>
    obtain ⟨tokens, grammar, others⟩ := ih
    rcases em (c = chr '*') with rfl | notStar
    · rcases em (rest.head? = some (chr '*')) with again | new
      · obtain ⟨first, others⟩ := List.forall₂_cons.mp others
        exact ⟨tokens, grammar.star_again again, .cons (first.star_again (cut.head_star.mpr again)) others⟩
      · exact ⟨.star :: tokens, @Tokens.star _ 0 _ _ new grammar,
          components_cons rfl others (@Tokens.star _ 0 _ _ fun head => new (cut.head_star.mp head))⟩
    · rcases em (c = chr '?') with rfl | notAny
      · exact ⟨.any :: tokens, .any grammar, components_cons rfl others .any⟩
      · have ordinary : ¬ Special c := by
          rintro (rfl | rfl | rfl)
          · exact notStar rfl
          · exact notAny rfl
          · exact inner.2 rfl
        refine ⟨_, .literal ordinary (fun escape => .inr (unescaped escape)) grammar,
          components_cons (decide_eq_false inner.1) others (.literal ordinary ?_)⟩
        intro escape
        have whole := cut.piece_initial
        rw [unescaped escape] at whole
        exact .inr (List.prefix_nil.mp whole)

theorem exists_patternPieces (pattern : CString) : ∃ pieces, PatternPieces pattern pieces := by
  induction len : pattern.length using Nat.strong_induction_on generalizing pattern with
  | _ n ih =>
  subst len
  have shorter (p : CString) (less : p.length < pattern.length) :
      ∃ piece pieces, PatternPieces p (piece :: pieces) := by
    obtain ⟨pieces, cut⟩ := ih p.length less p rfl
    obtain ⟨piece, more, rfl⟩ := cut.exists_cons
    exact ⟨piece, more, cut⟩
  rcases pattern with _ | ⟨x, p⟩
  · exact ⟨_, .nil⟩
  obtain ⟨piece, pieces, cut⟩ := shorter p (by simp)
  rcases em (x = chr '/') with rfl | notSlash
  · exact ⟨_, .slash cut⟩
  rcases em (x = chr '[') with rfl | notBracket
  · rcases em (∃ negated ranges rest, Bracket p negated ranges rest) with ⟨_, _, rest, closed⟩ | unclosed
    · obtain ⟨text, rfl, _⟩ := closed.relocate
      have less := closed.length_lt
      obtain ⟨piece, pieces, cut⟩ := shorter rest (by simp only [List.length_cons]; omega)
      exact ⟨_, .bracket closed cut⟩
    · exact ⟨_, .unclosed (fun _ _ _ closed => unclosed ⟨_, _, _, closed⟩) cut⟩
  rcases em (x = chr '\\' ∧ p ≠ []) with ⟨rfl, more⟩ | unescaped
  · obtain ⟨c, rest, rfl⟩ := List.exists_cons_of_ne_nil more
    obtain ⟨_, _, tail⟩ := shorter rest (by simp only [List.length_cons]; omega)
    rcases em (c = chr '/') with rfl | other
    · exact ⟨_, .escapedSlash tail⟩
    · exact ⟨_, .escape other tail⟩
  · refine ⟨_, .ordinary ⟨notSlash, notBracket⟩ (fun escape => ?_) cut⟩
    by_contra more
    exact unescaped ⟨escape, more⟩

end Pieces

end CLite
