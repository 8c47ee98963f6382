import CLite.Proofs.FnmatchTokens

/-! # Acceptance and languages

Without flags acceptance is membership in the language of the tokens. Under `FNM_PERIOD` it is, for a
string that does not start with a dot, membership in the language whose wildcards refuse a dot directly
behind `*`: the part of the pattern behind a `*` is matched as if it stood at a start.
-/

namespace CLite

open Wildcard

variable {period start noescape : Bool} {pattern string : CString} {tokens : List Token}

/-- No two runs of stars are neighbours. -/
def Separated (tokens : List Token) : Prop :=
  tokens.IsChain fun first second => ¬ (first = .star ∧ second = .star)

theorem Tokens.head_star (grammar : Tokens noescape pattern tokens) (star : tokens.head? = some .star) :
    pattern.head? = some (chr '*') := by
  cases grammar with
  | star => rfl
  | nil | escape | any | bracket | unclosed | literal => simp at star

theorem Tokens.separated (grammar : Tokens noescape pattern tokens) : Separated tokens := by
  have cons {token : Token} {tokens : List Token} (tail : Separated tokens)
      (apart : token = .star → tokens.head? ≠ some .star) : Separated (token :: tokens) := by
    cases tokens with
    | nil => exact .singleton _
    | cons second tokens =>
      refine List.isChain_cons_cons.mpr ⟨?_, tail⟩
      rintro ⟨first, rfl⟩
      exact apart first rfl
  induction grammar with
  | nil => exact .nil
  | star ended tail ih => exact cons ih fun _ second => ended (tail.head_star second)
  | escape _ _ ih => exact cons ih nofun
  | any _ ih => exact cons ih nofun
  | bracket _ _ ih => exact cons ih nofun
  | unclosed _ _ ih => exact cons ih nofun
  | literal _ _ _ ih => exact cons ih nofun

theorem Separated.tail {token : Token} (separated : Separated (token :: tokens)) : Separated tokens := by
  cases tokens with
  | nil => exact .nil
  | cons second tokens => exact (List.isChain_cons_cons.mp separated).2

theorem Separated.head (separated : Separated (.star :: tokens)) : tokens.head? ≠ some .star := by
  cases tokens with
  | nil => simp
  | cons second tokens =>
    have apart := (List.isChain_cons_cons.mp separated).1
    simpa using apart

@[simp] theorem withheld_off_pathname {c : CChar} :
    Withheld false period start c ↔ (period && start) ∧ c = chr '.' := by
  simp [Withheld, and_assoc]

/-- Off path names, acceptance is membership in a language of pieces. -/
theorem accepts_iff_mem_guarded (separated : period → Separated tokens)
    (apart : period → start → tokens.head? ≠ some .star) (ascii : ∀ c ∈ string, c.Ascii) :
    Accepts false period start tokens string ↔ string ∈ language (guardedPieces period start tokens) := by
  induction tokens generalizing start string with
  | nil => simp [Accepts, guardedPieces]
  | cons token tokens ih =>
    have separated' : period → Separated tokens := fun guarded => (separated guarded).tail
    have tail {rest : CString} (sub : rest ⊆ string) :
        Accepts false period false tokens rest ↔ rest ∈ language (guardedPieces period false tokens) :=
      ih separated' (by simp) fun c member => ascii c (sub member)
    cases token with
    | lit escaped c =>
      have piece : (if period && start then (Token.lit escaped c).guardedPiece
          else (Token.lit escaped c).piece) = .one {c} := by split <;> rfl
      simp only [Accepts, guardedPieces, piece, mem_language_one, Bool.and_false, Bool.false_and,
        Set.mem_singleton_iff, reduceCtorEq, decide_false]
      constructor
      · rintro ⟨rest, rfl, -, accepted⟩
        exact ⟨c, rest, rfl, rfl, (tail (List.subset_cons_self ..)).mp accepted⟩
      · rintro ⟨c, rest, rfl, rfl, member⟩
        exact ⟨rest, rfl, ascii c (by simp), (tail (List.subset_cons_self ..)).mpr member⟩
    | any =>
      have piece : (if period && start then Token.any.guardedPiece else Token.any.piece) =
          .one {c | ¬ ((period && start) ∧ c = chr '.')} := by
        split <;> simp_all [Token.guardedPiece, Token.piece]
      simp only [Accepts, guardedPieces, piece, mem_language_one, withheld_off_pathname,
        Set.mem_ofPred_eq, reduceCtorEq, decide_false]
      constructor
      · rintro ⟨c, rest, rfl, free, accepted⟩
        exact ⟨c, rest, rfl, free, (tail (List.subset_cons_self ..)).mp accepted⟩
      · rintro ⟨c, rest, rfl, free, member⟩
        exact ⟨c, rest, rfl, free, (tail (List.subset_cons_self ..)).mpr member⟩
    | star =>
      have piece : (if period && start then Token.star.guardedPiece else Token.star.piece) = .many := by
        split <;> rfl
      have free : ¬ (period ∧ start ∧ string.head? = some (chr '.')) := by
        rintro ⟨guarded, starts, -⟩
        exact apart guarded starts rfl
      have behind {back : CString} (sub : back ⊆ string) :
          Accepts false period true tokens back ↔ back ∈ language (guardedPieces period true tokens) :=
        ih separated' (fun guarded _ => (separated guarded).head) fun c member => ascii c (sub member)
      simp only [Accepts, guardedPieces, piece, mem_language_many, decide_true]
      constructor
      · rintro ⟨-, front, back, rfl, -, accepted⟩
        exact ⟨front, back, rfl, (behind (List.subset_append_right ..)).mp accepted⟩
      · rintro ⟨front, back, rfl, member⟩
        exact ⟨free, front, back, rfl, by simp, (behind (List.subset_append_right ..)).mpr member⟩
    | set negated ranges =>
      have piece : (if period && start then (Token.set negated ranges).guardedPiece
          else (Token.set negated ranges).piece) =
          .one {c | InSet negated ranges c ∧
            ¬ ((period && !decide (ListsDot ranges) && start) ∧ c = chr '.')} := by
        rw [Bool.and_right_comm]
        cases period && start with
        | false => simp [Token.piece]
        | true => simp [Token.guardedPiece, not_imp_not]
      simp only [Accepts, guardedPieces, piece, mem_language_one, withheld_off_pathname,
        Set.mem_ofPred_eq, reduceCtorEq, decide_false]
      constructor
      · rintro ⟨c, rest, rfl, inside, free, accepted⟩
        exact ⟨c, rest, rfl, ⟨inside, free⟩, (tail (List.subset_cons_self ..)).mp accepted⟩
      · rintro ⟨c, rest, rfl, ⟨inside, free⟩, member⟩
        exact ⟨c, rest, rfl, inside, free, (tail (List.subset_cons_self ..)).mpr member⟩

theorem guardedPieces_off (behind : Bool) (tokens : List Token) :
    guardedPieces false behind tokens = tokens.map Token.piece := by
  induction tokens generalizing behind with
  | nil => rfl
  | cons token tokens ih => simp [guardedPieces, ih]

theorem accepts_iff_mem_language (ascii : ∀ c ∈ string, c.Ascii) :
    Accepts false false start tokens string ↔ string ∈ tokenLanguage tokens := by
  rw [accepts_iff_mem_guarded (by simp) (by simp) ascii, guardedPieces_off, tokenLanguage]

/-- At the start of a string that does not begin with a dot, the period rule does nothing. -/
theorem accepts_start_iff (visible : string.head? ≠ some (chr '.')) :
    Accepts false true true tokens string ↔ Accepts false true false tokens string := by
  cases tokens with
  | nil => rfl
  | cons token tokens =>
    cases string with
    | nil => cases token <;> simp [Accepts]
    | cons c string =>
      have visible : c ≠ chr '.' := by simpa using visible
      cases token with
      | star => simp [Accepts, visible]
      | lit | any | set => simp [visible]

theorem accepts_period_iff_mem_guarded (grammar : Tokens noescape pattern tokens)
    (visible : string.head? ≠ some (chr '.')) (ascii : ∀ c ∈ string, c.Ascii) :
    Accepts false true true tokens string ↔ string ∈ guardedLanguage tokens := by
  rw [accepts_start_iff visible, accepts_iff_mem_guarded (fun _ => grammar.separated) (by simp) ascii,
    guardedLanguage]

theorem Token.guardedPiece_subset (token : Token) {word : CString}
    (member : word ∈ token.guardedPiece.language) : word ∈ token.piece.language := by
  cases token with
  | any =>
    obtain ⟨c, -, rfl⟩ := member
    exact ⟨c, trivial, rfl⟩
  | set negated ranges =>
    obtain ⟨c, inside, rfl⟩ := member
    exact ⟨c, inside.1, rfl⟩
  | lit | star => exact member

theorem guardedPieces_subset (behind : Bool) (tokens : List Token) :
    List.Forall₂ (fun p q => ∀ word ∈ p.language, word ∈ q.language)
      (guardedPieces true behind tokens) (tokens.map Token.piece) := by
  induction tokens generalizing behind with
  | nil => exact .nil
  | cons token tokens ih =>
    refine .cons ?_ (ih _)
    split
    · exact fun word => token.guardedPiece_subset
    · exact fun word => id

/-- Refusing more can only lose strings. -/
theorem guardedLanguage_subset (tokens : List Token) {string : CString}
    (member : string ∈ guardedLanguage tokens) : string ∈ tokenLanguage tokens :=
  language_mono (guardedPieces_subset false tokens) member

end CLite
