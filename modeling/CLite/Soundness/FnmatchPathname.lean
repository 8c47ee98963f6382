import CLite.Proofs.PathPieces

/-! # `FNM_PATHNAME` matches component by component

The tests for a slash that the flag adds to `*`, `?` and the bracket expression make matching with it the same
as cutting pattern and string at their slashes and matching the pieces one by one without it.
-/

namespace CLite

open Delimited

variable {tokens : List Token} {string : CString}

/-- Without the period rule it does not matter what the matcher takes for a start. -/
theorem accepts_any_start_iff {start start' : Bool} :
    Accepts false false start tokens string ↔ Accepts false false start' tokens string := by
  cases tokens with
  | nil => rfl
  | cons token tokens => cases token <;> simp [Accepts, Withheld]

theorem fnmatch_plain_iff {pattern : CString} (start : Bool) (grammar : Tokens false pattern tokens) :
    fnmatch pattern string 0 = 0 ↔ Accepts false false start tokens string := by
  have agrees : Agrees 0 pattern tokens := fnmatchLoop_accepts grammar
  exact (agrees true string).trans accepts_any_start_iff

/-- Parts that are related to the pieces one by one match what the pieces match. -/
theorem forall₂_iff_of_forall₂ {α β γ : Type*} {R : α → β → Prop} {A : β → γ → Prop} {F : α → γ → Prop}
    {pieces : List α} {components : List β} (related : List.Forall₂ R pieces components)
    (same : ∀ piece component part, R piece component → (A component part ↔ F piece part)) (parts : List γ) :
    List.Forall₂ A components parts ↔ List.Forall₂ F pieces parts := by
  induction related generalizing parts with
  | nil => rw [List.forall₂_nil_left_iff, List.forall₂_nil_left_iff]
  | cons first _ ih =>
    cases parts with
    | nil => simp
    | cons part parts => rw [List.forall₂_cons, List.forall₂_cons, same _ _ _ first, ih]

/-- With `FNM_PATHNAME` a pattern matches a string exactly if cutting both at their slashes gives the same
number of pieces and each piece of the pattern matches its piece of the string. -/
theorem fnmatch_pathname_iff (pattern string : CString) :
    (∃ pieces, PatternPieces pattern pieces) ∧
      ∀ pieces, PatternPieces pattern pieces →
        (fnmatch pattern string FNM_PATHNAME = 0 ↔
          List.Forall₂ (fun piece part => fnmatch piece part 0 = 0) pieces (string.splitOn (chr '/'))) := by
  refine ⟨exists_patternPieces pattern, fun pieces cut => ?_⟩
  obtain ⟨tokens, grammar, components⟩ := cut.exists_components
  obtain ⟨piece, pieces, rfl⟩ := cut.exists_cons
  obtain ⟨first, others⟩ := List.forall₂_cons.mp components
  have agrees : Agrees FNM_PATHNAME pattern tokens := fnmatchLoop_accepts grammar
  have slashes : string.splitOn (chr '/') = string.splitOnP CChar.isSlash := rfl
  rw [fnmatch, agrees true string, slashes, splitOnP_eq, List.forall₂_cons, fnmatch_plain_iff true first,
    show hasFlag FNM_PATHNAME FNM_PATHNAME = true by decide,
    show hasFlag FNM_PATHNAME FNM_PERIOD = false by decide, accepts_pathname_iff, AcceptsComponents]
  refine and_congr_right fun _ => ?_
  rw [List.forall₂_map_right_iff] at others ⊢
  apply forall₂_iff_of_forall₂ others
  intro piece component part grammar
  exact (fnmatch_plain_iff _ grammar).symm

theorem fnmatch_pathname_iff_bracket :
    fnmatch [chr '[', chr '/', chr 'a', chr ']', chr '/', chr '*'] [chr 'a', chr '/', chr 'b'] FNM_PATHNAME = 0 ∧
      List.Forall₂ (fun piece part => fnmatch piece part 0 = 0) [[chr '[', chr '/', chr 'a', chr ']'], [chr '*']]
        [[chr 'a'], [chr 'b']] := by
  have matched : fnmatch [chr '[', chr '/', chr 'a', chr ']', chr '/', chr '*'] [chr 'a', chr '/', chr 'b']
      FNM_PATHNAME = 0 := by decide +kernel
  refine ⟨matched, ((fnmatch_pathname_iff _ _).2 _ ?_).mp matched⟩
  have item (c : CChar) (rest : CString) (ordinary : c ≠ chr '\\') (more : rest.head? ≠ some (chr '-')) :
      Item (c :: rest) (c, c) rest := by
    refine .single (.plain rest ordinary) ?_
    rintro ⟨_, _, rfl, _⟩
    exact more rfl
  refine @PatternPieces.bracket [chr '/', chr 'a', chr ']'] _ _ _ false _
    (.positive (by decide) (.item (.inl rfl) (item _ _ (by decide) (by decide))
      (.item (.inr (by decide)) (item _ _ (by decide) (by decide)) (.close _)))) ?_
  exact .slash (.ordinary (by decide) (by decide) .nil)

end CLite
