import CLite.Proofs.PatternLanguage

/-! # What `fnmatch` decides

Without flags `fnmatch` decides the language of the pattern's tokens. `FNM_PERIOD` should change nothing
for a string that does not start with a dot, but each recursive call for `*` takes its own position for
a start: a wildcard directly behind `*` then refuses a dot in the middle of the string.
-/

namespace CLite

variable {pattern string : CString} {flags : BitVec 32} {tokens : List Token}

/-- `fnmatch` without flags decides the language of the pattern. -/
theorem fnmatch_iff_mem_language (pattern string : CString) (ascii : ∀ c ∈ string, c.Ascii) :
    (∃ tokens, Tokens false pattern tokens) ∧
      ∀ tokens, Tokens false pattern tokens →
        (fnmatch pattern string 0 = 0 ↔ string ∈ tokenLanguage tokens) := by
  refine ⟨exists_tokens false pattern, fun tokens grammar => ?_⟩
  have agrees : Agrees 0 pattern tokens := fnmatchLoop_accepts grammar
  rw [fnmatch, agrees true string]
  exact accepts_iff_mem_language ascii

theorem fnmatch_iff_mem_language_star_any :
    fnmatch [chr '*', chr '?'] [chr 'a', chr '.'] 0 = 0 ∧
      [chr 'a', chr '.'] ∈ tokenLanguage [.star, .any] := by
  have matched : fnmatch [chr '*', chr '?'] [chr 'a', chr '.'] 0 = 0 := by decide +kernel
  have decides := (fnmatch_iff_mem_language [chr '*', chr '?'] [chr 'a', chr '.'] (by decide)).2
  exact ⟨matched, (decides _ (@Tokens.star false 0 [chr '?'] _ (by decide) (.any .nil))).mp matched⟩

/-! ## The period rule -/

/-- Off path names and for a string that does not start with a dot, `FNM_PERIOD` changes nothing unless
the string matches only by giving a dot to a wildcard directly behind `*`. -/
theorem fnmatch_period_iff (pattern string : CString) (flags : BitVec 32)
    (offPath : hasFlag flags FNM_PATHNAME = false) (visible : string.head? ≠ some (chr '.'))
    (ascii : ∀ c ∈ string, c.Ascii) (tokens : List Token)
    (grammar : Tokens (hasFlag flags FNM_NOESCAPE) pattern tokens) :
    fnmatch pattern string (flags ||| FNM_PERIOD) = fnmatch pattern string flags ↔
      hasFlag flags FNM_PERIOD = true ∨
        (string ∈ tokenLanguage tokens → string ∈ guardedLanguage tokens) := by
  have guarded : fnmatch pattern string (flags ||| FNM_PERIOD) = 0 ↔ string ∈ guardedLanguage tokens := by
    have escapes : hasFlag (flags ||| FNM_PERIOD) FNM_NOESCAPE = hasFlag flags FNM_NOESCAPE := by
      rw [hasFlag_or, show hasFlag FNM_PERIOD FNM_NOESCAPE = false by decide, Bool.or_false]
    have paths : hasFlag (flags ||| FNM_PERIOD) FNM_PATHNAME = false := by
      rw [hasFlag_or, offPath, show hasFlag FNM_PERIOD FNM_PATHNAME = false by decide, Bool.or_false]
    have period : hasFlag (flags ||| FNM_PERIOD) FNM_PERIOD = true := by
      rw [hasFlag_or, show hasFlag FNM_PERIOD FNM_PERIOD = true by decide, Bool.or_true]
    have agrees : Agrees (flags ||| FNM_PERIOD) pattern tokens := fnmatchLoop_accepts (escapes ▸ grammar)
    rw [fnmatch, agrees true string, paths, period]
    exact accepts_period_iff_mem_guarded grammar visible ascii
  have agrees := fnmatchLoop_accepts grammar true string
  rw [fnmatch_eq_iff, guarded, fnmatch, agrees, offPath]
  cases hasFlag flags FNM_PERIOD with
  | true => simp [accepts_period_iff_mem_guarded grammar visible ascii]
  | false =>
    rw [accepts_iff_mem_language ascii]
    simp only [Bool.false_eq_true, false_or]
    exact ⟨Iff.mpr, fun kept => ⟨fun member => guardedLanguage_subset tokens member, kept⟩⟩

theorem fnmatch_period_iff_star_any :
    fnmatch [chr '*', chr '?'] [chr 'a', chr 'b'] (0 ||| FNM_PERIOD) =
      fnmatch [chr '*', chr '?'] [chr 'a', chr 'b'] 0 := by
  refine (fnmatch_period_iff [chr '*', chr '?'] [chr 'a', chr 'b'] 0 (by decide) (by decide) (by decide)
    [.star, .any] (@Tokens.star _ 0 [chr '?'] _ (by decide) (.any .nil))).mpr (.inr fun _ => ?_)
  refine Wildcard.mem_language_many.mpr ⟨[chr 'a'], [chr 'b'], rfl, ?_⟩
  refine Wildcard.mem_language_one.mpr ⟨chr 'b', [], rfl, ?_, Wildcard.mem_language_nil.mpr rfl⟩
  exact show chr 'b' ≠ chr '.' by decide

/-- `*?` matches `a.`, but not under `FNM_PERIOD`. -/
theorem fnmatch_period_interior_dot :
    fnmatch [chr '*', chr '?'] [chr 'a', chr '.'] (0 ||| FNM_PERIOD) ≠
      fnmatch [chr '*', chr '?'] [chr 'a', chr '.'] 0 := by
  decide +kernel

end CLite
