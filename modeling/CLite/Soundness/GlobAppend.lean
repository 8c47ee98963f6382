import CLite.Proofs.GlobExpand

/-! # `GLOB_APPEND`

With `GLOB_APPEND` the results of a call should follow those already held, and the return code should be
that of the call alone. The test for "no match" at the end looks at old and new results together, so a
pattern without a match goes unnoticed when there are old results: `GLOB_NOMATCH` is not returned and
`GLOB_NOCHECK` is ignored.
-/

namespace CLite

variable {fs : FileSystem} {succeeds : ℕ → Bool} {pattern : CString} {flags : BitVec 32}
  {pglob fresh : GlobT}

/-- The call with `GLOB_APPEND` adds what the call alone produces, and returns the same code. -/
def AppendConcatenates (fs : FileSystem) (succeeds : ℕ → Bool) (pattern : CString) (flags : BitVec 32)
    (pglob fresh : GlobT) : Prop :=
  ∃ ret alone appended, glob fs succeeds pattern flags fresh = some (ret, alone) ∧
    glob fs succeeds pattern (flags ||| GLOB_APPEND) pglob = some (ret, appended) ∧
    appended.paths = pglob.paths ++ alone.paths

/-- The pattern is literal or has a match, or there are no old results to hide that it has none. -/
def AppendVisible (fs : FileSystem) (pattern : CString) (flags : BitVec 32) (pglob : GlobT) : Prop :=
  globHasMeta (hasFlag flags GLOB_NOESCAPE) pattern = false ∧ TextFits pattern flags ∨
    globHasMeta (hasFlag flags GLOB_NOESCAPE) pattern = true ∧
      (Found fs (globOptions pattern flags) pattern ∨
        pglob.paths = [] ∧ (hasFlag flags GLOB_NOCHECK = true → TextFits pattern flags))

theorem hasFlag_append (flags : BitVec 32) {flag : BitVec 32} (other : hasFlag GLOB_APPEND flag = false) :
    hasFlag (flags ||| GLOB_APPEND) flag = hasFlag flags flag := by
  rw [hasFlag_or, other, Bool.or_false]

theorem globOptions_append (pattern : CString) (flags : BitVec 32) :
    globOptions pattern (flags ||| GLOB_APPEND) = globOptions pattern flags := by
  have noescape := hasFlag_append flags (show hasFlag GLOB_APPEND GLOB_NOESCAPE = false by decide)
  have period := hasFlag_append flags (show hasFlag GLOB_APPEND GLOB_PERIOD = false by decide)
  have mark := hasFlag_append flags (show hasFlag GLOB_APPEND (GLOB_MARK ||| GLOB_ONLYDIR) = false by decide)
  have only := hasFlag_append flags (show hasFlag GLOB_APPEND GLOB_ONLYDIR = false by decide)
  simp only [globOptions, noescape, period, mark, only]

theorem globResult_append (pattern : CString) (flags : BitVec 32) (strings : List CString) :
    globResult pattern (flags ||| GLOB_APPEND) strings = globResult pattern flags strings := by
  have noescape := hasFlag_append flags (show hasFlag GLOB_APPEND GLOB_NOESCAPE = false by decide)
  have nocheck := hasFlag_append flags (show hasFlag GLOB_APPEND GLOB_NOCHECK = false by decide)
  have fits : TextFits pattern (flags ||| GLOB_APPEND) ↔ TextFits pattern flags := by
    rw [TextFits, TextFits, noescape]
  simp only [globResult, fits, noescape, nocheck]

/-- Ending with old and new results together is like ending with the new ones alone. -/
def EndsAlike (pattern : CString) (flags : BitVec 32) (old new : List CString) : Prop :=
  ∃ ret alone appended, globResult pattern flags new = some (ret, alone) ∧
    globResult pattern flags (old ++ new) = some (ret, appended) ∧ appended.paths = old ++ alone.paths

/-- The property compares what is returned for the old results with all matches to what is returned for
the matches alone. -/
theorem appendConcatenates_iff (space : ∀ k, succeeds k = true)
    (alone : hasFlag flags GLOB_APPEND = false)
    (roomy : Roomy fs (globOptions pattern flags) pattern pglob.paths) :
    AppendConcatenates fs succeeds pattern flags pglob fresh ↔
      ¬ LiteralOverrun (globOptions pattern flags) pattern ∧
        EndsAlike pattern flags pglob.paths (matchesOf fs (globOptions pattern flags) pattern) := by
  have seeded : seeds (flags ||| GLOB_APPEND) pglob = pglob.paths := by
    rw [seeds, hasFlag_or, show hasFlag GLOB_APPEND GLOB_APPEND = true by decide, Bool.or_true, if_pos rfl]
  have unseeded := seeds_fresh alone fresh
  have roomyAlone : Roomy fs (globOptions pattern flags) pattern (seeds flags fresh) := by
    refine ⟨roomy.1, le_trans ?_ roomy.2⟩
    simp [unseeded]
  have roomyAppend : Roomy fs (globOptions pattern (flags ||| GLOB_APPEND)) pattern
      (seeds (flags ||| GLOB_APPEND) pglob) := by
    rwa [globOptions_append, seeded]
  rcases em (LiteralOverrun (globOptions pattern flags) pattern) with overrun | fits
  · simp [AppendConcatenates, glob_eq_none space overrun roomyAlone, overrun]
  · have fitsAppend : ¬ LiteralOverrun (globOptions pattern (flags ||| GLOB_APPEND)) pattern := by
      rwa [globOptions_append]
    simp only [AppendConcatenates, EndsAlike, glob_eq_result space fits roomyAlone, unseeded, List.nil_append,
      glob_eq_result space fitsAppend roomyAppend, globOptions_append, seeded, globResult_append, fits,
      not_false_eq_true, true_and]

/-- New results are added behind the old ones, with return code 0. -/
theorem endsAlike_of_matches {new : List CString} (some_found : new ≠ []) (old : List CString) :
    EndsAlike pattern flags old new := by
  obtain ⟨alone, first, paths⟩ := globResult_of_ne_nil pattern flags some_found
  obtain ⟨appended, second, all⟩ := globResult_of_ne_nil pattern flags
    (List.append_ne_nil_of_right_ne_nil old some_found)
  exact ⟨0, alone, appended, first, second, by rw [all, paths]⟩

/-- Without new results, there must be no old ones either for the two calls to end alike. -/
theorem endsAlike_nil_iff (old : List CString) :
    EndsAlike pattern flags old [] ↔
      old = [] ∧ (hasFlag flags GLOB_NOCHECK = true → TextFits pattern flags) := by
  rw [EndsAlike, List.append_nil]
  rcases em (old = []) with rfl | some_old
  · simp only [globResult, if_true, true_and, List.nil_append]
    split_ifs with nocheck fits
    · simp [nocheck, fits]
    · simp [nocheck, fits]
    · simp [nocheck]
  · obtain ⟨result, finished, paths⟩ := globResult_of_ne_nil pattern flags some_old
    simp only [some_old, false_and, iff_false]
    rintro ⟨ret, alone, appended, first, second, same⟩
    obtain ⟨rfl, rfl⟩ : 0 = ret ∧ result = appended := by simpa [finished] using second
    have nothing : alone.paths = [] := by simpa [paths] using same
    simp only [globResult, if_true] at first
    split_ifs at first with nocheck fits
    · obtain rfl : _ = alone := by simpa using first
      simp [GlobT.paths] at nothing
    · simp [GLOB_NOMATCH] at first

/-- When memory suffices and totals stay within bounds, `GLOB_APPEND` concatenates exactly when the
pattern is literal or has a match, or there are no old results. -/
theorem append_concatenates_iff (fs : FileSystem) (succeeds : ℕ → Bool) (pattern : CString)
    (flags : BitVec 32) (pglob fresh : GlobT) (space : ∀ k, succeeds k = true)
    (alone : hasFlag flags GLOB_APPEND = false)
    (roomy : Roomy fs (globOptions pattern flags) pattern pglob.paths) :
    AppendConcatenates fs succeeds pattern flags pglob fresh ↔ AppendVisible fs pattern flags pglob := by
  rw [appendConcatenates_iff space alone roomy, AppendVisible]
  cases wild : globHasMeta (hasFlag flags GLOB_NOESCAPE) pattern with
  | false =>
    have result : matchesOf fs (globOptions pattern flags) pattern =
        [globUnescape (hasFlag flags GLOB_NOESCAPE) pattern] := by
      rw [matchesOf]
      exact if_pos wild
    have overrun : LiteralOverrun (globOptions pattern flags) pattern ↔ ¬ TextFits pattern flags := by
      rw [TextFits, not_lt]
      exact ⟨And.right, .intro wild⟩
    have alike : EndsAlike pattern flags pglob.paths
        [globUnescape (hasFlag flags GLOB_NOESCAPE) pattern] := endsAlike_of_matches (by simp) _
    rw [result, overrun, not_not]
    simp [alike]
  | true =>
    have unquoted : ¬ LiteralOverrun (globOptions pattern flags) pattern := not_literalOverrun wild
    have none_iff : matchesOf fs (globOptions pattern flags) pattern = [] ↔
        ¬ Found fs (globOptions pattern flags) pattern := matchesOf_eq_nil_iff wild
    rcases em (Found fs (globOptions pattern flags) pattern) with found | missing
    · have some_found : matchesOf fs (globOptions pattern flags) pattern ≠ [] :=
        fun none => none_iff.mp none found
      simp [unquoted, found, endsAlike_of_matches some_found]
    · rw [none_iff.mpr missing, endsAlike_nil_iff]
      simp [unquoted, missing]

theorem append_concatenates_iff_literal :
    AppendConcatenates (oneEntry .other) (fun _ => true) [chr 'a'] 0
      ⟨1, some [some [chr 'x'], none], 0⟩ ⟨0, none, 0⟩ := by
  refine (append_concatenates_iff (oneEntry .other) (fun _ => true) [chr 'a'] 0 _ _ (fun _ => rfl)
    (by decide) ⟨fun wild => absurd wild (by decide), ?_⟩).mpr (.inl ⟨by decide, by decide⟩)
  decide

/-- With an old result, the pattern `x*`, which has no match, returns 0 and adds nothing, although
`GLOB_NOCHECK` asks for the pattern itself. -/
theorem append_drops_nocheck :
    ¬ AppendConcatenates (oneEntry .other) (fun _ => true) [chr 'x', chr '*'] GLOB_NOCHECK
      ⟨1, some [some [chr 'o'], none], 0⟩ ⟨0, none, 0⟩ := by
  have alone : glob (oneEntry .other) (fun _ => true) [chr 'x', chr '*'] GLOB_NOCHECK ⟨0, none, 0⟩ =
      some (0, ⟨1, some [some [chr 'x', chr '*'], none], 0⟩) := by decide +kernel
  have appended : glob (oneEntry .other) (fun _ => true) [chr 'x', chr '*'] (GLOB_NOCHECK ||| GLOB_APPEND)
      ⟨1, some [some [chr 'o'], none], 0⟩ = some (0, ⟨1, some [some [chr 'o'], none], 0⟩) := by
    decide +kernel
  rintro ⟨ret, new, all, first, second, same⟩
  rw [alone] at first
  rw [appended] at second
  cases first
  cases second
  exact absurd same (by decide)

end CLite
