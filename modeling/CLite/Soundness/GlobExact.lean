import CLite.Proofs.GlobSelect

/-! # `glob` returns exactly the matching paths

For a pattern that does not end in a slash, and without flags that restrict or mark directories, `glob`
returns the selected paths, each once and in the order of the directories.
-/

namespace CLite

variable {fs : FileSystem} {succeeds : ℕ → Bool} {pattern : CString} {flags : BitVec 32} {pglob : GlobT}

/-- The paths that a pattern selects, in the order of the directories level by level. -/
def matching (fs : FileSystem) (pattern : CString) (flags : BitVec 32) : List CString :=
  selections fs (hasFlag flags GLOB_NOESCAPE) (globOptions pattern flags).fnflags
    (levels (hasFlag flags GLOB_NOESCAPE) pattern) [startPath pattern]

/-- A path that a pattern selects. -/
def Matches (fs : FileSystem) (pattern : CString) (flags : BitVec 32) (path : CString) : Prop :=
  Selected fs (hasFlag flags GLOB_NOESCAPE) (globOptions pattern flags).fnflags
    (levels (hasFlag flags GLOB_NOESCAPE) pattern) (startPath pattern) path

/-- No level of the expansion exceeds its bounds. -/
def MatchingFits (fs : FileSystem) (pattern : CString) (flags : BitVec 32) : Prop :=
  WithinLimits fs (hasFlag flags GLOB_NOESCAPE) (globOptions pattern flags).fnflags
    (levels (hasFlag flags GLOB_NOESCAPE) pattern) [startPath pattern]

theorem matchesOf_eq_matching (permitted : flags &&& ~~~(GLOB_NOESCAPE ||| GLOB_PERIOD) = 0)
    (wild : globHasMeta (hasFlag flags GLOB_NOESCAPE) pattern = true) (short : pattern.length < bufferSize)
    (unclosed : pattern.getLast? ≠ some (chr '/'))
    (few : (components (hasFlag flags GLOB_NOESCAPE) pattern).length ≤ GLOB_MAX_COMPONENTS)
    (limits : MatchingFits fs pattern flags) :
    Roomy fs (globOptions pattern flags) pattern [] ∧
      matchesOf fs (globOptions pattern flags) pattern = matching fs pattern flags := by
  have nonempty : pattern ≠ [] := by
    rintro rfl
    simp [globHasMeta] at wild
  have cut : splitComponents (globOptions pattern flags).noescape pattern =
      components (hasFlag flags GLOB_NOESCAPE) pattern := by
    rw [splitComponents_eq]
    exact List.take_of_length_le few
  obtain ⟨bounded, frontier⟩ := frontier_eq_selections (unrestricted_of_permitted permitted unclosed)
    (getLast?_components nonempty unclosed) limits
  have result : matchesOf fs (globOptions pattern flags) pattern = matching fs pattern flags := by
    rw [matchesOf_eq_frontier wild short, cut, frontier]
    rfl
  refine ⟨⟨fun _ _ => by rwa [cut], ?_⟩, result⟩
  rw [result, List.nil_append]
  exact selections_length_le (by simp [GLOB_MAX_MATCHES]) limits

/-- With enough memory and room, `glob` returns the selected paths, each once, or `GLOB_NOMATCH` if there
are none. -/
theorem glob_eq_matching (fs : FileSystem) (succeeds : ℕ → Bool) (pattern : CString) (flags : BitVec 32)
    (pglob : GlobT) (permitted : flags &&& ~~~(GLOB_NOESCAPE ||| GLOB_PERIOD) = 0)
    (wild : globHasMeta (hasFlag flags GLOB_NOESCAPE) pattern = true) (short : pattern.length < bufferSize)
    (unclosed : pattern.getLast? ≠ some (chr '/'))
    (few : (components (hasFlag flags GLOB_NOESCAPE) pattern).length ≤ GLOB_MAX_COMPONENTS)
    (limits : MatchingFits fs pattern flags) (space : ∀ k, succeeds k = true) :
    (∀ path, path ∈ matching fs pattern flags ↔ Matches fs pattern flags path) ∧
      (matching fs pattern flags).Nodup ∧
      glob fs succeeds pattern flags pglob =
        if matching fs pattern flags = [] then some (GLOB_NOMATCH, ⟨0, none, 0⟩)
        else some (0, ⟨(matching fs pattern flags).length,
          some ((matching fs pattern flags).map some ++ [none]), 0⟩) := by
  refine ⟨fun path => ?_, selections_nodup _ (List.nodup_singleton _), ?_⟩
  · rw [matching, mem_selections]
    simp [Matches]
  · have unseeded := seeds_fresh (hasFlag_of_permitted permitted (by decide)) pglob
    obtain ⟨roomy, result⟩ := matchesOf_eq_matching permitted wild short unclosed few limits
    rw [glob_eq_result space (not_literalOverrun wild) (by rwa [unseeded]), unseeded, List.nil_append, result,
      globResult, hasFlag_of_permitted permitted (by decide)]
    rfl

/-- All files of a directory but the hidden one. -/
theorem glob_eq_matching_files :
    glob twoLevels (fun _ => true) (['d', '/', '*'].map chr) 0 ⟨0, none, 0⟩ =
      some (0, ⟨2, some [some (['d', '/', 'b'].map chr), some (['d', '/', 'a'].map chr), none], 0⟩) := by
  have limits : MatchingFits twoLevels (['d', '/', '*'].map chr) 0 := by
    refine ⟨?_, ?_, ?_, ?_, trivial⟩ <;> decide +kernel
  have returned := (glob_eq_matching twoLevels (fun _ => true) (['d', '/', '*'].map chr) 0 ⟨0, none, 0⟩ (by decide)
    (by decide) (by decide) (by decide) (by decide) limits fun _ => rfl).2.2
  have found : matching twoLevels (['d', '/', '*'].map chr) 0 =
      [['d', '/', 'b'], ['d', '/', 'a']].map (List.map chr) := by decide +kernel
  rwa [found] at returned

end CLite
