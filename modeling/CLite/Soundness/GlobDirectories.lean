import CLite.Proofs.GlobSelect

/-! # Patterns that end in a slash

A final slash should restrict the results to directories. It adds an empty last component, so the
component before it is not treated as the last one, and the test for directories is skipped there: a
literal is checked as every inner literal is, but the entries that match a wildcard are not.
-/

namespace CLite

variable {fs : FileSystem} {succeeds : ℕ → Bool} {opts : GlobOptions} {pattern : CString}
  {flags : BitVec 32} {pglob : GlobT}

/-- Every path that a call returns is a directory. -/
def DirectoriesOnly (fs : FileSystem) (succeeds : ℕ → Bool) (pattern : CString) (flags : BitVec 32)
    (pglob : GlobT) : Prop :=
  ∀ ret result, glob fs succeeds pattern flags pglob = some (ret, result) →
    ∀ path ∈ result.paths, globIsDir fs path = true

/-- A wildcard before the final slash matches only directories, in every directory that the earlier
components lead to, unless the pattern or a level is too large for any result. -/
def WildcardOnDirectories (fs : FileSystem) (opts : GlobOptions) (pattern : CString) : Prop :=
  pattern.length < bufferSize → Roomy fs opts pattern [] →
    ∀ front comp, splitComponents opts.noescape pattern = front ++ [comp, []] →
      globHasMeta opts.noescape comp = true →
        ∀ dir, Reached fs opts true front (startPath pattern) dir →
          ∀ name ∈ entries fs dir, Eligible opts.fnflags comp name →
            (pathJoin dir name).length < bufferSize → globIsDir fs (pathJoin dir name) = true

/-! ## One level -/

theorem globIsDir_slash {path : CString} (isDir : globIsDir fs path = true) :
    globIsDir fs (path ++ [chr '/']) = true :=
  decide_eq_true (fs.stat_slash path (of_decide_eq_true isDir))

theorem globIsDir_of_lstat {path : CString} (found : fs.lstat path = some .directory) :
    globIsDir fs path = true :=
  decide_eq_true (fs.stat_of_lstat path found)

/-- The last component yields only directories when a slash ends the pattern. -/
theorem isDir_of_mem_last (slash : opts.trailingSlash = true) {comp dir path : CString}
    (member : path ∈ levelPaths fs opts true comp dir) : globIsDir fs path = true := by
  unfold levelPaths at member
  split at member
  · obtain ⟨name, -, contributed⟩ := List.mem_filterMap.mp member
    rw [wildcardPath_eq_ite] at contributed
    split at contributed
    · next passes =>
      have isDir : globIsDir fs (pathJoin dir name) = true := by simpa [slash] using passes.2.2
      obtain rfl := Option.some.inj contributed
      split
      · exact globIsDir_slash isDir
      · exact isDir
    · cases contributed
  · rw [Option.mem_toList, literalPath] at member
    split at member
    · cases member
    · next joined _ =>
      rw [if_neg (by simp)] at member
      split at member
      · cases member
      · next kind found =>
        split at member
        · cases member
        · next admitted =>
          have directory : kind = .directory := by simpa [slash] using admitted
          have isDir : globIsDir fs joined = true := globIsDir_of_lstat (by rw [found, directory])
          split_ifs at member with mark long
          · obtain rfl := Option.some.inj member
            exact globIsDir_slash isDir
          · obtain rfl := Option.some.inj member
            exact isDir

/-- A literal that is not the last component yields only directories. -/
theorem isDir_of_mem_literal {comp dir path : CString} (literal : globHasMeta opts.noescape comp = false)
    (member : path ∈ levelPaths fs opts false comp dir) : globIsDir fs path = true := by
  rw [levelPaths, if_neg (by simp [literal]), Option.mem_toList, literalPath] at member
  split at member
  · cases member
  · next joined _ =>
    rw [if_pos rfl] at member
    split at member
    · next isDir =>
      obtain rfl := Option.some.inj member
      exact isDir
    · cases member

/-- A wildcard that is not the last component yields what matches it. -/
theorem mem_inner_wildcard {comp dir path : CString} (wild : globHasMeta opts.noescape comp = true) :
    path ∈ levelPaths fs opts false comp dir ↔
      ∃ name ∈ entries fs dir, Eligible opts.fnflags comp name ∧
        (pathJoin dir name).length < bufferSize ∧ pathJoin dir name = path := by
  rw [levelPaths, if_pos wild, List.mem_filterMap]
  simp [wildcardPath_eq_ite, and_assoc]

/-! ## All levels -/

theorem frontier_append (more : Bool) (front : List CString) {back : List CString} (nonempty : back ≠ [])
    (dirs : List CString) :
    frontier fs opts more (front ++ back) dirs =
      frontier fs opts more back (frontier fs opts true front dirs) := by
  induction front generalizing dirs with
  | nil => rfl
  | cons comp rest ih =>
    rw [List.cons_append, frontier, frontier]
    split
    · exact ih dirs
    · rw [ih]
      simp [nonempty]

theorem mem_matchesOf_slash (wild : globHasMeta opts.noescape pattern = true)
    (short : pattern.length < bufferSize) {front : List CString} {comp path : CString} (nonempty : comp ≠ [])
    (shape : splitComponents opts.noescape pattern = front ++ [comp, []]) :
    path ∈ matchesOf fs opts pattern ↔
      ∃ dir, Reached fs opts true front (startPath pattern) dir ∧ path ∈ levelPaths fs opts false comp dir := by
  rw [matchesOf_eq_frontier wild short, shape, frontier_append _ _ (by simp), frontier, if_neg nonempty, frontier,
    if_pos rfl, frontier, List.mem_flatMap]
  simp [mem_frontier]

theorem isDir_of_mem_matchesOf (wild : globHasMeta opts.noescape pattern = true)
    (slash : opts.trailingSlash = true) (roomy : Roomy fs opts pattern [])
    (enforced : WildcardOnDirectories fs opts pattern) {path : CString}
    (member : path ∈ matchesOf fs opts pattern) : globIsDir fs path = true := by
  rcases Nat.lt_or_ge pattern.length bufferSize with short | long
  · obtain ⟨front, comp, nonempty, shape | shape⟩ := splitComponents_shape wild
    · -- the list is cut before the final slash, so this component counts as the last one
      rw [matchesOf_eq_frontier wild short, shape, frontier_append _ _ (by simp), frontier, if_neg nonempty,
        frontier] at member
      obtain ⟨dir, -, chosen⟩ := List.mem_flatMap.mp member
      exact isDir_of_mem_last slash chosen
    · obtain ⟨dir, reached, chosen⟩ := (mem_matchesOf_slash wild short nonempty shape).mp member
      cases wildcard : globHasMeta opts.noescape comp with
      | false => exact isDir_of_mem_literal wildcard chosen
      | true =>
        obtain ⟨name, listed, eligible, fits, rfl⟩ := (mem_inner_wildcard wildcard).mp chosen
        exact enforced short roomy front comp shape wildcard dir reached name listed eligible fits
  · rw [matchesOf, if_neg (by simp [wild]), if_pos long] at member
    cases member

/-- Whatever the allocator does, only directories are returned when the wildcard before the final slash
matches nothing else. -/
theorem directoriesOnly_of_wildcard (fresh : hasFlag flags GLOB_APPEND = false)
    (checked : hasFlag flags GLOB_NOCHECK = false)
    (wild : globHasMeta (hasFlag flags GLOB_NOESCAPE) pattern = true)
    (ends : EndsInSlash (hasFlag flags GLOB_NOESCAPE) pattern)
    (enforced : WildcardOnDirectories fs (globOptions pattern flags) pattern) :
    DirectoriesOnly fs succeeds pattern flags pglob := by
  intro ret result returned path member
  obtain ⟨found, roomy⟩ := mem_matchesOf_of_glob checked (seeds_fresh fresh pglob) returned member
  exact isDir_of_mem_matchesOf wild (trailingSlash_of_endsInSlash wild ends) roomy enforced found

/-- With enough memory and room, all matches are returned. -/
theorem isDir_of_directoriesOnly (space : ∀ k, succeeds k = true) (fresh : hasFlag flags GLOB_APPEND = false)
    (wild : globHasMeta (hasFlag flags GLOB_NOESCAPE) pattern = true)
    (roomy : Roomy fs (globOptions pattern flags) pattern [])
    (only : DirectoriesOnly fs succeeds pattern flags pglob) {path : CString}
    (found : path ∈ matchesOf fs (globOptions pattern flags) pattern) : globIsDir fs path = true := by
  have unseeded := seeds_fresh fresh pglob
  obtain ⟨result, finished, paths⟩ := globResult_of_ne_nil pattern flags (List.ne_nil_of_mem found)
  have returned := glob_eq_result space (not_literalOverrun wild) (by rwa [unseeded])
  rw [unseeded, List.nil_append, finished] at returned
  exact only 0 result returned path (by rwa [paths])

/-- A final slash restricts the results to directories if the wildcard before it matches nothing else,
and only then if no allocation fails. -/
theorem directories_only_iff (fs : FileSystem) (succeeds : ℕ → Bool) (pattern : CString)
    (flags : BitVec 32) (pglob : GlobT) (fresh : hasFlag flags GLOB_APPEND = false)
    (checked : hasFlag flags GLOB_NOCHECK = false)
    (wild : globHasMeta (hasFlag flags GLOB_NOESCAPE) pattern = true)
    (ends : EndsInSlash (hasFlag flags GLOB_NOESCAPE) pattern) :
    (WildcardOnDirectories fs (globOptions pattern flags) pattern →
      DirectoriesOnly fs succeeds pattern flags pglob) ∧
    ((∀ k, succeeds k = true) →
      (DirectoriesOnly fs succeeds pattern flags pglob ↔
        WildcardOnDirectories fs (globOptions pattern flags) pattern)) := by
  have enough (enforced : WildcardOnDirectories fs (globOptions pattern flags) pattern) :
      DirectoriesOnly fs succeeds pattern flags pglob :=
    directoriesOnly_of_wildcard fresh checked wild ends enforced
  refine ⟨enough, fun space => ⟨fun only => ?_, enough⟩⟩
  intro short roomy front comp shape wildcard dir reached name listed eligible fits
  have nonempty : comp ≠ [] := by
    rintro rfl
    simp [globHasMeta] at wildcard
  apply isDir_of_directoriesOnly space fresh wild roomy only
  apply (mem_matchesOf_slash wild short nonempty shape).mpr
  exact ⟨dir, reached, (mem_inner_wildcard wildcard).mpr ⟨name, listed, eligible, fits, rfl⟩⟩

theorem directories_only_iff_directory :
    DirectoriesOnly (oneEntry .directory) (fun _ => true) [chr '*', chr '/'] 0 ⟨0, none, 0⟩ := by
  refine (directories_only_iff (oneEntry .directory) (fun _ => true) [chr '*', chr '/'] 0 ⟨0, none, 0⟩
    (by decide) (by decide) (by decide) ⟨[chr '*'], rfl, .inr (by decide)⟩).1 ?_
  intro _ _ front comp shape _ dir reached name listed _ _
  have split : [] ++ [[chr '*'], []] = front ++ [comp, []] := shape
  obtain ⟨rfl, -⟩ := List.append_inj' split rfl
  cases reached
  obtain rfl : name = [chr 'e'] := List.mem_singleton.mp listed
  decide

/-- The pattern `*/` returns an entry that is not a directory. -/
theorem slash_returns_file :
    ¬ DirectoriesOnly (oneEntry .other) (fun _ => true) [chr '*', chr '/'] 0 ⟨0, none, 0⟩ := by
  have returned : glob (oneEntry .other) (fun _ => true) [chr '*', chr '/'] 0 ⟨0, none, 0⟩ =
      some (0, ⟨1, some [some [chr 'e'], none], 0⟩) := by decide +kernel
  intro only
  exact absurd (only 0 _ returned [chr 'e'] (by decide)) (by decide)

end CLite
