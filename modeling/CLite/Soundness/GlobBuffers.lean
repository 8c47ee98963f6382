import CLite.Model.GlobWrites
import CLite.Proofs.GlobAllocations

/-! # The path arrays of `glob`

The joins and the slashes behind directories are tested against the size of the arrays, and so is the pattern before
it is cut into components. The copy of a whole pattern without its backslashes is not. It is made for a pattern that
has no metacharacter, and again at the end when nothing was found and `GLOB_NOCHECK` is set.
-/

namespace CLite

open Fallible Oracle Logged

variable {fs : FileSystem} {succeeds : ℕ → Bool} {opts : GlobOptions} {pattern : CString} {flags : BitVec 32}
  {pglob : GlobT}

/-- The string fits its array together with its terminator. -/
def PathWrite.Fits (write : PathWrite) : Prop := write.text.length < bufferSize

/-! ## The program behind the writes -/

theorem expandLevelW_program (last : Bool) (comp : CString) (cur : GlobVec) :
    (expandLevelW fs succeeds opts last comp cur).program = expandLevel fs succeeds opts last comp cur := by
  have directory (next : GlobVec) (dir : CString) : (expandDirectoryW fs succeeds opts last comp next dir).program =
      expandDirectory fs succeeds opts last comp next dir := by
    rw [expandDirectoryW, expandDirectory]
    cases fs.opendir (if dir = [] then [chr '.'] else dir) with
    | none => rfl
    | some names => simp only [program_foldlM, program_after]
  rw [expandLevelW, expandLevel]
  split
  · simp only [expandWildcardW, expandWildcard, program_foldlM, directory]
  · simp only [expandLiteralW, expandLiteral, globUnescapeToW, program_bind, program_foldlM, program_after]

theorem expandComponentsW_program (comps : List CString) (cur : GlobVec) :
    (expandComponentsW fs succeeds opts comps cur).program = expandComponents fs succeeds opts comps cur := by
  induction comps generalizing cur with
  | nil => rfl
  | cons comp rest ih =>
    rw [expandComponentsW, expandComponents]
    split
    · exact ih cur
    · simp only [program_bind, expandLevelW_program, apply_ite Logged.program, program_pure, ih]

theorem globMatchesW_program (pattern : CString) (out : GlobVec) :
    (globMatchesW fs succeeds opts pattern out).program = globMatches fs succeeds opts pattern out := by
  rw [globMatchesW, globMatches]
  split
  · rfl
  · split
    · rfl
    · simp only [program_bind, program_after, program_quiet, expandComponentsW_program]

/-- Without its writes, the collecting part is that of the model. -/
theorem globCollectW_program (fs : FileSystem) (succeeds : ℕ → Bool) (pattern : CString) (flags : BitVec 32)
    (pglob : GlobT) :
    (globCollectW fs succeeds pattern flags pglob).program = globCollect fs succeeds pattern flags pglob := by
  simp only [globCollectW, globCollect, program_bind, program_quiet, globMatchesW_program]

/-! ## Writes that are tested -/

theorem globJoin_fits {dir name joined : CString} (join : globJoin dir name = some joined) :
    joined.length < bufferSize := by
  rw [globJoin] at join
  split_ifs at join <;> cases join
  · omega
  · rw [List.length_cons]
    omega
  · rw [List.length_append, List.length_cons]
    omega

theorem wildcardWrites_fit (last : Bool) (comp dir name : CString) :
    ∀ write ∈ wildcardWrites fs opts last comp dir name, write.Fits := by
  rw [wildcardWrites]
  split_ifs
  · simp
  · simp
  · split
    · simp
    next joined join =>
      have short := globJoin_fits join
      split_ifs with kept marked
      · simp only [List.forall_mem_cons, PathWrite.Fits, List.length_append, List.length_singleton]
        exact ⟨short, short, by omega, by simp⟩
      · simp only [List.forall_mem_cons, PathWrite.Fits]
        exact ⟨short, short, by simp⟩
      · simp only [List.forall_mem_cons, PathWrite.Fits]
        exact ⟨short, by simp⟩

theorem literalWrites_fit (last : Bool) (lit dir : CString) :
    ∀ write ∈ literalWrites fs opts last lit dir, write.Fits := by
  rw [literalWrites]
  split
  · simp
  next joined join =>
    rw [List.forall_mem_cons]
    refine ⟨globJoin_fits join, ?_⟩
    split
    · simp
    · cases fs.lstat joined with
      | none => simp
      | some kind =>
        dsimp only
        split_ifs with plain marked long
        · simp
        · simp
        · rw [List.forall_mem_singleton, PathWrite.Fits, List.length_append, List.length_singleton]
          omega
        · simp

/-! ## Overruns are seen in the writes -/

/-- A write that does not fit is where the model stops. -/
abbrev ShowsOverrun {α : Type} (logged : GlobW α) : Prop := Shows (fun write => ¬ write.Fits) Stop.overrun logged

theorem run_ne_overrun {program : GlobM GlobVec} {post : GlobVec → Prop} {exceeds : Prop}
    (outcome : Outcome program post (OutOfSpace succeeds exceeds)) (count : ℕ) :
    program.run count ≠ .error .overrun := by
  intro stopped
  have space := outcome count
  rw [stopped] at space
  cases space.1

theorem globUnescapeToW_shows (noescape : Bool) (src : CString) : ShowsOverrun (globUnescapeToW noescape src) := by
  apply Shows.after
  intro count
  simp only [List.mem_singleton, exists_eq_left, PathWrite.Fits]
  rw [globUnescapeTo]
  split
  next short =>
    apply iff_of_false (not_not_intro short)
    intro stopped
    cases stopped
  next long => exact iff_of_true long rfl

theorem pushPath_shows {writes : List PathWrite} (fit : ∀ write ∈ writes, write.Fits) (next : GlobVec)
    (path : Option CString) : ShowsOverrun (after writes (pushPath succeeds next path)) := by
  apply Shows.after_good
  · intro write member overruns
    exact overruns (fit write member)
  · exact run_ne_overrun (pushPath_appends succeeds path next)

theorem expandLevelW_shows (last : Bool) (comp : CString) (cur : GlobVec) :
    ShowsOverrun (expandLevelW fs succeeds opts last comp cur) := by
  rw [expandLevelW]
  split
  · apply Shows.foldlM
    intro next dir
    rw [expandDirectoryW]
    split
    · exact .pure next
    · exact .foldlM (fun next name => pushPath_shows (wildcardWrites_fit last comp dir name) next _) _ _
  · apply (globUnescapeToW_shows _ _).bind
    intro lit
    exact .foldlM (fun next dir => pushPath_shows (literalWrites_fit last lit dir) next _) _ _

theorem expandComponentsW_shows (comps : List CString) (cur : GlobVec) :
    ShowsOverrun (expandComponentsW fs succeeds opts comps cur) := by
  induction comps generalizing cur with
  | nil => exact .pure cur
  | cons comp rest ih =>
    rw [expandComponentsW]
    split
    · exact ih cur
    · apply (expandLevelW_shows _ comp cur).bind
      intro next
      split
      · exact .pure next
      · exact ih next

theorem globMatchesW_shows (pattern : CString) (out : GlobVec) :
    ShowsOverrun (globMatchesW fs succeeds opts pattern out) := by
  rw [globMatchesW]
  split
  · apply (globUnescapeToW_shows _ _).bind
    intro lit
    exact .quiet (run_ne_overrun (globVecPush_appends succeeds lit out))
  · split
    · exact .pure out
    next short =>
      apply Shows.bind
      · apply Shows.after_good
        · rw [List.forall_mem_singleton, not_not]
          exact Nat.lt_of_not_le short
        · exact run_ne_overrun (globVecPush_appends succeeds _ .empty)
      · intro start
        apply (expandComponentsW_shows _ start).bind
        intro cur
        exact .quiet (run_ne_overrun (foldlM_push_appends succeeds cur.v out))

theorem globCollectW_shows (fs : FileSystem) (succeeds : ℕ → Bool) (pattern : CString) (flags : BitVec 32)
    (pglob : GlobT) : ShowsOverrun (globCollectW fs succeeds pattern flags pglob) := by
  apply Shows.bind
  · exact .quiet (run_ne_overrun (foldlM_push_appends succeeds _ .empty))
  · exact globMatchesW_shows pattern

theorem globFinish_eq_none_iff (out : GlobVec) (count : ℕ) :
    globFinish succeeds pattern flags pglob out count = none ↔
      ∃ write ∈ globFinishWrites pattern flags out, ¬ write.Fits := by
  rw [globFinishWrites]
  by_cases returned : out.v = [] ∧ hasFlag flags GLOB_NOCHECK = true
  · rw [if_pos returned, globFinish, if_pos returned.1, if_pos returned.2]
    simp only [List.mem_singleton, exists_eq_left, PathWrite.Fits, Nat.not_lt]
    split_ifs with long
    · exact iff_of_true rfl long
    · exact iff_of_false id long
    · exact iff_of_false id long
  · rw [if_neg returned, globFinish]
    simp only [List.not_mem_nil, false_and, exists_false, iff_false]
    split_ifs with empty nocheck
    · exact absurd ⟨empty, nocheck⟩ returned
    all_goals exact id

/-- `glob` has no defined result exactly when one of its writes does not fit. -/
theorem glob_eq_none_iff_overrun (fs : FileSystem) (succeeds : ℕ → Bool) (pattern : CString) (flags : BitVec 32)
    (pglob : GlobT) : glob fs succeeds pattern flags pglob = none ↔
      ∃ write ∈ globWrites fs succeeds pattern flags pglob, ¬ write.Fits := by
  have shows := globCollectW_shows fs succeeds pattern flags pglob 0
  rw [glob, globWrites]
  rw [globCollectW_program] at shows ⊢
  simp only [List.mem_append, or_and_right, exists_or, shows]
  cases (globCollect fs succeeds pattern flags pglob).run 0 with
  | error stop => cases stop <;> simp
  | ok result => simpa using globFinish_eq_none_iff result.1 result.2

/-! ## Patterns that do not fit -/

/-- The earlier results are taken over if there is room and memory for them, and space runs out otherwise. -/
theorem seeding_cases (succeeds : ℕ → Bool) (strings : List CString) :
    (SeedsPushed succeeds strings ∧ ∃ out count,
      (strings.foldlM (globVecPush succeeds) .empty).run 0 = .ok (out, count) ∧ out.v = strings) ∨
    (¬ SeedsPushed succeeds strings ∧ (strings.foldlM (globVecPush succeeds) .empty).run 0 = .error .nospace) := by
  have outcome := foldlM_push_appends succeeds strings .empty 0
  have follows := Metered.foldlM globVecPush_metered strings .empty succeeds 0
  cases ran : (strings.foldlM (globVecPush succeeds) .empty).run 0 with
  | ok result =>
    rw [ran] at outcome follows
    have found : result.1.v = strings := outcome
    have short : strings.length ≤ GLOB_MAX_MATCHES := found ▸ result.1.bounded
    obtain ⟨sv, free, -, -⟩ := (foldlM_push_countsTo strings).fills short 0
    rw [free] at follows
    cases follows with
    | granted longer all =>
      refine .inl ⟨⟨short, fun k early => all k (Nat.zero_le k) ?_⟩, _, _, rfl, found⟩
      rwa [Nat.zero_add]
  | error stop =>
    rw [ran] at outcome follows
    obtain rfl := outcome.1
    refine .inr ⟨?_, rfl⟩
    rintro ⟨short, granted⟩
    obtain ⟨sv, free, -, -⟩ := (foldlM_push_countsTo strings).fills short 0
    rw [free, Nat.zero_add] at follows
    cases follows with
    | refused longer refusal => exact refusal fun k _ early => granted k early

theorem pattern_long_of_text (long : ¬ TextFits pattern flags) : bufferSize ≤ pattern.length :=
  Nat.le_trans (Nat.le_of_not_lt long) (globUnescape_length_le _ pattern)

/-- A pattern whose text does not fit is copied all the same, or nothing is matched. -/
theorem globMatches_of_long (long : ¬ TextFits pattern flags) (out : GlobVec) :
    globMatches fs succeeds (globOptions pattern flags) pattern out =
      if globHasMeta (hasFlag flags GLOB_NOESCAPE) pattern = false then throw .overrun else pure out := by
  rw [globMatches]
  change (if globHasMeta (hasFlag flags GLOB_NOESCAPE) pattern = false then _ else _) = _
  split
  next literal =>
    change globUnescapeTo (hasFlag flags GLOB_NOESCAPE) pattern >>= _ = _
    rw [TextFits] at long
    rw [globUnescapeTo, if_neg long]
    rfl
  next wild => rw [if_pos (pattern_long_of_text long)]

theorem glob_ne_none_of_textFits (fits : TextFits pattern flags) : glob fs succeeds pattern flags pglob ≠ none := by
  rcases glob_cases fs succeeds pattern flags pglob with ⟨out, count, -, same⟩ | ⟨overrun, -⟩ | ⟨-, same⟩
  · rw [same, Ne, globFinish_eq_none_iff, globFinishWrites]
    split_ifs
    · simp only [List.mem_singleton, exists_eq_left, not_not]
      exact fits
    · simp
  · exact absurd fits (Nat.not_lt_of_le overrun.2)
  · rw [same]
    exact Option.some_ne_none _

/-- When the earlier results are taken over, a text that does not fit is copied for a pattern without metacharacters,
and for any pattern when there is nothing else to return. -/
theorem glob_eq_none_iff_of_long (fs : FileSystem) (pglob : GlobT) (long : ¬ TextFits pattern flags) :
    glob fs succeeds pattern flags pglob = none ↔ SeedsPushed succeeds (seeds flags pglob) ∧
      (globHasMeta (hasFlag flags GLOB_NOESCAPE) pattern = false ∨
        (seeds flags pglob = [] ∧ hasFlag flags GLOB_NOCHECK = true)) := by
  rcases seeding_cases succeeds (seeds flags pglob) with ⟨pushed, out, count, ran, found⟩ | ⟨missing, ran⟩
  · have collected : (globCollect fs succeeds pattern flags pglob).run 0 =
        (globMatches fs succeeds (globOptions pattern flags) pattern out).run count := run_bind_of_ok ran
    rw [glob, collected, globMatches_of_long long, and_iff_right pushed]
    by_cases literal : globHasMeta (hasFlag flags GLOB_NOESCAPE) pattern = false
    · rw [if_pos literal]
      exact iff_of_true rfl (.inl literal)
    · rw [if_neg literal]
      change globFinish succeeds pattern flags pglob out count = none ↔ _
      rw [globFinish_eq_none_iff, globFinishWrites, found, or_iff_right literal]
      split_ifs with returned
      · simp only [List.mem_singleton, exists_eq_left]
        exact iff_of_true long returned
      · simp only [List.not_mem_nil, false_and, exists_false]
        exact iff_of_false id returned
  · have collected : (globCollect fs succeeds pattern flags pglob).run 0 = .error .nospace := by
      change ((seeds flags pglob).foldlM (globVecPush succeeds) .empty >>= _).run 0 = _
      rw [StateT.run_bind, ran]
      rfl
    rw [glob, collected]
    exact iff_of_false (Option.some_ne_none _) fun both => missing both.1

/-- Everything that `glob` writes fits its arrays exactly when the pattern's text does, or the earlier results cannot
be taken over, or the pattern has a metacharacter and is not itself returned for want of a result. -/
theorem glob_writes_fit_iff (fs : FileSystem) (succeeds : ℕ → Bool) (pattern : CString) (flags : BitVec 32)
    (pglob : GlobT) : (∀ write ∈ globWrites fs succeeds pattern flags pglob, write.Fits) ↔
      TextFits pattern flags ∨ ¬ SeedsPushed succeeds (seeds flags pglob) ∨
        (globHasMeta (hasFlag flags GLOB_NOESCAPE) pattern = true ∧
          (seeds flags pglob ≠ [] ∨ hasFlag flags GLOB_NOCHECK = false)) := by
  have defined : (∀ write ∈ globWrites fs succeeds pattern flags pglob, write.Fits) ↔
      glob fs succeeds pattern flags pglob ≠ none := by
    rw [Ne, glob_eq_none_iff_overrun]
    simp only [not_exists, not_and, not_not]
  rw [defined]
  by_cases fits : TextFits pattern flags
  · exact iff_of_true (glob_ne_none_of_textFits fits) (.inl fits)
  · rw [or_iff_right fits, Ne, glob_eq_none_iff_of_long fs pglob fits, not_and_or, not_or, not_and_or,
      Bool.not_eq_false, Bool.not_eq_true]

/-! ## The two copies that are not tested -/

theorem seeding_fresh (fresh : hasFlag flags GLOB_APPEND = false) :
    ((if hasFlag flags GLOB_APPEND then pglob.paths else []).foldlM (globVecPush succeeds) .empty).run 0 =
      .ok (.empty, 0) := by
  rw [fresh]
  rfl

theorem mem_globWrites_literal (fs : FileSystem) (succeeds : ℕ → Bool) (pglob : GlobT)
    (fresh : hasFlag flags GLOB_APPEND = false)
    (literal : globHasMeta (globOptions pattern flags).noescape pattern = false) :
    ⟨.lit, globUnescape (globOptions pattern flags).noescape pattern⟩ ∈
      globWrites fs succeeds pattern flags pglob := by
  apply List.mem_append_left
  rw [globCollectW, log_quiet_bind (seeding_fresh fresh), globMatchesW, if_pos literal]
  exact List.mem_append_left _ (List.mem_singleton_self _)

theorem mem_globWrites_fallback (fs : FileSystem) (succeeds : ℕ → Bool) (pglob : GlobT)
    (fresh : hasFlag flags GLOB_APPEND = false) (nocheck : hasFlag flags GLOB_NOCHECK = true)
    (wild : globHasMeta (globOptions pattern flags).noescape pattern = true) (long : bufferSize ≤ pattern.length) :
    ⟨.lit, globUnescape (globOptions pattern flags).noescape pattern⟩ ∈
      globWrites fs succeeds pattern flags pglob := by
  have collected : (globCollect fs succeeds pattern flags pglob).run 0 = .ok (.empty, 0) := by
    rw [globCollect, run_bind_of_ok (seeding_fresh fresh), globMatches, if_neg (by simp [wild]), if_pos long]
    rfl
  apply List.mem_append_right
  rw [globCollectW_program, collected]
  change _ ∈ globFinishWrites pattern flags .empty
  rw [globFinishWrites, if_pos ⟨rfl, nocheck⟩]
  exact List.mem_singleton_self _

/-! ## Patterns of one repeated character -/

theorem globHasMeta_replicate {x : CChar} (plain : x ≠ chr '\\') {n : ℕ} (nonempty : n ≠ 0) :
    globHasMeta false (List.replicate n x) = decide (x = chr '*' ∨ x = chr '?' ∨ x = chr '[') := by
  obtain ⟨n, rfl⟩ := Nat.exists_eq_succ_of_ne_zero nonempty
  clear nonempty
  induction n with
  | zero => rfl
  | succ n ih =>
    rw [List.replicate_succ] at ih
    rw [List.replicate_succ, List.replicate_succ, globHasMeta, if_neg (fun both => plain both.1), ih]
    split <;> simp_all

theorem globUnescape_replicate {x : CChar} (plain : x ≠ chr '\\') (n : ℕ) :
    globUnescape false (List.replicate n x) = List.replicate n x := by
  induction n with
  | zero => rfl
  | succ n ih =>
    cases n with
    | zero => rfl
    | succ n =>
      rw [List.replicate_succ] at ih
      rw [List.replicate_succ, List.replicate_succ, globUnescape, if_neg (fun both => plain both.1), ih]

/-- A pattern of 1024 stars is too long to be expanded, and without `GLOB_NOCHECK` it is not copied either. -/
theorem glob_writes_fit_stars :
    ¬ TextFits (List.replicate 1024 (chr '*')) 0 ∧
      ∀ write ∈ globWrites (oneEntry .other) (fun _ => true) (List.replicate 1024 (chr '*')) 0 ⟨0, none, 0⟩,
        write.Fits := by
  constructor
  · rw [TextFits, show hasFlag 0 GLOB_NOESCAPE = false by decide, globUnescape_replicate (by decide),
      List.length_replicate]
    decide
  apply (glob_writes_fit_iff _ _ _ _ _).mpr
  refine .inr (.inr ⟨?_, .inr (by decide)⟩)
  rw [show hasFlag 0 GLOB_NOESCAPE = false by decide, globHasMeta_replicate (by decide) (by decide)]
  decide

/-- A pattern of 1024 letters is copied to `lit` as it is, one byte too far; so is one of 1024 stars when it has no
match and `GLOB_NOCHECK` is set. -/
theorem glob_pattern_overruns :
    (∃ write ∈ globWrites (oneEntry .other) (fun _ => true) (List.replicate 1024 (chr 'a')) 0 ⟨0, none, 0⟩,
      write = ⟨.lit, List.replicate 1024 (chr 'a')⟩ ∧ ¬ write.Fits) ∧
    (∃ write ∈ globWrites (oneEntry .other) (fun _ => true) (List.replicate 1024 (chr '*')) GLOB_NOCHECK ⟨0, none, 0⟩,
      write = ⟨.lit, List.replicate 1024 (chr '*')⟩ ∧ ¬ write.Fits) := by
  have overruns (x : CChar) : ¬ (PathWrite.mk .lit (List.replicate 1024 x)).Fits := by
    rw [PathWrite.Fits, List.length_replicate]
    decide
  constructor
  · have escapes : (globOptions (List.replicate 1024 (chr 'a')) 0).noescape = false :=
      show hasFlag 0 GLOB_NOESCAPE = false by decide
    have literal : globHasMeta (globOptions (List.replicate 1024 (chr 'a')) 0).noescape
        (List.replicate 1024 (chr 'a')) = false := by
      rw [escapes, globHasMeta_replicate (by decide) (by decide)]
      decide
    have copied := mem_globWrites_literal (oneEntry .other) (fun _ => true) ⟨0, none, 0⟩ (by decide) literal
    rw [escapes, globUnescape_replicate (by decide)] at copied
    exact ⟨_, copied, rfl, overruns _⟩
  · have escapes : (globOptions (List.replicate 1024 (chr '*')) GLOB_NOCHECK).noescape = false :=
      show hasFlag GLOB_NOCHECK GLOB_NOESCAPE = false by decide
    have wild : globHasMeta (globOptions (List.replicate 1024 (chr '*')) GLOB_NOCHECK).noescape
        (List.replicate 1024 (chr '*')) = true := by
      rw [escapes, globHasMeta_replicate (by decide) (by decide)]
      decide
    have long : bufferSize ≤ (List.replicate 1024 (chr '*')).length := by
      rw [List.length_replicate, bufferSize]
    have copied := mem_globWrites_fallback (oneEntry .other) (fun _ => true) ⟨0, none, 0⟩ (by decide) (by decide)
      wild long
    rw [escapes, globUnescape_replicate (by decide)] at copied
    exact ⟨_, copied, rfl, overruns _⟩

end CLite
