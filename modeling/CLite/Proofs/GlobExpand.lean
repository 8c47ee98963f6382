import CLite.Proofs.GlobSplit

/-! # What the expansion computes

Whatever the allocator does, an expansion that is not stopped yields exactly the frontier of the
components, and it is stopped only by a failed allocation or a level that is too large.
-/

namespace CLite

open Fallible

variable {fs : FileSystem} {succeeds : ℕ → Bool} {opts : GlobOptions}

/-- Memory ran out, because a vector is full or because an allocation failed. -/
def OutOfSpace (succeeds : ℕ → Bool) (exceeds : Prop) (stop : Stop) : Prop :=
  stop = .nospace ∧ (exceeds ∨ ∃ k, succeeds k = false)

theorem OutOfSpace.imp {first second : Prop} {stop : Stop} (space : OutOfSpace succeeds first stop)
    (weaker : first → second) : OutOfSpace succeeds second stop :=
  ⟨space.1, space.2.imp_left weaker⟩

/-! ## Vectors -/

theorem allocate_outcome (succeeds : ℕ → Bool) {fault : Stop → Prop} :
    Outcome (allocate succeeds) (fun granted => granted = false → ∃ k, succeeds k = false) fault :=
  fun count refused => ⟨count, refused⟩

theorem globVecGrow_outcome (succeeds : ℕ → Bool) (sv : GlobVec) {exceeds : Prop} :
    Outcome (globVecGrow succeeds sv) (fun _ => True) (OutOfSpace succeeds exceeds) := by
  unfold globVecGrow
  split
  · apply Outcome.bind (allocate_outcome succeeds)
    intro granted refused
    split
    · exact .pure trivial
    · next failed => exact .throw ⟨rfl, .inr (refused (Bool.of_not_eq_true failed))⟩
  · exact .pure trivial

/-- The body of a loop appends the given paths to a vector, or runs out of space. -/
def Appends (succeeds : ℕ → Bool) (body : GlobVec → GlobM GlobVec) (paths : List CString) : Prop :=
  ∀ sv, Outcome (body sv) (fun sv' => sv'.v = sv.v ++ paths)
    (OutOfSpace succeeds (GLOB_MAX_MATCHES < (sv.v ++ paths).length))

theorem Appends.nothing (succeeds : ℕ → Bool) : Appends succeeds pure [] :=
  fun sv => .pure (List.append_nil sv.v).symm

theorem globVecPush_appends (succeeds : ℕ → Bool) (s : CString) :
    Appends succeeds (globVecPush succeeds · s) [s] := by
  intro sv
  change Outcome (globVecPush succeeds sv s) _ _
  unfold globVecPush
  split
  · next full =>
    refine .throw ⟨rfl, .inl ?_⟩
    simp only [List.length_append, List.length_singleton]
    omega
  · apply Outcome.bind (globVecGrow_outcome succeeds sv)
    intro cap _
    apply Outcome.bind (allocate_outcome succeeds)
    intro granted refused
    split
    · exact .pure rfl
    · next failed => exact .throw ⟨rfl, .inr (refused (Bool.of_not_eq_true failed))⟩

theorem pushPath_appends (succeeds : ℕ → Bool) (path : Option CString) :
    Appends succeeds (pushPath succeeds · path) path.toList := by
  cases path with
  | none => exact .nothing succeeds
  | some path => exact globVecPush_appends succeeds path

/-- A loop appends what its turns append, in order. -/
theorem foldlM_appends {α : Type} {body : GlobVec → α → GlobM GlobVec} {adds : α → List CString}
    (turn : ∀ item, Appends succeeds (body · item) (adds item)) (items : List α) :
    Appends succeeds (items.foldlM body ·) (items.flatMap adds) := by
  induction items with
  | nil => exact .nothing succeeds
  | cons item items ih =>
    intro sv
    rw [List.flatMap_cons, ← List.append_assoc]
    refine .bind ((turn item sv).mono (fun _ => id) ?_) fun sv' same => ?_
    · intro stop space
      apply space.imp
      intro exceeds
      rw [List.length_append]
      omega
    · rw [← same]
      exact ih sv'

theorem foldlM_push_appends (succeeds : ℕ → Bool) (paths : List CString) :
    Appends succeeds (paths.foldlM (globVecPush succeeds) ·) paths := by
  have appends := foldlM_appends (globVecPush_appends succeeds) paths
  rwa [List.flatMap_singleton'] at appends

/-! ## One component -/

theorem expandDirectory_appends (last : Bool) {comp : CString}
    (wild : globHasMeta opts.noescape comp = true) (dir : CString) :
    Appends succeeds (expandDirectory fs succeeds opts last comp · dir) (levelPaths fs opts last comp dir) := by
  simp only [levelPaths, if_pos wild, entries, expandDirectory]
  cases fs.opendir (if dir = [] then [chr '.'] else dir) with
  | none => exact .nothing succeeds
  | some names =>
    rw [Option.getD_some, List.filterMap_eq_flatMap_toList]
    exact foldlM_appends (fun name => pushPath_appends succeeds _) names

theorem expandLevel_outcome (fs : FileSystem) (succeeds : ℕ → Bool) (last : Bool) {comp : CString}
    (fits : (globUnescape opts.noescape comp).length < bufferSize) (cur : GlobVec) :
    Outcome (expandLevel fs succeeds opts last comp cur)
      (fun next => next.v = cur.v.flatMap (levelPaths fs opts last comp))
      (OutOfSpace succeeds (GLOB_MAX_MATCHES < (cur.v.flatMap (levelPaths fs opts last comp)).length)) := by
  unfold expandLevel
  split
  · next wild => exact foldlM_appends (expandDirectory_appends last wild) cur.v .empty
  · next literal =>
    have turn (dir : CString) : Appends succeeds
        (fun next => pushPath succeeds next
          (literalPath fs opts last (globUnescape opts.noescape comp) dir))
        (levelPaths fs opts last comp dir) := by
      rw [levelPaths, if_neg literal]
      exact pushPath_appends succeeds _
    unfold expandLiteral
    rw [globUnescapeTo, if_pos fits, pure_bind]
    exact foldlM_appends turn cur.v .empty

/-! ## All components -/

theorem frontier_nil (more : Bool) (comps : List CString) : frontier fs opts more comps [] = [] := by
  induction comps with
  | nil => rfl
  | cons comp rest ih =>
    rw [frontier]
    split
    · exact ih
    · exact ih

theorem levelsBounded_nil (comps : List CString) : LevelsBounded fs opts comps [] := by
  induction comps with
  | nil => trivial
  | cons comp rest ih =>
    rw [LevelsBounded]
    split
    · exact ih
    · exact ⟨Nat.zero_le _, ih⟩

/-- The frontier holds exactly the paths that the expansion reaches. -/
theorem mem_frontier {more : Bool} {comps dirs : List CString} {path : CString} :
    path ∈ frontier fs opts more comps dirs ↔ ∃ dir ∈ dirs, Reached fs opts more comps dir path := by
  induction comps generalizing dirs with
  | nil =>
    constructor
    · exact fun member => ⟨path, member, .done path⟩
    · rintro ⟨dir, member, ⟨⟩⟩
      exact member
  | cons comp rest ih =>
    rw [frontier]
    split
    · next empty =>
      subst empty
      rw [ih]
      constructor
      · rintro ⟨dir, member, tail⟩
        exact ⟨dir, member, .skip tail⟩
      · rintro ⟨dir, member, reached⟩
        cases reached with
        | skip tail => exact ⟨dir, member, tail⟩
        | step nonempty => exact (nonempty rfl).elim
    · next nonempty =>
      rw [ih]
      constructor
      · rintro ⟨next, member, tail⟩
        obtain ⟨dir, inside, chosen⟩ := List.mem_flatMap.mp member
        exact ⟨dir, inside, .step nonempty chosen tail⟩
      · rintro ⟨dir, inside, reached⟩
        cases reached with
        | skip => exact (nonempty rfl).elim
        | step _ chosen tail => exact ⟨_, List.mem_flatMap.mpr ⟨dir, inside, chosen⟩, tail⟩

theorem expandComponents_outcome (fs : FileSystem) (succeeds : ℕ → Bool) (opts : GlobOptions)
    {comps : List CString}
    (fits : ∀ comp ∈ comps, (globUnescape opts.noescape comp).length < bufferSize) (cur : GlobVec) :
    Outcome (expandComponents fs succeeds opts comps cur)
      (fun final => final.v = frontier fs opts false comps cur.v ∧ LevelsBounded fs opts comps cur.v)
      (OutOfSpace succeeds (¬ LevelsBounded fs opts comps cur.v)) := by
  induction comps generalizing cur with
  | nil => exact .pure ⟨rfl, trivial⟩
  | cons comp rest ih =>
    have ih := ih fun c member => fits c (List.mem_cons_of_mem comp member)
    rw [expandComponents, frontier, LevelsBounded, Bool.not_false, Bool.true_and]
    split
    · exact ih cur
    · have level := expandLevel_outcome fs succeeds (rest = []) (fits comp (List.mem_cons_self ..)) cur
      refine .bind (level.mono (fun _ => id) ?_) fun next same => ?_
      · intro stop space
        exact space.imp fun exceeds bounded => absurd bounded.1 (Nat.not_le_of_lt exceeds)
      · rw [← same]
        split
        · next dead =>
          apply Outcome.pure
          rw [dead, frontier_nil]
          exact ⟨rfl, Nat.zero_le _, levelsBounded_nil rest⟩
        · apply (ih next).mono
          · exact fun final reached => ⟨reached.1, next.bounded, reached.2⟩
          · exact fun stop space => space.imp fun exceeds bounded => exceeds bounded.2

/-! ## The whole pattern -/

/-- The text of a pattern without metacharacters does not fit the array it is copied to. -/
def LiteralOverrun (opts : GlobOptions) (pattern : CString) : Prop :=
  globHasMeta opts.noescape pattern = false ∧ bufferSize ≤ (globUnescape opts.noescape pattern).length

theorem not_literalOverrun {pattern : CString} (wild : globHasMeta opts.noescape pattern = true) :
    ¬ LiteralOverrun opts pattern :=
  fun overrun => Bool.false_ne_true (overrun.1.symm.trans wild)

/-- The ways in which collecting the results for a pattern can be stopped. -/
def Stopped (fs : FileSystem) (succeeds : ℕ → Bool) (opts : GlobOptions) (pattern : CString)
    (seeds : List CString) (stop : Stop) : Prop :=
  stop = .overrun ∧ LiteralOverrun opts pattern ∨
    OutOfSpace succeeds (¬ Roomy fs opts pattern seeds) stop

/-- What is known when the results for a pattern have been collected. -/
structure Collected (fs : FileSystem) (opts : GlobOptions) (pattern : CString) (seeds : List CString)
    (final : GlobVec) : Prop where
  fits : ¬ LiteralOverrun opts pattern
  result : final.v = seeds ++ matchesOf fs opts pattern
  roomy : Roomy fs opts pattern seeds

theorem globMatches_outcome (fs : FileSystem) (succeeds : ℕ → Bool) (opts : GlobOptions)
    (pattern : CString) (out : GlobVec) :
    Outcome (globMatches fs succeeds opts pattern out) (Collected fs opts pattern out.v)
      (Stopped fs succeeds opts pattern out.v) := by
  -- every way to exceed the room is reported as being out of space
  have space {exceeds : Prop} (crowded : exceeds → ¬ Roomy fs opts pattern out.v) (stop : Stop)
      (fault : OutOfSpace succeeds exceeds stop) : Stopped fs succeeds opts pattern out.v stop :=
    .inr (fault.imp crowded)
  rw [globMatches]
  split
  · next literal =>
    have result : matchesOf fs opts pattern = [globUnescape opts.noescape pattern] := by
      rw [matchesOf, if_pos literal]
    rw [globUnescapeTo]
    split
    · next fits =>
      apply (globVecPush_appends succeeds (globUnescape opts.noescape pattern) out).mono
      · intro final same
        rw [← result] at same
        exact ⟨fun overrun => absurd fits (Nat.not_lt_of_le overrun.2), same,
          fun wild => absurd literal (by simp [wild]), same ▸ final.bounded⟩
      · rw [← result]
        exact space fun exceeds roomy => absurd roomy.2 (Nat.not_le_of_lt exceeds)
    · next overrun =>
      refine .bind (show Outcome _ (fun _ => False) _ from .throw (.inl ⟨rfl, literal, ?_⟩)) (by simp)
      omega
  · next wild =>
    have unquoted := not_literalOverrun (Bool.of_not_eq_false wild)
    split
    · next long =>
      have result : out.v = out.v ++ matchesOf fs opts pattern := by
        rw [matchesOf, if_neg wild, if_pos long, List.append_nil]
      exact .pure ⟨unquoted, result, fun _ short => absurd short (Nat.not_lt_of_le long), result ▸ out.bounded⟩
    · next short =>
      have result : matchesOf fs opts pattern =
          frontier fs opts false (splitComponents opts.noescape pattern) [startPath pattern] := by
        rw [matchesOf, if_neg wild, if_neg short]
      have first := (globVecPush_appends succeeds (startPath pattern) .empty).mono (fun _ => id)
        (space fun exceeds => absurd exceeds (by simp [GlobVec.empty, GLOB_MAX_MATCHES]))
      apply Outcome.bind first
      intro start shape
      have shape : start.v = [startPath pattern] := shape
      have levels :=
        expandComponents_outcome fs succeeds opts (splitComponents_fit (Nat.lt_of_not_le short)) start
      rw [shape, ← result] at levels
      refine .bind (levels.mono (fun _ => id) (space fun exceeds roomy =>
        exceeds (roomy.1 (Bool.of_not_eq_false wild) (Nat.lt_of_not_le short)))) fun cur reached => ?_
      rw [reached.1]
      apply (foldlM_push_appends succeeds (matchesOf fs opts pattern) out).mono
      · intro final same
        exact ⟨unquoted, same, fun _ _ => reached.2, same ▸ final.bounded⟩
      · exact space fun exceeds roomy => absurd roomy.2 (Nat.not_le_of_lt exceeds)

/-! ## `glob` -/

/-- The results that `glob` starts from. -/
def seeds (flags : BitVec 32) (pglob : GlobT) : List CString :=
  if hasFlag flags GLOB_APPEND then pglob.paths else []

variable {pattern : CString} {flags : BitVec 32} {pglob : GlobT}

theorem seeds_fresh (fresh : hasFlag flags GLOB_APPEND = false) (pglob : GlobT) : seeds flags pglob = [] := by
  rw [seeds, fresh]
  rfl

theorem globCollect_outcome (fs : FileSystem) (succeeds : ℕ → Bool) (pattern : CString)
    (flags : BitVec 32) (pglob : GlobT) :
    Outcome (globCollect fs succeeds pattern flags pglob)
      (Collected fs (globOptions pattern flags) pattern (seeds flags pglob))
      (Stopped fs succeeds (globOptions pattern flags) pattern (seeds flags pglob)) := by
  unfold globCollect
  refine .bind ((foldlM_push_appends succeeds (seeds flags pglob) .empty).mono (fun _ => id) ?_)
    fun out seeded => ?_
  · intro stop space
    refine .inr (space.imp fun exceeds roomy => ?_)
    have total := roomy.2
    simp only [GlobVec.empty, List.nil_append, List.length_append] at exceeds total
    omega
  · have seeded : out.v = seeds flags pglob := seeded
    rw [← seeded]
    exact globMatches_outcome fs succeeds _ pattern out

/-- `glob` gets to its end with the seeds and all matches, or an array is overrun, or space runs out. -/
theorem glob_cases (fs : FileSystem) (succeeds : ℕ → Bool) (pattern : CString) (flags : BitVec 32)
    (pglob : GlobT) :
    (∃ out count, Collected fs (globOptions pattern flags) pattern (seeds flags pglob) out ∧
      glob fs succeeds pattern flags pglob = globFinish succeeds pattern flags pglob out count) ∨
    (LiteralOverrun (globOptions pattern flags) pattern ∧ glob fs succeeds pattern flags pglob = none) ∨
    ((¬ Roomy fs (globOptions pattern flags) pattern (seeds flags pglob) ∨ ∃ k, succeeds k = false) ∧
      glob fs succeeds pattern flags pglob = some (GLOB_NOSPACE,
        if hasFlag flags GLOB_APPEND then pglob else { pglob with pathc := 0, pathv := none })) := by
  have outcome := globCollect_outcome fs succeeds pattern flags pglob 0
  unfold glob
  cases ran : (globCollect fs succeeds pattern flags pglob).run 0 with
  | ok result =>
    rw [ran] at outcome
    exact .inl ⟨result.1, result.2, outcome, rfl⟩
  | error stop =>
    rw [ran] at outcome
    rcases outcome with ⟨rfl, overrun⟩ | ⟨rfl, crowded⟩
    · exact .inr (.inl ⟨overrun, rfl⟩)
    · exact .inr (.inr ⟨crowded, rfl⟩)

/-- The pattern matches some path of the file system. -/
def Found (fs : FileSystem) (opts : GlobOptions) (pattern : CString) : Prop :=
  pattern.length < bufferSize ∧
    ∃ path, Reached fs opts false (splitComponents opts.noescape pattern) (startPath pattern) path

theorem matchesOf_eq_frontier (wild : globHasMeta opts.noescape pattern = true)
    (short : pattern.length < bufferSize) :
    matchesOf fs opts pattern =
      frontier fs opts false (splitComponents opts.noescape pattern) [startPath pattern] := by
  rw [matchesOf, if_neg (by simp [wild]), if_neg (Nat.not_le_of_lt short)]

theorem mem_matchesOf (wild : globHasMeta opts.noescape pattern = true) (short : pattern.length < bufferSize)
    {path : CString} :
    path ∈ matchesOf fs opts pattern ↔
      Reached fs opts false (splitComponents opts.noescape pattern) (startPath pattern) path := by
  rw [matchesOf_eq_frontier wild short, mem_frontier]
  simp

theorem matchesOf_eq_nil_iff (wild : globHasMeta opts.noescape pattern = true) :
    matchesOf fs opts pattern = [] ↔ ¬ Found fs opts pattern := by
  rw [matchesOf, if_neg (by simp [wild]), Found]
  split
  · next long => simp only [true_iff, not_and_or]; exact .inl (by omega)
  · next short =>
    rw [List.eq_nil_iff_forall_not_mem, not_and_or, not_exists]
    simp [mem_frontier, show pattern.length < bufferSize by omega]

/-- The unescaped pattern fits the array it may be copied to. -/
def TextFits (pattern : CString) (flags : BitVec 32) : Prop :=
  (globUnescape (hasFlag flags GLOB_NOESCAPE) pattern).length < bufferSize

instance (pattern : CString) (flags : BitVec 32) : Decidable (TextFits pattern flags) :=
  inferInstanceAs (Decidable (_ < _))

/-- The end of a call that has collected the given strings, when no allocation fails. -/
def globResult (pattern : CString) (flags : BitVec 32) (strings : List CString) : Option (ℕ × GlobT) :=
  if strings = [] then
    if hasFlag flags GLOB_NOCHECK then
      if TextFits pattern flags then
        some (0, ⟨1, some [some (globUnescape (hasFlag flags GLOB_NOESCAPE) pattern), none], 0⟩)
      else none
    else some (GLOB_NOMATCH, ⟨0, none, 0⟩)
  else some (0, ⟨strings.length, some (strings.map some ++ [none]), 0⟩)

theorem globFinish_eq (space : ∀ k, succeeds k = true) (out : GlobVec) (count : ℕ) :
    globFinish succeeds pattern flags pglob out count = globResult pattern flags out.v := by
  have overrun : bufferSize ≤ (globUnescape (hasFlag flags GLOB_NOESCAPE) pattern).length ↔
      ¬ TextFits pattern flags := by
    rw [TextFits, not_lt]
  simp only [globFinish, globResult, space, Bool.true_eq_false, or_self, if_false, overrun, ite_not]

/-- The strings of a finished result are the collected ones. -/
theorem paths_of_collected (strings : List CString) (offs : ℕ) :
    (GlobT.mk strings.length (some (strings.map some ++ [none])) offs).paths = strings := by
  simp [GlobT.paths]

theorem globResult_of_ne_nil (pattern : CString) (flags : BitVec 32) {strings : List CString}
    (some_found : strings ≠ []) :
    ∃ result, globResult pattern flags strings = some (0, result) ∧ result.paths = strings :=
  ⟨_, by rw [globResult, if_neg some_found], paths_of_collected strings 0⟩

/-- Whatever the allocator does, only collected strings are returned, unless `GLOB_NOCHECK` adds one. -/
theorem mem_of_globFinish (checked : hasFlag flags GLOB_NOCHECK = false) {out : GlobVec} {count ret : ℕ}
    {result : GlobT} (finished : globFinish succeeds pattern flags pglob out count = some (ret, result))
    {path : CString} (member : path ∈ result.paths) : path ∈ out.v := by
  have nothing (pglob : GlobT) : path ∉ ({ pglob with pathv := none } : GlobT).paths := by
    simp [GlobT.paths]
  simp only [globFinish, checked, Bool.false_eq_true, if_false] at finished
  split_ifs at finished <;> obtain ⟨-, rfl⟩ := Prod.mk.inj (Option.some.inj finished)
  · exact (nothing ⟨0, none, 0⟩ member).elim
  · exact (nothing { pglob with pathc := 0 } member).elim
  · rwa [paths_of_collected] at member

/-- Whatever the allocator does, a call without earlier results returns only matches of the pattern. -/
theorem mem_matchesOf_of_glob {succeeds : ℕ → Bool} {ret : ℕ} {result : GlobT} {path : CString}
    (checked : hasFlag flags GLOB_NOCHECK = false) (unseeded : seeds flags pglob = [])
    (returned : glob fs succeeds pattern flags pglob = some (ret, result)) (member : path ∈ result.paths) :
    path ∈ matchesOf fs (globOptions pattern flags) pattern ∧ Roomy fs (globOptions pattern flags) pattern [] := by
  rcases glob_cases fs succeeds pattern flags pglob with
    ⟨out, count, collected, finished⟩ | ⟨-, undefined⟩ | ⟨-, stopped⟩
  · rw [unseeded] at collected
    rw [finished] at returned
    have found := mem_of_globFinish checked returned member
    rw [collected.result, List.nil_append] at found
    exact ⟨found, collected.roomy⟩
  · rw [undefined] at returned
    cases returned
  · rw [stopped] at returned
    obtain ⟨-, rfl⟩ := Prod.mk.inj (Option.some.inj returned)
    rw [seeds] at unseeded
    split_ifs at unseeded member
    · rw [unseeded] at member
      cases member
    · simp [GlobT.paths] at member

/-- With enough memory and room, `glob` returns the seeds and all matches. -/
theorem glob_eq_result (space : ∀ k, succeeds k = true)
    (fits : ¬ LiteralOverrun (globOptions pattern flags) pattern)
    (roomy : Roomy fs (globOptions pattern flags) pattern (seeds flags pglob)) :
    glob fs succeeds pattern flags pglob =
      globResult pattern flags (seeds flags pglob ++ matchesOf fs (globOptions pattern flags) pattern) := by
  rcases glob_cases fs succeeds pattern flags pglob with
    ⟨out, count, collected, finished⟩ | ⟨overrun, -⟩ | ⟨crowded | ⟨k, failed⟩, -⟩
  · rw [finished, globFinish_eq space, collected.result]
  · exact (fits overrun).elim
  · exact (crowded roomy).elim
  · exact absurd (space k) (by simp [failed])

/-- A pattern without metacharacters whose text is too long overruns its array. -/
theorem glob_eq_none (space : ∀ k, succeeds k = true)
    (overrun : LiteralOverrun (globOptions pattern flags) pattern)
    (roomy : Roomy fs (globOptions pattern flags) pattern (seeds flags pglob)) :
    glob fs succeeds pattern flags pglob = none := by
  rcases glob_cases fs succeeds pattern flags pglob with
    ⟨out, count, collected, -⟩ | ⟨-, undefined⟩ | ⟨crowded | ⟨k, failed⟩, -⟩
  · exact (collected.fits overrun).elim
  · exact undefined
  · exact (crowded roomy).elim
  · exact absurd (space k) (by simp [failed])

end CLite
